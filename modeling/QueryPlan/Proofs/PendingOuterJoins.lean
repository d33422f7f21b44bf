import QueryPlan.Proofs.Forests
import QueryPlan.Proofs.JoinRuns

/-!
# Joining around pending outer joins

A plan that an outer join pads has to go through that join before anything else
joins it. Join resolution looks for such a plan where the first two plans may be
joined at once. Where they clash, it picks a partner of the first without looking.

- `Closed`: neither of two plans is padded by a plan outside the pair.
- `RivalsClosed`: whatever may be picked on a clash makes a closed pair.
- `Calm`: a plan is padded by one plan at most, and that is unpadded.
- `Calm.merged`: a merge of a closed pair keeps a set calm.
- `JoinRun.closed`: where all picks are closed pairs, all merges are.
- `joinAll_closed`: so it is where all that may be picked makes closed pairs.
- `not_joinAll_closed`: a pick that joins a plan around its pending outer join.
-/

namespace QueryPlan

variable {settled : Prop} {w w' : Workspace} {tables : List TablePlan} {l r a b : TablePlan}
  {m : PlanId} {tree : PlanNode}

/-! ## Closed pairs -/

/-- Neither plan is padded by one outside the pair. -/
structure Closed (l r : TablePlan) : Prop where
  left : ∀ side link, l.PaddedOn side link → link.target = r.id
  right : ∀ side link, r.PaddedOn side link → link.target = l.id

theorem Closed.symm (h : Closed l r) : Closed r l := ⟨h.right, h.left⟩

/-- A closed pair has an unpadded merge. -/
theorem Closed.unpadded (h : Closed l r) (hclear : Clear l r) :
    (mergedPlan m l r fun _ _ => tree).nullPaddedBy? = none := by
  refine nullPaddedBy?_eq_none_iff.mpr fun side link hpad => ?_
  obtain ⟨hpair, hout⟩ := (mergedPlan_paddedOn hclear).mp hpad
  rw [List.mem_pair, not_or] at hout
  rcases hpair with hl | hr
  · exact hout.2 (h.left side link hl)
  · exact hout.1 (h.right side link hr)

/-- The plans that are merged are a closed pair. -/
def Pairing.Closed (x : Pairing) : Prop :=
  ∀ a ∈ x.before.set.tables, ∀ b ∈ x.before.set.tables, a.id = x.first → b.id = x.second →
    QueryPlan.Closed a b

theorem Pairing.closed_of_eq (hw : Answered w.set.tables) {picked : Bool} (ha : a ∈ w.set.tables)
    (hb : b ∈ w.set.tables) (h : QueryPlan.Closed a b) :
    Pairing.Closed ⟨w, a.id, b.id, picked⟩ := by
  intro a' ha' b' hb' hida hidb
  obtain rfl := hw.eq_of_id ha' ha hida
  obtain rfl := hw.eq_of_id hb' hb hidb
  exact h

/-! ## Merges of closed pairs -/

/-- What is padded after a merge of a closed pair was so before, by the plan that stands for its
partner now. -/
theorem paddedOn_of_merged (hclosed : Closed l r) (hclear : Clear l r) {q : TablePlan}
    (hq : q ∈ mergedTables tables l r m tree) {side : Side} {link : JoinLink}
    (hpad : q.PaddedOn side link) :
    ∃ p ∈ tables, q = p.retarget [l.id, r.id] m ∧ ∃ link', p.PaddedOn side link' ∧
      link = link'.rename (collapse l.id r.id m) := by
  rcases mem_mergedTables.mp hq with ⟨p, hp, -, -, rfl⟩ | rfl
  · obtain ⟨link', hpad', rfl⟩ := (retarget_paddedOn p).mp hpad
    exact ⟨p, hp, rfl, link', hpad', rfl⟩
  · exact absurd hpad (nullPaddedBy?_eq_none_iff.mp (hclosed.unpadded hclear) side link)

/-- What stands for a plan beside the merge is that plan. -/
theorem eq_id_of_collapse (hfresh : ∀ p ∈ tables, p.id ≠ m) {p : TablePlan} (hp : p ∈ tables)
    {id : PlanId} (h : collapse l.id r.id m id = p.id) : id = p.id := by
  by_cases hin : id ∈ [l.id, r.id]
  · rw [collapse, if_pos hin] at h
    exact absurd h.symm (hfresh p hp)
  · rwa [collapse, if_neg hin] at h

/-- A closed pair stays one when a closed pair is merged. -/
theorem Closed.merged (h : Closed a b) (ht : Answered tables) (hclosed : Closed l r)
    (hclear : Clear l r) (hfresh : ∀ p ∈ tables, p.id ≠ m) (ha : a ∈ tables) (hb : b ∈ tables)
    {a' b' : TablePlan} (ha' : a' ∈ mergedTables tables l r m tree)
    (hb' : b' ∈ mergedTables tables l r m tree) (hida : collapse l.id r.id m a.id = a'.id)
    (hidb : collapse l.id r.id m b.id = b'.id) : Closed a' b' := by
  have hhalf : ∀ {p q p' q' : TablePlan}, p ∈ tables → p' ∈ mergedTables tables l r m tree →
      collapse l.id r.id m p.id = p'.id → collapse l.id r.id m q.id = q'.id →
      (∀ side link, p.PaddedOn side link → link.target = q.id) →
      ∀ side link, p'.PaddedOn side link → link.target = q'.id := by
    intro p q p' q' hp hp' hid hid' hinside side link hpad
    obtain ⟨s, hs, rfl, link', hpad', rfl⟩ := paddedOn_of_merged hclosed hclear hp' hpad
    obtain rfl := ht.eq_of_id hp hs (eq_id_of_collapse hfresh hs hid)
    rw [← hid', ← hinside side link' hpad']
    rfl
  exact ⟨hhalf ha ha' hida hidb h.left, hhalf hb hb' hidb hida h.right⟩

/-! ## Rivals -/

/-- Two plans that are not linked and have links on one side make closed pairs with their partners
there. Those are the partners that a clash may pick, at once or when other plans were merged. -/
def RivalsClosed (tables : List TablePlan) : Prop :=
  ∀ a ∈ tables, ∀ b ∈ tables, a.isLinkedTo b.id = false → ∀ side, Rivals side a b →
    ∀ link, a.linkOn side = some link → ∀ q ∈ tables, q.id = link.target → Closed a q

/-- If padded plans have no second link, all plans with a link between them are closed pairs. -/
theorem rivalsClosed_of_sole (ht : Answered tables)
    (hsole : ∀ p ∈ tables, ∀ side link, p.PaddedOn side link → p.linkOn side.other = none) :
    RivalsClosed tables := by
  -- The link that pads a plan is the one between the two.
  have hall : ∀ {p q : TablePlan}, p ∈ tables → p.isLinkedTo q.id = true →
      ∀ side link, p.PaddedOn side link → link.target = q.id := by
    intro p q hp hlinked side link hpad
    obtain ⟨s, between, hbetween, htarget⟩ := isLinkedTo_iff.mp hlinked
    rcases side.eq_or_eq_other s with rfl | rfl
    · rw [Option.some.inj (hpad.1.symm.trans hbetween), htarget]
    · rw [hsole p hp side link hpad] at hbetween
      cases hbetween
  intro a ha b _ _ side _ link hlink q hq hid
  have hlinked : a.isLinkedTo q.id = true := isLinkedTo_iff.mpr ⟨side, link, hlink, hid.symm⟩
  exact ⟨hall ha hlinked, hall hq (isLinkedTo_symm ht ha hq hlinked)⟩

/-- Rivals after a merge of a closed pair were rivals before. -/
theorem RivalsClosed.merged (h : RivalsClosed tables) (ht : Answered tables) (hl : l ∈ tables)
    (hr : r ∈ tables) (hclosed : Closed l r) (hclear : Clear l r)
    (hfresh : ∀ p ∈ tables, p.id ≠ m) : RivalsClosed (mergedTables tables l r m tree) := by
  have ht' : Answered (mergedTables tables l r m tree) := ht.merged hl hr hclear hfresh
  rintro a' ha' b' hb' hapart side ⟨x', y', hx', hy', hne⟩ link hlink q' hq' hid
  obtain rfl := Option.some.inj (hx'.symm.trans hlink)
  obtain ⟨a, ha, hida, x, hx, rfl, -⟩ := exists_link_of_merged hl hr hclear ha' hx'
  obtain ⟨b, hb, hidb, y, hy, rfl, -⟩ := exists_link_of_merged hl hr hclear hb' hy'
  have hrivals : Rivals side a b :=
    ⟨x, y, hx, hy, fun heq => hne (congrArg (collapse l.id r.id m) heq)⟩
  have hunlinked : a.isLinkedTo b.id = false := by
    rw [Bool.eq_false_iff, ne_eq, isLinkedTo_iff]
    rintro ⟨s, z, hz, htarget⟩
    by_cases hin : a.id ∈ [l.id, r.id] ∧ b.id ∈ [l.id, r.id]
    · -- Both became the merge, which is no rival of itself.
      have hsame : a'.id = b'.id := by
        rw [← hida, ← hidb, collapse, collapse, if_pos hin.1, if_pos hin.2]
      obtain rfl := ht'.eq_of_id ha' hb' hsame
      exact hne (congrArg JoinLink.target (Option.some.inj (hx'.symm.trans hy')))
    · -- The link between the two would have been kept.
      obtain ⟨c, hc, hidc, hkept⟩ := exists_link_merged ht.nodup hl hr hclear ha hz
        fun hina hinb => hin ⟨hina, htarget ▸ hinb⟩
      obtain rfl := ht'.eq_of_id hc ha' (hidc.trans hida)
      have htarget' : (z.rename (collapse l.id r.id m)).target = b'.id := by
        rw [← hidb, ← htarget]
        rfl
      rw [isLinkedTo_iff.mpr ⟨s, _, hkept, htarget'⟩] at hapart
      cases hapart
  obtain ⟨q, hq, hidq, -⟩ := ht.back side a ha x hx
  have hpair : Closed a q := h a ha b hb hunlinked side hrivals x hx q hq hidq
  refine hpair.merged ht hclosed hclear hfresh ha hq ha' hq' hida ?_
  rw [hid, hidq]
  rfl

/-! ## Calm sets -/

/-- No plan is padded by both of its links, and none that pads another is padded. If `settled`, then
whatever a clash may pick makes a closed pair. -/
structure Calm (settled : Prop) (tables : List TablePlan) : Prop where
  once : ∀ p ∈ tables, ∀ side link other, p.PaddedOn side link → ¬ p.PaddedOn side.other other
  partner : ∀ p ∈ tables, ∀ side link, p.PaddedOn side link → ∀ q ∈ tables, q.id = link.target →
    q.nullPaddedBy? = none
  rivals : settled → RivalsClosed tables

namespace Calm

/-- All links that pad a plan lead to the partner that it is said to be padded by. -/
theorem target_eq (h : Calm settled tables) {p : TablePlan} (hp : p ∈ tables) {id : PlanId}
    (hid : p.nullPaddedBy? = some id) {side : Side} {link : JoinLink}
    (hpad : p.PaddedOn side link) : link.target = id := by
  obtain ⟨s, link', hpad', rfl⟩ := exists_paddedOn hid
  rcases side.eq_or_eq_other s with rfl | rfl
  · rw [Option.some.inj (hpad.1.symm.trans hpad'.1)]
  · exact absurd hpad' (h.once p hp side link link' hpad)

/-- A merge of a closed pair keeps a set calm. -/
theorem merged (h : Calm settled tables) (ht : Answered tables) (hl : l ∈ tables) (hr : r ∈ tables)
    (hclear : Clear l r) (hclosed : Closed l r) (hfresh : ∀ p ∈ tables, p.id ≠ m) :
    Calm settled (mergedTables tables l r m tree) := by
  constructor
  · intro q hq side link other hpad hother
    obtain ⟨p, hp, rfl, link', hpad', -⟩ := paddedOn_of_merged hclosed hclear hq hpad
    obtain ⟨other', hother', -⟩ := (retarget_paddedOn p).mp hother
    exact h.once p hp side link' other' hpad' hother'
  · intro q hq side link hpad s hs hid
    obtain ⟨p, hp, rfl, link', hpad', rfl⟩ := paddedOn_of_merged hclosed hclear hq hpad
    rcases mem_mergedTables.mp hs with ⟨t, ht', htl, htr, rfl⟩ | rfl
    · rw [(TablePlan.Moved.of_retarget t _ _).nullPaddedBy?_eq_none]
      -- A partner that is not the merge is the partner from before.
      exact h.partner p hp side link' hpad' t ht' (eq_id_of_collapse hfresh ht' hid.symm).symm
    · exact hclosed.unpadded hclear
  · exact fun hsettled => (h.rivals hsettled).merged ht hl hr hclosed hclear hfresh

/-- A plan and the plan that pads it are a closed pair. -/
theorem closed_of_pads (h : Calm settled tables) {p q : TablePlan} (hp : p ∈ tables)
    (hq : q ∈ tables) (hpad : p.nullPaddedBy? = some q.id) : Closed p q := by
  obtain ⟨side, link, hpadded, htarget⟩ := exists_paddedOn hpad
  refine ⟨fun s other hother => h.target_eq hp hpad hother, fun s other hother => ?_⟩
  exact absurd hother (nullPaddedBy?_eq_none_iff.mp
    (h.partner p hp side link hpadded q hq htarget.symm) s other)

/-- Two plans are a closed pair if no plan outside is what either is said to be padded by. -/
theorem closed_of_inside (h : Calm settled tables) (ha : a ∈ tables) (hb : b ∈ tables)
    (hinside : nullPaddedFromOutside? a b = none) : Closed a b := by
  have hall : ∀ {p q : TablePlan}, p ∈ tables →
      (∀ id, p.nullPaddedBy? = some id → id = q.id) →
      ∀ side link, p.PaddedOn side link → link.target = q.id := by
    intro p q hp hinside side link hpad
    cases hid : p.nullPaddedBy? with
    | none => exact absurd hpad (nullPaddedBy?_eq_none_iff.mp hid side link)
    | some id => exact (h.target_eq hp hid hpad).trans (hinside id hid)
  obtain ⟨hfirst, hsecond⟩ := inside_iff.mp hinside
  exact ⟨hall ha hfirst, hall hb hsecond⟩

/-- What is picked on a clash makes a closed pair. -/
theorem closed_of_picked (h : Calm True tables) (ht : Answered tables) (ha : a ∈ tables)
    (hb : b ∈ tables) (hclash : clash a b ≠ .safe) {partner : PlanId}
    (hnext : nextJoin a b = .join partner) :
    ∃ q ∈ tables, q.id = partner ∧ Closed a q := by
  rcases nextJoin_eq_join hnext with ⟨hsafe, -⟩ | ⟨side, link, hside, hlink, rfl⟩
  · exact absurd hsafe hclash
  · obtain ⟨hunlinked, hrivals, -⟩ := clash_eq_side_iff.mp hside
    obtain ⟨q, hq, hid, -⟩ := ht.back side a ha link hlink
    have hapart : a.isLinkedTo b.id = false :=
      Bool.eq_false_iff.mpr fun hlinked => hunlinked (Or.inl hlinked)
    exact ⟨q, hq, hid, h.rivals trivial a ha b hb hapart side hrivals link hlink q hq hid⟩

end Calm

/-! ## Runs -/

/-- A join of a closed pair keeps a set sound and calm. -/
theorem calm_joinPair {first second id : PlanId} (hw : Sound (fun _ => True) w)
    (hcalm : Calm settled w.set.tables)
    (hclosed : ∀ a ∈ w.set.tables, ∀ b ∈ w.set.tables, a.id = first → b.id = second → Closed a b)
    (h : Planner.joinPair first second w = .ok id w') :
    Sound (fun _ => True) w' ∧ Calm settled w'.set.tables ∧
      ∀ p ∈ w'.set.tables, p.id = id → p.nullPaddedBy? = none := by
  obtain ⟨l, hl, r, hr, hsides, -, -, hclear, hnew, ⟨tree, hset⟩, hw'⟩ := joinPair_merged hw h
  have hlr : Closed l r := by
    rcases hsides with ⟨rfl, rfl⟩ | ⟨rfl, rfl⟩
    · exact hclosed l hl r hr rfl rfl
    · exact (hclosed r hr l hl rfl rfl).symm
  have hfresh : ∀ p ∈ w.set.tables, p.id ≠ id := fun p hp => hw.id_ne hp hnew
  refine ⟨hw', ?_, fun p hp hid => ?_⟩
  · rw [hset]
    exact hcalm.merged hw.answered hl hr hclear hlr hfresh
  · rw [hset] at hp
    rcases mem_mergedTables.mp hp with ⟨q, hq, -, -, rfl⟩ | rfl
    · exact absurd hid (hfresh q hq)
    · exact hlr.unpadded hclear

/-- To resolve a plan of a calm set is to merge closed pairs. -/
theorem Resolution.closed {id : PlanId} {pairings : List Pairing}
    {result : EStateM.Result PlanError Workspace PlanId}
    (h : Resolution planCondition id w pairings result) (hw : Sound (fun _ => True) w)
    (hcalm : Calm settled w.set.tables) :
    (∀ x ∈ pairings, x.Closed) ∧ ∀ id' w', result = .ok id' w' →
      Sound (fun _ => True) w' ∧ Calm settled w'.set.tables := by
  induction h with
  | missing => exact ⟨List.forall_mem_nil _, nofun⟩
  | unpadded => exact ⟨List.forall_mem_nil _, by rintro _ _ ⟨⟩; exact ⟨hw, hcalm⟩⟩
  | fails => exact ⟨List.forall_mem_nil _, nofun⟩
  | joins found padded joined _ ih =>
    obtain ⟨hp, rfl⟩ := TableSet.mem_of_get? found
    obtain ⟨q, hq, rfl, -⟩ :=
      Planner.exists_of_isLinkedTo hw hp (isLinkedTo_of_nullPaddedBy padded)
    have hclosed : Pairing.Closed ⟨_, _, _, false⟩ :=
      Pairing.closed_of_eq hw.answered hp hq (hcalm.closed_of_pads hp hq padded)
    obtain ⟨hw₁, hcalm₁, -⟩ := calm_joinPair hw hcalm hclosed joined
    obtain ⟨hrest, hresult⟩ := ih hw₁ hcalm₁
    exact ⟨List.forall_mem_cons.mpr ⟨hclosed, hrest⟩, hresult⟩

/-- A run over a calm set merges closed pairs, if all that it picks, or all that it may pick, makes
closed pairs. -/
theorem JoinRun.closed {working : List PlanId} {pairings : List Pairing}
    {result : EStateM.Result PlanError Workspace (Option PlanId)}
    (h : JoinRun planCondition working w pairings result) (hw : Sound (fun _ => True) w)
    (hcalm : Calm settled w.set.tables)
    (hpicks : settled ∨ ∀ x ∈ pairings, x.picked = true → x.Closed) : ∀ x ∈ pairings, x.Closed := by
  -- The induction is on the run. A closed merge keeps the set calm, and a calm set has closed
  -- merges only.
  induction h with
  | nil => exact List.forall_mem_nil _
  | single => exact List.forall_mem_nil _
  | missingFirst => exact List.forall_mem_nil _
  | missingSecond => exact List.forall_mem_nil _
  | resolveFails _ _ _ resolution => exact (resolution.closed hw hcalm).1
  | resolves _ _ _ resolution _ ih =>
    obtain ⟨hfirst, hresult⟩ := resolution.closed hw hcalm
    obtain ⟨hw₁, hcalm₁⟩ := hresult _ _ rfl
    refine List.forall_mem_append.mpr ⟨hfirst, ih hw₁ hcalm₁ (hpicks.imp_right fun hpicks => ?_)⟩
    exact fun x hx => hpicks x (List.mem_append_right _ hx)
  | joinFails => exact List.forall_mem_nil _
  | @joins first _ partner _ _ w _ a b _ _ found found' next joined _ ih =>
    obtain ⟨ha, rfl⟩ := TableSet.mem_of_get? found
    obtain ⟨hb, rfl⟩ := TableSet.mem_of_get? found'
    have hclosed : Pairing.Closed ⟨w, a.id, partner, clash a b ≠ .safe⟩ := by
      by_cases hsafe : clash a b = .safe
      · -- Plans that do not clash were looked at before they are joined.
        obtain ⟨hinside, rfl⟩ := inside_of_nextJoin hsafe next
        exact Pairing.closed_of_eq hw.answered ha hb (hcalm.closed_of_inside ha hb hinside)
      · rcases hpicks with hsettled | hpicks
        · have hcalm : Calm True w.set.tables :=
            ⟨hcalm.once, hcalm.partner, fun _ => hcalm.rivals hsettled⟩
          obtain ⟨q, hq, rfl, hpair⟩ := hcalm.closed_of_picked hw.answered ha hb hsafe next
          exact Pairing.closed_of_eq hw.answered ha hq hpair
        · exact hpicks _ List.mem_cons_self (decide_eq_true hsafe)
    obtain ⟨hw₁, hcalm₁, -⟩ := calm_joinPair hw hcalm hclosed joined
    refine List.forall_mem_cons.mpr ⟨hclosed, ih hw₁ hcalm₁ (hpicks.imp_right fun hpicks => ?_)⟩
    exact fun x hx => hpicks x (List.mem_cons_of_mem _ hx)

/-! ## Valid sets -/

/-- Valid links without a full join make a calm set, if no plan is padded by both of its links, and
none that is padded itself pads a third plan. -/
theorem calm_of_validateLinks {set : TableSet} (hids : (set.tables.map TablePlan.id).Nodup)
    (hvalid : set.validateLinks = .ok ())
    (hfull : ∀ p ∈ set.tables, ∀ side link, p.linkOn side = some link → link.joinType ≠ .full)
    (hpads : ∀ p ∈ set.tables, ∀ side link, p.PaddedOn side link →
      ∀ q ∈ set.tables, q.id = link.target →
        ∀ side link, q.PaddedOn side link → link.target = p.id)
    (honce : ∀ p ∈ set.tables, ∀ side link other, p.PaddedOn side link →
      ¬ p.PaddedOn side.other other)
    (hrivals : settled → RivalsClosed set.tables) : Calm settled set.tables := by
  have ht : Answered set.tables := answered_of_validateLinks hids hvalid
  obtain ⟨height, hlevel⟩ : ∃ height, Leveled height set.tables := exists_height hvalid
  refine ⟨honce, fun p hp side link hpad q hq hid => ?_, hrivals⟩
  refine nullPaddedBy?_eq_none_iff.mpr fun s back' hpad' => ?_
  have hto' := hpads p hp side link hpad q hq hid s back' hpad'
  obtain ⟨q', hq', hid', -, back, hback, hto, htype⟩ := ht.back side p hp link hpad.1
  obtain rfl := ht.eq_of_id hq' hq (hid'.trans hid.symm)
  rcases side.eq_or_eq_other s with rfl | rfl
  · -- The partner would have two links to the plan.
    have htwice := hto'.trans hto.symm
    cases s with
    | left => exact hlevel.targets_ne ht hq' hpad'.1 hback htwice
    | right => exact hlevel.targets_ne ht hq' hback hpad'.1 htwice.symm
  · -- The link between the two would pad both.
    obtain rfl := Option.some.inj (hback.symm.trans hpad'.1)
    exact hfull p hp side link hpad.1 (eq_full_of_padsOn hpad.2 (htype ▸ hpad'.2))

/-- Where the plan `id` is the only padded one, and `partner` the only one to pad it, no padded plan
pads a third one. -/
theorem target_eq_of_only {id partner : PlanId} (hne : partner ≠ id)
    (honly : ∀ p ∈ tables, ∀ side link, p.PaddedOn side link → p.id = id ∧ link.target = partner) :
    ∀ p ∈ tables, ∀ side link, p.PaddedOn side link → ∀ q ∈ tables, q.id = link.target →
      ∀ side link, q.PaddedOn side link → link.target = p.id := by
  intro p hp side link hpad q hq hid side' link' hpad'
  have hpartner : q.id = partner := hid.trans (honly p hp side link hpad).2
  exact absurd (hpartner.symm.trans (honly q hq side' link' hpad').1) hne

/-- In a set with valid links, none of them full, in which no plan is padded by both of its links
and no padded plan pads a third one, join resolution merges closed pairs only, if unlinked plans
with links on one side make closed pairs with their partners there. So it does if all plans that it
picks on a clash happen to make closed pairs. -/
theorem joinAll_closed {set : TableSet} {context : Context} {working : List PlanId}
    {pairings : List Pairing} (hids : (set.tables.map TablePlan.id).Nodup)
    (hgiven : ∀ p ∈ set.tables, p.id.number < context.supply.next)
    (hvalid : set.validateLinks = .ok ())
    (hfull : ∀ p ∈ set.tables, ∀ side link, p.linkOn side = some link → link.joinType ≠ .full)
    (hpads : ∀ p ∈ set.tables, ∀ side link, p.PaddedOn side link →
      ∀ q ∈ set.tables, q.id = link.target →
        ∀ side link, q.PaddedOn side link → link.target = p.id)
    (honce : ∀ p ∈ set.tables, ∀ side link other, p.PaddedOn side link →
      ¬ p.PaddedOn side.other other)
    (hrun : JoinRun planCondition working ⟨set, context⟩ pairings
      (Planner.joinAll working ⟨set, context⟩))
    (hpicks : RivalsClosed set.tables ∨ ∀ x ∈ pairings, x.picked = true → x.Closed) :
    ∀ x ∈ pairings, x.Closed := by
  by_cases hne : set.tables = []
  · -- Each merge makes the set one plan smaller.
    have hlength : pairings.length ≤ set.tables.length - 1 := hrun.length_le
    rw [hne] at hlength
    obtain rfl := List.length_eq_zero_iff.mp (Nat.le_zero.mp hlength)
    exact List.forall_mem_nil _
  have hw := sound_of_validateLinks (P := fun _ => True) hne hids hgiven hvalid
    fun _ _ _ _ _ => trivial
  have hcalm : Calm (RivalsClosed set.tables) set.tables :=
    calm_of_validateLinks hids hvalid hfull hpads honce id
  exact hrun.closed hw hcalm hpicks

/-- The table `b` is padded by `a`, which is not listed. Both are joined before `c` is joined. -/
theorem joinAll_closed_of_left_join :
    let on := some (Expr.binary (columnOf "a") .eq (columnOf "b"))
    let set : TableSet := ⟨[(TablePlan.one 1 "a").withRight ⟨⟨2⟩, .left, on⟩,
      (TablePlan.one 2 "b").withLeft ⟨⟨1⟩, .left, on⟩, TablePlan.one 3 "c"], false⟩
    ∃ pairings w, JoinRun planCondition [⟨2⟩, ⟨3⟩] ⟨set, .start .blank default ⟨4⟩⟩ pairings
        (.ok (some ⟨8⟩) w) ∧
      w.set.tables.length = 1 ∧ ∀ x ∈ pairings, x.Closed := by
  intro on set
  have hjoin : resultWith (fun id w => (id, w.set.tables.length))
      (Planner.joinAll [⟨2⟩, ⟨3⟩] ⟨set, .start .blank default ⟨4⟩⟩) = some (some ⟨8⟩, 1) := by
    decide +kernel
  obtain ⟨_, w, h, hresult⟩ := exists_of_resultWith hjoin
  obtain ⟨rfl, hlength⟩ := Prod.mk.inj hresult
  obtain ⟨pairings, result, hrun⟩ := exists_joinRun planCondition [⟨2⟩, ⟨3⟩]
    ⟨set, .start .blank default ⟨4⟩⟩
  obtain rfl : Planner.joinAll [⟨2⟩, ⟨3⟩] ⟨set, .start .blank default ⟨4⟩⟩ = result :=
    hrun.eq_joinAllWith
  have hids : (set.tables.map TablePlan.id).Nodup := by decide
  have hgiven : ∀ p ∈ set.tables,
      p.id.number < (Context.start .blank default ⟨4⟩).supply.next := by decide
  have hvalid : set.validateLinks = .ok () := by decide +kernel
  have hfull : ∀ p ∈ set.tables, ∀ side link, p.linkOn side = some link →
      link.joinType ≠ .full := by
    simp only [set, List.forall_mem_cons]
    refine ⟨?_, ?_, ?_, List.forall_mem_nil _⟩
    all_goals rintro (_ | _) link hlink <;> cases hlink <;> decide
  -- The only padded plan is the second.
  have hpadded : ∀ p ∈ set.tables, ∀ side link, p.PaddedOn side link →
      p.id = ⟨2⟩ ∧ link.target = ⟨1⟩ ∧ p.linkOn side.other = none := by
    simp only [set, List.forall_mem_cons]
    refine ⟨?_, ?_, ?_, List.forall_mem_nil _⟩
    all_goals rintro (_ | _) link ⟨hlink, hpads⟩ <;> cases hlink <;> cases hpads
    exact ⟨rfl, rfl, rfl⟩
  have hpads : ∀ p ∈ set.tables, ∀ side link, p.PaddedOn side link →
      ∀ q ∈ set.tables, q.id = link.target →
        ∀ side link, q.PaddedOn side link → link.target = p.id := by
    refine target_eq_of_only (show (⟨1⟩ : PlanId) ≠ ⟨2⟩ by decide) fun p hp side link hpad => ?_
    obtain ⟨hid, htarget, -⟩ := hpadded p hp side link hpad
    exact ⟨hid, htarget⟩
  have hsole : ∀ p ∈ set.tables, ∀ side link, p.PaddedOn side link →
      p.linkOn side.other = none :=
    fun p hp side link hpad => (hpadded p hp side link hpad).2.2
  have honce : ∀ p ∈ set.tables, ∀ side link other, p.PaddedOn side link →
      ¬ p.PaddedOn side.other other := by
    intro p hp side link other hpad hother
    cases (hsole p hp side link hpad).symm.trans hother.1
  have hrivals := rivalsClosed_of_sole (answered_of_validateLinks hids hvalid) hsole
  exact ⟨pairings, w, h ▸ hrun, hlength,
    joinAll_closed hids hgiven hvalid hfull hpads honce hrun (Or.inl hrivals)⟩

/-- On a clash of `f` and `s`, the partner of `f` is picked, which is `q`. It is joined with `f`
while its rows are still to be padded by a join with `w`. -/
theorem not_joinAll_closed :
    let on := fun a b => some (Expr.binary (columnOf a) .eq (columnOf b))
    let set : TableSet := ⟨[(TablePlan.one 1 "f").withLeft ⟨⟨3⟩, .inner, on "q" "f"⟩,
      (TablePlan.one 2 "s").withLeft ⟨⟨5⟩, .inner, on "y" "s"⟩,
      ((TablePlan.one 3 "q").withLeft ⟨⟨4⟩, .left, on "w" "q"⟩).withRight
        ⟨⟨1⟩, .inner, on "q" "f"⟩,
      (TablePlan.one 4 "w").withRight ⟨⟨3⟩, .left, on "w" "q"⟩,
      (TablePlan.one 5 "y").withRight ⟨⟨2⟩, .inner, on "y" "s"⟩], false⟩
    let working : List PlanId := [⟨1⟩, ⟨2⟩, ⟨3⟩, ⟨4⟩, ⟨5⟩]
    set.validateLinks = .ok () ∧
      (∀ p ∈ set.tables, ∀ side link, p.linkOn side = some link → link.joinType ≠ .full) ∧
      (∀ p ∈ set.tables, ∀ side link, p.PaddedOn side link →
        ∀ q ∈ set.tables, q.id = link.target →
          ∀ side link, q.PaddedOn side link → link.target = p.id) ∧
      (working.Nodup ∧ ∀ id ∈ working, id ∈ set.ids) ∧
      ∃ pairings w, JoinRun planCondition working ⟨set, .start .blank default ⟨6⟩⟩ pairings
          (.ok (some ⟨18⟩) w) ∧ ∃ x ∈ pairings, ¬ x.Closed := by
  intro on set working
  have hpadded : ∀ p ∈ set.tables, ∀ side link, p.PaddedOn side link →
      p.id = ⟨3⟩ ∧ link.target = ⟨4⟩ := by
    simp only [set, List.forall_mem_cons]
    refine ⟨?_, ?_, ?_, ?_, ?_, List.forall_mem_nil _⟩
    all_goals rintro (_ | _) link ⟨hlink, hpads⟩ <;> cases hlink <;> cases hpads
    exact ⟨rfl, rfl⟩
  refine ⟨by decide +kernel, ?_, ?_, by decide, ?_⟩
  · simp only [set, List.forall_mem_cons]
    refine ⟨?_, ?_, ?_, ?_, ?_, List.forall_mem_nil _⟩
    all_goals rintro (_ | _) link hlink <;> cases hlink <;> decide
  · exact target_eq_of_only (by decide) hpadded
  · let w : Workspace := ⟨set, .start .blank default ⟨6⟩⟩
    have hfirst : resultWith (fun id _ => id) (Planner.joinPair ⟨1⟩ ⟨3⟩ w) = some ⟨9⟩ := by
      decide +kernel
    have hall : resultWith (fun id _ => id) (Planner.joinAll working w) = some (some ⟨18⟩) := by
      decide +kernel
    obtain ⟨_, w₁, hjoined, rfl⟩ := exists_of_resultWith hfirst
    obtain ⟨_, w₂, hresult, rfl⟩ := exists_of_resultWith hall
    obtain ⟨pairings, result, hrest⟩ := exists_joinRun planCondition
      (⟨9⟩ :: working.filter fun id => id ≠ ⟨1⟩ ∧ id ≠ ⟨3⟩) w₁
    have hrun : JoinRun planCondition working w (⟨w, ⟨1⟩, ⟨3⟩, true⟩ :: pairings) result :=
      .joins (a := set.tables[0]) (b := set.tables[1]) rfl rfl rfl hjoined hrest
    obtain rfl := hrun.eq_joinAllWith.symm.trans hresult
    refine ⟨_, w₂, hrun, _, List.mem_cons_self, fun hclosed => ?_⟩
    have hq : set.tables[2].PaddedOn .left ⟨⟨4⟩, .left, on "w" "q"⟩ := ⟨rfl, rfl⟩
    have houtside := (hclosed set.tables[0] (List.getElem_mem _) set.tables[2]
      (List.getElem_mem _) rfl rfl).right _ _ hq
    cases houtside

end QueryPlan
