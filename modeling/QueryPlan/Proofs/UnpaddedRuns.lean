import QueryPlan.Proofs.JoinRuns
import QueryPlan.Proofs.Padded

/-!
# Joining unpadded plans

Plans that no pending outer join pads become a plan that none pads. On the way the
first of them may be padded for a while: on a clash it is joined with its own partner,
and with that comes whatever pads the partner. But then it still clashes with the
second plan on that side, or it is linked to it now, and so it is joined on.

- `clash_eq_iff`: two plans clash on the first side on which both have a link.
- `Ahead`: the first of two plans is padded at most on the side of their clash.
- `Ahead.merged`: it stays so when the first is joined with the partner that is picked.
- `Prepared`: no plan of a list is padded but the first, which is ahead of the second.
- `JoinRun.unpadded`: what such plans become is unpadded.
-/

namespace QueryPlan

variable {w w' : Workspace} {tables : List TablePlan} {a b x : TablePlan} {side : Side}

/-! ## Sides of a clash -/

/-- Plans that are not linked clash on the first side on which both have a link. -/
theorem clash_eq_iff (ht : Answered tables) (ha : a ∈ tables) (hb : b ∈ tables)
    (hab : a.id ≠ b.id) (hunlinked : a.isLinkedTo b.id = false) :
    clash a b = side.clash ↔ (a.linkOn side).isSome ∧ (b.linkOn side).isSome ∧
      (side = .right → ¬ ((a.linkOn .left).isSome ∧ (b.linkOn .left).isSome)) := by
  have hback : ¬ (a.isLinkedTo b.id = true ∨ b.isLinkedTo a.id = true) := by
    rw [hunlinked]
    rintro (h | h)
    · cases h
    · rw [isLinkedTo_symm ht hb ha h] at hunlinked
      cases hunlinked
  rw [clash_eq_side_iff, and_iff_right hback, ht.rivals_iff ha hb hab, ht.rivals_iff ha hb hab,
    and_assoc]

/-- Plans that clash have no link between them. -/
theorem unlinked_of_clash (h : clash a b = side.clash) :
    a.isLinkedTo b.id = false ∧ b.isLinkedTo a.id = false := by
  simpa using (clash_eq_side_iff.mp h).1

/-- On a clash, the partner of the first plan on its side is picked. -/
theorem nextJoin_of_clash (h : clash a b = side.clash) {partner : PlanId}
    (hnext : nextJoin a b = .join partner) :
    ∃ link, a.linkOn side = some link ∧ link.target = partner := by
  rcases nextJoin_eq_join hnext with ⟨hsafe, -⟩ | ⟨side', link, hclash, hlink, htarget⟩
  · rw [hsafe] at h
    cases side <;> cases h
  · obtain rfl : side' = side := by
      rw [hclash] at h
      cases side <;> cases side' <;> first | rfl | cases h
    exact ⟨link, hlink, htarget⟩

/-! ## The plan in front -/

/-- The first plan is padded on one side at most, and there only if it is linked to the second plan
or clashes with it on that side. -/
def Ahead (a b : TablePlan) : Prop :=
  ∃ side, (∀ link, ¬ a.PaddedOn side.other link) ∧
    ∀ link, a.PaddedOn side link → a.isLinkedTo b.id = true ∨ clash a b = side.clash

/-- An unpadded plan is ahead of every other one. -/
theorem Ahead.of_unpadded (h : a.nullPaddedBy? = none) (b : TablePlan) : Ahead a b :=
  ⟨.left, fun link hpad => nullPaddedBy?_eq_none_iff.mp h _ link hpad,
    fun link hpad => absurd hpad (nullPaddedBy?_eq_none_iff.mp h _ link)⟩

/-- A plan that is ahead of an unpadded one is only padded by that, once it is joined with it. -/
theorem Ahead.unpadded {l r : TablePlan} {m : PlanId} {tree : PlanNode} (h : Ahead a b)
    (hb : b.nullPaddedBy? = none) (hinside : nullPaddedFromOutside? a b = none)
    (hpair : l = a ∧ r = b ∨ l = b ∧ r = a) (hclear : Clear l r) :
    (mergedPlan m l r fun _ _ => tree).nullPaddedBy? = none := by
  refine nullPaddedBy?_eq_none_iff.mpr fun s link hpad => ?_
  obtain ⟨hfrom, hout⟩ := (mergedPlan_paddedOn hclear).mp hpad
  have hb := nullPaddedBy?_eq_none_iff.mp hb s link
  obtain ⟨ha, hne⟩ : a.PaddedOn s link ∧ link.target ≠ b.id := by
    rw [List.mem_pair, not_or] at hout
    rcases hpair with ⟨rfl, rfl⟩ | ⟨rfl, rfl⟩
    · exact ⟨hfrom.resolve_right hb, hout.2⟩
    · exact ⟨hfrom.resolve_left hb, hout.1⟩
  -- What it is said to be padded by is the second plan, and no other plan pads it.
  obtain ⟨id, hid⟩ : ∃ id, a.nullPaddedBy? = some id := by
    rw [← Option.ne_none_iff_exists']
    exact fun hnone => nullPaddedBy?_eq_none_iff.mp hnone s link ha
  obtain ⟨s', link', hpad', rfl⟩ := exists_paddedOn hid
  obtain ⟨side, hother, -⟩ := h
  have hside : ∀ {s link}, a.PaddedOn s link → s = side := fun {s link} hpad =>
    (side.eq_or_eq_other s).resolve_right (by rintro rfl; exact hother link hpad)
  obtain rfl := hside ha
  obtain rfl := hside hpad'
  obtain rfl := Option.some.inj (ha.1.symm.trans hpad'.1)
  exact hne ((inside_iff.mp hinside).1 _ hid)

/-- A plan that clashes with the second one stays ahead of it when it is joined with its partner on
the side of the clash. -/
theorem Ahead.merged {l r : TablePlan} {m : PlanId} {tree : PlanNode} (h : Ahead a b)
    (ht : Answered tables) (ha : a ∈ tables) (hb : b ∈ tables) (hx : x ∈ tables)
    (hab : a.id ≠ b.id) (hclash : clash a b = side.clash) {link : JoinLink}
    (hlink : a.linkOn side = some link) (htarget : link.target = x.id)
    (hpair : l = a ∧ r = x ∨ l = x ∧ r = a) (hclear : Clear l r) (hfresh : ∀ p ∈ tables, p.id ≠ m) :
    Ahead (mergedPlan m l r fun _ _ => tree) (b.retarget [l.id, r.id] m) := by
  obtain ⟨hunlinked, -⟩ := unlinked_of_clash hclash
  obtain ⟨q, hq, hqid, -, back, hback, hto, -⟩ := ht.back side a ha link hlink
  obtain rfl := ht.eq_of_id hq hx (hqid.trans htarget)
  have hbx : b.id ≠ q.id := by
    intro heq
    rw [isLinkedTo_iff.mpr ⟨side, link, hlink, hqid.symm.trans heq.symm⟩] at hunlinked
    cases hunlinked
  have hmem : ∀ i, i ∈ [l.id, r.id] ↔ i = a.id ∨ i = q.id := by
    intro i
    rw [List.mem_pair]
    rcases hpair with ⟨rfl, rfl⟩ | ⟨rfl, rfl⟩
    · exact Iff.rfl
    · exact or_comm
  have hl : l ∈ tables ∧ r ∈ tables := by
    rcases hpair with ⟨rfl, rfl⟩ | ⟨rfl, rfl⟩
    · exact ⟨ha, hx⟩
    · exact ⟨hx, ha⟩
  -- The links of the merge are links of one of the two.
  have hpads : ∀ {s other}, (mergedPlan m l r fun _ _ => tree).linkOn s = some other →
      a.linkOn s = some other ∨ q.linkOn s = some other := by
    intro s other hother
    obtain ⟨hfrom, -⟩ := (mergedPlan_linkOn hclear).mp hother
    rcases hpair with ⟨rfl, rfl⟩ | ⟨rfl, rfl⟩
    · exact hfrom
    · exact hfrom.symm
  -- On the other side the partner has the link between the two, which is gone.
  have hother : ∀ other, (mergedPlan m l r fun _ _ => tree).linkOn side.other = some other →
      a.linkOn side.other = some other := by
    intro other h'
    refine (hpads h').resolve_right fun hfrom => ?_
    obtain rfl := Option.some.inj (hback.symm.trans hfrom)
    exact ((mergedPlan_linkOn hclear).mp h').2 ((hmem _).mpr (Or.inl hto))
  -- The merge is ahead on the side of the clash: on the other side it is unpadded since the first
  -- plan was, and on this one it clashes again, unless a link leads to the second plan.
  refine ⟨side, fun other hpad => ?_, fun other hpad => ?_⟩
  · obtain ⟨s, hno, hyes⟩ := h
    have hpad : a.PaddedOn side.other other := ⟨hother other hpad.1, hpad.2⟩
    rcases s.eq_or_eq_other side with rfl | rfl
    · exact hno other hpad
    · rw [s.other_other] at hpad
      rcases hyes other hpad with hlinked | hsame
      · rw [hlinked] at hunlinked
        cases hunlinked
      · rw [hsame] at hclash
        cases s <;> cases hclash
  · refine or_iff_not_imp_left.mpr fun hnot => ?_
    have hout : b.id ∉ [l.id, r.id] := by
      rw [hmem, not_or]
      exact ⟨hab.symm, hbx⟩
    rw [List.mem_pair, not_or] at hout
    have hsome : ∀ s, ((b.retarget [l.id, r.id] m).linkOn s).isSome = (b.linkOn s).isSome := by
      intro s
      rw [retarget_linkOn, Option.isSome_map]
    obtain ⟨-, hbside, hfirst⟩ := (clash_eq_iff ht ha hb hab hunlinked).mp hclash
    -- No link leads there, so the merge and the second plan both have one on this side.
    refine (clash_eq_iff (ht.merged hl.1 hl.2 hclear hfresh) mergedPlan_mem
      (retarget_mem hb hout.1 hout.2) (hfresh b hb).symm
      (Bool.eq_false_iff.mpr hnot)).mpr ⟨?_, ?_, ?_⟩
    · rw [hpad.1]
      rfl
    · rwa [hsome]
    · rintro rfl ⟨hMleft, hbleft⟩
      obtain ⟨other', hother'⟩ := Option.isSome_iff_exists.mp hMleft
      refine hfirst rfl ⟨?_, hsome .left ▸ hbleft⟩
      rw [show a.linkOn .left = some other' from hother other' hother']
      rfl

/-! ## Runs -/

/-- No plan that is to be joined is padded but the first, which is ahead of the second then. -/
structure Prepared (tables : List TablePlan) (working : List PlanId) : Prop where
  first : ∀ a ∈ tables, working.head? = some a.id → a.nullPaddedBy? = none ∨
    ∃ b ∈ tables, working.tail.head? = some b.id ∧ Ahead a b
  others : ∀ p ∈ tables, p.id ∈ working.tail → p.nullPaddedBy? = none

/-- Unpadded plans are prepared. -/
theorem Prepared.of_unpadded {working : List PlanId}
    (h : ∀ p ∈ tables, p.id ∈ working → p.nullPaddedBy? = none) : Prepared tables working where
  first p hp hfirst := Or.inl (h p hp (List.mem_of_mem_head? hfirst))
  others p hp hin := h p hp (List.mem_of_mem_tail hin)

/-- A plan that was resolved is unpadded. -/
theorem Resolution.ends_unpadded {condition : ConditionPlanner} {id id' : PlanId}
    {pairings : List Pairing} (h : Resolution condition id w pairings (.ok id' w')) :
    ∃ p, w'.set.get? id' = some p ∧ p.nullPaddedBy? = none := by
  generalize hresult : EStateM.Result.ok id' w' = result at h
  induction h with
  | missing => cases hresult
  | unpadded found none =>
    cases hresult
    exact ⟨_, found, none⟩
  | fails => cases hresult
  | joins _ _ _ _ ih => exact ih hresult

/-- Plans that are still to be joined after the first was are as unpadded as before. -/
theorem Leaves.others_unpadded {gone others : List PlanId} {first id : PlanId}
    {keep : PlanId → Bool} (h : Leaves gone w id w') (hfirst : first ∈ gone)
    (hothers : ∀ p ∈ w.set.tables, p.id ∈ others → p.nullPaddedBy? = none)
    (hnodup : (id :: (first :: others).filter keep).Nodup) :
    ∀ p ∈ w'.set.tables, p.id ∈ (first :: others).filter keep → p.nullPaddedBy? = none := by
  intro p hp hin
  have hne : p.id ≠ id := by
    rintro heq
    exact (List.nodup_cons.mp hnodup).1 (heq ▸ hin)
  obtain ⟨hgone, p₀, hp₀, hmoved⟩ := h.others p hp hne
  rw [hmoved.nullPaddedBy?_eq_none]
  rw [hmoved.id_eq] at hin hgone
  refine hothers p₀ hp₀ ((List.mem_cons.mp (List.mem_of_mem_filter hin)).resolve_left ?_)
  rintro heq
  exact hgone (heq ▸ hfirst)

/-- What is resolved before an unpadded plan is joined with the one ahead of it is that one. -/
theorem eq_of_nextJoin_resolve {padded : PlanId} (hb : b.nullPaddedBy? = none)
    (h : nextJoin a b = .resolve padded) : padded = a.id ∧ a.nullPaddedBy? ≠ none := by
  rcases exists_of_outside (nextJoin_eq_resolve_iff.mp h).2 with
    ⟨hid, id, hpad, -⟩ | ⟨-, id, hpad, -⟩
  · exact ⟨hid, hpad ▸ Option.some_ne_none id⟩
  · rw [hb] at hpad
    cases hpad

/-- A plan that is joined while it is ahead of an unpadded one is unpadded after that, or it stays
ahead of it. -/
theorem Ahead.joined {id : PlanId} (h : Ahead a b) (hw : Sound (fun _ => True) w)
    (ha : a ∈ w.set.tables) (hb : b ∈ w.set.tables) (hx : x ∈ w.set.tables) (hab : a.id ≠ b.id)
    (hunpadded : b.nullPaddedBy? = none) (next : nextJoin a b = .join x.id)
    (joined : Planner.joinPair a.id x.id w = .ok id w') :
    ∀ p ∈ w'.set.tables, p.id = id → p.nullPaddedBy? = none ∨
      b.id ≠ x.id ∧ ∃ b' ∈ w'.set.tables, b'.id = b.id ∧ Ahead p b' := by
  obtain ⟨l, hl, r, hr, hsides, -, -, hclear, hnew, ⟨tree, hset⟩, -⟩ := joinPair_merged hw joined
  have hfresh : ∀ p ∈ w.set.tables, p.id ≠ id := fun p hp => hw.id_ne hp hnew
  have hpair : l = a ∧ r = x ∨ l = x ∧ r = a := by
    rcases hsides with ⟨hla, hrx⟩ | ⟨hlx, hra⟩
    · exact Or.inl ⟨hw.answered.eq_of_id hl ha hla, hw.answered.eq_of_id hr hx hrx⟩
    · exact Or.inr ⟨hw.answered.eq_of_id hl hx hlx, hw.answered.eq_of_id hr ha hra⟩
  intro p hp hid
  rw [hset] at hp
  obtain rfl : p = mergedPlan id l r fun _ _ => tree := by
    rcases mem_mergedTables.mp hp with ⟨q, hq, -, -, rfl⟩ | rfl
    · exact absurd hid (hfresh q hq)
    · rfl
  -- Without a clash the two plans are joined with each other; on a clash the first one is joined
  -- with its own partner.
  by_cases hsafe : clash a b = .safe
  · obtain ⟨hinside, hid⟩ := inside_of_nextJoin hsafe next
    obtain rfl := hw.answered.eq_of_id hx hb hid
    exact Or.inl (h.unpadded hunpadded hinside hpair hclear)
  · obtain ⟨side, hclash⟩ := exists_side_of_clash hsafe
    obtain ⟨link, hlink, htarget⟩ := nextJoin_of_clash hclash next
    have hbx : b.id ≠ x.id := fun heq => by
      have hlinked := isLinkedTo_iff.mpr ⟨side, link, hlink, htarget.trans heq.symm⟩
      rw [(unlinked_of_clash hclash).1] at hlinked
      cases hlinked
    refine Or.inr ⟨hbx, b.retarget [l.id, r.id] id, ?_, rfl, ?_⟩
    · rw [hset]
      refine retarget_mem hb ?_ ?_
      · rcases hpair with ⟨rfl, rfl⟩ | ⟨rfl, rfl⟩
        · exact hab.symm
        · exact hbx
      · rcases hpair with ⟨rfl, rfl⟩ | ⟨rfl, rfl⟩
        · exact hbx
        · exact hab.symm
    · exact h.merged hw.answered ha hb hx hab hclash hlink htarget hpair hclear hfresh

/-- What unpadded plans become is unpadded. -/
theorem JoinRun.unpadded {working : List PlanId} {pairings : List Pairing}
    {result : EStateM.Result PlanError Workspace (Option PlanId)}
    (h : JoinRun planCondition working w pairings result) (hw : Sound (fun _ => True) w)
    (hnodup : working.Nodup) (hmem : ∀ i ∈ working, i ∈ w.set.ids)
    (hprep : Prepared w.set.tables working) :
    ∀ id w', result = .ok (some id) w' →
      ∀ p ∈ w'.set.tables, p.id = id → p.nullPaddedBy? = none := by
  -- The induction is on the run. Each round leaves a list that is prepared again, and at the end
  -- the one plan that is left has no second plan to be ahead of.
  induction h with
  | nil => rintro _ _ ⟨⟩
  | single id w =>
    rintro _ _ ⟨⟩ p hp hid
    refine (hprep.first p hp (congrArg some hid.symm)).resolve_right ?_
    rintro ⟨_, _, ⟨⟩, _⟩
  | missingFirst => rintro _ _ ⟨⟩
  | missingSecond => rintro _ _ ⟨⟩
  | resolveFails => rintro _ _ ⟨⟩
  | joinFails => rintro _ _ ⟨⟩
  | @resolves first second padded resolved others w w₁ a b _ _ _ found found' next resolution _
      ih =>
    obtain ⟨ha, rfl⟩ := TableSet.mem_of_get? found
    obtain ⟨hb, rfl⟩ := TableSet.mem_of_get? found'
    -- The second plan is unpadded, so it is the first one that is resolved, which ends unpadded.
    obtain ⟨rfl, hpad⟩ := eq_of_nextJoin_resolve (hprep.others b hb List.mem_cons_self) next
    have hresolves := (Planner.meets_resolveWith conditionLaw_any hw (TableSet.mem_ids ha)).ok
      (resolution.eq_resolveWithin _ le_rfl)
    have hround : Round False w (a.id :: b.id :: others) w₁.set.contains resolved w₁ :=
      .of_resolves hresolves ha hpad
    have hw₁ := hround.steps.sound hw
    have hnodup₁ := hround.nodup hw hmem hnodup
    refine ih hw₁ hnodup₁ hround.subset ⟨fun p hp hfirst => Or.inl ?_, ?_⟩
    · obtain ⟨q, hq, hunpadded⟩ := resolution.ends_unpadded
      obtain ⟨hq, hid⟩ := TableSet.mem_of_get? hq
      rwa [hw₁.answered.eq_of_id hp hq (hid.trans (Option.some.inj hfirst)).symm]
    · exact (resolution.leaves moveLaw_any (.of_sound hw)).others_unpadded List.mem_cons_self
        hprep.others hnodup₁
  | @joins first second partner merged others w w₁ a b _ _ found found' next joined _ ih =>
    obtain ⟨ha, rfl⟩ := TableSet.mem_of_get? found
    obtain ⟨hb, rfl⟩ := TableSet.mem_of_get? found'
    have hab : a.id ≠ b.id := fun heq => (List.nodup_cons.mp hnodup).1 (heq ▸ List.mem_cons_self)
    have hunpadded := hprep.others b hb List.mem_cons_self
    -- The first plan is joined, with the second one or on a clash with its own partner.
    have hahead : Ahead a b := by
      rcases hprep.first a ha rfl with hnone | ⟨b', hb', hid, hahead⟩
      · exact .of_unpadded hnone b
      · rwa [hw.answered.eq_of_id hb hb' (Option.some.inj hid)]
    obtain ⟨x, hx, rfl, hne, hjoinable⟩ := partner_of_nextJoin hw ha hb hab next
    have hround : Round False w (a.id :: b.id :: others) (fun i => i ≠ a.id ∧ i ≠ x.id) merged w₁ :=
      .of_merges ((Planner.meets_joinPairWith conditionLaw_any hw ha hx hne hjoinable).ok joined)
        hmem
    have hnodup₁ := hround.nodup hw hmem hnodup
    refine ih (hround.steps.sound hw) hnodup₁ hround.subset ⟨?_, ?_⟩
    · intro p hp hfirst
      refine (hahead.joined hw ha hb hx hab hunpadded next joined p hp
        (Option.some.inj hfirst).symm).imp_right ?_
      rintro ⟨hbx, b', hb', hid, hahead'⟩
      refine ⟨b', hb', ?_, hahead'⟩
      rw [List.tail_cons, List.filter_cons_of_neg (by simp),
        List.filter_cons_of_pos (by simp [hab.symm, hbx]), hid]
      rfl
    · exact (Planner.joinPairWith_leaves moveLaw_any (.of_sound hw) joined).others_unpadded
        List.mem_cons_self hprep.others hnodup₁

end QueryPlan
