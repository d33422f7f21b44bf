import QueryPlan.Proofs.JoinRuns
import QueryPlan.Proofs.OuterJoinCount
import QueryPlan.Proofs.TwinConditions

/-!
# Links that were planned

Without a filter, every join of a set is the join of a link, or one of plans that
are not linked. Each link stays until its condition is planned, over copies that
expose what its two plans do of the columns that the condition reads. Where two
plans with two links are merged, one of the two is lost.

- `JoinRun.keeps`: what each merge of a run keeps, the run keeps.
- `LinkSides`, `StillLinked`: the two sides of a link, and a link that is pending.
- `Pairing.LosesLink`: a merge of two plans that have two links with each other.
- `JoinRun.joinsSeveral`: where tables have names of their own, it leaves a node that
  joins across two links.
- `Follows`: each link of a set is pending or was planned.
- `LinksTracked.joinPair`: merges that lose no link keep track of links.
- `tried_of_joinRun`: in the end every link was planned.
-/

namespace QueryPlan

variable {condition : ConditionPlanner} {w w' : Workspace} {tables : List TablePlan}
  {pairs : List (String × String)} {pairings : List Pairing} {l r p q s : TablePlan}
  {a b link : JoinLink} {g : PlanId → PlanId} {m : PlanId} {tree : PlanNode}

/-! ## Runs that keep an invariant -/

section

-- The invariant speaks of the merges that are still to come, too.
variable {I : List Pairing → Workspace → Prop}
  (hpair : ∀ {x : Pairing} {rest : List Pairing} {m : PlanId} {w' : Workspace},
    I (x :: rest) x.before →
      Planner.joinPairWith condition x.first x.second x.before = .ok m w' → I rest w')

include hpair

/-- What each merge of a resolution keeps, the resolution keeps. -/
theorem Resolution.keeps {id id' : PlanId} (h : Resolution condition id w pairings (.ok id' w'))
    (rest : List Pairing) (hI : I (pairings ++ rest) w) : I rest w' := by
  generalize hresult : EStateM.Result.ok id' w' = result at h
  induction h with
  | missing | fails => cases hresult
  | unpadded =>
    obtain ⟨rfl, rfl⟩ := hresult
    exact hI
  | joins _ _ joined _ ih => exact ih (hpair hI joined) hresult

/-- What each merge of a run keeps, the run keeps. -/
theorem JoinRun.keeps {working : List PlanId} {o : Option PlanId}
    (h : JoinRun condition working w pairings (.ok o w')) (hI : I pairings w) : I [] w' := by
  generalize hresult : EStateM.Result.ok o w' = result at h
  induction h with
  | missingFirst | missingSecond | resolveFails | joinFails => cases hresult
  | nil | single =>
    obtain ⟨rfl, rfl⟩ := hresult
    exact hI
  | resolves _ _ _ resolution _ ih => exact ih (resolution.keeps hpair _ hI) hresult
  | joins _ _ _ joined _ ih => exact ih (hpair hI joined) hresult

end

/-- A set that is planned without a filter is joined by a run that leaves one plan. -/
theorem Planner.joinAllWith_of_planWholeWith {plan : TablePlan} (hw : Sound (fun _ => True) w)
    (h : Planner.planWholeWith planCondition none w = .ok plan w') :
    ∃ id w₁, Planner.joinAllWith planCondition w.set.ids w = .ok (some id) w₁ ∧
      w₁.set.tables = [plan] := by
  unfold Planner.planWholeWith at h
  obtain ⟨set, w, hcurrent, h⟩ := Planner.bind_ok.mp h
  obtain ⟨rfl, rfl⟩ := Planner.current_ok.mp hcurrent
  have hne : w.set.tables.isEmpty = false := by
    rw [Bool.eq_false_iff, Ne, List.isEmpty_iff]
    exact hw.nonempty
  simp only [hne, Bool.false_eq_true, if_false] at h
  obtain ⟨id, w₁, hjoin, h⟩ := Planner.bind_ok.mp h
  simp only [Planner.bind_ok, Planner.ask_ok, Planner.require_ok, Planner.pure_ok] at h
  obtain ⟨x, _, ⟨hget, rfl⟩, _, _, -, rfl, -⟩ := h
  obtain ⟨-, y, hy, -⟩ := (Planner.meets_joinEverythingWith conditionLaw_any hw).ok hjoin
  have hx := (TableSet.mem_of_get? hget).1
  rw [hy, List.mem_singleton] at hx
  obtain ⟨_, _, hcurrent, hjoin⟩ := Planner.bind_ok.mp hjoin
  obtain ⟨rfl, rfl⟩ := Planner.current_ok.mp hcurrent
  obtain ⟨pairings, hrun⟩ := Planner.exists_joinRun_of_some hjoin
  exact ⟨id, _, hrun.eq_joinAllWith, hx ▸ hy⟩

/-! ## Links -/

/-- `a` and `b` are the two sides of a link with `l` on its left and `r` on its right. -/
structure LinkSides (l r : TablePlan) (a b : JoinLink) : Prop where
  right : l.linkOn .right = some a
  target : a.target = r.id
  left : r.linkOn .left = some b
  target' : b.target = l.id

/-- The link is pending, between the plans that stand for `l` and `r`. -/
def StillLinked (g : PlanId → PlanId) (tables : List TablePlan) (l r : TablePlan)
    (a b : JoinLink) : Prop :=
  ∃ p ∈ tables, ∃ q ∈ tables, p.id = g l.id ∧ q.id = g r.id ∧
    LinkSides p q (a.rename g) (b.rename g)

/-- A link between two plans is one side of a link whose other side answers it. -/
theorem JoinLink.Between.sides (h : link.Between l r) (hanswered : Answered tables)
    (hl : l ∈ tables) (hr : r ∈ tables) :
    ∃ a b, LinkSides l r a b ∧ (link = a ∨ link = b) ∧ a.joinType = link.joinType := by
  rcases h with ⟨hlink, htarget⟩ | ⟨hlink, htarget⟩
  · obtain ⟨q, hq, hid, -, back, hback, hbt, -⟩ := hanswered.back .right l hl link hlink
    obtain rfl := hanswered.eq_of_id hq hr (hid.trans htarget)
    exact ⟨link, back, ⟨hlink, htarget, hback, hbt⟩, Or.inl rfl, rfl⟩
  · obtain ⟨q, hq, hid, -, back, hback, hbt, htype⟩ := hanswered.back .left r hr link hlink
    obtain rfl := hanswered.eq_of_id hq hl (hid.trans htarget)
    exact ⟨back, link, ⟨hback, hbt, hlink, htarget⟩, Or.inr rfl, htype⟩

/-- Plans with both sides of a link are linked. -/
theorem LinkSides.isLinkedTo (h : LinkSides l r a b) : l.isLinkedTo r.id = true :=
  isLinkedTo_of_right h.right h.target

/-- A link stays pending when other plans are merged than the two that it joins. -/
theorem StillLinked.merged (h : StillLinked g tables l r a b) (hanswered : Answered tables)
    (hp : p ∈ tables) (hq : q ∈ tables) (hclear : Clear p q)
    (hpq : ¬ LinkSides p q (a.rename g) (b.rename g))
    (hqp : ¬ LinkSides q p (a.rename g) (b.rename g)) :
    StillLinked (collapse p.id q.id m ∘ g) (mergedTables tables p q m tree) l r a b := by
  obtain ⟨s, hs, t, ht, hsid, htid, hst⟩ := h
  -- The link is not the one that the merge is by, so one of its ends at least is beside the merge.
  have hout : ¬ (s.id ∈ [p.id, q.id] ∧ t.id ∈ [p.id, q.id]) := by
    rintro ⟨hsin, htin⟩
    have hne : t.id ≠ s.id := hst.target ▸ hanswered.target_ne hs hst.right
    rcases List.mem_pair.mp hsin with hsp | hsq
    · rcases List.mem_pair.mp htin with htp | htq
      · exact hne (htp.trans hsp.symm)
      · obtain rfl := hanswered.eq_of_id hs hp hsp
        obtain rfl := hanswered.eq_of_id ht hq htq
        exact hpq hst
    · rcases List.mem_pair.mp htin with htp | htq
      · obtain rfl := hanswered.eq_of_id hs hq hsq
        obtain rfl := hanswered.eq_of_id ht hp htp
        exact hqp hst
      · exact hne (htq.trans hsq.symm)
  obtain ⟨s', hs', hsid', hright⟩ := exists_link_merged hanswered.nodup hp hq hclear hs
    hst.right fun hin htarget => hout ⟨hin, hst.target ▸ htarget⟩
  obtain ⟨t', ht', htid', hleft⟩ := exists_link_merged hanswered.nodup hp hq hclear ht
    hst.left fun hin htarget => hout ⟨hst.target' ▸ htarget, hin⟩
  refine ⟨s', hs', t', ht', ?_, ?_, hright, ?_, hleft, ?_⟩
  · rw [hsid', hsid]
    rfl
  · rw [htid', htid]
    rfl
  · rw [htid', ← hst.target]
    rfl
  · rw [hsid', ← hst.target']
    rfl

/-! ## Planned links -/

/-- Both sides of the link have one type and one condition, up to constants, and the condition reads
no columns of other plans than the two that it joins. -/
structure Confined (tables : List TablePlan) (l r : TablePlan) (a b : JoinLink) : Prop where
  joinType : b.joinType = a.joinType
  outline : outlineOfEscape a.on = outlineOfEscape b.on
  only : ∀ column ∈ readsOf a.on, ∀ p ∈ tables, p.exposes column = true →
    p.id = l.id ∨ p.id = r.id

/-- The link can be planned between `l` and `r`, as either side has it. -/
structure Tried (l r : TablePlan) (a b : JoinLink) : Prop where
  notFull : a.joinType ≠ .full
  right : Resolvable planCondition a.on l r
  left : Resolvable planCondition b.on l r

/-- A link can be planned if one of its sides was, between the plans that stood for `l` and `r`. -/
theorem Tried.of_joinLinkedWith (hg : Regroups g tables w.set.tables)
    (hnodup : (tables.map TablePlan.id).Nodup) (hids : (w.set.tables.map TablePlan.id).Nodup)
    (hl : l ∈ tables) (hr : r ∈ tables) (hp : p ∈ w.set.tables) (hq : q ∈ w.set.tables)
    (hne : p.id ≠ q.id) (hpid : p.id = g l.id) (hqid : q.id = g r.id)
    (hconfined : Confined tables l r a b) (hlink : link = a.rename g ∨ link = b.rename g)
    (hok : Planner.joinLinkedWith planCondition link.joinType link.on p.id q.id w = .ok m w') :
    Tried l r a b := by
  obtain ⟨marked, c, tree, w₁, hmark, htree, -, -, -⟩ := Planner.joinLinkedWith_ok hids hp hq hok
  -- Both sides of the link have one type, and conditions with one outline.
  obtain ⟨htype, honA, honB⟩ : link.joinType = a.joinType ∧
      outlineOfEscape link.on = outlineOfEscape a.on ∧
        outlineOfEscape link.on = outlineOfEscape b.on := by
    rcases hlink with rfl | rfl
    · exact ⟨rfl, rfl, hconfined.outline⟩
    · exact ⟨hconfined.joinType, hconfined.outline.symm, rfl⟩
  have honly : ∀ column ∈ readsOf link.on, ∀ s ∈ tables, s.exposes column = true →
      s = l ∨ s = r := by
    intro column hc s hs hexposes
    rw [← readsOf_eq_of_outline honA] at hc
    exact (hconfined.only column hc s hs hexposes).imp (eq_of_id_of_nodup hnodup hs hl)
      (eq_of_id_of_nodup hnodup hs hr)
  -- Of the columns that the condition reads, each copy exposes what the plan exposed from the
  -- start.
  have hleft : ∀ column ∈ readsOf link.on,
      (p.withMark marked).exposes column = l.exposes column := by
    intro column hc
    rw [p.withMark_exposes]
    refine hg.exposes_eq hl hp hpid.symm fun s hs hsid hexposes => ?_
    refine (honly column hc s hs hexposes).resolve_right ?_
    rintro rfl
    exact hne (hsid.symm.trans hqid.symm)
  have hright : ∀ column ∈ readsOf link.on,
      (q.withMark marked).exposes column = r.exposes column := by
    intro column hc
    rw [q.withMark_exposes]
    refine hg.exposes_eq hr hq hqid.symm fun s hs hsid hexposes => ?_
    refine (honly column hc s hs hexposes).resolve_left ?_
    rintro rfl
    exact hne (hpid.trans hsid)
  refine ⟨?_, resolvable_of_planCondition honA hleft hright htree,
    resolvable_of_planCondition honB hleft hright htree⟩
  rw [← htype]
  rcases Planner.newMark_ok hmark with ⟨h, -, -⟩ | ⟨_, ⟨h, -⟩ | ⟨h, -⟩, -, -⟩ <;> rw [h] <;> decide

/-- `current` stands for `tables`, and every link among these is pending or was planned. -/
structure Follows (g : PlanId → PlanId) (tables current : List TablePlan) : Prop where
  regroups : Regroups g tables current
  links : ∀ l ∈ tables, ∀ r ∈ tables, ∀ a b, LinkSides l r a b →
    StillLinked g current l r a b ∨ Tried l r a b

/-! ## Merges that lose a link -/

/-- Each of the two plans that are merged has the other one on its right: they have two links with
each other, of which just one is planned. -/
def Pairing.LosesLink (x : Pairing) : Prop :=
  ∃ p ∈ x.before.set.tables, ∃ q ∈ x.before.set.tables, p.id = x.first ∧ q.id = x.second ∧
    p.rightTarget? = some q.id ∧ q.rightTarget? = some p.id

/-- Whichever plan comes first, a link is lost if each plan has the other one on its right. -/
theorem Pairing.losesLink_of_sides {x : Pairing} (hp : p ∈ x.before.set.tables)
    (hq : q ∈ x.before.set.tables)
    (hsides : p.id = x.first ∧ q.id = x.second ∨ p.id = x.second ∧ q.id = x.first)
    (hright : p.rightTarget? = some q.id) (hback : q.rightTarget? = some p.id) : x.LosesLink := by
  rcases hsides with ⟨hfirst, hsecond⟩ | ⟨hsecond, hfirst⟩
  · exact ⟨p, hp, q, hq, hfirst, hsecond, hright, hback⟩
  · exact ⟨q, hq, p, hp, hfirst, hsecond, hback, hright⟩

/-- What becomes of two plans of a sound set that are joined: a link between them is planned, or
they have none. -/
theorem Planner.joinPairWith_merges {i j : PlanId} (hw : Sound (fun _ => True) w)
    (h : Planner.joinPairWith planCondition i j w = .ok m w') :
    ∃ p ∈ w.set.tables, ∃ q ∈ w.set.tables, (p.id = i ∧ q.id = j ∨ p.id = j ∧ q.id = i) ∧
      Merges False p.id q.id w m w' ∧
      ((∃ link : JoinLink, link.Between p q ∧
          Planner.joinLinkedWith planCondition link.joinType link.on p.id q.id w = .ok m w') ∨
        linkBetween p q = none ∧ clash p q = .safe ∧
          Planner.merge p.id q.id .naturalJoin w = .ok m w') := by
  have hanswered := hw.answered
  -- A join by a link merges its plans.
  have hlinked : ∀ {p q : TablePlan} {link : JoinLink}, p ∈ w.set.tables → q ∈ w.set.tables →
      link.Between p q →
      Planner.joinLinkedWith planCondition link.joinType link.on p.id q.id w = .ok m w' →
      Merges False p.id q.id w m w' := by
    intro p q link hp hq hbetween hok
    obtain ⟨x, y, hxy, -, htype⟩ := hbetween.sides hanswered hp hq
    obtain ⟨-, -, -, -, -, -, hne, -⟩ := Planner.joinLinkedWith_ok hanswered.nodup hp hq hok
    rw [← htype] at hok
    exact (Planner.meets_joinLinkedWith conditionLaw_any hw hp hq hne hxy.right hxy.target
      trivial).ok hok
  obtain ⟨p, hp, q, hq, rfl, rfl, ⟨sided, hsided, hok⟩ | ⟨hnone, hsafe, hmerge⟩⟩ :=
    Planner.joinPairWith_mem hanswered.nodup h
  · obtain ⟨l, r, hsides, hleft, hright, hbetween⟩ := between_of_linkBetween hsided
    rw [hleft, hright] at hok
    rcases hsides with ⟨rfl, rfl⟩ | ⟨rfl, rfl⟩
    · exact ⟨l, hp, r, hq, Or.inl ⟨rfl, rfl⟩, hlinked hp hq hbetween hok,
        Or.inl ⟨_, hbetween, hok⟩⟩
    · exact ⟨l, hq, r, hp, Or.inr ⟨rfl, rfl⟩, hlinked hq hp hbetween hok,
        Or.inl ⟨_, hbetween, hok⟩⟩
  · obtain ⟨hpq, hqp⟩ := linkBetween_eq_none_iff.mp hnone
    obtain ⟨l, hl, r, hr, hlid, hrid, hne, -⟩ := merge_ok hanswered.nodup hmerge
    obtain rfl := hanswered.eq_of_id hl hp hlid
    obtain rfl := hanswered.eq_of_id hr hq hrid
    refine ⟨l, hp, r, hq, Or.inl ⟨rfl, rfl⟩, ?_, Or.inr ⟨hnone, hsafe, hmerge⟩⟩
    exact (Planner.meets_merge_unlinked hw hp hq hne hsafe hpq hqp fun _ _ => rfl).ok hmerge

/-- A merge that loses a link leaves a node that joins across two links at once. -/
theorem Pairing.LosesLink.joinsSeveral {x : Pairing} (h : x.LosesLink)
    (hw : Sound (fun _ => True) x.before) (hwired : Wired pairs x.before.set.tables)
    (hok : Planner.joinPairWith planCondition x.first x.second x.before = .ok m w') :
    ∃ t ∈ w'.set.tables, t.executable.joinsSeveral pairs = true := by
  have hanswered := hw.answered
  obtain ⟨p, hp, q, hq, hfirst, hsecond, hright, hback⟩ := h
  obtain ⟨l, hl, r, hr, hsides, -, hjoin⟩ := Planner.joinPairWith_merges hw hok
  obtain ⟨hright, hback⟩ : l.rightTarget? = some r.id ∧ r.rightTarget? = some l.id := by
    rcases hsides with ⟨hlid, hrid⟩ | ⟨hlid, hrid⟩
    · obtain rfl := hanswered.eq_of_id hl hp (hlid.trans hfirst.symm)
      obtain rfl := hanswered.eq_of_id hr hq (hrid.trans hsecond.symm)
      exact ⟨hright, hback⟩
    · obtain rfl := hanswered.eq_of_id hl hq (hlid.trans hsecond.symm)
      obtain rfl := hanswered.eq_of_id hr hp (hrid.trans hfirst.symm)
      exact ⟨hback, hright⟩
  obtain ⟨y, hy, htarget⟩ := Option.map_eq_some_iff.mp hright
  obtain ⟨back, hback, hid⟩ := Option.map_eq_some_iff.mp hback
  rcases hjoin with ⟨link, -, hok⟩ | ⟨hnone, -⟩
  · obtain ⟨marked, c, tree, w₁, -, htree, hne, -, hw'⟩ :=
      Planner.joinLinkedWith_ok hanswered.nodup hl hr hok
    obtain ⟨w₂, z, hpair, hsingle, rfl, -⟩ := (conditionLaw_any _ trivial _ Sound.pair).ok htree
    rw [hw']
    refine ⟨_, mergedPlan_mem, PlanNode.joinsSeveral_iff.mpr (has_addBack marked ?_)⟩
    exact hpair.has_joins_of_pair hsingle hwired hanswered.nodup hl hr hne hy htarget hback hid
  · have hlinked : l.isLinkedTo r.id = true := isLinkedTo_of_right hy htarget
    rw [(linkBetween_eq_none_iff.mp hnone).1] at hlinked
    cases hlinked

/-- A node joins across two links at once, or a link is still to be lost. -/
structure LosingLink (pairs : List (String × String)) (pairings : List Pairing) (w : Workspace) :
    Prop where
  sound : Sound (fun _ => True) w
  wired : Wired pairs w.set.tables
  lost : (∃ t ∈ w.set.tables, t.executable.joinsSeveral pairs = true) ∨
    ∃ x ∈ pairings, x.LosesLink

theorem LosingLink.joinPair {x : Pairing} (h : LosingLink pairs (x :: pairings) x.before)
    (hok : Planner.joinPairWith planCondition x.first x.second x.before = .ok m w') :
    LosingLink pairs pairings w' := by
  obtain ⟨p, -, q, -, -, hmerges, -⟩ := Planner.joinPairWith_merges h.sound hok
  have hsteps := hmerges.steps
  refine ⟨hsteps.sound h.sound, hsteps.wired h.sound h.wired, ?_⟩
  rcases h.lost with hseveral | ⟨y, hy, hlost⟩
  · simp only [PlanNode.joinsSeveral_iff] at hseveral ⊢
    exact Or.inl (hsteps.has h.sound (PlanNode.not_several_cache pairs) hseveral)
  · rcases List.mem_cons.mp hy with rfl | hy
    · exact Or.inl (hlost.joinsSeveral h.sound h.wired hok)
    · exact Or.inr ⟨y, hy, hlost⟩

/-- Where each link has a pair of tables of its own, a run that loses one leaves a node that joins
across two links at once. -/
theorem JoinRun.joinsSeveral {working : List PlanId} {o : Option PlanId}
    (h : JoinRun planCondition working w pairings (.ok o w')) (hw : Sound (fun _ => True) w)
    (hwired : Wired pairs w.set.tables) (hlost : ∃ x ∈ pairings, x.LosesLink) :
    ∃ t ∈ w'.set.tables, t.executable.joinsSeveral pairs = true :=
  (h.keeps LosingLink.joinPair ⟨hw, hwired, Or.inr hlost⟩).lost.resolve_right
    fun ⟨_, hx, _⟩ => List.not_mem_nil hx

/-! ## Runs that keep track of links -/

/-- The set stands for `tables` with their links, of which none is still to be lost. -/
structure LinksTracked (tables : List TablePlan) (pairings : List Pairing) (w : Workspace) :
    Prop where
  sound : Sound (fun _ => True) w
  follows : ∃ g, Follows g tables w.set.tables
  once : ∀ x ∈ pairings, ¬ x.LosesLink

section

variable (hnodup : (tables.map TablePlan.id).Nodup) (hconfined : ∀ l ∈ tables, ∀ r ∈ tables, ∀ a b,
  LinkSides l r a b → Confined tables l r a b)

include hnodup hconfined

/-- The join of two plans by their only link keeps track of the links. -/
theorem Follows.joinLinkedWith (h : Follows g tables w.set.tables) (hw : Sound (fun _ => True) w)
    (hmerges : Merges False p.id q.id w m w') (hp : p ∈ w.set.tables) (hq : q ∈ w.set.tables)
    (hbetween : link.Between p q) (hkept : q.rightTarget? ≠ some p.id)
    (hok : Planner.joinLinkedWith planCondition link.joinType link.on p.id q.id w = .ok m w') :
    ∃ g', Follows g' tables w'.set.tables := by
  have hanswered := hw.answered
  obtain ⟨x, y, hxy, hlink, -⟩ := hbetween.sides hanswered hp hq
  obtain ⟨marked, c, tree, w₁, -, -, hne, -, hw'⟩ :=
    Planner.joinLinkedWith_ok hanswered.nodup hp hq hok
  have hclear : Clear p q := hw.clear_of_right hp hq hne hxy.right hxy.target
  have hfresh : ∀ s ∈ w.set.tables, s.id ≠ m := fun s hs => hw.id_ne hs hmerges.fresh
  rw [hw']
  refine ⟨_, h.regroups.trans (.merged hanswered.nodup hp hq hclear hfresh),
    fun l hl r hr a b hab => ?_⟩
  rcases h.links l hl r hr a b hab with hstill | htried
  · by_cases hpq : LinkSides p q (a.rename g) (b.rename g)
    · -- This link was planned.
      obtain ⟨s, hs, t, ht, hsid, htid, hst⟩ := hstill
      have hpid : p.id = g l.id := hpq.target'.symm.trans (hst.target'.trans hsid)
      have hqid : q.id = g r.id := hpq.target.symm.trans (hst.target.trans htid)
      have hside : link = a.rename g ∨ link = b.rename g := by
        have hx := Option.some.inj (hxy.right.symm.trans hpq.right)
        have hy := Option.some.inj (hxy.left.symm.trans hpq.left)
        rwa [← hx, ← hy]
      exact Or.inr (.of_joinLinkedWith h.regroups hnodup hanswered.nodup hl hr hp hq hne hpid hqid
        (hconfined l hl r hr a b hab) hside hok)
    · refine Or.inl (hstill.merged hanswered hp hq hclear hpq fun hqp => hkept ?_)
      exact Option.map_eq_some_iff.mpr ⟨_, hqp.right, hqp.target⟩
  · exact Or.inr htried

/-- A merge that loses no link keeps track of the links. -/
theorem LinksTracked.joinPair {x : Pairing} (h : LinksTracked tables (x :: pairings) x.before)
    (hok : Planner.joinPairWith planCondition x.first x.second x.before = .ok m w') :
    LinksTracked tables pairings w' := by
  have hanswered := h.sound.answered
  obtain ⟨g, hg⟩ := h.follows
  obtain ⟨hkept, honce⟩ := List.forall_mem_cons.mp h.once
  obtain ⟨p, hp, q, hq, hsides, hmerges, hjoin⟩ := Planner.joinPairWith_merges h.sound hok
  refine ⟨hmerges.steps.sound h.sound, ?_, honce⟩
  rcases hjoin with ⟨link, hbetween, hok⟩ | ⟨hnone, hsafe, hmerge⟩
  · refine hg.joinLinkedWith hnodup hconfined h.sound hmerges hp hq hbetween (fun hback => ?_) hok
    obtain ⟨y, _, hy, -⟩ := hbetween.sides hanswered hp hq
    have hright : p.rightTarget? = some q.id :=
      Option.map_eq_some_iff.mpr ⟨y, hy.right, hy.target⟩
    exact hkept (Pairing.losesLink_of_sides hp hq hsides hright hback)
  · -- Plans without a link between them take none away.
    obtain ⟨hpq, hqp⟩ := linkBetween_eq_none_iff.mp hnone
    obtain ⟨l, hl, r, hr, hlid, hrid, hne, -, hw'⟩ := merge_ok hanswered.nodup hmerge
    obtain rfl := hanswered.eq_of_id hl hp hlid
    obtain rfl := hanswered.eq_of_id hr hq hrid
    have hclear : Clear l r := clear_of_safe hanswered hp hq hne hsafe
    have hfresh : ∀ s ∈ x.before.set.tables, s.id ≠ m :=
      fun s hs => h.sound.id_ne hs hmerges.fresh
    rw [hw']
    refine ⟨_, hg.regroups.trans (.merged hanswered.nodup hp hq hclear hfresh),
      fun l' hl' r' hr' a b hab => (hg.links l' hl' r' hr' a b hab).imp_left fun hstill => ?_⟩
    refine hstill.merged hanswered hp hq hclear (fun h => ?_) fun h => ?_
    · exact Bool.eq_false_iff.mp hpq h.isLinkedTo
    · exact Bool.eq_false_iff.mp hqp h.isLinkedTo

/-- Without a filter every link of a set is planned, if its run loses none. -/
theorem tried_of_joinRun {id : PlanId} (hset : w.set.tables = tables)
    (hw : Sound (fun _ => True) w)
    (hrun : JoinRun planCondition w.set.ids w pairings (.ok (some id) w'))
    (hsingle : ∃ x, w'.set.tables = [x]) (honce : ∀ x ∈ pairings, ¬ x.LosesLink) :
    ∀ l ∈ tables, ∀ r ∈ tables, ∀ a b, LinkSides l r a b → Tried l r a b := by
  subst hset
  obtain ⟨x, hx⟩ := hsingle
  have hstart : Follows _ w.set.tables w.set.tables :=
    ⟨.refl hw.answered.nodup, fun l hl r hr a b hab => Or.inl ⟨l, hl, r, hr, rfl, rfl, hab⟩⟩
  have htracked := hrun.keeps (LinksTracked.joinPair hnodup hconfined) ⟨hw, ⟨_, hstart⟩, honce⟩
  obtain ⟨g, hg⟩ := htracked.follows
  have hanswered := htracked.sound.answered
  rw [hx] at hanswered
  intro l hl r hr a b hab
  refine (hg.links l hl r hr a b hab).resolve_left ?_
  -- A single plan has no links that could be pending.
  rintro ⟨p, hp, q, -, -, -, hpq⟩
  rw [hx, List.mem_singleton] at hp
  have hnone := hanswered.linkOn_of_single .right
  rw [← hp, hpq.right] at hnone
  cases hnone

end

end QueryPlan
