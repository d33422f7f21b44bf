import QueryPlan.Proofs.Conserved

/-!
# Plans that a join leaves alone

A join of two plans replaces them by their merge. Any other plan of the set stays as
it is, but for links to one of the two, which are aimed at the merge then.

- `TablePlan.Moved`: a plan with its links aimed elsewhere.
- `mem_mergedTables_moved`: what there is after a merge.
- `joinPairWith_merged`: a join of two plans that succeeds is a merge.
- `Leaves`: some plans became one, and the others were left alone.
- `subperm_of_others`: the one has what they had, if nothing was lost.
-/

namespace QueryPlan

variable {Q : PlanNode → Prop} {or : Prop} {P : Option Expr → Prop}
  {condition : ConditionPlanner} {w w' : Workspace}

/-- `q` is `p`, perhaps with its links aimed at other plans. -/
def TablePlan.Moved (p q : TablePlan) : Prop :=
  ∃ g, q = { p with
    left := p.left.map (JoinLink.rename g), right := p.right.map (JoinLink.rename g) }

namespace TablePlan.Moved

variable {p q s : TablePlan}

theorem refl (p : TablePlan) : p.Moved p := by
  have hsame : ∀ o : Option JoinLink, o.map (JoinLink.rename fun i => i) = o := by
    rintro (_ | link) <;> rfl
  refine ⟨fun i => i, ?_⟩
  rw [hsame, hsame]

theorem trans (h : p.Moved q) (h' : q.Moved s) : p.Moved s := by
  obtain ⟨g, rfl⟩ := h
  obtain ⟨f, rfl⟩ := h'
  refine ⟨f ∘ g, ?_⟩
  simp only [Option.map_map]
  rfl

theorem of_retarget (p : TablePlan) (ids : List PlanId) (target : PlanId) :
    p.Moved (p.retarget ids target) := by
  have hfun : JoinLink.retarget ids target =
      JoinLink.rename fun id => if id ∈ ids then target else id :=
    funext (JoinLink.retarget_eq_rename ids target)
  refine ⟨fun id => if id ∈ ids then target else id, ?_⟩
  unfold TablePlan.retarget
  rw [hfun]

theorem id_eq (h : p.Moved q) : q.id = p.id := by
  obtain ⟨g, rfl⟩ := h
  rfl

theorem executable (h : p.Moved q) : q.executable = p.executable := by
  obtain ⟨g, rfl⟩ := h
  rfl

theorem columns (h : p.Moved q) : q.columns = p.columns := by
  obtain ⟨g, rfl⟩ := h
  rfl

theorem uniqueKeys (h : p.Moved q) : q.uniqueKeys = p.uniqueKeys := by
  obtain ⟨g, rfl⟩ := h
  rfl

/-- A plan is padded as before, perhaps by another plan. -/
theorem nullPaddedBy?_eq_none (h : p.Moved q) :
    q.nullPaddedBy? = none ↔ p.nullPaddedBy? = none := by
  obtain ⟨g, rfl⟩ := h
  rw [← padding_eq_none_iff, ← padding_eq_none_iff, padding?_of_links (g := g) (p := p),
    Option.map_eq_none_iff]
  rintro (_ | _) <;> rfl

end TablePlan.Moved

/-- After a merge there is the merged plan, and those that the merge leaves alone. -/
theorem mem_mergedTables_moved {tables : List TablePlan} {l r q : TablePlan} {m : PlanId}
    {tree : PlanNode} (h : q ∈ mergedTables tables l r m tree) :
    q = (mergedPlan m l r fun _ _ => tree) ∨
      ∃ p ∈ tables, p.id ≠ l.id ∧ p.id ≠ r.id ∧ p.Moved q := by
  rcases mem_mergedTables.mp h with ⟨p, hp, hpl, hpr, rfl⟩ | rfl
  · exact Or.inr ⟨p, hp, hpl, hpr, .of_retarget p _ _⟩
  · exact Or.inl rfl

namespace Planner

theorem merge_merged {left right id : PlanId} {build : PlanNode → PlanNode → PlanNode}
    (hids : (w.set.tables.map TablePlan.id).Nodup) (h : merge left right build w = .ok id w') :
    ∃ l ∈ w.set.tables, ∃ r ∈ w.set.tables, l.id = left ∧ r.id = right ∧ l.id ≠ r.id ∧
      w.context.supply.next ≤ id.number ∧
      ∃ tree, w'.set.tables = mergedTables w.set.tables l r id tree := by
  obtain ⟨l, hl, r, hr, hleft, hright, hne, rfl, rfl⟩ := merge_ok hids h
  exact ⟨l, hl, r, hr, hleft, hright, hne, le_rfl, _, rfl⟩

/-- A join of two plans that succeeds replaces them, one way round or the other, by their merge
under a new handle. They did not clash. -/
theorem joinPairWith_merged (hlaw : MoveLaw Q or P condition) {first second id : PlanId}
    (hw : Handled P w) (h : joinPairWith condition first second w = .ok id w') :
    ∃ l ∈ w.set.tables, ∃ r ∈ w.set.tables,
      (l.id = first ∧ r.id = second ∨ l.id = second ∧ r.id = first) ∧ l.id ≠ r.id ∧
      clash l r = .safe ∧ w.context.supply.next ≤ id.number ∧
      ∃ tree, w'.set.tables = mergedTables w.set.tables l r id tree := by
  -- A join by a link merges its plans under a handle that is given out after those of the copies.
  have hlinked : ∀ {joinType : JoinType} {on : Option Expr} {l r : TablePlan},
      l ∈ w.set.tables → r ∈ w.set.tables → P on →
      joinLinkedWith condition joinType on l.id r.id w = .ok id w' →
      l.id ≠ r.id ∧ w.context.supply.next ≤ id.number ∧
        ∃ tree, w'.set.tables = mergedTables w.set.tables l r id tree := by
    intro joinType on l r hl hr hon h
    obtain ⟨marked, c, tree, w₁, hmark, htree, hne, rfl, rfl⟩ := joinLinkedWith_ok hw.nodup hl hr h
    obtain ⟨w₂, x, hmoves, -, -, hcontext⟩ := hlaw on hon _ _ _ Handled.pair htree
    have hext := (newMark_extends hmark).trans ((Context.extends_supply _ 2).trans hmoves.extends)
    exact ⟨hne, hcontext ▸ hext.supply, _, rfl⟩
  obtain ⟨a, ha, b, hb, rfl, rfl, ⟨sided, hbetween, h⟩ | ⟨-, hsafe, h⟩⟩ :=
    joinPairWith_mem hw.nodup h
  · have hsafe := clash_of_linkBetween hbetween
    obtain ⟨⟨hleft, hright⟩ | ⟨hleft, hright⟩, hon⟩ := hw.exists_of_linkBetween ha hb hbetween
    · rw [hleft, hright] at h
      obtain ⟨hne, hnew, hmerged⟩ := hlinked ha hb hon h
      exact ⟨a, ha, b, hb, Or.inl ⟨rfl, rfl⟩, hne, hsafe, hnew, hmerged⟩
    · rw [hleft, hright] at h
      obtain ⟨hne, hnew, hmerged⟩ := hlinked hb ha hon h
      exact ⟨b, hb, a, ha, Or.inr ⟨rfl, rfl⟩, hne, clash_safe_comm hsafe, hnew, hmerged⟩
  · obtain ⟨l, hl, r, hr, hla, hrb, hne, hnew, hmerged⟩ := merge_merged hw.nodup h
    obtain rfl := hw.eq_of_id hl ha hla
    obtain rfl := hw.eq_of_id hr hb hrb
    exact ⟨l, hl, r, hr, Or.inl ⟨rfl, rfl⟩, hne, hsafe, hnew, hmerged⟩

end Planner

/-- Whatever the conditions of links are, their planner moves. -/
theorem moveLaw_any : MoveLaw (fun _ => True) True (fun _ => True) planCondition :=
  fun on _ => moveLaw_planCondition (fun _ => True) True on
    fun _ _ => ⟨fun _ _ => trivial, fun hnot => absurd trivial hnot⟩

/-! ## What is left of a set -/

/-- `id` is a plan of the set. Any other plan is none of `working`, and was there before. -/
structure Leaves (working : List PlanId) (w : Workspace) (id : PlanId) (w' : Workspace) : Prop where
  mem : id ∈ w'.set.ids
  others : ∀ q ∈ w'.set.tables, q.id ≠ id → q.id ∉ working ∧ ∃ p ∈ w.set.tables, p.Moved q

/-- What is left of plans that first became `m` and then, with others, `id`. -/
theorem Leaves.trans {as bs cs : List PlanId} {m id : PlanId} {w₁ : Workspace}
    (h : Leaves as w m w₁) (h' : Leaves bs w₁ id w') (hm : m ∈ bs)
    (hcs : ∀ i ∈ cs, i ∈ w₁.set.ids → i ∈ as ∨ i ∈ bs) : Leaves cs w id w' := by
  refine ⟨h'.mem, fun q hq hne => ?_⟩
  obtain ⟨hbs, p₁, hp₁, hmoved⟩ := h'.others q hq hne
  have hid : q.id = p₁.id := hmoved.id_eq
  rw [hid] at hbs ⊢
  obtain ⟨has, p, hp, hmoved₁⟩ := h.others p₁ hp₁ fun heq => hbs (heq ▸ hm)
  refine ⟨fun hin => ?_, p, hp, hmoved₁.trans hmoved⟩
  exact (hcs _ hin (TableSet.mem_ids hp₁)).elim has hbs

/-- A join of two plans leaves all others alone. -/
theorem Planner.joinPairWith_leaves (hlaw : MoveLaw Q or P condition) {first second id : PlanId}
    (hw : Handled P w) (h : Planner.joinPairWith condition first second w = .ok id w') :
    Leaves [first, second] w id w' := by
  obtain ⟨l, hl, r, hr, hsides, -, -, -, tree, hset⟩ := Planner.joinPairWith_merged hlaw hw h
  refine ⟨?_, fun q hq hne => ?_⟩
  · refine TableSet.mem_ids (p := mergedPlan id l r fun _ _ => tree) ?_
    rw [hset]
    exact mergedPlan_mem
  · rw [hset] at hq
    rcases mem_mergedTables_moved hq with rfl | ⟨p, hp, hpl, hpr, hmoved⟩
    · exact absurd rfl hne
    · refine ⟨?_, p, hp, hmoved⟩
      rw [hmoved.id_eq, List.mem_pair]
      rcases hsides with ⟨rfl, rfl⟩ | ⟨rfl, rfl⟩
      · exact not_or.mpr ⟨hpl, hpr⟩
      · exact not_or.mpr ⟨hpr, hpl⟩

/-- A list of plans has any of them in front of the others. -/
theorem perm_append_others {tables listed : List TablePlan}
    (hids : (tables.map TablePlan.id).Nodup) (hlisted : listed.Nodup)
    (hmem : ∀ p ∈ listed, p ∈ tables) :
    tables.Perm (listed ++ tables.filter fun p => p.id ∉ listed.map TablePlan.id) := by
  have hnodup : (listed ++ tables.filter fun p => p.id ∉ listed.map TablePlan.id).Nodup := by
    refine List.nodup_append.mpr ⟨hlisted, hids.of_map.filter _, ?_⟩
    rintro p hp q hq rfl
    have hout := of_decide_eq_true (List.mem_filter.mp hq).2
    exact hout (List.mem_map_of_mem hp)
  refine (List.perm_ext_iff_of_nodup hids.of_map hnodup).mpr fun p => ?_
  simp only [List.mem_append, List.mem_filter, decide_eq_true_eq]
  constructor
  · intro hp
    by_cases hin : p.id ∈ listed.map TablePlan.id
    · obtain ⟨s, hs, hid⟩ := List.mem_map.mp hin
      exact Or.inl (eq_of_id_of_nodup hids (hmem s hs) hp hid ▸ hs)
    · exact Or.inr ⟨hp, hin⟩
  · rintro (hp | ⟨hp, -⟩)
    · exact hmem p hp
    · exact hp

/-- If a set lost nothing and one of its plans is all that is left of some, then that plan has what
these had. -/
theorem subperm_of_others {γ : Type} (f : TablePlan → List γ)
    {tables tables' listed : List TablePlan} {m : TablePlan}
    (hperm : (tables'.flatMap f).Perm (tables.flatMap f))
    (hids : (tables.map TablePlan.id).Nodup) (hids' : (tables'.map TablePlan.id).Nodup)
    (hm : m ∈ tables') (hlisted : listed.Nodup) (hmem : ∀ p ∈ listed, p ∈ tables)
    (hothers : ∀ q ∈ tables', q.id ≠ m.id →
      q.id ∉ listed.map TablePlan.id ∧ ∃ p ∈ tables, q.id = p.id ∧ f q = f p) :
    (listed.flatMap f).Subperm (f m) := by
  let others := tables'.filter fun q => q.id ∉ [m].map TablePlan.id
  let kept := tables.filter fun p => p.id ∉ listed.map TablePlan.id
  have hafter : tables'.Perm ([m] ++ others) :=
    perm_append_others hids' (List.nodup_singleton m) (List.forall_mem_singleton.mpr hm)
  have hbefore : tables.Perm (listed ++ kept) := perm_append_others hids hlisted hmem
  -- What is left of the other plans is no more than what they had.
  have hrest : (others.flatMap f).Subperm (kept.flatMap f) := by
    have hkeys : (others.map fun q => (q.id, f q)).Subperm (kept.map fun p => (p.id, f p)) := by
      refine List.Nodup.subperm ?_ fun x hx => ?_
      · refine List.Nodup.of_map Prod.fst ?_
        rw [List.map_map]
        exact hids'.sublist (List.filter_sublist.map _)
      · obtain ⟨q, hq, rfl⟩ := List.mem_map.mp hx
        obtain ⟨hq, hne⟩ := List.mem_filter.mp hq
        obtain ⟨hout, p, hp, hid, hf⟩ := hothers q hq fun hid =>
          of_decide_eq_true hne (List.mem_singleton.mpr hid)
        refine List.mem_map.mpr ⟨p, List.mem_filter.mpr ⟨hp, ?_⟩, by rw [hid, hf]⟩
        rw [← hid]
        exact decide_eq_true hout
    obtain ⟨keys, hsame, hsub⟩ := hkeys
    have hflat := (hsame.flatMap_right Prod.snd).symm.subperm.trans
      (hsub.flatMap Prod.snd).subperm
    rwa [List.flatMap_map, List.flatMap_map] at hflat
  have hall : (f m ++ others.flatMap f).Perm (listed.flatMap f ++ kept.flatMap f) := by
    have := (hafter.flatMap_right f).symm.trans (hperm.trans (hbefore.flatMap_right f))
    rwa [List.flatMap_append, List.flatMap_singleton, List.flatMap_append] at this
  exact (List.subperm_append_right _).mp
    (((List.subperm_append_left _).mpr hrest).trans hall.symm.subperm)

end QueryPlan
