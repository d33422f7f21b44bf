import QueryPlan.Proofs.Bystanders

/-!
# Padded plans and merges

A plan may be padded by the links on both of its sides. Which links pad it changes
only when it is merged: then those are left that point outside the pair.

- `TablePlan.PaddedOn`: a link that pads a plan, with its side.
- `nullPaddedBy?_eq_none_iff`: a plan is unpadded if no link pads it.
- `mergedPlan_paddedOn`, `retarget_paddedOn`: the links that pad a merge, and a plan
  beside it.
- `joinPair_merged`: over a sound set, a join of two plans is a merge of plans whose
  links do not compete, and leaves a sound set.
-/

namespace QueryPlan

variable {P : Option Expr → Prop} {w w' : Workspace}

/-- The plan has the link on the side, and its join pads the rows of the plan. -/
def TablePlan.PaddedOn (p : TablePlan) (side : Side) (link : JoinLink) : Prop :=
  p.linkOn side = some link ∧ padsOn side link.joinType = true

section

variable {p : TablePlan} {side : Side} {link : JoinLink}

theorem nullPaddedBy?_eq_none_iff :
    p.nullPaddedBy? = none ↔ ∀ side link, ¬ p.PaddedOn side link := by
  rw [← padding_eq_none_iff]
  constructor
  · intro h side link hpad
    exact TablePlan.padding_ne_none hpad.1 hpad.2 h
  · intro h
    cases hpad : p.padding? with
    | none => rfl
    | some link =>
      obtain ⟨side, hpadded⟩ := TablePlan.exists_side_of_padding hpad
      exact absurd hpadded (h side link)

/-- The plan that pads another is the target of a link that does. -/
theorem exists_paddedOn {id : PlanId} (h : p.nullPaddedBy? = some id) :
    ∃ side link, p.PaddedOn side link ∧ link.target = id := by
  rw [TablePlan.nullPaddedBy?_eq, Option.map_eq_some_iff] at h
  obtain ⟨link, hpad, htarget⟩ := h
  obtain ⟨side, hpadded⟩ := TablePlan.exists_side_of_padding hpad
  exact ⟨side, link, hpadded, htarget⟩

/-- A join that pads both of its sides is a full one. -/
theorem eq_full_of_padsOn {joinType : JoinType} (h : TablePlan.padsOn side joinType = true)
    (h' : TablePlan.padsOn side.other joinType = true) : joinType = .full := by
  cases side <;> cases joinType <;> simp_all [TablePlan.padsOn, Side.other]

end

section

variable {l r : TablePlan} {m : PlanId} {tree : PlanNode} {side : Side} {link : JoinLink}

/-- A merge is padded by those links of its plans that point outside the pair. -/
theorem mergedPlan_paddedOn (hclear : Clear l r) :
    (mergedPlan m l r fun _ _ => tree).PaddedOn side link ↔
      (l.PaddedOn side link ∨ r.PaddedOn side link) ∧ link.target ∉ [l.id, r.id] := by
  unfold TablePlan.PaddedOn
  rw [mergedPlan_linkOn hclear]
  tauto

/-- A plan beside a merge is padded by the same links, aimed at the merge where they were aimed at
one of its plans. -/
theorem retarget_paddedOn (p : TablePlan) :
    (p.retarget [l.id, r.id] m).PaddedOn side link ↔
      ∃ link', p.PaddedOn side link' ∧ link'.rename (collapse l.id r.id m) = link := by
  unfold TablePlan.PaddedOn
  rw [retarget_linkOn, Option.map_eq_some_iff]
  constructor
  · rintro ⟨⟨link', hlink', rfl⟩, hpads⟩
    exact ⟨link', ⟨hlink', hpads⟩, rfl⟩
  · rintro ⟨link', ⟨hlink', hpads⟩, rfl⟩
    exact ⟨⟨link', hlink', rfl⟩, hpads⟩

end

/-- Two plans that do not clash are joined at once only if neither is padded from outside. -/
theorem inside_of_nextJoin {a b : TablePlan} {partner : PlanId} (hsafe : clash a b = .safe)
    (h : nextJoin a b = .join partner) :
    nullPaddedFromOutside? a b = none ∧ partner = b.id := by
  rcases nextJoin_eq_join h with ⟨-, hinside, hid⟩ | ⟨side, link, hclash, -⟩
  · exact ⟨hinside, hid⟩
  · rw [hsafe] at hclash
    cases side <;> cases hclash

/-- Over a sound set, two plans that become one are replaced by their merge, which takes over their
links, and the set stays sound. -/
theorem joinPair_merged {first second id : PlanId} (hw : Sound (fun _ => True) w)
    (h : Planner.joinPair first second w = .ok id w') :
    ∃ l ∈ w.set.tables, ∃ r ∈ w.set.tables,
      (l.id = first ∧ r.id = second ∨ l.id = second ∧ r.id = first) ∧ l.id ≠ r.id ∧
      clash l r = .safe ∧ Clear l r ∧ w.context.supply.next ≤ id.number ∧
      (∃ tree, w'.set.tables = mergedTables w.set.tables l r id tree) ∧
      Sound (fun _ => True) w' := by
  have hhandled := Handled.of_sound hw
  obtain ⟨l, hl, r, hr, hsides, hne, hsafe, hnew, tree, hset⟩ :=
    Planner.joinPairWith_merged moveLaw_any hhandled h
  have hclear := clear_of_safe hw.answered hl hr hne hsafe
  have hgiven := ((Planner.joinPairWith_fuses moveLaw_any hhandled h).moves.handled hhandled).given
  refine ⟨l, hl, r, hr, hsides, hne, hsafe, hclear, hnew, ⟨tree, hset⟩, ?_, ?_,
    fun _ _ _ _ _ => trivial, hgiven⟩
  · rw [hset]
    exact List.ne_nil_of_mem (mergedPlan_mem)
  · rw [hset]
    exact hw.answered.merged hl hr hclear fun p hp => hw.id_ne hp hnew

end QueryPlan
