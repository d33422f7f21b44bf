import QueryPlan.Proofs.Fit

/-!
# Clashes

Two plans that are not linked clash on a side on which both have a link, with different partners.
A plan is joined with another one at once if the two do not clash and no plan outside the pair pads
one of them. On a clash it is joined with its own partner on that side.

- `Rivals`: both plans have a link on a side, with different partners.
- `clash_eq_safe_iff`, `clash_eq_side_iff`: when plans clash, and on which side.
- `between_of_linkBetween`, `linkBetween_eq_none_iff`: which link two plans have with each other.
- `inside_iff`, `exists_of_outside`: whether a plan outside the pair pads one of two plans.
- `nextJoin_eq_join`, `nextJoin_eq_resolve_iff`: what has to happen first when two plans are to
  be joined.
-/

namespace QueryPlan

variable {a b : TablePlan} {side : Side} {partner padded : PlanId}

/-! ## Sides -/

theorem Side.other_other (side : Side) : side.other.other = side := by cases side <;> rfl

theorem Side.eq_or_eq_other (side s : Side) : s = side ∨ s = side.other := by
  cases side <;> cases s <;> simp [Side.other]

theorem isLinkedTo_iff {p : TablePlan} {id : PlanId} :
    p.isLinkedTo id = true ↔ ∃ side link, p.linkOn side = some link ∧ link.target = id := by
  unfold TablePlan.isLinkedTo TablePlan.leftTarget? TablePlan.rightTarget?
  simp only [Bool.or_eq_true, beq_iff_eq, Option.map_eq_some_iff]
  constructor
  · rintro (⟨link, hlink, htarget⟩ | ⟨link, hlink, htarget⟩)
    · exact ⟨.left, link, hlink, htarget⟩
    · exact ⟨.right, link, hlink, htarget⟩
  · rintro ⟨side, link, hlink, htarget⟩
    cases side
    · exact Or.inl ⟨link, hlink, htarget⟩
    · exact Or.inr ⟨link, hlink, htarget⟩

theorem not_isLinkedTo {p : TablePlan} (h : ∀ side, p.linkOn side = none) (id : PlanId) :
    p.isLinkedTo id = false := by
  rw [Bool.eq_false_iff, ne_eq, isLinkedTo_iff]
  rintro ⟨side, link, hlink, -⟩
  rw [h side] at hlink
  cases hlink

/-! ## Clashes -/

/-- Both plans have a link on the side, with different partners. -/
def Rivals (side : Side) (a b : TablePlan) : Prop :=
  ∃ x y, a.linkOn side = some x ∧ b.linkOn side = some y ∧ x.target ≠ y.target

theorem Rivals.symm (h : Rivals side a b) : Rivals side b a := by
  obtain ⟨x, y, hx, hy, hne⟩ := h
  exact ⟨y, x, hy, hx, hne.symm⟩

theorem differ_iff (side : Side) : differ ((a.linkOn side).map JoinLink.target)
    ((b.linkOn side).map JoinLink.target) = true ↔ Rivals side a b := by
  unfold Rivals
  cases a.linkOn side <;> cases b.linkOn side <;> simp [differ]

/-- The clash on a side. -/
def Side.clash : Side → Clash
  | .left => .left
  | .right => .right

theorem clash_eq_safe_of_linked (h : a.isLinkedTo b.id = true ∨ b.isLinkedTo a.id = true) :
    clash a b = .safe :=
  if_pos (Bool.or_eq_true_iff.mpr h)

/-- Plans that are not linked clash on the first side on which they are rivals. -/
theorem clash_of_unlinked (h : ¬ (a.isLinkedTo b.id = true ∨ b.isLinkedTo a.id = true)) :
    Rivals .left a b ∧ clash a b = .left ∨
      ¬ Rivals .left a b ∧ Rivals .right a b ∧ clash a b = .right ∨
        (∀ side, ¬ Rivals side a b) ∧ clash a b = .safe := by
  have hleft : differ a.leftTarget? b.leftTarget? = true ↔ Rivals .left a b := differ_iff .left
  have hright : differ a.rightTarget? b.rightTarget? = true ↔ Rivals .right a b :=
    differ_iff .right
  unfold clash
  rw [if_neg fun hlinked => h (Bool.or_eq_true_iff.mp hlinked)]
  by_cases hl : Rivals .left a b
  · exact Or.inl ⟨hl, if_pos (hleft.mpr hl)⟩
  · rw [if_neg (mt hleft.mp hl)]
    by_cases hr : Rivals .right a b
    · exact Or.inr (Or.inl ⟨hl, hr, if_pos (hright.mpr hr)⟩)
    · refine Or.inr (Or.inr ⟨fun side => ?_, if_neg (mt hright.mp hr)⟩)
      cases side
      · exact hl
      · exact hr

theorem clash_eq_safe_iff : clash a b = .safe ↔
    (a.isLinkedTo b.id = true ∨ b.isLinkedTo a.id = true) ∨ ∀ side, ¬ Rivals side a b := by
  by_cases hlinked : a.isLinkedTo b.id = true ∨ b.isLinkedTo a.id = true
  · exact iff_of_true (clash_eq_safe_of_linked hlinked) (Or.inl hlinked)
  · rw [or_iff_right hlinked]
    rcases clash_of_unlinked hlinked with ⟨hl, h⟩ | ⟨-, hr, h⟩ | ⟨hnone, h⟩ <;> rw [h]
    · exact iff_of_false Clash.noConfusion fun hnone => hnone .left hl
    · exact iff_of_false Clash.noConfusion fun hnone => hnone .right hr
    · exact iff_of_true rfl hnone

theorem clash_eq_side_iff : clash a b = side.clash ↔
    ¬ (a.isLinkedTo b.id = true ∨ b.isLinkedTo a.id = true) ∧ Rivals side a b ∧
      (side = .right → ¬ Rivals .left a b) := by
  by_cases hlinked : a.isLinkedTo b.id = true ∨ b.isLinkedTo a.id = true
  · rw [clash_eq_safe_of_linked hlinked]
    exact iff_of_false (by cases side <;> rintro ⟨⟩) fun h => h.1 hlinked
  · rw [and_iff_right hlinked]
    rcases clash_of_unlinked hlinked with ⟨hl, h⟩ | ⟨hl, hr, h⟩ | ⟨hnone, h⟩ <;> rw [h]
    · cases side with
      | left => exact iff_of_true rfl ⟨hl, nofun⟩
      | right => exact iff_of_false Clash.noConfusion fun h => h.2 rfl hl
    · cases side with
      | left => exact iff_of_false Clash.noConfusion fun h => hl h.1
      | right => exact iff_of_true rfl ⟨hr, fun _ => hl⟩
    · exact iff_of_false (by cases side <;> rintro ⟨⟩) fun h => hnone side h.1

theorem exists_side_of_clash (h : clash a b ≠ .safe) : ∃ side : Side, clash a b = side.clash := by
  cases hclash : clash a b with
  | safe => exact absurd hclash h
  | left => exact ⟨.left, rfl⟩
  | right => exact ⟨.right, rfl⟩

theorem clash_safe_comm (h : clash a b = .safe) : clash b a = .safe :=
  clash_eq_safe_iff.mpr ((clash_eq_safe_iff.mp h).imp Or.symm fun h side hr => h side hr.symm)

/-! ## The link between two plans -/

/-- Whether `link` is recorded on the right of `l`, where it leads to `r`, or on the left of `r`. -/
def JoinLink.Between (link : JoinLink) (l r : TablePlan) : Prop :=
  l.linkOn .right = some link ∧ link.target = r.id ∨
    r.linkOn .left = some link ∧ link.target = l.id

theorem aimedAt_eq_some {id : PlanId} {o : Option JoinLink} {link : JoinLink} :
    aimedAt id o = some link ↔ o = some link ∧ link.target = id := by
  unfold aimedAt
  rw [Option.filter_eq_some_iff, decide_eq_true_eq]

/-- The link found between two plans, by the plan on its left and the one on its right. -/
theorem between_of_linkBetween {sided : SidedLink} (h : linkBetween a b = some sided) :
    ∃ l r, (l = a ∧ r = b ∨ l = b ∧ r = a) ∧ sided.left = l.id ∧ sided.right = r.id ∧
      sided.link.Between l r := by
  unfold linkBetween at h
  simp only [Option.orElse_eq_orElse, Option.orElse_eq_or, Option.or_eq_some_iff,
    Option.map_eq_some_iff, aimedAt_eq_some] at h
  rcases h with ⟨link, hlink, rfl⟩ | ⟨-, ⟨link, hlink, rfl⟩ | ⟨-, ⟨link, hlink, rfl⟩ |
    ⟨-, link, hlink, rfl⟩⟩⟩
  · exact ⟨a, b, Or.inl ⟨rfl, rfl⟩, rfl, rfl, Or.inl hlink⟩
  · exact ⟨b, a, Or.inr ⟨rfl, rfl⟩, rfl, rfl, Or.inr hlink⟩
  · exact ⟨b, a, Or.inr ⟨rfl, rfl⟩, rfl, rfl, Or.inl hlink⟩
  · exact ⟨a, b, Or.inl ⟨rfl, rfl⟩, rfl, rfl, Or.inr hlink⟩

theorem linkBetween_eq_none_iff :
    linkBetween a b = none ↔ a.isLinkedTo b.id = false ∧ b.isLinkedTo a.id = false := by
  have haimed : ∀ {id : PlanId} {o : Option JoinLink},
      aimedAt id o = none ↔ (o.map JoinLink.target == some id) = false := by
    intro id o
    cases o <;> simp [aimedAt]
  unfold linkBetween TablePlan.isLinkedTo TablePlan.leftTarget? TablePlan.rightTarget?
  simp only [Option.orElse_eq_orElse, Option.orElse_eq_or, Option.or_eq_none_iff,
    Option.map_eq_none_iff, haimed, Bool.or_eq_false_iff]
  tauto

/-- Plans with a link between them do not clash. -/
theorem clash_of_linkBetween {sided : SidedLink} (h : linkBetween a b = some sided) :
    clash a b = .safe := by
  obtain ⟨l, r, hsides, -, -, hlink⟩ := between_of_linkBetween h
  have hlinked : l.isLinkedTo r.id = true ∨ r.isLinkedTo l.id = true :=
    hlink.imp (fun h => isLinkedTo_iff.mpr ⟨_, _, h⟩) fun h => isLinkedTo_iff.mpr ⟨_, _, h⟩
  rcases hsides with ⟨rfl, rfl⟩ | ⟨rfl, rfl⟩
  · exact clash_eq_safe_of_linked hlinked
  · exact clash_eq_safe_of_linked hlinked.symm

/-! ## Outer joins with plans outside the pair -/

theorem inside_iff : nullPaddedFromOutside? a b = none ↔
    (∀ id, a.nullPaddedBy? = some id → id = b.id) ∧
      ∀ id, b.nullPaddedBy? = some id → id = a.id := by
  have hinside : ∀ {p q : TablePlan},
      ¬ (p.nullPaddedBy?.any fun partner => partner != q.id) = true ↔
        ∀ id, p.nullPaddedBy? = some id → id = q.id := by
    intro p q
    cases p.nullPaddedBy? <;> simp
  unfold nullPaddedFromOutside?
  rw [← hinside, ← hinside]
  split
  · rename_i ha
    exact iff_of_false nofun fun h => h.1 ha
  · rename_i ha
    split
    · rename_i hb
      exact iff_of_false nofun fun h => h.2 hb
    · rename_i hb
      exact iff_of_true rfl ⟨ha, hb⟩

theorem exists_of_outside (h : nullPaddedFromOutside? a b = some padded) :
    (padded = a.id ∧ ∃ id, a.nullPaddedBy? = some id ∧ id ≠ b.id) ∨
      padded = b.id ∧ ∃ id, b.nullPaddedBy? = some id ∧ id ≠ a.id := by
  unfold nullPaddedFromOutside? at h
  simp only [Option.any_eq_true, bne_iff_ne] at h
  split at h
  · exact Or.inl ⟨(Option.some.inj h).symm, ‹_›⟩
  · split at h
    · exact Or.inr ⟨(Option.some.inj h).symm, ‹_›⟩
    · cases h

/-! ## What has to happen first -/

theorem nextJoin_eq_resolve_iff : nextJoin a b = .resolve padded ↔
    clash a b = .safe ∧ nullPaddedFromOutside? a b = some padded := by
  unfold nextJoin
  cases clash a b <;> cases nullPaddedFromOutside? a b <;> simp

theorem nextJoin_of_inside (hsafe : clash a b = .safe)
    (hinside : nullPaddedFromOutside? a b = none) : nextJoin a b = .join b.id := by
  unfold nextJoin
  simp only [hsafe, hinside]

/-- A plan is joined with the other one, or with its own partner where the two clash. -/
theorem nextJoin_eq_join (h : nextJoin a b = .join partner) :
    (clash a b = .safe ∧ nullPaddedFromOutside? a b = none ∧ partner = b.id) ∨
      ∃ side link, clash a b = side.clash ∧ a.linkOn side = some link ∧ link.target = partner := by
  unfold nextJoin at h
  by_cases hsafe : clash a b = .safe
  · rw [hsafe] at h
    cases hout : nullPaddedFromOutside? a b with
    | none =>
      simp only [hout, NextJoin.join.injEq] at h
      exact Or.inl ⟨hsafe, rfl, h.symm⟩
    | some id =>
      simp only [hout] at h
      cases h
  · obtain ⟨side, hclash⟩ := exists_side_of_clash hsafe
    obtain ⟨-, ⟨x, -, hx, -⟩, -⟩ := clash_eq_side_iff.mp hclash
    refine Or.inr ⟨side, x, hclash, hx, ?_⟩
    rw [hclash] at h
    cases side with
    | left =>
      rw [TablePlan.linkOn_left] at hx
      simpa [Side.clash, TablePlan.leftTarget?, hx] using h
    | right =>
      rw [TablePlan.linkOn_right] at hx
      simpa [Side.clash, TablePlan.rightTarget?, hx] using h

/-- What a plan is joined with is linked to it, or is the other plan. -/
theorem joinable_of_nextJoin (h : nextJoin a b = .join partner) :
    a.isLinkedTo partner = true ∨ partner = b.id ∧ clash a b = .safe := by
  rcases nextJoin_eq_join h with ⟨hsafe, -, hid⟩ | ⟨side, link, -, hlink, htarget⟩
  · exact Or.inr ⟨hid, hsafe⟩
  · exact Or.inl (isLinkedTo_iff.mpr ⟨side, link, hlink, htarget⟩)

end QueryPlan
