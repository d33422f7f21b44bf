import QueryPlan.Proofs.SoundFilters

/-!
# How planning fails

- `plan_ok_or_expected`: over plans whose links pass their check, a filter is
  planned as a plan without links, or planning fails for want of a single owner
  of a column, or for a full join.

No other error comes up: no handle is lost, no two plans that clash are joined,
and the sides of an OR always have the same columns.
-/

namespace QueryPlan

/-- Over plans under handles of their own, which were given out before, and with links that pass
their check, any filter is planned as a plan without links, unless a column has not exactly one
owner or a full join comes up. -/
theorem plan_ok_or_expected {set : TableSet} {context : Context} (filter : Option Expr)
    (hne : set.tables ≠ []) (hids : (set.tables.map TablePlan.id).Nodup)
    (hgiven : ∀ p ∈ set.tables, p.id.number < context.supply.next)
    (hvalid : set.validateLinks = .ok ()) :
    (∃ plan w, Planner.plan filter ⟨set, context⟩ = .ok plan w ∧
      plan.left = none ∧ plan.right = none) ∨
    ∃ e w, Planner.plan filter ⟨set, context⟩ = .error e w ∧ e.Expected := by
  have hw := sound_of_validateLinks (P := fun on => ∀ e, on = some e → False → e.isPlain = true)
    hne hids hgiven hvalid fun _ _ _ _ _ _ _ h => h.elim
  have hmeets : Planner.Meets (Planner.planWholeWith planCondition filter) ⟨set, context⟩ _ :=
    Planner.meets_planWholeWith (conditionLaw_planCondition False) (fun _ _ h => h.elim) hw
  show (∃ plan w, Planner.planWholeWith planCondition filter ⟨set, context⟩ = .ok plan w ∧ _) ∨
    ∃ e w, Planner.planWholeWith planCondition filter ⟨set, context⟩ = .error e w ∧ _
  cases hplan : Planner.planWholeWith planCondition filter ⟨set, context⟩ with
  | error e w => exact Or.inr ⟨e, w, rfl, hmeets.expected hplan⟩
  | ok plan w =>
    -- The plan is the last one of a sound set, so there is none that it could be linked to.
    obtain ⟨w₁, hsteps, hsingle, -⟩ := hmeets.ok hplan
    have hanswered := (hsteps.sound hw).answered
    rw [hsingle] at hanswered
    exact Or.inl ⟨plan, w, rfl, hanswered.linkOn_of_single .left, hanswered.linkOn_of_single .right⟩

/-- A chain of outer joins with an OR as a filter. -/
theorem plan_ok_or_expected_of_chain :
    let set : TableSet := ⟨chainOfOnes .left (.binary (columnOf "a") .eq (columnOf "b"))
      (.binary (columnOf "b") .lt (columnOf "c")), false⟩
    let filter := Expr.binary (.binary (columnOf "a") .eq (columnOf "c")) .or
      (.unary .isNull (columnOf "b"))
    (∃ plan w, Planner.plan (some filter) ⟨set, .start .blank default ⟨4⟩⟩ = .ok plan w ∧
      plan.left = none ∧ plan.right = none) ∨
    ∃ e w, Planner.plan (some filter) ⟨set, .start .blank default ⟨4⟩⟩ = .error e w ∧
      e.Expected := by
  intro set filter
  have hset : CheckedTables ones literals ⟨4⟩ set .left :=
    chainOfOnes_checked (.refl _) rfl ⟨rfl, by decide⟩ ⟨rfl, by decide⟩
  have hne : set.tables ≠ [] := List.cons_ne_nil _ _
  exact plan_ok_or_expected (some filter) hne hset.base.ids hset.base.given hset.valid

end QueryPlan
