import QueryPlan.Proofs.JoinFlag
import QueryPlan.Proofs.Vacuous

/-!
# Handles are opaque

- `Renames.sameTrees`: runs over a set and the renamed set that plan the very same
  trees.
- `planQuery_rename`: a query over a set of the renamed plans, with handles given out
  from anywhere above, gives the same plan up to names, or fails for the same reason
  up to names.
-/

namespace QueryPlan

variable {g : PlanId → PlanId} {set set' : TableSet} {supply supply' : PlanId.Supply}
  {uuids uuids' : Identifiers} {settings : Settings}

namespace Renames

/-- How a run over the set and a run over the renamed set are alike when even the ids of caches
agree. -/
def sameTrees (h : Renames g set supply supply') : Likeness :=
  h.likeness Eq (some Eq) (fun _ => True) True

/-- Plans of both runs differ by the names alone. -/
theorem plan_eq (h : Renames g set supply supply') {p q : TablePlan}
    (hlike : p.Like h.sameTrees q) : q = p.rename (namesFrom supply supply' g) := by
  have hlink : ∀ {o o' : Option JoinLink}, Option.Rel (JoinLink.Like h.sameTrees) o o' →
      o' = o.map (JoinLink.rename (namesFrom supply supply' g)) := by
    rintro _ _ (⟨⟨htarget, htype, hon, -⟩⟩ | _)
    · rename_i link link'
      obtain ⟨target, joinType, on⟩ := link'
      cases htarget.1
      cases htype
      cases hon
      rfl
    · rfl
  have hexecutable : q.executable = p.executable :=
    (hlike.executable.sameUpToNames rfl fun _ _ hi => hi).eq (fun _ _ h => h.symm)
      fun _ _ hi => hi.symm
  obtain ⟨id, executable, columns, uniqueKeys, left, right, touched⟩ := q
  cases hlike.id.1
  cases hexecutable
  cases hlike.columns
  cases hlike.uniqueKeys
  cases hlike.touched
  cases hlink hlike.left
  cases hlink hlike.right
  rfl

end Renames

/-- A query over plans whose handles were renamed, and with fresh handles from another supply. The
names extend to the fresh handles, still differ, and the same plan is planned under them, or
planning fails for the same reason under them. -/
theorem planQuery_rename (hmarks : settings.markers.strategy = .sequential)
    (h : Renames g set supply supply') (htables : set'.tables = set.tables.map (TablePlan.rename g))
    (filter : Option Expr) :
    ∃ names : PlanId → PlanId, (∀ i ∈ set.handles, names i = g i) ∧
      (∀ i j, (i ∈ set.handles ∨ supply.next ≤ i.number) →
        (j ∈ set.handles ∨ supply.next ≤ j.number) → names i = names j → i = j) ∧
      ((∃ plan rest rest', planQuery uuids settings set filter supply = .ok plan rest ∧
          planQuery uuids' settings set' filter supply' = .ok (plan.rename names) rest') ∨
        ∃ cause rest rest', planQuery uuids settings set filter supply = .error cause rest ∧
          planQuery uuids' settings set' filter supply' = .error (cause.mapIds names) rest') := by
  have hnote : planQuery uuids' settings set' filter =
      planQuery uuids' settings (set.rename g) filter := planQuery_congr htables
  rw [hnote]
  refine ⟨namesFrom supply supply' g, fun i hi => namesFrom_of_given (h.given i hi),
    fun i j hi hj => h.eq_of_names hi hj, ?_⟩
  have hset : set.Like h.sameTrees (set.rename g) :=
    h.set_like
      (fun p _ => PlanNode.like_self (fun _ => rfl) (fun _ i _ => ⟨Eq, rfl, rfl⟩)
        fun _ _ _ _ _ _ => trivial)
      fun _ _ _ _ _ _ _ => ⟨fun _ _ => trivial, fun hnot => absurd trivial hnot⟩
  have hcontext : (Context.start uuids settings supply).Like h.sameTrees
      (.start uuids' settings supply') :=
    h.context_like hmarks rfl ⟨rfl, fun _ => rfl⟩
  have hresult := planQuery_like hset hcontext rfl
    fun e (_ : filter = some e) => ⟨fun _ _ => trivial, fun hnot => absurd trivial hnot⟩
  generalize planQuery uuids settings set filter supply = result at hresult
  generalize planQuery uuids' settings (set.rename g) filter supply' = result' at hresult
  cases hresult with
  | ok plans => exact Or.inl ⟨_, _, _, rfl, congrArg (EStateM.Result.ok · _) (h.plan_eq plans)⟩
  | error cause =>
    exact Or.inr ⟨_, _, _, rfl, congrArg (EStateM.Result.error · _) (h.error_eq cause)⟩

/-- An OR over a chain of outer joins, and over the same chain with its handles in the opposite
order, as one that a merge made. -/
theorem planQuery_rename_of_chain :
    let plans := chainOfOnes .left (.binary (columnOf "a") .eq (columnOf "b"))
      (.binary (columnOf "b") .lt (columnOf "c"))
    let filter := Expr.binary (.binary (columnOf "a") .eq (columnOf "c")) .or
      (.unary .isNull (columnOf "b"))
    let g : PlanId → PlanId := fun i => ⟨10 - i.number⟩
    ∃ names plan rest rest',
      planQuery .blank default ⟨plans, false⟩ (some filter) ⟨4⟩ = .ok plan rest ∧
      plan.executable.count PlanNode.isCache = 6 ∧
      planQuery .blank default ⟨plans.map (TablePlan.rename g), true⟩ (some filter) ⟨50⟩ =
        .ok (plan.rename names) rest' := by
  intro plans filter g
  have hok : resultWith (fun plan _ => plan.executable.count PlanNode.isCache)
      (planQuery .blank default ⟨plans, false⟩ (some filter) ⟨4⟩) = some 6 := by
    decide +kernel
  obtain ⟨plan, rest, h, hcount⟩ := exists_of_resultWith hok
  obtain ⟨names, -, -, hsame⟩ := @planQuery_rename g ⟨plans, false⟩
    ⟨plans.map (TablePlan.rename g), true⟩ ⟨4⟩ ⟨50⟩ .blank .blank default rfl
    ⟨by decide, by decide, by decide⟩ rfl (some filter)
  rcases hsame with ⟨plan₁, rest₁, rest', h₁, h'⟩ | ⟨cause, rest₁, rest', h₁, -⟩
  · cases h.symm.trans h₁
    exact ⟨names, plan, rest, rest', h, hcount, h'⟩
  · cases h.symm.trans h₁

end QueryPlan
