import QueryPlan.Node.Explain
import QueryPlan.Predicate.Apply

/-!
# Planning a filter

A filter is taken apart at its ANDs. Its conjuncts are classified together and
applied in the order of their weights. An OR is planned over two copies of the
set, one for each side, whose plans are united position by position; where that
would unite more than one position, or where one side joined plans, both copies
are joined into one plan before.

* `Planner.agendaWith`: the conjuncts of a filter, each with the computation that
  plans it by itself.
* `Planner.planExpressionWith`: plans a filter; an OR by `planExpressionWith_or`.
* `Planner.planConjunctsWith`: plans a list of conjuncts.
* `Planner.planWholeWith`: plans a filter and joins what is left into one plan.
-/

namespace QueryPlan

/-! ## Uniting the sides of an OR -/

/-- Two plans, united if one of them was touched. -/
def unitePair (left right : TablePlan) : TablePlan :=
  if left.touched || right.touched then left.update (.union · right.executable) else left

/-- Two plans at a position that holds `before` in the set itself: united if one of them was
touched, and otherwise as before, without the cache that was put on for the two sides. -/
def unitePosition (cached : Bool) (before left right : TablePlan) : TablePlan :=
  if left.touched || right.touched then unitePair left right
  else
    { left.updateQuietly (if cached then PlanNode.withoutCache else id) with
      touched := before.touched }

/-- The plans of both sides, united position by position. -/
def unitePositions : List (Bool × TablePlan) → List TablePlan → List TablePlan → List TablePlan
  | (cached, before) :: rest, l :: ls, r :: rs =>
    unitePosition cached before l r :: unitePositions rest ls rs
  | _, _, _ => []

/-- Whether the sides can not be united position by position: more than one position was
touched, or plans were joined. -/
def mustReshape (left right : TableSet) : Bool :=
  let touched := (left.tables.zip right.tables).countP fun (l, r) => l.touched || r.touched
  decide (1 < touched) || left.tables.length != right.tables.length || left.hasJoins ||
    right.hasJoins

/-- Puts a cache on each tree that has none, where `last` is the id given last. Gives the
plans, each with whether a cache was put on, and the id given last. -/
def cachePlans (last : Nat) : List TablePlan → List (Bool × TablePlan) × Nat
  | [] => ([], last)
  | plan :: rest =>
    if plan.executable.isCache then
      let (others, newLast) := cachePlans last rest
      ((false, plan) :: others, newLast)
    else
      let (others, newLast) := cachePlans (last + 1) rest
      ((true, plan.updateQuietly (.cache · (last + 1))) :: others, newLast)

namespace Planner

/-- Puts a cache on each plan that has none, and tells which. -/
def setCache : Planner (List Bool) := do
  let w ← get
  let (plans, cacheIds) := cachePlans w.context.cacheIds w.set.tables
  replaceSet { w.set with tables := plans.map Prod.snd }
  modify fun w => { w with context := { w.context with cacheIds } }
  return plans.map Prod.fst

/-- Makes the only plan expose exactly the columns `order`, which have to be its own. -/
def reorderColumns (order : List ColumnName) : Planner Unit := do
  let plan ← ask TableSet.single
  if plan.columns = order then return
  else if plan.columns.length != order.length || !order.all plan.columns.contains then
    throw (.unionColumnMismatch order plan.columns)
  else
    changePlan plan.id fun plan =>
      { plan.update (.project · order) with columns := order }

/-- Caches the plans for the two sides of an OR, where that is wanted, and tells which. -/
def cacheForSides : Planner (List Bool) := do
  if ← cacheOrBranches then setCache
  else return (← current).tables.map fun _ => false

/-- Plans the two sides of an OR, each over a copy of the set. -/
def planSides (planLeft planRight : Planner Unit) : Planner (TableSet × TableSet) := do
  let left ← copy
  let right ← copy
  let (_, left) ← within left planLeft
  let (_, right) ← within right planRight
  return (left, right)

section

variable (condition : ConditionPlanner)

/-- Joins each side of an OR into one plan with the columns `order`. -/
def joinSidesWith (order : List ColumnName) (left right : TableSet) :
    Planner (TableSet × TableSet) := do
  let (_, left) ← within left (joinEverythingWith condition)
  let (_, right) ← within right (joinEverythingWith condition)
  let (_, left) ← within left (reorderColumns order)
  let (_, right) ← within right (reorderColumns order)
  return (left, right)

/-- Plans the two sides of an OR over copies of the set and unites the results. -/
def planOrWith (planLeft planRight : Planner Unit) : Planner Unit := do
  let cached ← cacheForSides
  let whole ← current
  let (left, right) ← planSides planLeft planRight
  if mustReshape left right then
    let (left, right) ← joinSidesWith condition (whole.tables.flatMap TablePlan.columns) left right
    replaceSet ⟨left.tables.zipWith unitePair right.tables,
      whole.hasJoins || left.hasJoins || right.hasJoins⟩
  else
    replaceSet
      ⟨unitePositions (cached.zip whole.tables) left.tables right.tables, whole.hasJoins⟩

/-- Applies predicates in turn, each with the computation that plans it if it is an OR. -/
def applyAllWith : List (Predicate × Planner Unit) → Planner Unit
  | [] => return
  | (predicate, planOr) :: rest => do
    applyWith condition planOr predicate
    applyAllWith rest

/-- Classifies conjuncts together and applies them, each with the computation that plans it
if it is an AND or an OR. -/
def planAgendaWith (agenda : List (Expr × Planner Unit)) : Planner Unit := do
  applyAllWith condition (← ask fun set => set.classifyAll agenda)

/-- Plans the conjuncts of one filter. A filter that is an OR is not classified. -/
def runAgendaWith (agenda : List (Expr × Planner Unit)) : Planner Unit :=
  match agenda with
  | [(.binary _ .or _, planOr)] => planOr
  | agenda => planAgendaWith condition agenda

/-- The conjuncts of a filter, each with the computation that plans it by itself if it is
an OR. -/
def agendaWith : Expr → List (Expr × Planner Unit)
  | .binary left .and right => agendaWith left ++ agendaWith right
  | .binary left .or right =>
    [(.binary left .or right,
      planOrWith condition (runAgendaWith condition (agendaWith left))
        (runAgendaWith condition (agendaWith right)))]
  | e => [(e, return)]

/-- Plans a filter. -/
def planExpressionWith (filter : Expr) : Planner Unit :=
  runAgendaWith condition (agendaWith condition filter)

theorem planExpressionWith_or (left right : Expr) :
    planExpressionWith condition (.binary left .or right) =
      planOrWith condition (planExpressionWith condition left)
        (planExpressionWith condition right) := rfl

/-- The agenda of a filter lists its conjuncts. -/
theorem map_fst_agendaWith (filter : Expr) :
    (agendaWith condition filter).map Prod.fst = filter.conjuncts := by
  fun_induction agendaWith condition filter with
  | case1 left right ihLeft ihRight => simp [Expr.conjuncts, ihLeft, ihRight]
  | case2 => rfl
  | case3 e => simp_all [Expr.conjuncts]

/-- Plans a list of conjuncts, cheapest first. -/
def planConjunctsWith (conjuncts : List Expr) : Planner Unit :=
  planAgendaWith condition (conjuncts.map fun e => (e, planExpressionWith condition e))

/-- Plans an optional filter and joins what is left into one plan, which it takes out of
the set. -/
def planWholeWith (filter : Option Expr) : Planner TablePlan := do
  if (← current).tables.isEmpty then throw .emptyTableSet
  match filter with
  | some filter => planExpressionWith condition filter
  | none => pure ()
  let id ← joinEverythingWith condition
  let plan ← ask fun set => set.require id
  change fun set => set.erase id
  return plan

end

end Planner

end QueryPlan
