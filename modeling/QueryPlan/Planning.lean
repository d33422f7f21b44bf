import QueryPlan.Filter
import QueryPlan.TableSet.Links

/-!
# Planning queries

The planner with the conditions of join links planned by itself: over a pair of
copies, which have no links, so that no further condition comes up there.

* `Planner.planExpression`: applies a filter to the set.
* `Planner.evaluate`: applies a filter and joins the set into one plan tree.
* `Planner.joinPair`, `joinAll`, `joinEverything`, `joinReaders`: joins.
* `planQuery`: plans a filter over a set with the given settings.
-/

namespace QueryPlan

/-- Plans no condition. It is what the planner of conditions itself uses: the pairs that it
works on have no links. -/
def noCondition : ConditionPlanner := fun _ => throw .emptyTableSet

/-- Turns a pair of copies, and the condition of the link between them, into one plan tree. -/
def planCondition : ConditionPlanner := fun on => do
  return (← Planner.planWholeWith noCondition on).executable

namespace Planner

/-! ## Joins -/

/-- Joins two plans by the link between them, or else as all pairs of their rows. -/
def joinPair (first second : PlanId) : Planner PlanId := joinPairWith planCondition first second

/-- Joins plans into one; none if there are none. -/
def joinAll (ids : List PlanId) : Planner (Option PlanId) := joinAllWith planCondition ids

/-- Joins every plan of the set into one. -/
def joinEverything : Planner PlanId := joinEverythingWith planCondition

/-- Joins the plans that own the columns into one; without columns, every plan. -/
def joinReaders (columns : List ColumnName) : Planner PlanId :=
  joinReadersWith planCondition columns

/-! ## Filters -/

/-- Applies a filter to the set. -/
def planExpression (filter : Expr) : Planner Unit := planExpressionWith planCondition filter

/-- Applies conjuncts to the set, cheapest first. -/
def planConjuncts (conjuncts : List Expr) : Planner Unit :=
  planConjunctsWith planCondition conjuncts

/-- Applies one classified predicate to the set. -/
def apply (predicate : Predicate) : Planner Unit :=
  applyWith planCondition (planExpression predicate.meaning) predicate

/-- Applies an optional filter and joins the set into one plan. -/
def plan (filter : Option Expr) : Planner TablePlan := planWholeWith planCondition filter

/-- Applies an optional filter and joins the set into one plan tree. -/
def evaluate (filter : Option Expr) : Planner PlanNode := do
  return (← plan filter).executable

end Planner

/-- Plans an optional filter over a set. Every call numbers marks and cache ids from one, and draws
identifiers from a source of its own; only the supply of handles goes on from call to call. -/
def planQuery (uuids : Identifiers) (settings : Settings) (set : TableSet) (filter : Option Expr) :
    EStateM PlanError PlanId.Supply TablePlan := fun supply =>
  let check := if settings.planning.validateLinks then set.validateLinks else .ok ()
  match check with
  | .error e => .error e supply
  | .ok () =>
    match Planner.plan filter ⟨set, .start uuids settings supply⟩ with
    | .ok plan w => .ok plan w.context.supply
    | .error e w => .error e w.context.supply

end QueryPlan
