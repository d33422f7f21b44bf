import QueryPlan.Expr.Render
import QueryPlan.Join
import QueryPlan.Predicate.Classify

/-!
# Applying predicates

* `Planner.applyWith`: changes the set so that a predicate holds of its rows. An
  OR is not applied here but planned on its own, by the computation given.
* `Planner.applyStandardJoinWith`: joins the plans of both sides of a comparison
  on the side that is a column alone.
-/

namespace QueryPlan

namespace Planner

/-- Puts a select on the plan of a handle. -/
def selectOn (id : PlanId) (select : PlanNode → PlanNode) : Planner Unit :=
  changePlan id (TablePlan.update select)

/-- Evaluates a predicate row by row on the plan of a handle. -/
def selectRows (id : PlanId) (expr : Expr) : Planner Unit :=
  selectOn id (.exhaustiveSelect · expr)

/-- Puts a predicate that reads no column on every plan. -/
def selectConstant (expr : Expr) : Planner Unit :=
  change fun set =>
    { set with tables := set.tables.map (TablePlan.update (.constantSelect · expr)) }

section

variable (condition : ConditionPlanner)

/-- The plan that owns a column, after no pending outer join pads it. -/
def ownerWith (column : ColumnName) : Planner PlanId := do
  resolveWith condition (← ask fun set => set.owner column)

/-- Joins two plans, and then evaluates a comparison row by row. -/
def joinThenSelectWith (lhs rhs : PlanId) (expr : Expr) : Planner Unit := do
  selectRows (← joinSomeWith condition [lhs, rhs]) expr

/-- Whether two plans have to be joined by their links, or clash. -/
def mustJoinByLinks (lhs rhs : PlanId) : Planner Bool := do
  let l ← ask fun set => set.require lhs
  let r ← ask fun set => set.require rhs
  return l.isLinkedTo rhs || r.isLinkedTo lhs || clash l r != .safe

/-- Joins the plans of both sides of a comparison on the side that is a column alone. Where
one plan holds both sides already, or the links decide how they are joined, the comparison is
evaluated row by row. -/
def applyStandardJoinWith (expr : Expr) : Planner Unit := do
  match expr with
  | .binary left op right =>
    match left.references, right.references with
    | first :: others, rightColumn :: rightOthers =>
      let _ ← joinReadersWith condition (first :: others)
      let rhs ← joinReadersWith condition (rightColumn :: rightOthers)
      -- The join of the right side may have taken in the plan of the left side.
      let lhs ← ask fun set => set.owner first
      if lhs = rhs then selectRows lhs expr
      else if ← mustJoinByLinks lhs rhs then joinThenSelectWith condition lhs rhs expr
      else
        match left.asReference?, right.asReference? with
        | some column, _ =>
          let _ ← merge lhs rhs fun l r => .join l r column op right
        | none, some column =>
          let _ ← merge rhs lhs fun r l => .join r l column op.reverse left
        | none, none => joinThenSelectWith condition lhs rhs expr
    | _, _ => selectRows (← joinReadersWith condition expr.references) expr
  | expr =>
    throw (.malformedExpression ("join predicate is not a comparison: " ++ expr.render))

/-- Changes the set so that a predicate holds of its rows; `planOr` plans an OR. -/
def applyWith (planOr : Planner Unit) (predicate : Predicate) : Planner Unit := do
  match predicate with
  | .constant expr => selectConstant expr
  | .simpleSingle column op value =>
    selectOn (← ownerWith condition column) (.simpleSelect · column op value)
  | .complexSingle column expr => selectRows (← ownerWith condition column) expr
  | .simplePattern column op pattern escape =>
    selectOn (← ownerWith condition column) (.patternSelect · column op pattern escape)
  | .complexPattern expr references =>
    selectRows (← joinReadersWith condition references) expr
  | .exhaustiveJoin expr references =>
    selectRows (← joinReadersWith condition references) expr
  | .exhaustiveSubQuery expr references =>
    selectRows (← joinReadersWith condition references) expr
  | .simpleSubQuery column op quantifier query =>
    selectOn (← ownerWith condition column) (.anyAllSelect · query.plan [column] op quantifier)
  | .standardJoin expr _ => applyStandardJoinWith condition expr
  | .subLogic _ _ => planOr

end

end Planner

end QueryPlan
