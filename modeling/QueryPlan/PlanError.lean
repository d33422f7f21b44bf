import QueryPlan.Column.Record
import QueryPlan.JoinType
import QueryPlan.PlanId

/-!
# Why planning fails

* `PlanError`: the causes.
* `PlanError.message`: the text of a cause.
* `PlanError.category`: the broad class of a cause.
* `PlanError.mapIds`: the same cause with its handles renamed.
-/

namespace QueryPlan

/-- One of the two sides on which a table plan has a join link. -/
inductive Side where
  | left | right
deriving DecidableEq, Inhabited

namespace Side

/-- The word for the side. -/
def name : Side → String
  | .left => "left"
  | .right => "right"

/-- The opposite side. -/
def other : Side → Side
  | .left => .right
  | .right => .left

end Side

/-- What is wrong with the links of a set. -/
inductive LinkFault where
  /-- `plan` has a link to `partner` on `side` that `partner` does not return. -/
  | unanswered (plan : PlanId) (side : Side) (partner : PlanId)
  /-- A fault told in words. -/
  | described (text : String)
deriving DecidableEq

/-- The text of a fault. -/
def LinkFault.message : LinkFault → String
  | .unanswered plan side partner =>
    plan.render ++ " joins " ++ partner.render ++ " on its " ++ side.name ++ ", but " ++
      partner.render ++ " has no matching " ++ side.other.name ++ " join"
  | .described text => text

/-- Why planning fails. -/
inductive PlanError where
  /-- No table plan exposes the column. -/
  | unresolvedColumn (column : ColumnName)
  /-- Several table plans expose the column. -/
  | ambiguousColumn (column : ColumnName) (count : Nat)
  /-- No table plan has the key. -/
  | unknownUniqueKey (key : String)
  /-- The handle is not in the set. -/
  | danglingLink (id : PlanId)
  /-- Both plans wait for a join on the same side, with different partners. -/
  | joinClash (left right : PlanId) (side : Side)
  | unsupportedJoinType (joinType : JoinType)
  /-- The two sides of an OR do not expose the same columns. -/
  | unionColumnMismatch (expected found : List ColumnName)
  /-- A link is not answered by the plan that it points to. -/
  | contradictoryLinks (fault : LinkFault)
  | cyclicJoinGraph
  | emptyTableSet
  | notSingleTable (count : Nat)
  /-- The expression does not have the shape that its operator needs. -/
  | malformedExpression (reason : String)
deriving DecidableEq

/-- The broad class of an error: a name that no single plan answers to, an inconsistent
set, or an expression of the wrong shape. -/
inductive ErrorCategory where
  | resolution | structural | malformed
deriving DecidableEq

namespace PlanError

/-- The text of an error. -/
def message : PlanError → String
  | .unresolvedColumn column => "Unable to find any table that references " ++ column.render
  | .ambiguousColumn column count =>
    "Column " ++ column.render ++ " is ambiguous: " ++ toString count ++
      " table plans expose it"
  | .unknownUniqueKey key => "Unable to find any table plan referenced by key " ++ key
  | .danglingLink id => "Table plan " ++ id.render ++ " is not part of this set"
  | .joinClash left right side =>
    "Plans " ++ left.render ++ " and " ++ right.render ++
      " can not be naturally joined: their " ++ side.name ++ " join plans clash"
  | .unsupportedJoinType joinType => "Join type (" ++ joinType.name ++ ") is not supported"
  | .unionColumnMismatch expected found =>
    "OR branches expose different columns: expected " ++ recordList expected ++ ", found " ++
      recordList found
  | .contradictoryLinks fault => "Join links are contradictory: " ++ fault.message
  | .cyclicJoinGraph => "Join link graph contains a cycle"
  | .emptyTableSet => "The table set has no table plans"
  | .notSingleTable count =>
    "The set has not a single table (found " ++ toString count ++ ")"
  | .malformedExpression reason => "Malformed expression: " ++ reason

/-- The broad class of an error. -/
def category : PlanError → ErrorCategory
  | .unresolvedColumn _ | .ambiguousColumn _ _ | .unknownUniqueKey _ => .resolution
  | .malformedExpression _ => .malformed
  | _ => .structural

/-- The same error with its handles renamed. -/
def mapIds (f : PlanId → PlanId) : PlanError → PlanError
  | .danglingLink id => .danglingLink (f id)
  | .joinClash left right side => .joinClash (f left) (f right) side
  | .contradictoryLinks (.unanswered plan side partner) =>
    .contradictoryLinks (.unanswered (f plan) side (f partner))
  | error => error

end PlanError

end QueryPlan
