import QueryPlan.Expr.Same
import QueryPlan.JoinType
import QueryPlan.PlanId

/-!
# Table plans

A table plan is a table, or the merge of several, on its way to one plan tree.
For `L type JOIN R ON c` the plan of `L` has a link to `R` on its right and the
plan of `R` one to `L` on its left, both with the same type and condition.

* `TablePlan.exposes`, `hasKey`: what a reference or a key resolves to.
* `TablePlan.nullPaddedBy?`: the partner of a pending outer join that pads this
  plan's rows with nulls.
* `TablePlan.update`, `updateQuietly`: change the tree, with and without noting
  that the plan was touched.
* `TablePlan.detached`, `TablePlan.concat`: a copy without links, and the merge
  of two plans.
-/

namespace QueryPlan

/-- A pending join with another plan of the set. -/
structure JoinLink where
  target : PlanId
  joinType : JoinType
  on : Option Expr

namespace JoinLink

/-- Whether two links agree in type and condition. -/
def agrees (a b : JoinLink) : Bool := a.joinType == b.joinType && a.on == b.on

/-- The link, aimed at `target` if its own target is one of `ids`. -/
def retarget (ids : List PlanId) (target : PlanId) (link : JoinLink) : JoinLink :=
  if link.target ∈ ids then { link with target } else link

end JoinLink

/-- A table, or the merge of several, on its way to one plan tree. -/
structure TablePlan where
  id : PlanId
  executable : PlanNode
  columns : List ColumnName
  uniqueKeys : List String
  left : Option JoinLink
  right : Option JoinLink
  /-- Whether the tree was changed by a predicate or a join. -/
  touched : Bool

namespace TablePlan

/-- A plan without links. -/
def create (id : PlanId) (executable : PlanNode) (columns : List ColumnName)
    (uniqueKeys : List String) : TablePlan :=
  ⟨id, executable, columns, uniqueKeys, none, none, false⟩

/-- A base table: its columns are qualified by its name, which is also its key. -/
def base (id : PlanId) (table : String) (columns : List String) : TablePlan :=
  create id (.source table) (columns.map (ColumnName.qualified table)) [table]

/-- The partner of the link on the left. -/
def leftTarget? (plan : TablePlan) : Option PlanId := plan.left.map JoinLink.target

/-- The partner of the link on the right. -/
def rightTarget? (plan : TablePlan) : Option PlanId := plan.right.map JoinLink.target

/-- Whether a reference resolves to a column of the plan. -/
def exposes (plan : TablePlan) (reference : ColumnName) : Bool :=
  plan.columns.any fun column => reference.resolvesTo column

/-- Whether the plan has a unique key. -/
def hasKey (plan : TablePlan) (key : String) : Bool := plan.uniqueKeys.contains key

/-- Whether `other` is the partner of one of the plan's links. -/
def isLinkedTo (plan : TablePlan) (other : PlanId) : Bool :=
  plan.leftTarget? == some other || plan.rightTarget? == some other

/-- The partner of a pending outer join that pads the plan's rows with nulls: that of a left
or full join on its left, or else of a right or full join on its right. -/
def nullPaddedBy? (plan : TablePlan) : Option PlanId :=
  match plan.left.filter fun link => link.joinType = .left ∨ link.joinType = .full with
  | some link => some link.target
  | none =>
    (plan.right.filter fun link => link.joinType = .right ∨ link.joinType = .full).map
      JoinLink.target

/-- Changes the tree without noting it. -/
def updateQuietly (f : PlanNode → PlanNode) (plan : TablePlan) : TablePlan :=
  { plan with executable := f plan.executable }

/-- Changes the tree, after which the plan counts as touched. -/
def update (f : PlanNode → PlanNode) (plan : TablePlan) : TablePlan :=
  { plan with executable := f plan.executable, touched := true }

/-- The plan with a link on its left. -/
def withLeft (link : JoinLink) (plan : TablePlan) : TablePlan := { plan with left := some link }

/-- The plan with a link on its right. -/
def withRight (link : JoinLink) (plan : TablePlan) : TablePlan := { plan with right := some link }

/-- The plan with links to any of `ids` aimed at `target` instead. -/
def retarget (ids : List PlanId) (target : PlanId) (plan : TablePlan) : TablePlan :=
  { plan with
    left := plan.left.map (JoinLink.retarget ids target)
    right := plan.right.map (JoinLink.retarget ids target) }

/-- A copy under the handle `id`, without links and not touched. -/
def detached (id : PlanId) (plan : TablePlan) : TablePlan :=
  create id plan.executable plan.columns plan.uniqueKeys

/-- The merge of two plans under the handle `id`: the columns and keys of `left`, then those
of `right`. It has no links and counts as touched. -/
def concat (id : PlanId) (left right : TablePlan) (build : PlanNode → PlanNode → PlanNode) :
    TablePlan :=
  { create id (build left.executable right.executable) (left.columns ++ right.columns)
      (left.uniqueKeys ++ right.uniqueKeys) with touched := true }

end TablePlan

end QueryPlan
