import QueryPlan.PlanError
import QueryPlan.TablePlan

/-!
# Sets of table plans

The table plans over which a filter is planned, in order.

* `TableSet.get?`, `TableSet.require`: the plan of a handle.
* `TableSet.owner`, `commonOwner`, `ownerOfKey`: the plan that a reference, all of
  several references, or a key resolves to.
* `TableSet.copyAs`: the same set under new handles.
-/

namespace QueryPlan

/-- The table plans over which a filter is planned. -/
structure TableSet where
  tables : List TablePlan
  /-- Whether a merge made one of the plans. -/
  hasJoins : Bool

namespace TableSet

/-- The set without plans. -/
def empty : TableSet := ⟨[], false⟩

instance : Inhabited TableSet := ⟨empty⟩

/-- Adds a table at the end. -/
def push (set : TableSet) (plan : TablePlan) : TableSet :=
  { set with tables := set.tables ++ [plan] }

/-- Adds a plan that a merge made. -/
def pushMerged (set : TableSet) (plan : TablePlan) : TableSet :=
  { set.push plan with hasJoins := true }

/-- The handles of the plans, in order. -/
def ids (set : TableSet) : List PlanId := set.tables.map TablePlan.id

/-! ## Looking up plans -/

/-- The plan of a handle. -/
def get? (set : TableSet) (id : PlanId) : Option TablePlan :=
  set.tables.find? fun plan => plan.id = id

/-- Whether a handle is in the set. -/
def contains (set : TableSet) (id : PlanId) : Bool := (set.get? id).isSome

/-- The plan of a handle, which has to be in the set. -/
def require (set : TableSet) (id : PlanId) : Except PlanError TablePlan :=
  match set.get? id with
  | some plan => .ok plan
  | none => .error (.danglingLink id)

/-- The one plan that exposes a column. -/
def owner (set : TableSet) (column : ColumnName) : Except PlanError PlanId :=
  match set.tables.filter fun plan => plan.exposes column with
  | [] => .error (.unresolvedColumn column)
  | [plan] => .ok plan.id
  | plans => .error (.ambiguousColumn column plans.length)

/-- Whether every column has the owner `id`; the first that has another decides, and
a column without a single owner is an error. -/
def allOwnedBy (set : TableSet) (id : PlanId) : List ColumnName → Except PlanError Bool
  | [] => .ok true
  | column :: rest => do
    if (← set.owner column) = id then set.allOwnedBy id rest else return false

/-- The plan that exposes all of the columns; none if they belong to several plans, or if
there are no columns. -/
def commonOwner (set : TableSet) : List ColumnName → Except PlanError (Option PlanId)
  | [] => .ok none
  | column :: rest => do
    let id ← set.owner column
    return if ← set.allOwnedBy id rest then some id else none

/-- The first plan that has a key. -/
def ownerOfKey (set : TableSet) (key : String) : Except PlanError PlanId :=
  match set.tables.find? fun plan => plan.hasKey key with
  | some plan => .ok plan.id
  | none => .error (.unknownUniqueKey key)

/-- The only plan of the set. -/
def single (set : TableSet) : Except PlanError TablePlan :=
  match set.tables with
  | [plan] => .ok plan
  | plans => .error (.notSingleTable plans.length)

/-! ## Changing plans in place -/

/-- Changes the plan of a handle. -/
def modify (set : TableSet) (id : PlanId) (f : TablePlan → TablePlan) : TableSet :=
  { set with tables := set.tables.map fun plan => if plan.id = id then f plan else plan }

/-- The set without the plan of a handle. -/
def erase (set : TableSet) (id : PlanId) : TableSet :=
  { set with tables := set.tables.eraseP fun plan => plan.id = id }

/-! ## Copies -/

/-- The link with its target renamed, unless the target is not among the renamed handles. -/
def renameLink (names : List (PlanId × PlanId)) : Option JoinLink →
    Except PlanError (Option JoinLink)
  | none => .ok none
  | some link =>
    match names.lookup link.target with
    | some target => .ok (some { link with target })
    | none => .error (.danglingLink link.target)

/-- The same plans under the handles `ids`, with links between the same positions, none
touched and without joins. -/
def copyAs (set : TableSet) (ids : List PlanId) : Except PlanError TableSet := do
  let names := set.ids.zip ids
  let tables ← (set.tables.zip ids).mapM fun (plan, id) => do
    let left ← renameLink names plan.left
    let right ← renameLink names plan.right
    return { plan.detached id with left, right }
  return ⟨tables, false⟩

end TableSet

end QueryPlan
