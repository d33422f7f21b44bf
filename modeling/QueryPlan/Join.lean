import QueryPlan.Clash
import QueryPlan.Planner

/-!
# Joining plans

Every function here replaces two plans by one, or does so again and again; each
merge makes the set smaller, which bounds the repetition.

* `Planner.merge`: replaces two plans by one that takes over their outside links.
* `Planner.joinPairWith`: joins two plans by the link between them, or else as
  all pairs of rows.
* `Planner.resolveWith`: joins a plan with its partners until no pending outer
  join pads its rows with nulls.
* `Planner.joinAllWith`: joins several plans into one.
* `Planner.joinReadersWith`: joins the plans that own some columns.

Where two linked plans are joined, the condition of the link is planned over a
pair of copies. How that is done is a parameter, `condition`: it turns the set
that it is run on, and a condition, into one plan tree.
-/

namespace QueryPlan

/-- Turns the set, and an optional condition, into one plan tree. -/
abbrev ConditionPlanner := Option Expr → Planner PlanNode

/-- The first link that is given and not aimed at one of `ids`. -/
def outsideLink (ids : List PlanId) (first second : Option JoinLink) : Option JoinLink :=
  let outside (link : Option JoinLink) := link.filter fun l => l.target ∉ ids
  outside first <|> outside second

/-- The merge of two plans, with their links that point outside the pair. -/
def mergedPlan (id : PlanId) (left right : TablePlan) (build : PlanNode → PlanNode → PlanNode) :
    TablePlan :=
  let pair := [left.id, right.id]
  { TablePlan.concat id left right build with
    left := outsideLink pair left.left right.left
    right := outsideLink pair left.right right.right }

namespace Planner

/-- Replaces `left` and `right` by one plan, built from their trees, to which every link
to one of them is moved. A missing `right` leaves `left` at the end of the set. -/
def merge (left right : PlanId) (build : PlanNode → PlanNode → PlanNode) : Planner PlanId := do
  let l ← ask fun set => set.require left
  change fun set => set.erase left
  match (← current).get? right with
  | none =>
    change fun set => set.push l
    throw (.danglingLink right)
  | some r =>
    let id ← freshId
    change fun set =>
      let rest := (set.erase right).tables.map (TablePlan.retarget [left, right] id)
      { set with tables := rest }.pushMerged (mergedPlan id l r build)
    return id

/-! ## Marks of outer joins -/

/-- For an outer join, the plan of which it keeps all rows and a new name for their mark. -/
def newMark (joinType : JoinType) (left right : PlanId) :
    Planner (Option (PlanId × String)) := do
  match joinType with
  | .inner => return none
  | .left => return some (left, ← nextMarker)
  | .right => return some (right, ← nextMarker)
  | .full => throw (.unsupportedJoinType .full)

/-- Puts a mark on the rows of a plan. -/
def putMark : Option (PlanId × String) → Planner Unit
  | none => return
  | some (kept, mark) => changePlan kept (TablePlan.update (.cacheMark · mark))

/-- Adds the rows of a mark back to a join in which they may have found no match. -/
def addBack (marked : Option (PlanId × String)) (tree : PlanNode) : PlanNode :=
  match marked with
  | none => tree
  | some (_, mark) => .outerJoin tree mark

/-- Copies of two plans, without links, as a set of their own. -/
def detachPair (left right : PlanId) : Planner TableSet := do
  let l ← ask fun set => set.require left
  let leftId ← freshId
  let r ← ask fun set => set.require right
  let rightId ← freshId
  return ⟨[l.detached leftId, r.detached rightId], true⟩

/-! ## Joins -/

section

variable (condition : ConditionPlanner)

/-- Joins two linked plans: the condition is planned over copies of both. For an outer join
the plan that keeps all rows is marked before, and the result adds the marked rows back. -/
def joinLinkedWith (joinType : JoinType) (on : Option Expr) (left right : PlanId) :
    Planner PlanId := do
  let marked ← newMark joinType left right
  putMark marked
  let pair ← detachPair left right
  let (tree, _) ← within pair (condition on)
  merge left right fun _ _ => addBack marked tree

/-- Joins two plans by the link between them; without one, as all pairs of their rows,
unless that would strand a link. -/
def joinPairWith (first second : PlanId) : Planner PlanId := do
  let a ← ask fun set => set.require first
  let b ← ask fun set => set.require second
  match linkBetween a b with
  | some sided => joinLinkedWith condition sided.link.joinType sided.link.on sided.left sided.right
  | none =>
    match clash a b with
    | .safe => merge first second .naturalJoin
    | .left => throw (.joinClash first second .left)
    | .right => throw (.joinClash first second .right)

/-- Joins a plan with its partners, at most `fuel` times, until no pending outer join pads
its rows with nulls. -/
def resolveWithin (fuel : Nat) (id : PlanId) : Planner PlanId := do
  match fuel with
  | 0 => throw (.danglingLink id)
  | fuel + 1 =>
    let plan ← ask fun set => set.require id
    match plan.nullPaddedBy? with
    | none => return id
    | some partner => resolveWithin fuel (← joinPairWith condition id partner)

/-- Joins a plan with its partners until no pending outer join pads its rows with nulls.
A predicate on such rows must see them after the outer join has added them. Each join makes
the set smaller, so that its size bounds their number. -/
def resolveWith (id : PlanId) : Planner PlanId := do
  resolveWithin condition (← current).tables.length id

/-- Joins the plans of `working` into one, in at most `fuel` rounds. Each round joins the first
plan, or resolves one of the first two. -/
def joinAllWithin (fuel : Nat) (working : List PlanId) : Planner (Option PlanId) := do
  match working with
  | [] => return none
  | [id] => return some id
  | first :: second :: _ =>
    match fuel with
    | 0 => throw (.danglingLink first)
    | fuel + 1 =>
      let a ← ask fun set => set.require first
      let b ← ask fun set => set.require second
      match nextJoin a b with
      | .resolve padded =>
        let resolved ← resolveWith condition padded
        let now ← current
        joinAllWithin fuel (resolved :: working.filter now.contains)
      | .join partner =>
        let merged ← joinPairWith condition first partner
        joinAllWithin fuel (merged :: working.filter fun id => id ≠ first ∧ id ≠ partner)

/-- Joins plans into one; none if there are none. Each round makes the set smaller, so that
its size bounds their number. -/
def joinAllWith (working : List PlanId) : Planner (Option PlanId) := do
  joinAllWithin condition (← current).tables.length working

/-- Joins plans into one, of which there has to be one. -/
def joinSomeWith (working : List PlanId) : Planner PlanId := do
  match ← joinAllWith condition working with
  | some id => return id
  | none => throw .emptyTableSet

/-- Joins every plan of the set into one. -/
def joinEverythingWith : Planner PlanId := do
  joinSomeWith condition (← current).ids

/-- Resolves the owner of each column in turn. -/
def resolveOwnersWith : List ColumnName → Planner Unit
  | [] => return
  | column :: rest => do
    let _ ← resolveWith condition (← ask fun set => set.owner column)
    resolveOwnersWith rest

/-- Joins the plans that own the columns into one, after no pending outer join pads any of
them; without columns, every plan of the set. -/
def joinReadersWith (columns : List ColumnName) : Planner PlanId := do
  if columns.isEmpty then joinEverythingWith condition
  else
    resolveOwnersWith condition columns
    let owners ← columns.mapM fun column => ask fun set => set.owner column
    joinSomeWith condition (distinct owners)

end

end Planner

end QueryPlan
