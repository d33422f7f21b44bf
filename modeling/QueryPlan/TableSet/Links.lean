import QueryPlan.TableSet.Basic

/-!
# Consistency of join links

Planning assumes that every link points into the set, that a link on one side is
answered by a link on the other with the same type and condition, and that the
links close no cycle.

* `TableSet.validateLinks`: checks the three, the links of each plan in turn and
  the cycles last.
* `closesCycle`: whether one of the edges of a graph joins two points that the
  edges before it connect already; a loop and a repeated edge do.
-/

namespace QueryPlan

/-- The label of a point; a point without one is its own label. -/
def labelOf (labels : List (PlanId × PlanId)) (id : PlanId) : PlanId :=
  (labels.lookup id).getD id

/-- Whether one of the edges joins two points of equal labels, where each edge gives the
points of its two labels one label. -/
def closesCycle (labels : List (PlanId × PlanId)) : List (PlanId × PlanId) → Bool
  | [] => false
  | (a, b) :: rest =>
    let la := labelOf labels a
    let lb := labelOf labels b
    la == lb || closesCycle (labels.map fun (id, l) => (id, if l = lb then la else l)) rest

namespace TableSet

/-- Checks that a link of `plan` on `side` points into the set and is answered. -/
def checkLink (set : TableSet) (plan : TablePlan) (side : Side) :
    Option JoinLink → Except PlanError Unit
  | none => .ok ()
  | some link => do
    let partner ← set.require link.target
    let back :=
      match side with
      | .left => partner.right
      | .right => partner.left
    match back with
    | some answer =>
      if answer.target = plan.id ∧ answer.agrees link then return
      else throw (.contradictoryLinks (.unanswered plan.id side link.target))
    | none => throw (.contradictoryLinks (.unanswered plan.id side link.target))

/-- Checks the links of a plan, the left one first. -/
def checkPlan (set : TableSet) (plan : TablePlan) : Except PlanError Unit := do
  set.checkLink plan .left plan.left
  set.checkLink plan .right plan.right

/-- Checks the links of plans in their order. -/
def checkPlans (set : TableSet) : List TablePlan → Except PlanError Unit
  | [] => .ok ()
  | plan :: rest => do
    set.checkPlan plan
    set.checkPlans rest

/-- The links as edges; each is counted on its left plan. -/
def linkEdges (set : TableSet) : List (PlanId × PlanId) :=
  set.tables.filterMap fun plan => plan.rightTarget?.map fun target => (plan.id, target)

/-- Checks that every link points into the set and is answered, and that the links close
no cycle. -/
def validateLinks (set : TableSet) : Except PlanError Unit := do
  set.checkPlans set.tables
  if closesCycle (set.ids.map fun id => (id, id)) set.linkEdges then throw .cyclicJoinGraph

end TableSet

end QueryPlan
