import QueryPlan.Marker
import QueryPlan.TableSet.Basic

/-!
# Planning as a state

* `Context`: what all sets of one planning run share, and the handles not used yet.
* `Workspace`: the set that is being planned, with its context.
* `Planner`: a computation on a workspace that may fail. A failure keeps the
  workspace as it was at that point.
* `Planner.within`: the same computation on another set, in the same context.
* `Planner.link`: records a join on both of its sides.
-/

namespace QueryPlan

/-- What all sets of one planning run share. -/
structure Context where
  markers : MarkerGenerator
  /-- The cache id given last. -/
  cacheIds : Nat
  /-- Whether the plans of a set are cached before both sides of an OR read them. -/
  cacheOrBranches : Bool
  /-- The handles that were not used yet. -/
  supply : PlanId.Supply

/-- The context at the start of a planning run that draws from `uuids`. -/
def Context.start (uuids : Identifiers) (settings : Settings) (supply : PlanId.Supply) : Context :=
  ⟨.start settings.markers.strategy settings.markers.stem uuids, 0,
    settings.planning.cacheOrBranches, supply⟩

/-- The set that is being planned, with its context. -/
structure Workspace where
  set : TableSet
  context : Context

/-- A computation on a workspace that may fail. -/
abbrev Planner := EStateM PlanError Workspace

namespace Planner

/-- The set as it is. -/
def current : Planner TableSet := do return (← get).set

/-- Puts another set in place. -/
def replaceSet (set : TableSet) : Planner Unit := modify fun w => { w with set }

/-- Changes the set. -/
def change (f : TableSet → TableSet) : Planner Unit := modify fun w => { w with set := f w.set }

/-- Reads the set, which may fail. -/
def ask {α : Type} (f : TableSet → Except PlanError α) : Planner α := do
  match f (← current) with
  | .ok a => return a
  | .error e => throw e

/-- Changes the plan of a handle, which has to be in the set. -/
def changePlan (id : PlanId) (f : TablePlan → TablePlan) : Planner Unit := do
  let _ ← ask fun set => set.require id
  change fun set => set.modify id f

/-! ## Handles, names and ids -/

/-- A handle that was not used before. -/
def freshId : Planner PlanId := do
  let w ← get
  let (id, supply) := w.context.supply.take
  modify fun w => { w with context := { w.context with supply } }
  return id

/-- Handles that were not used before. -/
def freshIds (count : Nat) : Planner (List PlanId) := do
  let w ← get
  let (ids, supply) := w.context.supply.takeMany count
  modify fun w => { w with context := { w.context with supply } }
  return ids

/-- A name for an outer-join mark. -/
def nextMarker : Planner String := do
  let w ← get
  let (name, markers) := w.context.markers.next
  modify fun w => { w with context := { w.context with markers } }
  return name

/-- A cache id. -/
def nextCacheId : Planner Nat := do
  let id := (← get).context.cacheIds + 1
  modify fun w => { w with context := { w.context with cacheIds := id } }
  return id

/-- Whether the plans of a set are cached before both sides of an OR read them. -/
def cacheOrBranches : Planner Bool := do return (← get).context.cacheOrBranches

/-! ## Other sets in the same context -/

/-- Runs a computation on `inner` in place of the set, in the same context, and gives
what became of `inner`. The set itself stays as it is, also when the computation fails. -/
def within {α : Type} (inner : TableSet) (act : Planner α) : Planner (α × TableSet) := fun w =>
  match act { w with set := inner } with
  | .ok a w' => .ok (a, w'.set) { w' with set := w.set }
  | .error e w' => .error e { w' with set := w.set }

/-- The set under fresh handles, without joins and with nothing touched. -/
def copy : Planner TableSet := do
  let ids ← freshIds (← current).tables.length
  ask fun set => set.copyAs ids

/-! ## Recording joins -/

/-- Records `left type JOIN right ON on` on both sides. -/
def link (left right : PlanId) (joinType : JoinType) (on : Option Expr) : Planner Unit := do
  let _ ← ask fun set => set.require right
  changePlan left (TablePlan.withRight ⟨right, joinType, on⟩)
  changePlan right (TablePlan.withLeft ⟨left, joinType, on⟩)

/-- Records a join between the plans of two keys. -/
def linkByKey (leftKey rightKey : String) (joinType : JoinType) (on : Option Expr) :
    Planner Unit := do
  let left ← ask fun set => set.ownerOfKey leftKey
  let right ← ask fun set => set.ownerOfKey rightKey
  link left right joinType on

end Planner

end QueryPlan
