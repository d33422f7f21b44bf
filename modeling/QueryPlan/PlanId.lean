/-!
# Handles of table plans

* `PlanId`: the handle of a table plan; `PlanId.render` writes it as `#1`.
* `PlanId.Supply`: hands out handles that were not used before.
-/

namespace QueryPlan

/-- The handle of a table plan. -/
structure PlanId where
  number : Nat
deriving DecidableEq, Inhabited

namespace PlanId

/-- The written form. -/
def render (id : PlanId) : String := "#" ++ toString id.number

/-- Handles that were not used before: those from `next` on. -/
structure Supply where
  next : Nat
deriving DecidableEq, Inhabited

namespace Supply

/-- A supply from which nothing was taken. -/
def start : Supply := ⟨1⟩

/-- The next handle, and the supply without it. -/
def take (supply : Supply) : PlanId × Supply := (⟨supply.next⟩, ⟨supply.next + 1⟩)

/-- The next `count` handles, and the supply without them. -/
def takeMany (supply : Supply) (count : Nat) : List PlanId × Supply :=
  ((List.range count).map fun i => ⟨supply.next + i⟩, ⟨supply.next + count⟩)

end Supply

end PlanId

end QueryPlan
