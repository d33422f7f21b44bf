import QueryPlan.Settings

/-!
# Names of outer-join marks

* `Identifiers`: what a source of random identifiers gives.
* `MarkerGenerator.nameAt`: the names that a generator makes, in their order.
* `MarkerGenerator.next`: the next name, and the generator after it.
-/

namespace QueryPlan

/-- What a source of random identifiers gives, one identifier after another. Nothing is known of
them, not even that none comes twice. -/
structure Identifiers where
  get : Nat → String

/-- Makes names of marks. -/
structure MarkerGenerator where
  strategy : MarkerStrategy
  /-- What every name starts with. -/
  stem : String
  /-- How many names were made. -/
  issued : Nat
  /-- Where the random strategy draws from. -/
  uuids : Identifiers

namespace MarkerGenerator

/-- A generator that made no name. -/
def start (strategy : MarkerStrategy) (stem : String) (uuids : Identifiers) : MarkerGenerator :=
  ⟨strategy, stem, 0, uuids⟩

/-- The generator where nothing is set. -/
def defaults (uuids : Identifiers) : MarkerGenerator :=
  start Settings.defaults.markers.strategy Settings.defaults.markers.stem uuids

/-- The `n`-th name. -/
def nameAt (markers : MarkerGenerator) (n : Nat) : String :=
  markers.stem ++ "_" ++
    match markers.strategy with
    | .sequential => toString n
    | .uuid => markers.uuids.get n

/-- The next name, and the generator after it. -/
def next (markers : MarkerGenerator) : String × MarkerGenerator :=
  let issued := markers.issued + 1
  (markers.nameAt issued, { markers with issued })

/-- The next `count` names. -/
def names (markers : MarkerGenerator) : Nat → List String
  | 0 => []
  | count + 1 =>
    let (name, markers) := markers.next
    name :: markers.names count

end MarkerGenerator

end QueryPlan
