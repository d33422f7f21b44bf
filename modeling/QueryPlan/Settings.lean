/-!
# Settings

* `Settings`: how outer joins are marked and how planning goes about.
* `Settings.defaults`: what holds where nothing is set.
-/

namespace QueryPlan

/-- How the names of outer-join marks are made. -/
inductive MarkerStrategy where
  /-- Numbered from one in each planning run. -/
  | sequential
  /-- By a random identifier. -/
  | uuid
deriving DecidableEq, Inhabited

/-- The word for the strategy. -/
def MarkerStrategy.name : MarkerStrategy → String
  | .sequential => "sequential"
  | .uuid => "uuid"

/-- The strategy of a word. -/
def MarkerStrategy.ofName? (word : String) : Option MarkerStrategy :=
  [.sequential, .uuid].find? fun (s : MarkerStrategy) => s.name = word

/-- How outer joins are marked. -/
structure MarkerSettings where
  strategy : MarkerStrategy
  /-- What every mark starts with. -/
  stem : String
deriving DecidableEq

/-- How planning goes about. -/
structure PlanningSettings where
  /-- Whether the plans of a set are cached before both sides of an OR read them. -/
  cacheOrBranches : Bool
  /-- Whether the join links are checked before planning. -/
  validateLinks : Bool
deriving DecidableEq

/-- All settings. -/
structure Settings where
  markers : MarkerSettings
  planning : PlanningSettings
deriving DecidableEq

/-- What holds where nothing is set. -/
def Settings.defaults : Settings := ⟨⟨.sequential, "OUTER_JOIN"⟩, ⟨true, true⟩⟩

instance : Inhabited Settings := ⟨Settings.defaults⟩

end QueryPlan
