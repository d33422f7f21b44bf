/-!
# Join types

* `JoinType.name` and `JoinType.ofName?`: the word for a join type.
-/

namespace QueryPlan

/-- How rows without a match are treated when two tables are joined. -/
inductive JoinType where
  | inner | left | right | full
deriving DecidableEq, Inhabited

namespace JoinType

/-- Every join type. -/
def values : List JoinType := [.inner, .left, .right, .full]

/-- The word for the join type. -/
def name : JoinType → String
  | .inner => "Inner"
  | .left => "Left"
  | .right => "Right"
  | .full => "Full"

/-- The join type of a word. -/
def ofName? (word : String) : Option JoinType := values.find? fun v => v.name = word

end JoinType

end QueryPlan
