import QueryPlan.Binary64.Shortest
import QueryPlan.Json.Text

/-!
# Writing JSON

* `Json.render`: the text of a value, without blanks. A real always has a point,
  so that it reads back as a real.
-/

namespace QueryPlan.Json

/-- The text of a real. -/
def renderReal (x : Binary64) : String :=
  match x with
  | .finite .. => if x.render.toList.contains '.' then x.render else x.render ++ ".0"
  | _ => "null"

mutual

/-- The text of a value. -/
def render : Json → String
  | .null => "null"
  | .bool value => if value then "true" else "false"
  | .integer value => toString value
  | .real value => renderReal value
  | .string value => Text.quote value
  | .array items => "[" ++ ",".intercalate (renderItems items) ++ "]"
  | .object members => "\x7b" ++ ",".intercalate (renderMembers members) ++ "\x7d"
  | .unreadable => "null"

/-- The text of each item. -/
def renderItems : List Json → List String
  | [] => []
  | item :: rest => item.render :: renderItems rest

/-- The text of each member, its key before a colon. -/
def renderMembers : List (String × Json) → List String
  | [] => []
  | (key, value) :: rest => (Text.quote key ++ ":" ++ value.render) :: renderMembers rest

end

end QueryPlan.Json
