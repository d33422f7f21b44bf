import QueryPlan.Binary64.Shortest

/-!
# Literal values

The constants of filter expressions.

* `Literal.same`: equality of values; numbers with a fraction compare as
  numbers, so a NaN differs from itself.
* `Literal.render`: the written form; in quoted text every quote is doubled.
-/

namespace QueryPlan

/-- A constant of a filter expression. -/
inductive Literal where
  | null
  | bool (value : Bool)
  | int (value : Int64)
  | float (value : Binary64)
  | string (value : String)
deriving DecidableEq

/-- Every quote twice, all else once. -/
def doubleQuotes : List Char → List Char
  | [] => []
  | c :: rest => if c = '\x27' then c :: c :: doubleQuotes rest else c :: doubleQuotes rest

namespace Literal

/-- Equality of values. -/
def same : Literal → Literal → Bool
  | .null, .null => true
  | .bool a, .bool b => a == b
  | .int a, .int b => a == b
  | .float a, .float b => a.equal b
  | .string a, .string b => a == b
  | _, _ => false

/-- The written form. -/
def render : Literal → String
  | .null => "NULL"
  | .bool true => "TRUE"
  | .bool false => "FALSE"
  | .int value => toString value.toInt
  | .float value => value.render
  | .string value => "'" ++ String.ofList (doubleQuotes value.toList) ++ "'"

end Literal

end QueryPlan
