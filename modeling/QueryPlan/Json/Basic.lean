import QueryPlan.Binary64

/-!
# JSON values

A JSON text as a tree. Members of objects keep their order and their
repetitions, because a reader of an object refuses a repeated member.

* `Json.ofReal`: a number with a fraction; what is no finite number is `null`.
* `Json.depth`: how deep a tree is nested.
-/

namespace QueryPlan

/-- A JSON value. -/
inductive Json where
  | null
  | bool (value : Bool)
  /-- A numeral without fraction and exponent that fits 64 bits, signed or unsigned. -/
  | integer (value : Int)
  /-- Any other numeral. -/
  | real (value : Binary64)
  | string (value : String)
  | array (items : List Json)
  | object (members : List (String × Json))
  /-- Well-formed text that stands for no value: a numeral out of range, a text with half
  of a surrogate pair, an object with such a text as a key. -/
  | unreadable

namespace Json

instance : Inhabited Json := ⟨.null⟩

/-- A number with a fraction; what is no finite number is `null`. -/
def ofReal : Binary64 → Json
  | .finite negative rank => .real (.finite negative rank)
  | _ => .null

/-- An optional value, `null` when absent. -/
def ofOption {α : Type} (f : α → Json) : Option α → Json
  | some a => f a
  | none => .null

mutual

/-- How deep a value is nested; a value without parts has depth one. -/
def depth : Json → Nat
  | .array items => depthOfItems items + 1
  | .object members => depthOfMembers members + 1
  | _ => 1

/-- The greatest depth of items. -/
def depthOfItems : List Json → Nat
  | [] => 0
  | item :: rest => Nat.max item.depth (depthOfItems rest)

/-- The greatest depth of members. -/
def depthOfMembers : List (String × Json) → Nat
  | [] => 0
  | (_, value) :: rest => Nat.max value.depth (depthOfMembers rest)

end

end Json

end QueryPlan
