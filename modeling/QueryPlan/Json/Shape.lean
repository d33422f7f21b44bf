import QueryPlan.Json.Basic

/-!
# The shapes of data in JSON

Data of several kinds is an object with one member, the kind's word and its
payload; a kind without a payload is the word alone, or has the payload `null`.
Data with fields is an object: unknown members are ignored, and a known member
may stand only once.

* `Json.tagged?`: the word and the payload of data of several kinds.
* `Json.field?`, `Json.optionalField?`: a member that has to be there, and one
  that may be missing.
* `Json.text?`, `bool?`, `int64?`, `word32?`, `nat?`, `real?`: the plain kinds
  of data, each within its range.
-/

namespace QueryPlan.Json

/-- Data of one kind. -/
def tag (word : String) (payload : Json) : Json := .object [(word, payload)]

/-- The word and the payload of data of several kinds. -/
def tagged? : Json → Option (String × Option Json)
  | .string word => some (word, none)
  | .object [(word, payload)] => some (word, some payload)
  | _ => none

/-- The word of data whose kind has no payload. -/
def word? (data : Json) : Option String := do
  match ← data.tagged? with
  | (word, none) => some word
  | (word, some .null) => some word
  | _ => none

/-- The members of an object. -/
def members? : Json → Option (List (String × Json))
  | .object members => some members
  | _ => none

/-- The items of an array. -/
def items? : Json → Option (List Json)
  | .array items => some items
  | _ => none

/-- The member `name`, which has to stand exactly once. -/
def field? (members : List (String × Json)) (name : String) : Option Json :=
  match members.filter fun member => member.1 = name with
  | [(_, value)] => some value
  | _ => none

/-- The member `name`, or `null` if there is none; it may stand at most once. -/
def optionalField? (members : List (String × Json)) (name : String) : Option Json :=
  match members.filter fun member => member.1 = name with
  | [] => some .null
  | [(_, value)] => some value
  | _ => none

/-- An optional value: absent when `null`. -/
def option? {α : Type} (f : Json → Option α) : Json → Option (Option α)
  | .null => some none
  | data => (f data).map some

/-- A text. -/
def text? : Json → Option String
  | .string value => some value
  | _ => none

/-- A truth value. -/
def bool? : Json → Option Bool
  | .bool value => some value
  | _ => none

/-- A signed integer of 64 bits. -/
def int64? : Json → Option Int64
  | .integer n => if -(2 ^ 63) ≤ n ∧ n < 2 ^ 63 then some (Int64.ofInt n) else none
  | _ => none

/-- An unsigned integer of 32 bits. -/
def word32? : Json → Option UInt32
  | .integer n => if 0 ≤ n ∧ n < 2 ^ 32 then some (UInt32.ofNat n.toNat) else none
  | _ => none

/-- An unsigned integer. -/
def nat? : Json → Option Nat
  | .integer n => if 0 ≤ n then some n.toNat else none
  | _ => none

/-- A number with a fraction; an integer is rounded to one. -/
def real? : Json → Option Binary64
  | .integer n => some (Binary64.ofInt n)
  | .real x => some x
  | _ => none

end QueryPlan.Json
