import QueryPlan.Json.Numeral
import QueryPlan.Json.Text

/-!
# Reading JSON

* `Json.parse?`: the value of a text, unless the text is malformed or goes on after
  the value. Arrays and objects nested deeper than `Json.depthLimit` have to be
  well formed, but they are unreadable.
-/

namespace QueryPlan.Json

/-- How many readable arrays and objects may stand inside each other. -/
def depthLimit : Nat := 127

/-- Blank characters between the parts of a value. -/
def isBlank (c : Char) : Bool := c == ' ' || c == '\n' || c == '\t' || c == '\r'

/-- The text without the blanks that it starts with. -/
def skipBlanks (cs : List Char) : List Char := cs.dropWhile isBlank

/-- The text after `word`, if it starts with it. -/
def afterWord (word : String) (cs : List Char) : Option (List Char) :=
  word.toList.isPrefixOf? cs

/-- An object of members; one that could not be read spoils the object. -/
def ofMembers (members : List (Option String × Json)) : Json :=
  match members.mapM fun (key, value) => key.map fun key => (key, value) with
  | some members => .object members
  | none => .unreadable

/-- A value at a depth, which is unreadable where no depth is left. -/
def atDepth (depth : Nat) (value : Json) : Json := if depth = 0 then .unreadable else value

mutual

/-- The value that a text starts with, after blanks, and the rest. `depth` is the nesting
that is left for readable values, and `fuel` bounds the number of steps. -/
def readValue (fuel depth : Nat) (cs : List Char) : Option (Json × List Char) :=
  match fuel with
  | 0 => none
  | fuel + 1 =>
    match skipBlanks cs with
    | [] => none
    | '"' :: rest =>
      (Text.read rest).map fun (text, rest) =>
        (match text with | some text => .string text | none => .unreadable, rest)
    | '[' :: rest =>
      match skipBlanks rest with
      | ']' :: rest => some (atDepth depth (.array []), rest)
      | rest =>
        (readItems fuel (depth - 1) rest).map fun (items, rest) =>
          (atDepth depth (.array items), rest)
    | '\x7b' :: rest =>
      match skipBlanks rest with
      | '\x7d' :: rest => some (atDepth depth (.object []), rest)
      | rest =>
        (readMembers fuel (depth - 1) rest).map fun (members, rest) =>
          (atDepth depth (ofMembers members), rest)
    | 't' :: rest => (afterWord "rue" rest).map fun rest => (.bool true, rest)
    | 'f' :: rest => (afterWord "alse" rest).map fun rest => (.bool false, rest)
    | 'n' :: rest => (afterWord "ull" rest).map fun rest => (.null, rest)
    | cs => (Numeral.read cs).map fun (n, rest) => (n.value, rest)

/-- The items of an array that is not empty, up to its closing bracket. -/
def readItems (fuel depth : Nat) (cs : List Char) : Option (List Json × List Char) :=
  match fuel with
  | 0 => none
  | fuel + 1 => do
    let (item, rest) ← readValue fuel depth cs
    match skipBlanks rest with
    | ']' :: rest => some ([item], rest)
    | ',' :: rest => (readItems fuel depth rest).map fun (items, rest) => (item :: items, rest)
    | _ => none

/-- The members of an object that is not empty, up to its closing brace. -/
def readMembers (fuel depth : Nat) (cs : List Char) :
    Option (List (Option String × Json) × List Char) :=
  match fuel with
  | 0 => none
  | fuel + 1 => do
    match skipBlanks cs with
    | '"' :: rest =>
      let (key, rest) ← Text.read rest
      match skipBlanks rest with
      | ':' :: rest =>
        let (value, rest) ← readValue fuel depth rest
        match skipBlanks rest with
        | '\x7d' :: rest => some ([(key, value)], rest)
        | ',' :: rest =>
          (readMembers fuel depth rest).map fun (members, rest) => ((key, value) :: members, rest)
        | _ => none
      | _ => none
    | _ => none

end

/-- The value of a text. -/
def parse? (text : String) : Option Json :=
  let cs := text.toList
  -- Each character takes at most two steps.
  match readValue (2 * cs.length + 2) depthLimit cs with
  | some (value, rest) => if (skipBlanks rest).isEmpty then some value else none
  | none => none

end QueryPlan.Json
