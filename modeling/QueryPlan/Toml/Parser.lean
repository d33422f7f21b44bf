import QueryPlan.Toml.Scalar
import QueryPlan.Toml.Text

/-!
# Reading TOML

* `Toml.parse?`: the table of a document, unless the document is malformed.

The steps are bounded by the length of the document: each step that goes on
takes at least one character.
-/

namespace QueryPlan.Toml

/-- How many arrays and tables in braces may stand inside each other. -/
def depthLimit : Nat := 80

/-- How many keys may stand in a row with dots between them. -/
def pathLimit : Nat := 80

/-! ## Keys -/

/-- Whether a character may stand in a key without quotes. -/
def isKeyChar (c : Char) : Bool :=
  c.isAlphanum || c == '_' || c == '-'

/-- A key, bare or in quotes, and the rest. -/
def readKey (cs : List Char) : Option (String × List Char) :=
  match cs with
  | [] => none
  | c :: _ =>
    if isKeyChar c then some (String.ofList (cs.takeWhile isKeyChar), cs.dropWhile isKeyChar)
    else (readTextLine cs).map fun (text, rest) => (String.ofList text, rest)

/-- At most `limit` keys with dots between them: the parents, the last key, and the rest. -/
def readPath (limit : Nat) (cs : List Char) : Option (List String × String × List Char) :=
  match limit with
  | 0 => none
  | limit + 1 => do
    let (key, rest) ← readKey (skipBlanks cs)
    match skipBlanks rest with
    | '.' :: rest =>
      let (parents, last, rest) ← readPath limit rest
      return (key :: parents, last, rest)
    | rest => return ([], key, rest)

/-! ## Values -/

mutual

/-- The value that a text starts with, and the rest. -/
def readValue (fuel depth : Nat) (cs : List Char) : Option (Toml × List Char) :=
  match fuel with
  | 0 => none
  | fuel + 1 =>
    match cs with
    | [] => none
    | '"' :: _ => (readText cs).map fun (text, rest) => (.string (String.ofList text), rest)
    | '\x27' :: _ => (readText cs).map fun (text, rest) => (.string (String.ofList text), rest)
    | '[' :: rest =>
      if depth = 0 then none
      else (readItems fuel (depth - 1) rest).map fun (items, rest) => (.array items, rest)
    | '\x7b' :: rest =>
      if depth = 0 then none
      else
        (readPairs fuel (depth - 1) [] rest).map fun (entries, rest) =>
          (.table .inline entries, rest)
    | cs => readScalar cs

/-- The items of an array up to its closing bracket; a comma may come last. -/
def readItems (fuel depth : Nat) (cs : List Char) : Option (List Toml × List Char) :=
  match fuel with
  | 0 => none
  | fuel + 1 => do
    match ← skipTrivia false cs with
    | ']' :: rest => return ([], rest)
    | cs =>
      let (item, rest) ← readValue fuel depth cs
      match ← skipTrivia false rest with
      | ']' :: rest => return ([item], rest)
      | ',' :: rest =>
        let (items, rest) ← readItems fuel depth rest
        return (item :: items, rest)
      | _ => none

/-- The entries of a table in braces up to the closing one, added to `entries`; a comma may
come last. -/
def readPairs (fuel depth : Nat) (entries : Entries) (cs : List Char) :
    Option (Entries × List Char) :=
  match fuel with
  | 0 => none
  | fuel + 1 => do
    match ← skipTrivia false cs with
    | '\x7d' :: rest => return (entries, rest)
    | cs =>
      let (parents, key, rest) ← readPath pathLimit cs
      match ← skipTrivia false rest with
      | '=' :: rest =>
        let (value, rest) ← readValue fuel depth (← skipTrivia false rest)
        let entries ← insert parents key value entries
        match ← skipTrivia false rest with
        | '\x7d' :: rest => return (entries, rest)
        | ',' :: rest => readPairs fuel depth entries rest
        | _ => none
      | _ => none

end

/-! ## Documents -/

/-- Reads the lines of a document into `root`. Entries go to the table of the header that was
read last, `current`. -/
def readLines (fuel : Nat) (current : List String) (root : Entries) (cs : List Char) :
    Option Entries :=
  match fuel with
  | 0 => none
  | fuel + 1 =>
    match skipBlanks cs with
    | [] => some root
    | '\n' :: rest => readLines fuel current root rest
    | '\r' :: '\n' :: rest => readLines fuel current root rest
    | '#' :: rest => do readLines fuel current root (← endLine true rest)
    | '[' :: '[' :: rest => do
      let (parents, key, rest) ← readPath pathLimit rest
      match rest with
      | ']' :: ']' :: rest =>
        let root ← modifyAt parents (append key) root
        readLines fuel (parents ++ [key]) root (← endLine false rest)
      | _ => none
    | '[' :: rest => do
      let (parents, key, rest) ← readPath pathLimit rest
      match rest with
      | ']' :: rest =>
        let root ← modifyAt parents (define key) root
        readLines fuel (parents ++ [key]) root (← endLine false rest)
      | _ => none
    | cs => do
      let (parents, key, rest) ← readPath pathLimit cs
      match rest with
      | '=' :: rest =>
        let (value, rest) ← readValue fuel depthLimit (skipBlanks rest)
        let root ← modifyAt current (insert parents key value) root
        readLines fuel current root (← endLine false rest)
      | _ => none

/-- The table of a document. A byte order mark at its start is ignored. -/
def parse? (text : String) : Option Entries :=
  let cs :=
    match text.toList with
    | '\ufeff' :: rest => rest
    | cs => cs
  readLines (2 * cs.length + 2) [] [] cs

end QueryPlan.Toml
