import QueryPlan.Digits

/-!
# TOML texts, blanks and comments

* `Toml.skipTrivia`: what may stand between the items of an array or the entries of
  a table in braces.
* `Toml.endLine`: what may stand between a value and the end of its line.
* `Toml.readText`: a text in any of the four kinds of quotes. The line ends within
  a text stay as they are written.
-/

namespace QueryPlan.Toml

/-- Whether a character may stand for itself in comments and in texts of one line. -/
def isPlain (c : Char) : Bool := c == '\t' || (decide (' ' ≤ c) && c != '\x7f')

/-- Blanks within a line. -/
def isBlank (c : Char) : Bool := c == ' ' || c == '\t'

/-- The text without the blanks that it starts with. -/
def skipBlanks (cs : List Char) : List Char := cs.dropWhile isBlank

/-- Skips blanks, line ends and comments. -/
def skipTrivia (comment : Bool) : List Char → Option (List Char)
  | [] => some []
  | '\n' :: rest => skipTrivia false rest
  | '\r' :: '\n' :: rest => skipTrivia false rest
  | c :: rest =>
    if comment then if isPlain c then skipTrivia true rest else none
    else if isBlank c then skipTrivia false rest
    else if c == '#' then skipTrivia true rest
    else some (c :: rest)

/-- Skips blanks and a comment up to the end of the line, where nothing else may stand. -/
def endLine (comment : Bool) : List Char → Option (List Char)
  | [] => some []
  | '\n' :: rest => some rest
  | '\r' :: '\n' :: rest => some rest
  | c :: rest =>
    if comment then if isPlain c then endLine true rest else none
    else if isBlank c then endLine false rest
    else if c == '#' then endLine true rest
    else none

/-! ## Escapes -/

/-- The character of a code in hexadecimal digits. -/
def charOfHex? (ds : List Char) : Option Char := do
  let _ ← ds.mapM hexValue?
  let code := numberOf 16 ds
  if code.isValidChar then return Char.ofNat code else none

/-- The character of a short escape. -/
def escaped? : Char → Option Char
  | 'b' => some '\x08'
  | 't' => some '\t'
  | 'n' => some '\n'
  | 'f' => some '\x0c'
  | 'r' => some '\r'
  | 'e' => some '\x1b'
  | '"' => some '"'
  | '\\' => some '\\'
  | _ => none

/-! ## The four kinds of quotes -/

/-- Puts a character before the text that was read. -/
def before (c : Char) (read : Option (List Char × List Char)) : Option (List Char × List Char) :=
  read.map fun (text, rest) => (c :: text, rest)

/-- The text after a double quote, up to the next one, and the rest. -/
def readBasic : List Char → Option (List Char × List Char)
  | [] => none
  | '"' :: rest => some ([], rest)
  | '\\' :: 'x' :: a :: b :: rest => do before (← charOfHex? [a, b]) (readBasic rest)
  | '\\' :: 'u' :: a :: b :: c :: d :: rest => do
    before (← charOfHex? [a, b, c, d]) (readBasic rest)
  | '\\' :: 'U' :: a :: b :: c :: d :: e :: f :: g :: h :: rest => do
    before (← charOfHex? [a, b, c, d, e, f, g, h]) (readBasic rest)
  | '\\' :: c :: rest => do before (← escaped? c) (readBasic rest)
  | c :: rest => if isPlain c then before c (readBasic rest) else none

/-- The text after a single quote, up to the next one, and the rest. -/
def readLiteral : List Char → Option (List Char × List Char)
  | [] => none
  | c :: rest =>
    if c == '\x27' then some ([], rest)
    else if isPlain c then before c (readLiteral rest)
    else none

/-- What is left out after a backslash at the end of a line. -/
inductive Skipping where
  | nothing
  /-- The blanks before the end of the line. -/
  | toLineEnd
  /-- Blanks and line ends up to the next other character. -/
  | blanks
deriving DecidableEq

/-- The text after three double quotes, up to the next three, and the rest. One or two
quotes may stand directly before those. -/
def readBasicLines (skipping : Skipping) : List Char → Option (List Char × List Char)
  | [] => none
  | '\n' :: rest =>
    if skipping = .nothing then before '\n' (readBasicLines .nothing rest)
    else readBasicLines .blanks rest
  | '\r' :: '\n' :: rest =>
    if skipping = .nothing then before '\r' (before '\n' (readBasicLines .nothing rest))
    else readBasicLines .blanks rest
  | ' ' :: rest =>
    if skipping = .nothing then before ' ' (readBasicLines .nothing rest)
    else readBasicLines skipping rest
  | '\t' :: rest =>
    if skipping = .nothing then before '\t' (readBasicLines .nothing rest)
    else readBasicLines skipping rest
  | '"' :: '"' :: '"' :: '"' :: '"' :: rest =>
    if skipping = .toLineEnd then none else some (['"', '"'], rest)
  | '"' :: '"' :: '"' :: '"' :: rest =>
    if skipping = .toLineEnd then none else some (['"'], rest)
  | '"' :: '"' :: '"' :: rest => if skipping = .toLineEnd then none else some ([], rest)
  | '\\' :: 'x' :: a :: b :: rest =>
    if skipping = .toLineEnd then none
    else do before (← charOfHex? [a, b]) (readBasicLines .nothing rest)
  | '\\' :: 'u' :: a :: b :: c :: d :: rest =>
    if skipping = .toLineEnd then none
    else do before (← charOfHex? [a, b, c, d]) (readBasicLines .nothing rest)
  | '\\' :: 'U' :: a :: b :: c :: d :: e :: f :: g :: h :: rest =>
    if skipping = .toLineEnd then none
    else do before (← charOfHex? [a, b, c, d, e, f, g, h]) (readBasicLines .nothing rest)
  | '\\' :: '\n' :: rest =>
    if skipping = .toLineEnd then none else readBasicLines .blanks rest
  | '\\' :: c :: rest =>
    if skipping = .toLineEnd then none
    else if isBlank c || c == '\r' then readBasicLines .toLineEnd (c :: rest)
    else do before (← escaped? c) (readBasicLines .nothing rest)
  | c :: rest =>
    if skipping = .toLineEnd then none
    else if isPlain c then before c (readBasicLines .nothing rest)
    else none

/-- The text after three single quotes, up to the next three, and the rest. One or two
quotes may stand directly before those. -/
def readLiteralLines : List Char → Option (List Char × List Char)
  | [] => none
  | '\n' :: rest => before '\n' (readLiteralLines rest)
  | '\r' :: '\n' :: rest => before '\r' (before '\n' (readLiteralLines rest))
  | '\x27' :: '\x27' :: '\x27' :: '\x27' :: '\x27' :: rest => some (['\x27', '\x27'], rest)
  | '\x27' :: '\x27' :: '\x27' :: '\x27' :: rest => some (['\x27'], rest)
  | '\x27' :: '\x27' :: '\x27' :: rest => some ([], rest)
  | c :: rest => if isPlain c then before c (readLiteralLines rest) else none

/-- The text without a line end at its start. -/
def dropLineEnd : List Char → List Char
  | '\n' :: rest => rest
  | '\r' :: '\n' :: rest => rest
  | cs => cs

/-- A text of one line in quotes, and the rest. -/
def readTextLine : List Char → Option (List Char × List Char)
  | '"' :: rest => readBasic rest
  | '\x27' :: rest => readLiteral rest
  | _ => none

/-- A text in quotes of any kind, and the rest. -/
def readText : List Char → Option (List Char × List Char)
  | '"' :: '"' :: '"' :: rest => readBasicLines .nothing (dropLineEnd rest)
  | '\x27' :: '\x27' :: '\x27' :: rest => readLiteralLines (dropLineEnd rest)
  | cs => readTextLine cs

end QueryPlan.Toml
