import QueryPlan.Digits
import QueryPlan.Json.Basic

/-!
# JSON texts in quotes

A character is written as itself, as a short escape such as `\n`, or as its
UTF-16 units in hexadecimal.

* `Text.read`: the quoted text that follows an opening quote.
* `Text.quote`: the quoted form of a text.
-/

namespace QueryPlan.Json.Text

/-- One written element of a quoted text: a character, or a UTF-16 unit. -/
inductive Element where
  | char (c : Char)
  | unit (n : Nat)

/-- The value of four hexadecimal digits. -/
def unitOf? (a b c d : Char) : Option Nat := do
  let _ ← [a, b, c, d].mapM hexValue?
  return numberOf 16 [a, b, c, d]

/-- The character of a short escape. -/
def escaped? : Char → Option Char
  | '"' => some '"'
  | '\\' => some '\\'
  | '/' => some '/'
  | 'b' => some '\x08'
  | 'f' => some '\x0c'
  | 'n' => some '\n'
  | 'r' => some '\r'
  | 't' => some '\t'
  | _ => none

/-- The elements up to the closing quote, and what follows it. -/
def elements : List Char → Option (List Element × List Char)
  | [] => none
  | '"' :: rest => some ([], rest)
  | '\\' :: 'u' :: a :: b :: c :: d :: rest => do
    let n ← unitOf? a b c d
    let (es, rest) ← elements rest
    return (.unit n :: es, rest)
  | '\\' :: c :: rest => do
    let c ← escaped? c
    let (es, rest) ← elements rest
    return (.char c :: es, rest)
  | c :: rest =>
    if c < ' ' then none
    else do
      let (es, rest) ← elements rest
      return (.char c :: es, rest)

/-- The first unit of a pair that stands for one character. -/
def isHigh (n : Nat) : Bool := decide (0xD800 ≤ n) && decide (n < 0xDC00)

/-- The second unit of such a pair. -/
def isLow (n : Nat) : Bool := decide (0xDC00 ≤ n) && decide (n < 0xE000)

/-- The characters of elements, unless half of a pair stands alone. -/
def assemble : List Element → Option (List Char)
  | [] => some []
  | .char c :: rest => (assemble rest).map (c :: ·)
  | [.unit n] => if isHigh n || isLow n then none else some [Char.ofNat n]
  | .unit n :: .unit m :: rest =>
    if isHigh n then
      if isLow m then
        (assemble rest).map (Char.ofNat (0x10000 + (n - 0xD800) * 0x400 + (m - 0xDC00)) :: ·)
      else none
    else if isLow n then none
    else (assemble (.unit m :: rest)).map (Char.ofNat n :: ·)
  | .unit n :: rest =>
    if isHigh n || isLow n then none else (assemble rest).map (Char.ofNat n :: ·)

/-- The text that follows an opening quote, and what follows it. The text is absent when
it holds half of a pair. -/
def read (cs : List Char) : Option (Option String × List Char) := do
  let (es, rest) ← elements cs
  return ((assemble es).map String.ofList, rest)

/-- A hexadecimal digit. -/
def hexDigit (n : Nat) : Char := Nat.digitChar n

/-- The written form of a character between quotes. -/
def escape (c : Char) : List Char :=
  match c with
  | '"' => ['\\', '"']
  | '\\' => ['\\', '\\']
  | '\n' => ['\\', 'n']
  | '\r' => ['\\', 'r']
  | '\t' => ['\\', 't']
  | c =>
    if c < ' ' then ['\\', 'u', '0', '0', hexDigit (c.toNat / 16), hexDigit (c.toNat % 16)]
    else [c]

/-- The quoted form of a text. -/
def quote (text : String) : String :=
  "\"" ++ String.ofList (text.toList.flatMap escape) ++ "\""

end QueryPlan.Json.Text
