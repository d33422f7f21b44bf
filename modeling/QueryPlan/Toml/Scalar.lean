import QueryPlan.Binary64.Decimal
import QueryPlan.Digits
import QueryPlan.Toml.Basic

/-!
# TOML numbers, truth values and points in time

* `Toml.scalar?`: the value of a run of letters, digits and the marks `+ - _ . :`,
  or of two such runs that a blank separates between a date and a time.
-/

namespace QueryPlan.Toml

/-! ## Numbers -/

/-- The digits of a row in which single underscores may stand between digits. -/
def groupedDigits (isDigit : Char → Bool) : List Char → Option (List Char)
  | [] => none
  | [c] => if isDigit c then some [c] else none
  | c :: '_' :: rest => if isDigit c then (groupedDigits isDigit rest).map (c :: ·) else none
  | c :: rest => if isDigit c then (groupedDigits isDigit rest).map (c :: ·) else none

/-- A row of decimal digits that starts with zero only if it is zero. -/
def wholeDigits (cs : List Char) : Option (List Char) := do
  match ← groupedDigits Char.isDigit cs with
  | '0' :: _ :: _ => none
  | ds => some ds

/-- Whether a number starts with a minus, and what follows its sign. -/
def splitSign : List Char → Bool × List Char
  | '-' :: rest => (true, rest)
  | '+' :: rest => (false, rest)
  | cs => (false, cs)

/-- Whether an integer fits 128 bits, signed or unsigned. -/
def fits (n : Int) : Bool := decide (-(2 ^ 127) ≤ n) && decide (n < 2 ^ 128)

/-- Whether a character is a digit below `base`. -/
def isDigitOf (base : Nat) (c : Char) : Bool :=
  match hexValue? c with
  | some d => decide (d < base)
  | none => false

/-- An integer, in decimal or after the mark of another base. -/
def integer? (cs : List Char) : Option Toml := do
  let n : Int ←
    match cs with
    | '0' :: 'x' :: rest => (groupedDigits (isDigitOf 16) rest).map fun ds => numberOf 16 ds
    | '0' :: 'o' :: rest => (groupedDigits (isDigitOf 8) rest).map fun ds => numberOf 8 ds
    | '0' :: 'b' :: rest => (groupedDigits (isDigitOf 2) rest).map fun ds => numberOf 2 ds
    | cs =>
      let (negative, body) := splitSign cs
      (wholeDigits body).map fun ds =>
        if negative then -(numberOf 10 ds : Int) else numberOf 10 ds
  if fits n then return .integer n else none

/-- The parts of a row before and after the first `mark`, if there is one. -/
def splitAtMark (mark : Char → Bool) (cs : List Char) : List Char × Option (List Char) :=
  match cs.dropWhile fun c => !mark c with
  | [] => (cs, none)
  | _ :: rest => (cs.takeWhile fun c => !mark c, some rest)

/-- A number with a fraction, an exponent or both. -/
def float? (cs : List Char) : Option Toml := do
  let (_, body) := splitSign cs
  if body = ['i', 'n', 'f'] ∨ body = ['n', 'a', 'n'] then return .float
  let (number, exponent) := splitAtMark (fun c => c == 'e' || c == 'E') body
  let (whole, fraction) := splitAtMark (fun c => c == '.') number
  if fraction.isNone && exponent.isNone then none
  let whole ← wholeDigits whole
  let fraction ←
    match fraction with
    | some fraction => groupedDigits Char.isDigit fraction
    | none => some []
  let exponent : Int ←
    match exponent with
    | some exponent =>
      let (negative, body) := splitSign exponent
      (groupedDigits Char.isDigit body).map fun ds =>
        if negative then -(numberOf 10 ds : Int) else numberOf 10 ds
    | none => some 0
  -- The sign has no part in whether the number is finite.
  let _ ← Binary64.ofDecimal? false ⟨numberOf 10 (whole ++ fraction), exponent - fraction.length⟩
  return .float

/-! ## Points in time -/

/-- The number of a row of exactly `count` decimal digits, and the rest. -/
def fixedDigits (count : Nat) (cs : List Char) : Option (Nat × List Char) :=
  let ds := cs.take count
  if ds.length = count ∧ ds.all Char.isDigit then some (numberOf 10 ds, cs.drop count) else none

/-- What follows a character that has to come first. -/
def after (c : Char) : List Char → Option (List Char)
  | d :: rest => if c = d then some rest else none
  | [] => none

/-- How many days a month has. -/
def daysInMonth (year month : Nat) : Nat :=
  if month = 2 then
    if year % 4 = 0 ∧ (year % 100 ≠ 0 ∨ year % 400 = 0) then 29 else 28
  else if month = 4 ∨ month = 6 ∨ month = 9 ∨ month = 11 then 30
  else 31

/-- What follows a date. -/
def afterDate (cs : List Char) : Option (List Char) := do
  let (year, cs) ← fixedDigits 4 cs
  let (month, cs) ← fixedDigits 2 (← after '-' cs)
  let (day, cs) ← fixedDigits 2 (← after '-' cs)
  if 1 ≤ month ∧ month ≤ 12 ∧ 1 ≤ day ∧ day ≤ daysInMonth year month then return cs else none

/-- What follows the seconds of a time of day, if there are any; they may have a fraction.
A leap second is allowed. -/
def afterSeconds : List Char → Option (List Char)
  | ':' :: cs => do
    let (second, cs) ← fixedDigits 2 cs
    if 60 < second then none
    else
      match cs with
      | '.' :: rest =>
        if (rest.takeWhile Char.isDigit).isEmpty then none
        else return rest.dropWhile Char.isDigit
      | cs => return cs
  | cs => some cs

/-- What follows a time of day, which may go without seconds. -/
def afterTime (cs : List Char) : Option (List Char) := do
  let (hour, cs) ← fixedDigits 2 cs
  let (minute, cs) ← fixedDigits 2 (← after ':' cs)
  if hour ≤ 23 ∧ minute ≤ 59 then afterSeconds cs else none

/-- Whether a row is empty or an offset from universal time. -/
def isOffset (cs : List Char) : Bool :=
  match cs with
  | [] => true
  | ['Z'] => true
  | ['z'] => true
  | sign :: rest =>
    (sign == '+' || sign == '-') &&
      match (do
        let (hour, cs) ← fixedDigits 2 rest
        let (minute, cs) ← fixedDigits 2 (← after ':' cs)
        return (hour, minute, cs) : Option (Nat × Nat × List Char)) with
      | some (hour, minute, []) => decide (hour ≤ 23) && decide (minute ≤ 59)
      | _ => false

/-- A date, a time of day, or both with an optional offset. -/
def dateTime? (cs : List Char) : Option Toml :=
  match afterDate cs with
  | some [] => some .dateTime
  | some (mark :: rest) =>
    if mark = 'T' ∨ mark = 't' ∨ mark = ' ' then
      match afterTime rest with
      | some rest => if isOffset rest then some .dateTime else none
      | none => none
    else none
  | none =>
    match afterTime cs with
    | some [] => some .dateTime
    | _ => none

/-! ## Any of them -/

/-- A value that is not a text and has no parts. -/
def scalar? (cs : List Char) : Option Toml :=
  if cs = ['t', 'r', 'u', 'e'] then some (.bool true)
  else if cs = ['f', 'a', 'l', 's', 'e'] then some (.bool false)
  else integer? cs <|> float? cs <|> dateTime? cs

/-- Whether a character may stand in such a value. -/
def isScalarChar (c : Char) : Bool :=
  c.isAlphanum || c == '+' || c == '-' || c == '_' || c == '.' || c == ':'

/-- The value that a text starts with, and the rest. After a date, a blank and a digit go on
with a time. -/
def readScalar (cs : List Char) : Option (Toml × List Char) :=
  let run := cs.takeWhile isScalarChar
  match cs.dropWhile isScalarChar with
  | ' ' :: d :: rest =>
    if d.isDigit && (afterDate run).any List.isEmpty then
      let more := (d :: rest).takeWhile isScalarChar
      (scalar? (run ++ ' ' :: more)).map fun v => (v, (d :: rest).dropWhile isScalarChar)
    else (scalar? run).map fun v => (v, ' ' :: d :: rest)
  | rest => (scalar? run).map fun v => (v, rest)

end QueryPlan.Toml
