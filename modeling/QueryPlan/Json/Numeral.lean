import QueryPlan.Binary64.Decimal
import QueryPlan.Digits
import QueryPlan.Json.Basic

/-!
# JSON numerals

* `Numeral.read`: the numeral that a text starts with.
* `Numeral.value`: what a numeral stands for. A numeral without fraction and
  exponent that fits 64 bits is an integer, except `-0`. Any other is a real, the
  nearest one to the exact decimal that is written.
-/

namespace QueryPlan.Json

/-- A numeral's parts as they are written. -/
structure Numeral where
  negative : Bool
  whole : List Char
  fraction : List Char
  exponent : Option Int

/-- The digits that a text starts with, and the rest; `none` when there is no digit. -/
def readDigits (cs : List Char) : Option (List Char × List Char) :=
  let ds := cs.takeWhile Char.isDigit
  if ds.isEmpty then none else some (ds, cs.dropWhile Char.isDigit)

namespace Numeral

/-- An exponent after its letter: an optional sign and digits. -/
def readExponent (cs : List Char) : Option (Int × List Char) := do
  let (negative, body) := match cs with
    | '-' :: rest => (true, rest)
    | '+' :: rest => (false, rest)
    | _ => (false, cs)
  let (ds, rest) ← readDigits body
  let size : Int := numberOf 10 ds
  return (if negative then -size else size, rest)

/-- The digits before the point: a zero alone, or digits that start with another. -/
def readWhole : List Char → Option (List Char × List Char)
  | '0' :: rest => some (['0'], rest)
  | cs => readDigits cs

/-- The numeral that a text starts with, and the rest. -/
def read (cs : List Char) : Option (Numeral × List Char) := do
  let (negative, cs) := match cs with
    | '-' :: rest => (true, rest)
    | _ => (false, cs)
  let (whole, cs) ← readWhole cs
  let (fraction, cs) ← match cs with
    | '.' :: rest => readDigits rest
    | _ => some ([], cs)
  let (exponent, cs) ← match cs with
    | 'e' :: rest => (readExponent rest).map fun (e, cs) => (some e, cs)
    | 'E' :: rest => (readExponent rest).map fun (e, cs) => (some e, cs)
    | _ => some (none, cs)
  return (⟨negative, whole, fraction, exponent⟩, cs)

/-- The exact decimal of the numeral, without its sign. -/
def decimal (n : Numeral) : Binary64.Decimal :=
  ⟨numberOf 10 (n.whole ++ n.fraction), n.exponent.getD 0 - n.fraction.length⟩

/-- The numeral as a real. -/
def real (n : Numeral) : Json :=
  match Binary64.ofDecimal? n.negative n.decimal with
  | some value => .real value
  | none => .unreadable

/-- What the numeral stands for. -/
def value (n : Numeral) : Json :=
  let size := numberOf 10 n.whole
  if n.fraction.isEmpty && n.exponent.isNone then
    if !n.negative && decide (size < 2 ^ 64) then .integer size
    else if n.negative && decide (0 < size) && decide (size ≤ 2 ^ 63) then .integer (-size)
    else n.real
  else n.real

end Numeral

end QueryPlan.Json
