import QueryPlan.Binary64.Decimal

/-!
# The shortest decimal text of a number

A finite number is written with the fewest significant digits that read back as
the same number, always positionally and never with an exponent.

* `Binary64.shortest`: digits and a power of ten. For one, two, … seventeen
  digits the two neighbours of the number on that decimal grid are tried; the
  first grid with a hit wins, of two hits the nearer, and of two equally near
  the larger.
* `Binary64.positional`: the digits written around the point; the part after
  the point is left out when it is zero.
* `Binary64.render`: the text of any number.
-/

namespace QueryPlan.Binary64

/-- The exponent of the leading decimal digit of `units` units. -/
def leadingExponent (units : Nat) : Int :=
  if unitsPerOne ≤ units then digitCount (units / unitsPerOne) - 1
  else
    -- Below one: the least `k` such that `10 ^ k` is no less than one over the number.
    let inverse := (unitsPerOne + units - 1) / units
    Int.negOfNat (digitCount (inverse - 1))

/-- The two neighbours of `units` units on the grid of multiples of `10 ^ exponent`,
and whether the upper one is at least as near. -/
def neighbours (units : Nat) (exponent : Int) : Decimal × Decimal × Bool :=
  let (num, den) :=
    match exponent with
    | .ofNat e => (units, 10 ^ e * unitsPerOne)
    | .negSucc e => (units * 10 ^ (e + 1), unitsPerOne)
  let lower := num / den
  (⟨lower, exponent⟩, ⟨lower + 1, exponent⟩, decide (den ≤ 2 * (num % den)))

/-- The neighbour of the number on the grid that reads back, the nearer one if both do. -/
def onGrid (rank : Nat) (exponent : Int) : Option Decimal :=
  let (lower, upper, upperNearer) := neighbours (units rank) exponent
  let lowerHits := lower.rank == rank && lower.digits != 0
  let upperHits := upper.rank == rank
  match lowerHits, upperHits with
  | true, true => some (if upperNearer then upper else lower)
  | true, false => some lower
  | false, true => some upper
  | false, false => none

/-- The exact decimal of a rank. -/
def exact (rank : Nat) : Decimal := ⟨units rank * 5 ^ 1074, -1074⟩

/-- The decimal with the fewest digits that reads back as the number of rank `rank`. -/
def shortest (rank : Nat) : Decimal :=
  let lead := leadingExponent (units rank)
  ((List.range 17).findSome? fun (more : Nat) => onGrid rank (lead - more)).getD (exact rank)

/-- The digits of `n`, most significant first. -/
def digits (n : Nat) : List Char := Nat.toDigits 10 n

/-- The decimal without an exponent; zeros at the end of the fraction are left out,
and the point with them when nothing follows it. -/
def positional (d : Decimal) : List Char :=
  match d.exponent with
  | .ofNat e => digits (d.digits * 10 ^ e)
  | .negSucc e =>
    let scale := 10 ^ (e + 1)
    let padded := digits (d.digits % scale + scale)
    let fraction := (padded.drop 1).reverse.dropWhile (fun c => c == '0')
    digits (d.digits / scale) ++ if fraction.isEmpty then [] else '.' :: fraction.reverse

/-- The text of a magnitude. -/
def renderRank (rank : Nat) : String :=
  if rank = 0 then "0" else String.ofList (positional (shortest rank))

/-- The text of a number. -/
def render : Binary64 → String
  | .nan => "NaN"
  | .infinite negative => if negative then "-inf" else "inf"
  | .finite negative rank => (if negative then "-" else "") ++ renderRank rank

end QueryPlan.Binary64
