import QueryPlan.Binary64

/-!
# Decimals and the numbers nearest to them

* `Binary64.Decimal`: an exact decimal, digits times a power of ten.
* `Binary64.Decimal.rank`: the rank of the number nearest to a decimal, with one
  rounding however many digits there are. Powers of ten that are far out of the
  range of the finite numbers are never worked out.
* `Binary64.ofDecimal?`: that number, unless it is past the finite ones.
-/

namespace QueryPlan.Binary64

/-- A non-negative decimal `digits · 10 ^ exponent`. -/
structure Decimal where
  digits : Nat
  exponent : Int
deriving DecidableEq

/-- The number of decimal digits of `n`, at least one. -/
def digitCount (n : Nat) : Nat := (Nat.toDigits 10 n).length

namespace Decimal

/-- Numerator and denominator of a decimal, in units of the smallest positive number. -/
def ratio (d : Decimal) : Nat × Nat :=
  match d.exponent with
  | .ofNat e => (d.digits * 10 ^ e * unitsPerOne, 1)
  | .negSucc e => (d.digits * unitsPerOne, 10 ^ (e + 1))

/-- Whether a decimal other than zero is at least `10 ^ 309`, more than any finite number. -/
def isHuge (d : Decimal) : Bool := decide (309 ≤ d.exponent)

/-- Whether a decimal is less than `10 ^ -324`, and so less than half of the smallest
positive number. -/
def isTiny (d : Decimal) : Bool := decide (d.exponent + digitCount d.digits ≤ -324)

/-- The rank nearest to a decimal, halves to the even rank. Ranks from `rankCount` on stand
for infinity. -/
def rank (d : Decimal) : Nat :=
  if d.digits = 0 then 0
  else if d.isHuge then rankCount
  else if d.isTiny then 0
  else nearestRank d.ratio.1 d.ratio.2

end Decimal

/-- The finite number nearest to a decimal with a sign, if there is one. -/
def ofDecimal? (negative : Bool) (d : Decimal) : Option Binary64 :=
  if h : d.rank < rankCount then some (.finite negative ⟨d.rank, h⟩) else none

end QueryPlan.Binary64
