/-!
# Binary floating point numbers of 64 bits

A finite number is a sign and a *rank*: its position among the non-negative
finite numbers in ascending order. The ranks below `2 ^ 53` are spaced evenly,
by the smallest positive number `2 ^ -1074`; after that the spacing doubles
every `2 ^ 52` ranks.

* `Binary64.units`: the number of a rank, counted in the smallest positive number.
* `Binary64.nearestRank`: the rank nearest to an exact quotient, halves to the
  even rank.
* `Binary64.equal`: equality of numbers, under which a NaN differs from itself
  and both zeros agree.

All of it is exact arithmetic on natural numbers.
-/

namespace QueryPlan

-- Powers are those of the core library, whatever other powers are known.
attribute [default_instance high, instance (high)] instPowNat

/-- How many non-negative finite numbers there are. -/
def Binary64.rankCount : Nat := 2047 * 2 ^ 52

/-- A floating point number of 64 bits. -/
inductive Binary64 where
  | nan
  | infinite (negative : Bool)
  | finite (negative : Bool) (rank : Fin Binary64.rankCount)
deriving DecidableEq

namespace Binary64

/-- The number of rank `rank`, in units of the smallest positive number. -/
def units (rank : Nat) : Nat :=
  if rank < 2 ^ 53 then rank
  else (rank % 2 ^ 52 + 2 ^ 52) * 2 ^ (rank / 2 ^ 52 - 1)

/-- How many units make one. -/
def unitsPerOne : Nat := 2 ^ 1074

/-- The quotient rounded to the nearest integer, halves to the even one. -/
def roundHalfEven (num den : Nat) : Nat :=
  let quotient := num / den
  let twice := 2 * (num % den)
  if twice < den then quotient
  else if den < twice then quotient + 1
  else if quotient % 2 = 0 then quotient
  else quotient + 1

/-- The rank nearest to `num / den` units, halves to the even rank. Ranks from
`rankCount` on stand for infinity. -/
def nearestRank (num den : Nat) : Nat :=
  let scale := Nat.log2 (num / den) - 52
  roundHalfEven num (den * 2 ^ scale) + scale * 2 ^ 52

/-- The number of a sign and a rank; ranks past the finite ones are infinity. -/
def ofRank (negative : Bool) (rank : Nat) : Binary64 :=
  if h : rank < rankCount then .finite negative ⟨rank, h⟩ else .infinite negative

/-- The number nearest to an integer. -/
def ofInt (value : Int) : Binary64 :=
  ofRank (decide (value < 0)) (nearestRank (value.natAbs * unitsPerOne) 1)

/-- Equality of numbers: a NaN differs from every number, and the two zeros agree. -/
def equal : Binary64 → Binary64 → Bool
  | .infinite s, .infinite t => s == t
  | .finite s a, .finite t b => a == b && (s == t || a.val == 0)
  | _, _ => false

instance : BEq Binary64 := ⟨equal⟩

end Binary64

end QueryPlan
