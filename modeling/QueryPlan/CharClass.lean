/-!
# Classes of characters

* `CharClass`: a class of characters, as ascending ranges of codes.
* `CharClass.holds`: whether a character belongs to a class. The search ends at the
  first range that does not end before the character.
-/

namespace QueryPlan

/-- A class of characters: the first and last codes of its ranges, in ascending order. -/
structure CharClass where
  ranges : List (Nat × Nat)

namespace CharClass

/-- Whether one of some ascending ranges covers a code. -/
def covers (code : Nat) : List (Nat × Nat) → Bool
  | [] => false
  | (first, last) :: rest => if code ≤ last then decide (first ≤ code) else covers code rest

/-- Whether a character belongs to the class. -/
def holds (chars : CharClass) (c : Char) : Bool := covers c.toNat chars.ranges

end CharClass

end QueryPlan
