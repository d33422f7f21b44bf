/-!
# Operators

The operators of filter expressions, with the symbol each is written with.

* `BinaryOp.reverse`: the comparison that holds with its operands swapped.
* `BinaryOp.isLogical`, `isComparison`, `isArithmetic`: every binary operator
  falls in exactly one of the three classes.
* `name` and `ofName?` of each kind: the word an operator goes by in data.
-/

namespace QueryPlan

/-- Operators with two operands. -/
inductive BinaryOp where
  | add | sub | mul | div | mod
  | eq | ne | lt | gt | lte | gte
  | and | or
  | concat
deriving DecidableEq, Inhabited

/-- Operators with one operand. -/
inductive UnaryOp where
  | not | neg | isNull | isNotNull
deriving DecidableEq, Inhabited

/-- Text matching against a pattern. -/
inductive MatchOp where
  | like | notLike
deriving DecidableEq, Inhabited

/-- Over how many rows of a set a comparison has to hold. -/
inductive Quantifier where
  | any | all
deriving DecidableEq, Inhabited

namespace BinaryOp

/-- AND and OR. -/
def isLogical : BinaryOp → Bool
  | .and | .or => true
  | _ => false

/-- The operators that compare two values. -/
def isComparison : BinaryOp → Bool
  | .eq | .ne | .lt | .gt | .lte | .gte => true
  | _ => false

/-- Every operator that is neither logical nor a comparison, concatenation included. -/
def isArithmetic (op : BinaryOp) : Bool := !op.isLogical && !op.isComparison

/-- The comparison that holds of the swapped operands. Operators without one
are their own reverse. -/
def reverse : BinaryOp → BinaryOp
  | .lt => .gt
  | .gt => .lt
  | .lte => .gte
  | .gte => .lte
  | op => op

/-- How the operator is written between its operands. -/
def symbol : BinaryOp → String
  | .add => "+"
  | .sub => "-"
  | .mul => "*"
  | .div => "/"
  | .mod => "%"
  | .eq => "="
  | .ne => "<>"
  | .lt => "<"
  | .gt => ">"
  | .lte => "<="
  | .gte => ">="
  | .and => "AND"
  | .or => "OR"
  | .concat => "||"

end BinaryOp

/-- How the operator is written before its pattern. -/
def MatchOp.symbol : MatchOp → String
  | .like => "LIKE"
  | .notLike => "NOT LIKE"

/-- How the quantifier is written. -/
def Quantifier.symbol : Quantifier → String
  | .any => "ANY"
  | .all => "ALL"

/-! ## Names -/

namespace BinaryOp

/-- Every operator. -/
def values : List BinaryOp :=
  [.add, .sub, .mul, .div, .mod, .eq, .ne, .lt, .gt, .lte, .gte, .and, .or, .concat]

/-- The word for the operator in data. -/
def name : BinaryOp → String
  | .add => "Add"
  | .sub => "Sub"
  | .mul => "Mul"
  | .div => "Div"
  | .mod => "Mod"
  | .eq => "Eq"
  | .ne => "Ne"
  | .lt => "Lt"
  | .gt => "Gt"
  | .lte => "Lte"
  | .gte => "Gte"
  | .and => "And"
  | .or => "Or"
  | .concat => "Concat"

/-- The operator of a word. -/
def ofName? (word : String) : Option BinaryOp := values.find? fun v => v.name = word

end BinaryOp

namespace UnaryOp

/-- Every operator. -/
def values : List UnaryOp :=
  [.not, .neg, .isNull, .isNotNull]

/-- The word for the operator in data. -/
def name : UnaryOp → String
  | .not => "Not"
  | .neg => "Neg"
  | .isNull => "IsNull"
  | .isNotNull => "IsNotNull"

/-- The operator of a word. -/
def ofName? (word : String) : Option UnaryOp := values.find? fun v => v.name = word

end UnaryOp

namespace MatchOp

/-- Every operator. -/
def values : List MatchOp :=
  [.like, .notLike]

/-- The word for the operator in data. -/
def name : MatchOp → String
  | .like => "Like"
  | .notLike => "NotLike"

/-- The operator of a word. -/
def ofName? (word : String) : Option MatchOp := values.find? fun v => v.name = word

end MatchOp

namespace Quantifier

/-- Every quantifier. -/
def values : List Quantifier :=
  [.any, .all]

/-- The word for the quantifier in data. -/
def name : Quantifier → String
  | .any => "Any"
  | .all => "All"

/-- The quantifier of a word. -/
def ofName? (word : String) : Option Quantifier := values.find? fun v => v.name = word

end Quantifier

end QueryPlan
