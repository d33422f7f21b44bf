import QueryPlan.Expr.Basic

/-!
# Classified predicates

* `Predicate`: a conjunct of a filter, sorted by how it can be applied to a set.
* `Predicate.weight`: predicates of a smaller weight are applied first.
* `Predicate.factor`: the weight as a number with a fraction.
* `Predicate.bucket`: among equal weights, the order of the kinds.
* `Predicate.meaning`: the expression that a predicate stands for.
-/

namespace QueryPlan

/-- A conjunct of a filter, sorted by how it can be applied to a set. -/
inductive Predicate where
  /-- Reads no column. -/
  | constant (expr : Expr)
  /-- A column compared with a value that reads no column. -/
  | simpleSingle (column : ColumnName) (op : BinaryOp) (value : Expr)
  /-- Any other predicate on one column. -/
  | complexSingle (column : ColumnName) (expr : Expr)
  /-- A column matched with a pattern and an escape that read no column. -/
  | simplePattern (column : ColumnName) (op : MatchOp) (pattern : Expr) (escape : Option Expr)
  /-- Any other pattern match within one table plan. -/
  | complexPattern (expr : Expr) (references : List ColumnName)
  /-- A column compared with the rows of a nested query that reads no column of this one. -/
  | simpleSubQuery (column : ColumnName) (op : BinaryOp) (quantifier : Quantifier)
      (query : SubQuery)
  /-- A comparison over several columns with a column alone on at least one side; `mixed` when
  the other side is no column. -/
  | standardJoin (expr : Expr) (mixed : Bool)
  /-- Any other predicate on several columns. -/
  | exhaustiveJoin (expr : Expr) (references : List ColumnName)
  /-- An OR; `joinable` when all its sides that read columns read one table plan. -/
  | subLogic (expr : Expr) (joinable : Bool)
  /-- Any other predicate with a nested query; `references` has the outer columns that the
  query reads too. -/
  | exhaustiveSubQuery (expr : Expr) (references : List ColumnName)

/-- The kinds of predicates in the order in which they come among equal weights. -/
inductive Bucket where
  | constants | singles | patterns | subQueries | multis | subLogic
deriving DecidableEq

/-- The place of a kind. -/
def Bucket.index : Bucket → Nat
  | .constants => 0
  | .singles => 1
  | .patterns => 2
  | .subQueries => 3
  | .multis => 4
  | .subLogic => 5

namespace Predicate

/-- The weight in hundredths. Cheap predicates that leave few rows come first, joins and
nested logic last. -/
def weight : Predicate → Nat
  | .constant _ => 0
  | .simpleSingle _ _ _ => 20
  | .complexSingle _ _ => 22
  | .simplePattern _ _ _ _ => 25
  | .complexPattern _ _ => 27
  | .simpleSubQuery _ _ _ _ => 30
  | .subLogic _ joinable => if joinable then 58 else 70
  | .standardJoin _ mixed => if mixed then 64 else 60
  | .exhaustiveJoin _ _ => 68
  | .exhaustiveSubQuery _ _ => 85

/-- The weight as a number with a fraction. -/
def factor (predicate : Predicate) : Binary64 :=
  .ofRank false (Binary64.nearestRank (predicate.weight * Binary64.unitsPerOne) 100)

/-- The name of the kind. -/
def kind : Predicate → String
  | .constant _ => "constant"
  | .simpleSingle _ _ _ => "simple single"
  | .complexSingle _ _ => "complex single"
  | .simplePattern _ _ _ _ => "simple pattern"
  | .complexPattern _ _ => "complex pattern"
  | .simpleSubQuery _ _ _ _ => "simple sub-query"
  | .standardJoin _ _ => "standard join"
  | .exhaustiveJoin _ _ => "exhaustive join"
  | .subLogic _ _ => "sub-logic"
  | .exhaustiveSubQuery _ _ => "exhaustive sub-query"

/-- The expression that a predicate stands for. -/
def meaning : Predicate → Expr
  | .constant expr => expr
  | .simpleSingle column op value => .binary (.reference column) op value
  | .complexSingle _ expr => expr
  | .simplePattern column op pattern escape => .pattern op (.reference column) pattern escape
  | .complexPattern expr _ => expr
  | .simpleSubQuery column op quantifier query =>
    .quantified quantifier op (.reference column) (.query query.plan query.correlated)
  | .standardJoin expr _ => expr
  | .exhaustiveJoin expr _ => expr
  | .subLogic expr _ => expr
  | .exhaustiveSubQuery expr _ => expr

end Predicate

end QueryPlan
