import QueryPlan.Column
import QueryPlan.Literal
import QueryPlan.Operator

/-!
# Filter expressions and plan trees

The two types refer to each other: an expression may hold a nested query, whose
plan tree holds expressions in turn.

* `Expr`: predicates and values over table columns.
* `PlanNode`: executable plan trees.
* `SubQuery`: a nested query by itself, its plan and the outer columns it reads.
* `Expr.category`: the class of an expression's outermost operator.
* `Expr.conjuncts`: the parts of an expression that AND joins, left to right.
-/

namespace QueryPlan

/-- A column of an enclosing query that a nested query reads. `level` counts the
query boundaries between the nested plan and the owner of the column: one is the
query that directly encloses the nested one. -/
structure CorrelatedReference where
  name : ColumnName
  level : UInt32
deriving DecidableEq

mutual

/-- A predicate or value over table columns. -/
inductive Expr where
  /-- A constant. -/
  | constant (value : Literal)
  /-- A free column. -/
  | reference (name : ColumnName)
  /-- An operator with one operand. -/
  | unary (op : UnaryOp) (operand : Expr)
  /-- An operator with two operands. -/
  | binary (left : Expr) (op : BinaryOp) (right : Expr)
  /-- `left [NOT] LIKE pattern [ESCAPE escape]`. -/
  | pattern (op : MatchOp) (left pattern : Expr) (escape : Option Expr)
  /-- A function call. -/
  | call (name : String) (args : List Expr)
  /-- A nested query: its plan, and the outer columns it reads. -/
  | query (plan : PlanNode) (correlated : List CorrelatedReference)
  /-- `left op ANY|ALL right`, where `right` is usually a nested query. -/
  | quantified (quantifier : Quantifier) (op : BinaryOp) (left right : Expr)

/-- An executable plan tree. -/
inductive PlanNode where
  /-- The rows of a base table. -/
  | source (name : String)
  /-- All pairs of rows of two inputs. -/
  | naturalJoin (left right : PlanNode)
  /-- The pairs for which `column`, of the left row, compares with `value`, over the right row. -/
  | join (left right : PlanNode) (column : ColumnName) (op : BinaryOp) (value : Expr)
  /-- The input, and the rows remembered under `mark` that have no match in it, padded with
  nulls. -/
  | outerJoin (input : PlanNode) (mark : String)
  /-- The rows of either of two inputs with the same columns. -/
  | union (left right : PlanNode)
  /-- The input with its columns in the given order. -/
  | project (input : PlanNode) (columns : List ColumnName)
  /-- The input, computed once for all nodes of the same id. -/
  | cache (input : PlanNode) (id : Nat)
  /-- The input, its rows remembered under `mark` for an outer join. -/
  | cacheMark (input : PlanNode) (mark : String)
  /-- All rows if the predicate, which reads no column, holds, and none otherwise. -/
  | constantSelect (input : PlanNode) (predicate : Expr)
  /-- The rows for which `column` compares with a value that reads no column. -/
  | simpleSelect (input : PlanNode) (column : ColumnName) (op : BinaryOp) (value : Expr)
  /-- The rows for which `column` matches the pattern. -/
  | patternSelect (input : PlanNode) (column : ColumnName) (op : MatchOp) (pattern : Expr)
      (escape : Option Expr)
  /-- The rows for which the predicate holds, evaluated row by row. -/
  | exhaustiveSelect (input : PlanNode) (predicate : Expr)
  /-- The rows whose columns compare with any or all rows of a nested query that reads no
  outer column. -/
  | anyAllSelect (input subQuery : PlanNode) (columns : List ColumnName) (op : BinaryOp)
      (quantifier : Quantifier)

end

instance : Inhabited PlanNode := ⟨.source ""⟩

instance : Inhabited Expr := ⟨.constant .null⟩

/-- A nested query: its plan, and the outer columns it reads. -/
structure SubQuery where
  plan : PlanNode
  correlated : List CorrelatedReference

/-- The outer columns that a nested query reads exactly `level` queries outward. -/
def correlatedAt (correlated : List CorrelatedReference) (level : UInt32) :
    List CorrelatedReference :=
  correlated.filter fun entry => entry.level = level

/-- The class of an expression's outermost operator. -/
inductive ExprCategory where
  | constant | reference | unary | arithmetic | comparison | logical | pattern | function
  | subQuery | quantified
deriving DecidableEq

namespace Expr

/-- The literal TRUE. -/
def true : Expr := .constant (.bool Bool.true)

/-- Both of two predicates. -/
def and (left right : Expr) : Expr := .binary left .and right

/-- The class of the outermost operator. -/
def category : Expr → ExprCategory
  | .constant _ => .constant
  | .reference _ => .reference
  | .unary .. => .unary
  | .binary _ op _ =>
    if op.isLogical then .logical else if op.isComparison then .comparison else .arithmetic
  | .pattern .. => .pattern
  | .call .. => .function
  | .query .. => .subQuery
  | .quantified .. => .quantified

/-- Whether the outermost operator is AND or OR. -/
def isLogical (e : Expr) : Bool := e.category = .logical

/-- Whether the expression is a pattern match. -/
def isPattern (e : Expr) : Bool := e.category = .pattern

/-- Whether the outermost operator has one operand. -/
def isUnary : Expr → Bool
  | .unary .. => Bool.true
  | _ => Bool.false

/-- Whether the outermost operator compares or combines two operands. -/
def isBinary : Expr → Bool
  | .binary .. | .pattern .. | .quantified .. => Bool.true
  | _ => Bool.false

/-- Whether the expression is the literal TRUE. -/
def isTrue : Expr → Bool
  | .constant (.bool Bool.true) => Bool.true
  | _ => Bool.false

/-- The column that the expression is, if it is nothing but a column. -/
def asReference? : Expr → Option ColumnName
  | .reference name => some name
  | _ => none

/-- The nested query that the expression is, if it is nothing but one. -/
def asSubQuery? : Expr → Option SubQuery
  | .query plan correlated => some ⟨plan, correlated⟩
  | _ => none

/-- The same pattern match with the given escape; other expressions are unchanged. -/
def withEscape (e escape : Expr) : Expr :=
  match e with
  | .pattern op left p _ => .pattern op left p (some escape)
  | e => e

/-- The parts that AND joins, left to right. -/
def conjuncts : Expr → List Expr
  | .binary left .and right => left.conjuncts ++ right.conjuncts
  | e => [e]

end Expr

end QueryPlan
