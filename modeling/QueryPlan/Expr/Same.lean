import QueryPlan.Expr.Basic

/-!
# Equality of expressions and plan trees

`==` on expressions and on plan trees compares structure, and numbers with a
fraction as numbers: the two zeros agree, and what holds a NaN differs from
itself.
-/

namespace QueryPlan

mutual

/-- Equality of expressions. -/
def Expr.same : Expr → Expr → Bool
  | .constant a, .constant b => a.same b
  | .reference a, .reference b => a == b
  | .unary op a, .unary op' b => op == op' && a.same b
  | .binary l op r, .binary l' op' r' => l.same l' && op == op' && r.same r'
  | .pattern op l p e, .pattern op' l' p' e' =>
    op == op' && l.same l' && p.same p' && sameOption e e'
  | .call name args, .call name' args' => name == name' && sameList args args'
  | .query plan correlated, .query plan' correlated' =>
    plan.same plan' && correlated == correlated'
  | .quantified q op l r, .quantified q' op' l' r' =>
    q == q' && op == op' && l.same l' && r.same r'
  | _, _ => false
termination_by structural a => a

/-- Equality of optional expressions. -/
def sameOption : Option Expr → Option Expr → Bool
  | none, none => true
  | some a, some b => a.same b
  | _, _ => false
termination_by structural a => a

/-- Equality of lists of expressions. -/
def sameList : List Expr → List Expr → Bool
  | [], [] => true
  | a :: as, b :: bs => a.same b && sameList as bs
  | _, _ => false
termination_by structural a => a

/-- Equality of plan trees. -/
def PlanNode.same : PlanNode → PlanNode → Bool
  | .source a, .source b => a == b
  | .naturalJoin l r, .naturalJoin l' r' => l.same l' && r.same r'
  | .join l r column op value, .join l' r' column' op' value' =>
    l.same l' && r.same r' && column == column' && op == op' && value.same value'
  | .outerJoin input mark, .outerJoin input' mark' => input.same input' && mark == mark'
  | .union l r, .union l' r' => l.same l' && r.same r'
  | .project input columns, .project input' columns' => input.same input' && columns == columns'
  | .cache input id, .cache input' id' => input.same input' && id == id'
  | .cacheMark input mark, .cacheMark input' mark' => input.same input' && mark == mark'
  | .constantSelect input e, .constantSelect input' e' => input.same input' && e.same e'
  | .simpleSelect input column op value, .simpleSelect input' column' op' value' =>
    input.same input' && column == column' && op == op' && value.same value'
  | .patternSelect input column op p e, .patternSelect input' column' op' p' e' =>
    input.same input' && column == column' && op == op' && p.same p' && sameOption e e'
  | .exhaustiveSelect input e, .exhaustiveSelect input' e' => input.same input' && e.same e'
  | .anyAllSelect input sub columns op q, .anyAllSelect input' sub' columns' op' q' =>
    input.same input' && sub.same sub' && columns == columns' && op == op' && q == q'
  | _, _ => false
termination_by structural a => a

end

instance : BEq Expr := ⟨Expr.same⟩

instance : BEq PlanNode := ⟨PlanNode.same⟩

end QueryPlan
