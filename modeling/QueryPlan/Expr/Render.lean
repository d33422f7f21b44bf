import QueryPlan.Expr.Basic

/-!
# The written form of expressions

* `Expr.render`: the text of an expression. An operand whose own outermost
  operator compares or combines two operands stands in parentheses.
-/

namespace QueryPlan

/-- An operand's text, in parentheses where its operator has two operands. -/
def Expr.operand (e : Expr) (text : String) : String :=
  if e.isBinary then "(" ++ text ++ ")" else text

/-- An operator with one operand around that operand's text. -/
def UnaryOp.apply (op : UnaryOp) (operand : String) : String :=
  match op with
  | .not => "NOT " ++ operand
  | .neg => "-" ++ operand
  | .isNull => operand ++ " IS NULL"
  | .isNotNull => operand ++ " IS NOT NULL"

mutual

/-- The text of an expression. -/
def Expr.render : Expr → String
  | .constant value => value.render
  | .reference name => name.render
  | .unary op e => op.apply (e.operand e.render)
  | .binary l op r => l.operand l.render ++ " " ++ op.symbol ++ " " ++ r.operand r.render
  | .pattern op l p escape =>
    l.operand l.render ++ " " ++ op.symbol ++ " " ++ p.operand p.render ++ renderEscape escape
  | .call name args => name ++ "(" ++ ", ".intercalate (renderAll args) ++ ")"
  | .query _ _ => "(SUBQUERY)"
  | .quantified q op l r =>
    l.operand l.render ++ " " ++ op.symbol ++ " " ++ q.symbol ++ " " ++ r.operand r.render

/-- The ESCAPE part of a pattern match. -/
def renderEscape : Option Expr → String
  | none => ""
  | some e => " ESCAPE " ++ e.operand e.render

/-- The text of each argument. -/
def renderAll : List Expr → List String
  | [] => []
  | e :: rest => e.render :: renderAll rest

end

end QueryPlan
