import QueryPlan.Expr.Basic

/-!
# What an expression reads

* `Expr.references`: the distinct free columns, at their first appearance. What
  is inside a nested query belongs to that query.
* `Expr.hasSubQuery`: whether a nested query occurs anywhere.
* `Expr.readsAcross`: the distinct outer columns that nested queries read across
  a given number of query boundaries.
* `Expr.correlatedReferences`: the same, counted from the query that the expression
  filters. There is none to count past the last level.
-/

namespace QueryPlan

mutual

/-- Every mention of a column outside nested queries, left to right. -/
def Expr.mentions : Expr → List ColumnName
  | .constant _ => []
  | .reference name => [name]
  | .unary _ e => e.mentions
  | .binary l _ r => l.mentions ++ r.mentions
  | .pattern _ l p escape => l.mentions ++ p.mentions ++ mentionsOfEscape escape
  | .call _ args => mentionsOfAll args
  | .query _ _ => []
  | .quantified _ _ l r => l.mentions ++ r.mentions

/-- The mentions of an escape, if there is one. -/
def mentionsOfEscape : Option Expr → List ColumnName
  | none => []
  | some e => e.mentions

/-- The mentions of arguments, in their order. -/
def mentionsOfAll : List Expr → List ColumnName
  | [] => []
  | e :: rest => e.mentions ++ mentionsOfAll rest

end

mutual

/-- Whether a nested query occurs in an expression. -/
def Expr.hasSubQuery : Expr → Bool
  | .constant _ => false
  | .reference _ => false
  | .unary _ e => e.hasSubQuery
  | .binary l _ r => l.hasSubQuery || r.hasSubQuery
  | .pattern _ l p escape => l.hasSubQuery || p.hasSubQuery || escapeHasSubQuery escape
  | .call _ args => anyHasSubQuery args
  | .query _ _ => true
  | .quantified _ _ l r => l.hasSubQuery || r.hasSubQuery

/-- Whether a nested query occurs in an escape. -/
def escapeHasSubQuery : Option Expr → Bool
  | none => false
  | some e => e.hasSubQuery

/-- Whether a nested query occurs in an argument. -/
def anyHasSubQuery : List Expr → Bool
  | [] => false
  | e :: rest => e.hasSubQuery || anyHasSubQuery rest

end

mutual

/-- Everything that nested queries read from enclosing queries, in the order of the
nested queries. -/
def Expr.outerReads : Expr → List CorrelatedReference
  | .constant _ => []
  | .reference _ => []
  | .unary _ e => e.outerReads
  | .binary l _ r => l.outerReads ++ r.outerReads
  | .pattern _ l p escape => l.outerReads ++ p.outerReads ++ outerReadsOfEscape escape
  | .call _ args => outerReadsOfAll args
  | .query _ correlated => correlated
  | .quantified _ _ l r => l.outerReads ++ r.outerReads

/-- The outer reads of an escape, if there is one. -/
def outerReadsOfEscape : Option Expr → List CorrelatedReference
  | none => []
  | some e => e.outerReads

/-- The outer reads of arguments, in their order. -/
def outerReadsOfAll : List Expr → List CorrelatedReference
  | [] => []
  | e :: rest => e.outerReads ++ outerReadsOfAll rest

end

namespace Expr

/-- The distinct free columns, in the order of first appearance. -/
def references (e : Expr) : List ColumnName := distinct e.mentions

/-- The distinct outer columns that nested queries read across so many query boundaries, in
the order of first appearance. -/
def readsAcross (e : Expr) (boundaries : UInt32) : List CorrelatedReference :=
  distinct (correlatedAt e.outerReads boundaries)

/-- The level one boundary further out. The last level has none. -/
def outward? (level : UInt32) : Option UInt32 :=
  if level.toNat + 1 < UInt32.size then some (level + 1) else none

/-- The distinct outer columns that nested queries read `level` queries outward of this
expression; level zero is the query that the expression filters. A nested plan counts one
boundary more, and where this can not be counted nothing is returned. Without a nested plan
nothing is counted. -/
def correlatedReferences (e : Expr) (level : UInt32) : Option (List CorrelatedReference) :=
  if e.hasSubQuery then (outward? level).map e.readsAcross else some []

end Expr

end QueryPlan
