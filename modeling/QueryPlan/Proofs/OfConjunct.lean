import QueryPlan.Proofs.Lookups
import QueryPlan.Proofs.Moves

/-!
# What a conjunct is classified as

- `Predicate.OfConjunct`: the predicates that a conjunct may be classified as, with
  where their columns and nested queries come from.
- `ofConjunct_of_classifyOne`: whatever the plans are, it is classified as one of them.
- `OfConjunct.reads`: it looks up no column but those that the conjunct reads, or
  that its nested queries read of the query that it filters.
-/

namespace QueryPlan

namespace Predicate

/-- What a conjunct may be classified as. -/
inductive OfConjunct (e : Expr) : Predicate → Prop where
  | constant (expr : Expr) : OfConjunct e (.constant expr)
  | simpleSingle {column : ColumnName} (read : column ∈ e.references) (op : BinaryOp)
    (value : Expr) : OfConjunct e (.simpleSingle column op value)
  | complexSingle {column : ColumnName} (read : column ∈ e.references) (expr : Expr) :
    OfConjunct e (.complexSingle column expr)
  | simplePattern {column : ColumnName} (read : column ∈ e.references) (op : MatchOp)
    (pattern : Expr) (escape : Option Expr) :
    OfConjunct e (.simplePattern column op pattern escape)
  | complexPattern : OfConjunct e (.complexPattern e e.references)
  | simpleSubQuery {column : ColumnName} {query : SubQuery} (read : column ∈ e.references)
    (nested : query.plan ∈ e.queries) (op : BinaryOp) (quantifier : Quantifier) :
    OfConjunct e (.simpleSubQuery column op quantifier query)
  | standardJoin {left right : Expr} {op : BinaryOp} (comparison : e = .binary left op right)
    (mixed : Bool) : OfConjunct e (.standardJoin e mixed)
  | exhaustiveJoin (expr : Expr) : OfConjunct e (.exhaustiveJoin expr e.references)
  | subLogic (joinable : Bool) : OfConjunct e (.subLogic e joinable)
  | exhaustiveSubQuery (expr : Expr) : OfConjunct e (.exhaustiveSubQuery expr (readsWithOuter e))

variable {e : Expr} {c : ColumnName}

theorem mem_readsWithOuter :
    c ∈ readsWithOuter e ↔
      c ∈ e.references ∨ ∃ entry ∈ e.readsAcross 1, entry.name = c := by
  unfold readsWithOuter
  rw [mem_distinct, List.mem_append, List.mem_map]

theorem mem_readsWithOuter_binary {left right : Expr} {op : BinaryOp} :
    c ∈ readsWithOuter (.binary left op right) ↔
      c ∈ readsWithOuter left ∨ c ∈ readsWithOuter right := by
  have houter : ∀ entry, entry ∈ (Expr.binary left op right).readsAcross 1 ↔
      entry ∈ left.readsAcross 1 ∨ entry ∈ right.readsAcross 1 := by
    intro entry
    simp only [Expr.readsAcross, mem_distinct, correlatedAt, Expr.outerReads,
      List.filter_append, List.mem_append]
  simp only [mem_readsWithOuter, Expr.mem_references_binary, houter, or_and_right, exists_or]
  exact or_or_or_comm

/-- A predicate looks up the columns that its conjunct reads, at most. -/
theorem OfConjunct.reads {predicate : Predicate} (h : OfConjunct e predicate) :
    ∀ c ∈ predicate.reads, c ∈ readsWithOuter e := by
  have hread : ∀ c ∈ e.references, c ∈ readsWithOuter e :=
    fun c hc => mem_readsWithOuter.mpr (Or.inl hc)
  cases h with
  | constant => exact List.forall_mem_nil _
  | simpleSingle read | complexSingle read | simplePattern read | simpleSubQuery read =>
    exact List.forall_mem_singleton.mpr (hread _ read)
  | complexPattern | standardJoin | exhaustiveJoin | subLogic => exact hread
  | exhaustiveSubQuery => exact fun _ hc => hc

theorem KindOf.ofConjunct {set : TableSet} {predicate : Predicate} (h : predicate.KindOf set e) :
    OfConjunct e predicate := by
  cases h with
  | constant => exact .constant _
  | columnLeft _ read | columnRight _ _ read =>
    exact .simpleSingle (read ▸ List.mem_singleton_self _) _ _
  | complexSingle _ read => exact .complexSingle (read ▸ List.mem_singleton_self _) _
  | simplePattern _ read => exact .simplePattern (read ▸ List.mem_singleton_self _) _ _ _
  | complexPattern => exact .complexPattern
  | simpleSubQuery shape =>
    subst shape
    exact .simpleSubQuery (by simp [Expr.mentions]) (by simp [Expr.queries]) _ _
  | standardJoin shape => exact .standardJoin shape _
  | exhaustiveJoin => exact .exhaustiveJoin _
  | exhaustiveSubQuery => exact .exhaustiveSubQuery _

end Predicate

/-- Whatever the plans are, a conjunct is classified as one of the predicates that it may be. -/
theorem TableSet.ofConjunct_of_classifyOne {set : TableSet} {e : Expr}
    {placed : Bucket × Predicate} (h : set.classifyOne e = .ok (some placed)) :
    placed.2.OfConjunct e := by
  rcases kind_of_classifyOne h with ⟨-, joinable, hplaced⟩ | ⟨-, hkind⟩
  · rw [hplaced]
    exact .subLogic joinable
  · exact hkind.ofConjunct

end QueryPlan
