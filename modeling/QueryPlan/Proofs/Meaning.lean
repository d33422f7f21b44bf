import QueryPlan.Expr.References
import QueryPlan.Node.Explain
import QueryPlan.Proofs.Row

/-!
# What plan trees yield

The rows of a plan tree over a database, where the truth of an expression in a
row is a parameter.

- `Valuation`: a null, and which expressions are true in which rows.
- `Database`: the columns and the rows of each table.
- `PlanNode.columns`, `PlanNode.sources`: the columns of a tree and its tables.
- `PlanNode.rows`: the rows of a tree.
- `PlanNode.marked`, `PlanNode.remembered`: the trees and the rows under a mark.
- `PlanNode.Has`: whether a node of a tree satisfies a predicate.
-/

namespace QueryPlan

universe u

variable {V : Type u}

/-- Which expressions are true in which rows. An expression without nested queries depends only
on the columns that its references resolve to. -/
structure Valuation (V : Type u) where
  null : V
  holds : Expr → Row V → Prop
  holds_congr : ∀ {e : Expr} {r s : Row V}, e.hasSubQuery = false →
    (∀ ref ∈ e.references, ∀ c, ref.resolvesTo c = true → ∀ v, (c, v) ∈ r ↔ (c, v) ∈ s) →
    (holds e r ↔ holds e s)
  holds_true : ∀ r, holds .true r
  holds_and : ∀ a b r, holds (.binary a .and b) r ↔ holds a r ∧ holds b r
  holds_or : ∀ a b r, holds (.binary a .or b) r ↔ holds a r ∨ holds b r
  holds_reverse : ∀ a op b r, op.isComparison = true →
    (holds (.binary a op b) r ↔ holds (.binary b op.reverse a) r)

/-- Whether an optional condition is true; an absent one is. -/
def Valuation.meets (val : Valuation V) (condition : Option Expr) (r : Row V) : Prop :=
  ∀ e, condition = some e → val.holds e r

/-- The columns and the rows of each table; a row gives a value to every column. -/
structure Database (V : Type u) where
  columns : String → List String
  rows : String → Set (String → V)

namespace Database

/-- The columns of a table, qualified by its name. -/
def columnsOf (db : Database V) (table : String) : List ColumnName :=
  (db.columns table).map (ColumnName.qualified table)

/-- The rows of a table. -/
def rowsOf (db : Database V) (table : String) : Set (Row V) :=
  {r | ∃ values ∈ db.rows table,
    r = {x | ∃ c ∈ db.columns table, x = (ColumnName.qualified table c, values c)}}

theorem rowsOf_over {db : Database V} {table : String} {r : Row V} (h : r ∈ db.rowsOf table) :
    r.Over (db.columnsOf table) := by
  obtain ⟨values, -, rfl⟩ := h
  intro c
  constructor
  · rintro ⟨v, d, hd, heq⟩
    rw [Prod.mk.injEq] at heq
    rw [heq.1]
    exact List.mem_map_of_mem hd
  · intro hc
    obtain ⟨d, hd, rfl⟩ := List.mem_map.mp hc
    exact ⟨values d, d, hd, rfl⟩

end Database

namespace PlanNode

/-! ## Columns, tables and marks -/

/-- The columns of a tree, in their order. -/
def columns (db : Database V) : PlanNode → List ColumnName
  | .source table => db.columnsOf table
  | .naturalJoin l r => l.columns db ++ r.columns db
  | .join l r _ _ _ => l.columns db ++ r.columns db
  | .outerJoin input _ => input.columns db
  | .union l _ => l.columns db
  | .project _ cols => cols
  | .cache input _ => input.columns db
  | .cacheMark input _ => input.columns db
  | .constantSelect input _ => input.columns db
  | .simpleSelect input _ _ _ => input.columns db
  | .patternSelect input _ _ _ _ => input.columns db
  | .exhaustiveSelect input _ => input.columns db
  | .anyAllSelect input _ _ _ _ => input.columns db

/-- The tables of a tree, left to right, those of nested queries apart. -/
def sources : PlanNode → List String
  | .source table => [table]
  | .naturalJoin l r => l.sources ++ r.sources
  | .join l r _ _ _ => l.sources ++ r.sources
  | .outerJoin input _ => input.sources
  | .union l r => l.sources ++ r.sources
  | .project input _ => input.sources
  | .cache input _ => input.sources
  | .cacheMark input _ => input.sources
  | .constantSelect input _ => input.sources
  | .simpleSelect input _ _ _ => input.sources
  | .patternSelect input _ _ _ _ => input.sources
  | .exhaustiveSelect input _ => input.sources
  | .anyAllSelect input _ _ _ _ => input.sources

/-- The trees whose rows are remembered under a mark, those of nested queries apart. -/
def marked (mark : String) : PlanNode → List PlanNode
  | .source _ => []
  | .naturalJoin l r => l.marked mark ++ r.marked mark
  | .join l r _ _ _ => l.marked mark ++ r.marked mark
  | .outerJoin input _ => input.marked mark
  | .union l r => l.marked mark ++ r.marked mark
  | .project input _ => input.marked mark
  | .cache input _ => input.marked mark
  | .cacheMark input m => if m = mark then input :: input.marked mark else input.marked mark
  | .constantSelect input _ => input.marked mark
  | .simpleSelect input _ _ _ => input.marked mark
  | .patternSelect input _ _ _ _ => input.marked mark
  | .exhaustiveSelect input _ => input.marked mark
  | .anyAllSelect input _ _ _ _ => input.marked mark

/-! ## Rows -/

section

variable (db : Database V) (val : Valuation V)

mutual

/-- The rows of a tree. An outer join adds the remembered rows that agree with no row of its
input, with null in the other columns of the input. -/
def rows : PlanNode → Set (Row V)
  | .source table => db.rowsOf table
  | .naturalJoin l r => pairs l.rows r.rows
  | .join l r column op value =>
    {x ∈ pairs l.rows r.rows | val.holds (.binary (.reference column) op value) x}
  | .outerJoin input mark =>
    input.rows ∪ {x | ∃ m ∈ input.remembered mark, (∀ r ∈ input.rows, ¬ m.AgreesWith r) ∧
      x = m.padded val.null (input.columns db)}
  | .union l r => l.rows ∪ r.rows
  | .project input _ => input.rows
  | .cache input _ => input.rows
  | .cacheMark input _ => input.rows
  | .constantSelect input e => {x ∈ input.rows | val.holds e x}
  | .simpleSelect input column op value =>
    {x ∈ input.rows | val.holds (.binary (.reference column) op value) x}
  | .patternSelect input column op pattern escape =>
    {x ∈ input.rows | val.holds (.pattern op (.reference column) pattern escape) x}
  | .exhaustiveSelect input e => {x ∈ input.rows | val.holds e x}
  | .anyAllSelect input subQuery columns op quantifier =>
    {x ∈ input.rows | ∀ c ∈ columns,
      val.holds (.quantified quantifier op (.reference c) (.query subQuery [])) x}
termination_by structural node => node

/-- The rows of a tree that are remembered under a mark. -/
def remembered (mark : String) : PlanNode → Set (Row V)
  | .source _ => ∅
  | .naturalJoin l r => l.remembered mark ∪ r.remembered mark
  | .join l r _ _ _ => l.remembered mark ∪ r.remembered mark
  | .outerJoin input _ => input.remembered mark
  | .union l r => l.remembered mark ∪ r.remembered mark
  | .project input _ => input.remembered mark
  | .cache input _ => input.remembered mark
  | .cacheMark input m => {x ∈ input.rows | m = mark} ∪ input.remembered mark
  | .constantSelect input _ => input.remembered mark
  | .simpleSelect input _ _ _ => input.remembered mark
  | .patternSelect input _ _ _ _ => input.remembered mark
  | .exhaustiveSelect input _ => input.remembered mark
  | .anyAllSelect input _ _ _ _ => input.remembered mark
termination_by structural node => node

end

/-- The rows remembered under a mark are those of the trees under that mark. -/
theorem mem_remembered_iff (mark : String) (x : Row V) :
    ∀ node : PlanNode,
      x ∈ node.remembered db val mark ↔ ∃ tree ∈ node.marked mark, x ∈ tree.rows db val
  | .source _ => by simp [remembered, marked]
  | .naturalJoin l r => by
    simp [remembered, marked, mem_remembered_iff mark x l, mem_remembered_iff mark x r,
      or_and_right, exists_or]
  | .join l r _ _ _ => by
    simp [remembered, marked, mem_remembered_iff mark x l, mem_remembered_iff mark x r,
      or_and_right, exists_or]
  | .union l r => by
    simp [remembered, marked, mem_remembered_iff mark x l, mem_remembered_iff mark x r,
      or_and_right, exists_or]
  | .outerJoin input _ => mem_remembered_iff mark x input
  | .project input _ => mem_remembered_iff mark x input
  | .cache input _ => mem_remembered_iff mark x input
  | .cacheMark input m => by
    by_cases h : m = mark <;> simp [remembered, marked, h, mem_remembered_iff mark x input]
  | .constantSelect input _ => mem_remembered_iff mark x input
  | .simpleSelect input _ _ _ => mem_remembered_iff mark x input
  | .patternSelect input _ _ _ _ => mem_remembered_iff mark x input
  | .exhaustiveSelect input _ => mem_remembered_iff mark x input
  | .anyAllSelect input _ _ _ _ => mem_remembered_iff mark x input

end

/-! ## Nodes of a tree -/

/-- The nodes of a tree do not depend on the depth at which it stands. -/
theorem map_snd_preorder : ∀ (node : PlanNode) (depth depth' : Nat),
    (node.preorder depth).map Prod.snd = (node.preorder depth').map Prod.snd
  | .source _, _, _ => rfl
  | .naturalJoin l r, d, d' => by
    simp [preorder, map_snd_preorder l (d + 1) (d' + 1), map_snd_preorder r (d + 1) (d' + 1)]
  | .join l r _ _ _, d, d' => by
    simp [preorder, map_snd_preorder l (d + 1) (d' + 1), map_snd_preorder r (d + 1) (d' + 1)]
  | .outerJoin input _, d, d' => by simp [preorder, map_snd_preorder input (d + 1) (d' + 1)]
  | .union l r, d, d' => by
    simp [preorder, map_snd_preorder l (d + 1) (d' + 1), map_snd_preorder r (d + 1) (d' + 1)]
  | .project input _, d, d' => by simp [preorder, map_snd_preorder input (d + 1) (d' + 1)]
  | .cache input _, d, d' => by simp [preorder, map_snd_preorder input (d + 1) (d' + 1)]
  | .cacheMark input _, d, d' => by simp [preorder, map_snd_preorder input (d + 1) (d' + 1)]
  | .constantSelect input _, d, d' => by simp [preorder, map_snd_preorder input (d + 1) (d' + 1)]
  | .simpleSelect input _ _ _, d, d' => by
    simp [preorder, map_snd_preorder input (d + 1) (d' + 1)]
  | .patternSelect input _ _ _ _, d, d' => by
    simp [preorder, map_snd_preorder input (d + 1) (d' + 1)]
  | .exhaustiveSelect input _, d, d' => by
    simp [preorder, map_snd_preorder input (d + 1) (d' + 1)]
  | .anyAllSelect input sub _ _ _, d, d' => by
    simp [preorder, map_snd_preorder input (d + 1) (d' + 1),
      map_snd_preorder sub (d + 1) (d' + 1)]

/-- Whether some node of the tree satisfies `P`. -/
def Has (P : PlanNode → Prop) (node : PlanNode) : Prop := ∃ n ∈ node.walk, P n

theorem walk_eq (node : PlanNode) :
    node.walk = node :: node.children.flatMap walk := by
  cases node <;> simp [walk, preorder, children, map_snd_preorder _ 1 0]

theorem has_iff {P : PlanNode → Prop} {node : PlanNode} :
    node.Has P ↔ P node ∨ ∃ child ∈ node.children, child.Has P := by
  unfold Has
  rw [walk_eq]
  constructor
  · rintro ⟨n, hn, hP⟩
    rcases List.mem_cons.mp hn with rfl | hn
    · exact Or.inl hP
    · obtain ⟨child, hchild, hn⟩ := List.mem_flatMap.mp hn
      exact Or.inr ⟨child, hchild, n, hn, hP⟩
  · rintro (hP | ⟨child, hchild, n, hn, hP⟩)
    · exact ⟨node, List.mem_cons_self, hP⟩
    · exact ⟨n, List.mem_cons_of_mem _ (List.mem_flatMap.mpr ⟨child, hchild, hn⟩), hP⟩

/-- What an input has, the tree has. -/
theorem Has.of_child {P : PlanNode → Prop} {node child : PlanNode} (h : child.Has P)
    (hchild : child ∈ node.children) : node.Has P :=
  has_iff.mpr (Or.inr ⟨child, hchild, h⟩)

theorem Has.of_self {P : PlanNode → Prop} {node : PlanNode} (h : P node) : node.Has P :=
  has_iff.mpr (Or.inl h)

end PlanNode

end QueryPlan
