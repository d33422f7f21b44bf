import Mathlib.Data.List.Forall2
import QueryPlan.Proofs.Meaning

/-!
# How plan trees grow

A planning run only ever builds on the trees that it has: it puts nodes on top
of them and draws them together. What it keeps of them that way is the subject
of this module.

- `PlanNode.Crosses`: a join of some tables on one side with others on the other.
- `PlanNode.Premature`: an outer join that keeps rows to which another outer join
  may still add.
- `Wraps`: a tree with the joins, marks and tables of another one.
- `Grows`: a list of trees with those of another list together.
-/

namespace QueryPlan

namespace PlanNode

/-- The two inputs of a join. -/
def joined? : PlanNode → Option (PlanNode × PlanNode)
  | .naturalJoin l r => some (l, r)
  | .join l r _ _ _ => some (l, r)
  | _ => none

/-- Whether the node joins trees that have all of some tables on one side and all of others on
the other. -/
def Crosses (one other : Set String) (node : PlanNode) : Prop :=
  ∃ l r, node.joined? = some (l, r) ∧
    ((∀ t ∈ one, t ∈ l.sources) ∧ (∀ t ∈ other, t ∈ r.sources) ∨
      (∀ t ∈ other, t ∈ l.sources) ∧ (∀ t ∈ one, t ∈ r.sources))

/-- Whether the node adds back remembered rows of the padded table of an outer join, without the
table whose rows that join keeps. -/
def Premature (outer : List (String × String)) (node : PlanNode) : Prop :=
  ∃ input mark, node = .outerJoin input mark ∧ ∃ tree ∈ input.marked mark,
    ∃ e ∈ outer, e.2 ∈ tree.sources ∧ e.1 ∉ tree.sources

/-- Whether the tree has either all of one set of tables and no other, or of another set, or
else a join across the two. -/
def SplitBy (one other : Set String) (tree : PlanNode) : Prop :=
  (∀ t, t ∈ tree.sources ↔ t ∈ one) ∨ (∀ t, t ∈ tree.sources ↔ t ∈ other) ∨
    tree.Has (Crosses one other)

/-- A join of two groups of tables joins them whichever comes first. -/
theorem Crosses.symm {one other : Set String} {node : PlanNode} (h : node.Crosses one other) :
    node.Crosses other one := by
  obtain ⟨l, r, hj, hsides⟩ := h
  exact ⟨l, r, hj, hsides.symm⟩

/-- A join of larger groups of tables joins the smaller ones. -/
theorem Crosses.mono {one other one' other' : Set String} {node : PlanNode}
    (h : node.Crosses one other) (hone : one' ⊆ one) (hother : other' ⊆ other) :
    node.Crosses one' other' := by
  obtain ⟨l, r, hj, ⟨h₁, h₂⟩ | ⟨h₁, h₂⟩⟩ := h
  · exact ⟨l, r, hj, Or.inl ⟨fun t ht => h₁ t (hone ht), fun t ht => h₂ t (hother ht)⟩⟩
  · exact ⟨l, r, hj, Or.inr ⟨fun t ht => h₁ t (hother ht), fun t ht => h₂ t (hone ht)⟩⟩

/-- A cache is not a join. -/
theorem not_crosses_cache (one other : Set String) (input : PlanNode) (id : Nat) :
    ¬ (PlanNode.cache input id).Crosses one other := by
  rintro ⟨l, r, hj, -⟩
  cases hj

/-- A cache does not add rows back. -/
theorem not_premature_cache (outer : List (String × String)) (input : PlanNode) (id : Nat) :
    ¬ (PlanNode.cache input id).Premature outer := by
  rintro ⟨i, m, h, -⟩
  cases h

/-- A node with two joined inputs is one of two kinds. -/
theorem joined?_eq {node l r : PlanNode} (h : node.joined? = some (l, r)) :
    node = .naturalJoin l r ∨ ∃ column op value, node = .join l r column op value := by
  cases node with
  | naturalJoin _ _ =>
    cases h
    exact Or.inl rfl
  | join _ _ column op value =>
    cases h
    exact Or.inr ⟨column, op, value, rfl⟩
  | _ => cases h

/-- A join remembers what its two inputs remember. -/
theorem marked_of_joined {node l r : PlanNode} (h : node.joined? = some (l, r)) (mark : String) :
    node.marked mark = l.marked mark ++ r.marked mark := by
  rcases joined?_eq h with rfl | ⟨_, _, _, rfl⟩ <;> rfl

/-- A join reads the tables of its two inputs. -/
theorem sources_of_joined {node l r : PlanNode} (h : node.joined? = some (l, r)) :
    node.sources = l.sources ++ r.sources := by
  rcases joined?_eq h with rfl | ⟨_, _, _, rfl⟩ <;> rfl

/-- A join has the columns of its two inputs. -/
theorem columns_of_joined {V : Type*} (db : Database V) {node l r : PlanNode}
    (h : node.joined? = some (l, r)) : node.columns db = l.columns db ++ r.columns db := by
  rcases joined?_eq h with rfl | ⟨_, _, _, rfl⟩ <;> rfl

/-- A join has its two inputs and no other. -/
theorem children_of_joined {node l r : PlanNode} (h : node.joined? = some (l, r)) :
    node.children = [l, r] := by
  rcases joined?_eq h with rfl | ⟨_, _, _, rfl⟩ <;> rfl

/-- What has a node of one kind has a node of every wider kind. -/
theorem Has.imp {P Q : PlanNode → Prop} {tree : PlanNode} (h : tree.Has P)
    (hPQ : ∀ node, P node → Q node) : tree.Has Q := by
  obtain ⟨n, hn, hP⟩ := h
  exact ⟨n, hn, hPQ n hP⟩

/-! ## One tree on another -/

/-- `outer` has the nodes of `inner`, caches apart, and the same marks and tables. -/
structure Wraps (inner outer : PlanNode) : Prop where
  nodes : ∀ P : PlanNode → Prop, (∀ input id, ¬ P (.cache input id)) → inner.Has P → outer.Has P
  marked : ∀ mark tree, tree ∈ outer.marked mark ↔ tree ∈ inner.marked mark
  sources : ∀ table, table ∈ outer.sources ↔ table ∈ inner.sources

namespace Wraps

theorem refl (tree : PlanNode) : tree.Wraps tree :=
  ⟨fun _ _ h => h, fun _ _ => Iff.rfl, fun _ => Iff.rfl⟩

/-- A node with one input wraps it. -/
theorem of_child {inner outer : PlanNode} (hchild : inner ∈ outer.children)
    (hmarked : ∀ mark, outer.marked mark = inner.marked mark)
    (hsources : outer.sources = inner.sources) : inner.Wraps outer :=
  ⟨fun _ _ h => h.of_child hchild, fun mark tree => by rw [hmarked],
    fun table => by rw [hsources]⟩

theorem project (input : PlanNode) (cols : List ColumnName) : input.Wraps (.project input cols) :=
  of_child List.mem_cons_self (fun _ => rfl) rfl

theorem cache (input : PlanNode) (id : Nat) : input.Wraps (.cache input id) :=
  of_child List.mem_cons_self (fun _ => rfl) rfl

theorem outerJoin (input : PlanNode) (mark : String) : input.Wraps (.outerJoin input mark) :=
  of_child List.mem_cons_self (fun _ => rfl) rfl

theorem constantSelect (input : PlanNode) (e : Expr) : input.Wraps (.constantSelect input e) :=
  of_child List.mem_cons_self (fun _ => rfl) rfl

theorem simpleSelect (input : PlanNode) (column : ColumnName) (op : BinaryOp) (value : Expr) :
    input.Wraps (.simpleSelect input column op value) :=
  of_child List.mem_cons_self (fun _ => rfl) rfl

theorem patternSelect (input : PlanNode) (column : ColumnName) (op : MatchOp) (pattern : Expr)
    (escape : Option Expr) : input.Wraps (.patternSelect input column op pattern escape) :=
  of_child List.mem_cons_self (fun _ => rfl) rfl

theorem exhaustiveSelect (input : PlanNode) (e : Expr) :
    input.Wraps (.exhaustiveSelect input e) :=
  of_child List.mem_cons_self (fun _ => rfl) rfl

/-- Taking a cache off loses no node but that. -/
theorem withoutCache (tree : PlanNode) : tree.Wraps tree.withoutCache := by
  cases tree with
  | cache input id =>
    refine ⟨?_, fun _ _ => Iff.rfl, fun _ => Iff.rfl⟩
    intro P hP h
    rcases has_iff.mp h with h | ⟨child, hchild, h⟩
    · exact absurd h (hP input id)
    · rw [List.mem_singleton.mp hchild] at h
      exact h
  | _ => exact refl _

/-- A group of tables that is split off stays so under further nodes. -/
theorem splitBy {inner outer : PlanNode} (h : inner.Wraps outer) {one other : Set String}
    (hsplit : inner.SplitBy one other) : outer.SplitBy one other := by
  rcases hsplit with hone | hother | hcross
  · exact Or.inl fun t => (h.sources t).trans (hone t)
  · exact Or.inr (Or.inl fun t => (h.sources t).trans (hother t))
  · exact Or.inr (Or.inr (h.nodes _ (not_crosses_cache one other) hcross))

end Wraps

end PlanNode

/-! ## Lists of trees -/

/-- `trees'` are built on `trees`: they have their nodes, caches apart, and the same tables and
marks, but for `fresh` marks; and where each of `trees` has one of two sets of tables, each of
`trees'` does or joins across the two. -/
structure Grows (fresh : Set String) (trees trees' : List PlanNode) : Prop where
  nodes : ∀ P : PlanNode → Prop, (∀ input id, ¬ P (.cache input id)) →
    (∃ t ∈ trees, t.Has P) → ∃ t ∈ trees', t.Has P
  marked : ∀ mark, mark ∉ fresh → ∀ tree,
    (∃ t ∈ trees', tree ∈ t.marked mark) ↔ ∃ t ∈ trees, tree ∈ t.marked mark
  sources : ∀ table, (∃ t ∈ trees', table ∈ t.sources) ↔ ∃ t ∈ trees, table ∈ t.sources
  split : ∀ one other, (∀ t ∈ trees, t.SplitBy one other) → ∀ t ∈ trees', t.SplitBy one other

namespace Grows

variable {fresh fresh' : Set String} {trees trees' trees'' : List PlanNode}

theorem refl (fresh : Set String) (trees : List PlanNode) : Grows fresh trees trees :=
  ⟨fun _ _ h => h, fun _ _ _ => Iff.rfl, fun _ => Iff.rfl, fun _ _ h => h⟩

/-- What grew from what grew has grown, with the marks that are new all along. -/
theorem trans (h : Grows fresh trees trees') (h' : Grows fresh' trees' trees'')
    (hfresh : fresh' ⊆ fresh) : Grows fresh trees trees'' := by
  constructor
  · exact fun P hP ht => h'.nodes P hP (h.nodes P hP ht)
  · intro mark hmark tree
    rw [h'.marked mark (fun hin => hmark (hfresh hin)) tree, h.marked mark hmark tree]
  · intro table
    rw [h'.sources table, h.sources table]
  · exact fun one other ht => h'.split one other (h.split one other ht)

/-- A growth that adds fewer marks may add more. -/
theorem mono (h : Grows fresh trees trees') (hfresh : fresh ⊆ fresh') :
    Grows fresh' trees trees' :=
  ⟨h.nodes, fun mark hmark => h.marked mark fun hin => hmark (hfresh hin), h.sources, h.split⟩

/-- Trees that grow position by position. -/
theorem of_each (h : List.Forall₂ (fun t t' => Grows fresh [t] [t']) trees trees') :
    Grows fresh trees trees' := by
  induction h with
  | nil => exact refl fresh []
  | @cons t t' rest rest' hg _ ih =>
    have hnodes := hg.nodes
    have hmarked := hg.marked
    have hsources := hg.sources
    have hsplit := hg.split
    simp only [List.mem_singleton, exists_eq_left, forall_eq] at hnodes hmarked hsources hsplit
    constructor
    · intro P hP
      rw [List.exists_mem_cons_iff, List.exists_mem_cons_iff]
      exact Or.imp (hnodes P hP) (ih.nodes P hP)
    · intro mark hmark tree
      rw [List.exists_mem_cons_iff, List.exists_mem_cons_iff, hmarked mark hmark,
        ih.marked mark hmark]
    · intro table
      rw [List.exists_mem_cons_iff, List.exists_mem_cons_iff, hsources, ih.sources]
    · intro one other
      rw [List.forall_mem_cons, List.forall_mem_cons]
      exact And.imp (hsplit one other) (ih.split one other)

theorem of_wraps_one (fresh : Set String) {t t' : PlanNode} (h : t.Wraps t') :
    Grows fresh [t] [t'] := by
  constructor
  · intro P hP
    simp only [List.mem_singleton, exists_eq_left]
    exact h.nodes P hP
  · intro mark _ tree
    simp only [List.mem_singleton, exists_eq_left]
    exact h.marked mark tree
  · intro table
    simp only [List.mem_singleton, exists_eq_left]
    exact h.sources table
  · intro one other
    simp only [List.mem_singleton, forall_eq]
    exact h.splitBy

/-- Trees that wrap those of a list, position by position. -/
theorem of_wraps (fresh : Set String) (h : List.Forall₂ PlanNode.Wraps trees trees') :
    Grows fresh trees trees' :=
  of_each (h.imp fun _ _ => of_wraps_one fresh)

/-- A fresh mark on the rows of a tree. -/
theorem cacheMark {mark : String} (h : mark ∈ fresh) (tree : PlanNode) :
    Grows fresh [tree] [.cacheMark tree mark] := by
  have hnodes : ∀ P : PlanNode → Prop, tree.Has P → (PlanNode.cacheMark tree mark).Has P :=
    fun P hhas => hhas.of_child List.mem_cons_self
  constructor
  · intro P hP
    simp only [List.mem_singleton, exists_eq_left]
    exact hnodes P
  · intro mark' hmark' t
    have hne : mark ≠ mark' := fun heq => hmark' (heq ▸ h)
    simp only [List.mem_singleton, exists_eq_left, PlanNode.marked, if_neg hne]
  · intro table
    simp only [List.mem_singleton, exists_eq_left]
    exact Iff.rfl
  · intro one other
    simp only [List.mem_singleton, forall_eq]
    exact Or.imp id (Or.imp id (hnodes _))

/-- A part of the trees grows while the rest stay. -/
theorem beside (h : Grows fresh trees trees') {rest all all' : List PlanNode}
    (hall : ∀ t, t ∈ all ↔ t ∈ rest ∨ t ∈ trees) (hall' : ∀ t, t ∈ all' ↔ t ∈ rest ∨ t ∈ trees') :
    Grows fresh all all' := by
  have hex : ∀ Q : PlanNode → Prop,
      (∃ t ∈ all, Q t) ↔ (∃ t ∈ rest, Q t) ∨ ∃ t ∈ trees, Q t := by
    intro Q
    simp only [hall, or_and_right, exists_or]
  have hex' : ∀ Q : PlanNode → Prop,
      (∃ t ∈ all', Q t) ↔ (∃ t ∈ rest, Q t) ∨ ∃ t ∈ trees', Q t := by
    intro Q
    simp only [hall', or_and_right, exists_or]
  constructor
  · intro P hP
    rw [hex, hex']
    exact Or.imp id (h.nodes P hP)
  · intro mark hmark tree
    rw [hex, hex', h.marked mark hmark tree]
  · intro table
    rw [hex, hex', h.sources table]
  · intro one other hsplit t ht
    rcases (hall' t).mp ht with ht | ht
    · exact hsplit t ((hall t).mpr (Or.inl ht))
    · exact h.split one other (fun t ht => hsplit t ((hall t).mpr (Or.inr ht))) t ht

/-- A join has what its inputs have. -/
theorem of_joined (fresh : Set String) {l r node : PlanNode} (hj : node.joined? = some (l, r)) :
    Grows fresh [l, r] [node] := by
  have hchildren := PlanNode.children_of_joined hj
  have hsources := PlanNode.sources_of_joined hj
  constructor
  -- Nodes stay.
  · rintro P hP ⟨t, ht, hhas⟩
    exact ⟨node, List.mem_singleton_self node, hhas.of_child (hchildren ▸ ht)⟩
  -- Marks stay.
  · intro mark _ tree
    simp [PlanNode.marked_of_joined hj]
  -- Tables stay.
  · intro table
    simp [hsources]
  -- Each input reads none of the tables of one group, none of the other group, or joins both. If
  -- they read different ones, the new join is the one that joins them.
  · intro one other hsplit t ht
    obtain rfl := List.mem_singleton.mp ht
    have hl := hsplit l List.mem_cons_self
    have hr := hsplit r (List.mem_cons_of_mem _ List.mem_cons_self)
    have hcross : ∀ s, s ∈ [l, r] → s.Has (PlanNode.Crosses one other) →
        t.SplitBy one other := by
      intro s hs h
      exact Or.inr (Or.inr (h.of_child (hchildren ▸ hs)))
    rcases hl with hl | hl | hl
    · rcases hr with hr | hr | hr
      · refine Or.inl fun s => ?_
        rw [hsources, List.mem_append, hl, hr, or_self]
      · exact Or.inr (Or.inr (.of_self ⟨l, r, hj, Or.inl
          ⟨fun s hs => (hl s).mpr hs, fun s hs => (hr s).mpr hs⟩⟩))
      · exact hcross r (List.mem_cons_of_mem _ List.mem_cons_self) hr
    · rcases hr with hr | hr | hr
      · exact Or.inr (Or.inr (.of_self ⟨l, r, hj, Or.inr
          ⟨fun s hs => (hl s).mpr hs, fun s hs => (hr s).mpr hs⟩⟩))
      · refine Or.inr (Or.inl fun s => ?_)
        rw [hsources, List.mem_append, hl, hr, or_self]
      · exact hcross r (List.mem_cons_of_mem _ List.mem_cons_self) hr
    · exact hcross l List.mem_cons_self hl

end Grows

end QueryPlan
