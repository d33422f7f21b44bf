import QueryPlan.Proofs.Answered
import QueryPlan.Proofs.Outcome

/-!
# How a comparison is applied

A comparison between plans is applied in two stages: the plans that each side
reads are joined to one plan, and then the comparison is put on these two.

- `Expr.constant_or_reads`: whether both sides read columns.
- `Planner.compareWith`: the second stage.
- `applyStandardJoinWith_of_reads`: both sides read columns, so that there are
  both stages.
- `applyStandardJoinWith_of_constant`: one side does not, and the comparison is
  evaluated row by row.
- `Planner.Compared`, `compareWith_ok`: what the second stage has done when it
  succeeds.
-/

namespace QueryPlan

/-! ## The sides of a comparison -/

@[simp] theorem Expr.mem_references {e : Expr} {ref : ColumnName} :
    ref ∈ e.references ↔ ref ∈ e.mentions := mem_distinct

theorem Expr.mem_references_binary {left right : Expr} {op : BinaryOp} {ref : ColumnName} :
    ref ∈ (Expr.binary left op right).references ↔
      ref ∈ left.references ∨ ref ∈ right.references := by
  rw [mem_references, mem_references, mem_references, mentions, List.mem_append]

theorem Expr.eq_of_asReference {e : Expr} {column : ColumnName}
    (h : e.asReference? = some column) : e = .reference column := by
  cases e with
  | reference name =>
    cases h
    rfl
  | _ => cases h

/-- Either some side reads no column, or both do. -/
theorem Expr.constant_or_reads (left right : Expr) :
    (left.references = [] ∨ right.references = []) ∨
      ∃ first ∈ left.references, left.references.head? = some first ∧ right.references ≠ [] := by
  cases hleft : left.references with
  | nil => exact Or.inl (Or.inl rfl)
  | cons first others =>
    by_cases hright : right.references = []
    · exact Or.inl (Or.inr hright)
    · exact Or.inr ⟨first, List.mem_cons_self, rfl, hright⟩

/-! ## Two stages -/

namespace Planner

variable {condition : ConditionPlanner} {left right : Expr} {op : BinaryOp} {lhs rhs : PlanId}
  {w w' : Workspace} {u : Unit}

/-- Puts a comparison on the plans of its two sides. -/
def compareWith (condition : ConditionPlanner) (left : Expr) (op : BinaryOp) (right : Expr)
    (lhs rhs : PlanId) : Planner Unit := do
  if lhs = rhs then selectRows lhs (.binary left op right)
  else if ← mustJoinByLinks lhs rhs then
    joinThenSelectWith condition lhs rhs (.binary left op right)
  else
    match left.asReference?, right.asReference? with
    | some column, _ =>
      let _ ← merge lhs rhs fun l r => .join l r column op right
    | none, some column =>
      let _ ← merge rhs lhs fun r l => .join r l column op.reverse left
    | none, none => joinThenSelectWith condition lhs rhs (.binary left op right)

theorem applyStandardJoinWith_of_reads {first : ColumnName}
    (hleft : left.references.head? = some first) (hright : right.references ≠ []) :
    applyStandardJoinWith condition (.binary left op right) = (do
      let _ ← joinReadersWith condition left.references
      let rhs ← joinReadersWith condition right.references
      let lhs ← ask fun set => set.owner first
      compareWith condition left op right lhs rhs) := by
  obtain ⟨others, hleft⟩ := List.head?_eq_some_iff.mp hleft
  obtain ⟨rightColumn, rightOthers, hright⟩ := List.exists_cons_of_ne_nil hright
  unfold applyStandardJoinWith
  simp only [hleft, hright]
  rfl

theorem applyStandardJoinWith_of_constant (h : left.references = [] ∨ right.references = []) :
    applyStandardJoinWith condition (.binary left op right) = (do
      selectRows (← joinReadersWith condition (Expr.binary left op right).references)
        (.binary left op right)) := by
  unfold applyStandardJoinWith
  rcases h with h | h
  · simp only [h]
  · simp only [h]
    cases left.references <;> rfl

theorem mustJoinByLinks_ok {must : Bool} (h : mustJoinByLinks lhs rhs w = .ok must w') :
    w' = w ∧ ∃ l r, w.set.get? lhs = some l ∧ w.set.get? rhs = some r ∧
      must = (l.isLinkedTo rhs || r.isLinkedTo lhs || clash l r != .safe) := by
  simp only [mustJoinByLinks, bind_ok, ask_ok, require_ok, pure_ok] at h
  obtain ⟨l, _, ⟨hl, rfl⟩, r, _, ⟨hr, rfl⟩, hmust, rfl⟩ := h
  exact ⟨rfl, l, r, hl, hr, hmust⟩

/-! ## The second stage -/

/-- The plans of two handles may be merged on a comparison: no link joins them, and they do not
clash. -/
def Free (set : TableSet) (lhs rhs : PlanId) : Prop :=
  ∃ l r, set.get? lhs = some l ∧ set.get? rhs = some r ∧ l.isLinkedTo rhs = false ∧
    r.isLinkedTo lhs = false ∧ clash l r = .safe

theorem Free.symm {set : TableSet} (h : Free set lhs rhs) : Free set rhs lhs := by
  obtain ⟨l, r, hl, hr, hlr, hrl, hsafe⟩ := h
  exact ⟨r, l, hr, hl, hrl, hlr, clash_safe_comm hsafe⟩

/-- What is so of the two plans of a set with these handles. -/
theorem Free.of_mem {set : TableSet} {l r : TablePlan} (h : Free set l.id r.id)
    (hnodup : (set.tables.map TablePlan.id).Nodup) (hl : l ∈ set.tables) (hr : r ∈ set.tables) :
    l.isLinkedTo r.id = false ∧ r.isLinkedTo l.id = false ∧ clash l r = .safe := by
  obtain ⟨l', r', hl', hr', hfree⟩ := h
  rw [get?_eq_some_of_nodup hnodup] at hl' hr'
  obtain rfl := eq_of_id_of_nodup hnodup hl'.1 hl hl'.2
  obtain rfl := eq_of_id_of_nodup hnodup hr'.1 hr hr'.2
  exact hfree

/-- What has been done when a comparison was put on the plans `lhs` and `rhs`. -/
inductive Compared (condition : ConditionPlanner) (left : Expr) (op : BinaryOp) (right : Expr)
    (lhs rhs : PlanId) (w : Workspace) (u : Unit) (w' : Workspace) : Prop
  /-- One plan has both sides. -/
  | inside (same : lhs = rhs) (selected : selectRows lhs (.binary left op right) w = .ok u w')
  /-- The plans were joined as their links say, or neither side is a column alone. -/
  | rows (ne : lhs ≠ rhs)
      (selected : joinThenSelectWith condition lhs rhs (.binary left op right) w = .ok u w')
  /-- The plans were merged on the column that is the left side. -/
  | onLeft {column : ColumnName} {id : PlanId} (ne : lhs ≠ rhs) (side : left = .reference column)
      (free : Free w.set lhs rhs)
      (merged : merge lhs rhs (fun l r => .join l r column op right) w = .ok id w')
  /-- The plans were merged, the right one first, on the column that is the right side. -/
  | onRight {column : ColumnName} {id : PlanId} (ne : lhs ≠ rhs) (side : right = .reference column)
      (free : Free w.set lhs rhs)
      (merged : merge rhs lhs (fun r l => .join r l column op.reverse left) w = .ok id w')

theorem compareWith_ok (h : compareWith condition left op right lhs rhs w = .ok u w') :
    Compared condition left op right lhs rhs w u w' := by
  unfold compareWith at h
  -- The sides are read off one plan, or off two that must be joined by links first, or off two that
  -- the comparison may join.
  by_cases hsame : lhs = rhs
  · rw [if_pos hsame] at h
    exact .inside hsame h
  · rw [if_neg hsame, bind_ok] at h
    obtain ⟨must, w₁, hmust, h⟩ := h
    obtain ⟨rfl, l, r, hl, hr, hmust⟩ := mustJoinByLinks_ok hmust
    cases must with
    | true => exact .rows hsame h
    | false =>
      have hfree : Free w₁.set lhs rhs := by
        simp only [Bool.false_eq, Bool.or_eq_false_iff, bne_eq_false_iff_eq] at hmust
        exact ⟨l, r, hl, hr, hmust.1.1, hmust.1.2, hmust.2⟩
      simp only [Bool.false_eq_true, if_false] at h
      cases hleft : left.asReference? with
      | some column =>
        simp only [hleft, bind_ok, pure_ok] at h
        obtain ⟨id, _, hmerge, -, rfl⟩ := h
        exact .onLeft hsame (Expr.eq_of_asReference hleft) hfree hmerge
      | none =>
        cases hright : right.asReference? with
        | some column =>
          simp only [hleft, hright, bind_ok, pure_ok] at h
          obtain ⟨id, _, hmerge, -, rfl⟩ := h
          exact .onRight hsame (Expr.eq_of_asReference hright) hfree hmerge
        | none =>
          simp only [hleft, hright] at h
          exact .rows hsame h

end Planner

end QueryPlan
