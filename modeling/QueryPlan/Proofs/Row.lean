import Mathlib.Data.Set.Lattice
import QueryPlan.Column

/-!
# Rows

A row is a set of assignments of values to columns.

- `Row.columns`: the columns that a row assigns a value.
- `Row.only`, `Row.without`: the part of a row on some columns, and the rest.
- `Row.nulls`, `Row.padded`: null in every column of a list, and a row with null
  in the columns that it lacks.
- `pairs`: every row of one set together with every row of another.
- `outerPairs`: those that meet a condition, and the rows of the first set that meet
  it with none.
-/

namespace QueryPlan

universe u

variable {V : Type u}

/-- A row: assignments of values to columns. -/
abbrev Row (V : Type u) := Set (ColumnName × V)

namespace Row

/-- The columns that have a value. -/
def columns (r : Row V) : Set ColumnName := {c | ∃ v, (c, v) ∈ r}

/-- The part of a row on some columns. -/
def only (cols : List ColumnName) (r : Row V) : Row V := {x ∈ r | x.1 ∈ cols}

/-- The part of a row outside some columns. -/
def without (cols : List ColumnName) (r : Row V) : Row V := {x ∈ r | x.1 ∉ cols}

/-- Null in each of some columns. -/
def nulls (null : V) (cols : List ColumnName) : Row V := {x | x.1 ∈ cols ∧ x.2 = null}

/-- The row, with null in those of `cols` that it lacks. -/
def padded (null : V) (cols : List ColumnName) (r : Row V) : Row V :=
  r ∪ {x | x.1 ∈ cols ∧ x.1 ∉ r.columns ∧ x.2 = null}

/-- Whether two rows agree on the columns of the first. -/
def AgreesWith (m r : Row V) : Prop := ∀ c ∈ m.columns, ∀ v, (c, v) ∈ m ↔ (c, v) ∈ r

/-- Whether a row has a value in exactly the columns of a list. -/
def Over (cols : List ColumnName) (r : Row V) : Prop := ∀ c, c ∈ r.columns ↔ c ∈ cols

@[simp] theorem mem_columns {r : Row V} {c : ColumnName} : c ∈ r.columns ↔ ∃ v, (c, v) ∈ r :=
  Iff.rfl

@[simp] theorem mem_only {cols : List ColumnName} {r : Row V} {x : ColumnName × V} :
    x ∈ r.only cols ↔ x ∈ r ∧ x.1 ∈ cols := Iff.rfl

@[simp] theorem mem_without {cols : List ColumnName} {r : Row V} {x : ColumnName × V} :
    x ∈ r.without cols ↔ x ∈ r ∧ x.1 ∉ cols := Iff.rfl

@[simp] theorem mem_nulls {null : V} {cols : List ColumnName} {x : ColumnName × V} :
    x ∈ nulls null cols ↔ x.1 ∈ cols ∧ x.2 = null := Iff.rfl

/-! ## Rows over given columns -/

/-- A row over some columns assigns values to these alone. -/
theorem Over.mem {cols : List ColumnName} {r : Row V} (h : r.Over cols) {x : ColumnName × V}
    (hx : x ∈ r) : x.1 ∈ cols :=
  (h x.1).mp ⟨x.2, hx⟩

/-- Over the same columns, in whatever order and however often listed. -/
theorem Over.congr {cols cols' : List ColumnName} {r : Row V} (h : r.Over cols)
    (hcols : ∀ c, c ∈ cols ↔ c ∈ cols') : r.Over cols' :=
  fun c => (h c).trans (hcols c)

/-- A row of nulls is over its columns. -/
theorem nulls_over (null : V) (cols : List ColumnName) : (nulls null cols).Over cols := by
  intro c
  constructor
  · rintro ⟨v, hv⟩
    exact hv.1
  · intro hc
    exact ⟨null, hc, rfl⟩

/-- Rows over different lists of columns, side by side. -/
theorem Over.union {cols cols' : List ColumnName} {a b : Row V} (ha : a.Over cols)
    (hb : b.Over cols') : (a ∪ b : Row V).Over (cols ++ cols') := by
  intro c
  rw [List.mem_append, ← ha c, ← hb c]
  constructor
  · rintro ⟨v, hv | hv⟩
    · exact Or.inl ⟨v, hv⟩
    · exact Or.inr ⟨v, hv⟩
  · rintro (⟨v, hv⟩ | ⟨v, hv⟩)
    · exact ⟨v, Or.inl hv⟩
    · exact ⟨v, Or.inr hv⟩

/-- Padding a row over `cols` to the columns `cols ++ others` adds nulls in `others`. -/
theorem Over.padded_eq {null : V} {cols others all : List ColumnName} {r : Row V}
    (h : r.Over cols) (hall : ∀ c, c ∈ all ↔ c ∈ cols ∨ c ∈ others)
    (hdisj : ∀ c ∈ cols, c ∉ others) : r.padded null all = r ∪ nulls null others := by
  ext x
  simp only [padded, Set.mem_union, Set.mem_ofPred_eq, mem_nulls, hall, h x.1]
  have := hdisj x.1
  tauto

/-- Padding a row to columns that include its own gives one over these. -/
theorem padded_over {null : V} {cols : List ColumnName} {r : Row V} (h : ∀ x ∈ r, x.1 ∈ cols) :
    (r.padded null cols).Over cols := by
  intro c
  constructor
  · rintro ⟨v, hv | hv⟩
    · exact h _ hv
    · exact hv.1
  · intro hc
    by_cases hr : c ∈ r.columns
    · obtain ⟨v, hv⟩ := hr
      exact ⟨v, Or.inl hv⟩
    · exact ⟨null, Or.inr ⟨hc, hr, rfl⟩⟩

/-- A row over `cols` agrees with a row that extends another one over `cols` only if it is that
one. -/
theorem Over.agreesWith_union {cols : List ColumnName} {m a b : Row V} (hm : m.Over cols)
    (ha : a.Over cols) (hb : ∀ x ∈ b, x.1 ∉ cols) : m.AgreesWith (a ∪ b) ↔ m = a := by
  constructor
  · intro h
    ext ⟨c, v⟩
    constructor
    · intro hx
      rcases (h c ⟨v, hx⟩ v).mp hx with hx | hx'
      · exact hx
      · exact absurd (hm.mem hx) (hb _ hx')
    · intro hx
      exact (h c ((hm c).mpr (ha.mem hx)) v).mpr (Or.inl hx)
  · rintro rfl c hc v
    constructor
    · exact Or.inl
    · rintro (hx | hx)
      · exact hx
      · exact absurd ((hm c).mp hc) (hb _ hx)

/-! ## Parts of a row -/

theorem only_union (cols : List ColumnName) (a b : Row V) :
    (a ∪ b : Row V).only cols = a.only cols ∪ b.only cols := by
  ext x
  simp only [mem_only, Set.mem_union]
  tauto

/-- The part on two lists of columns consists of the parts on each. -/
theorem only_append (cols cols' : List ColumnName) (r : Row V) :
    r.only (cols ++ cols') = r.only cols ∪ r.only cols' := by
  ext x
  simp only [mem_only, Set.mem_union, List.mem_append]
  tauto

/-- The part of a row depends on which columns are listed alone. -/
theorem only_congr {cols cols' : List ColumnName} (h : ∀ c, c ∈ cols ↔ c ∈ cols') (r : Row V) :
    r.only cols = r.only cols' := by
  ext x
  simp only [mem_only, h]

/-- All of a row is its part on columns that it does not leave. -/
theorem only_eq_self {cols : List ColumnName} {r : Row V} (h : ∀ x ∈ r, x.1 ∈ cols) :
    r.only cols = r := by
  ext x
  simp only [mem_only, and_iff_left_iff_imp]
  exact h x

/-- Nothing of a row is its part on columns that it lacks. -/
theorem only_eq_empty {cols : List ColumnName} {r : Row V} (h : ∀ x ∈ r, x.1 ∉ cols) :
    r.only cols = ∅ := by
  ext x
  simp only [mem_only, Set.mem_empty_iff_false, iff_false, not_and]
  exact h x

/-- The part of a row on some columns is nulls if null is its only value in each of them. -/
theorem only_eq_nulls_iff {null : V} {cols : List ColumnName} {r : Row V} :
    r.only cols = nulls null cols ↔ ∀ c ∈ cols, ∀ v, (c, v) ∈ r ↔ v = null := by
  constructor
  · intro h c hc v
    have := Set.ext_iff.mp h (c, v)
    simpa only [mem_only, mem_nulls, hc, and_true, true_and] using this
  · intro h
    ext ⟨c, v⟩
    rw [mem_only, mem_nulls, and_comm]
    exact and_congr_right fun hc => h c hc v

/-- Two rows over disjoint columns are the parts of their union. -/
theorem union_eq_only_append_iff {cols cols' : List ColumnName} {a b r : Row V}
    (ha : a.Over cols) (hb : b.Over cols') (hdisj : ∀ c ∈ cols, c ∉ cols') :
    r.only (cols ++ cols') = a ∪ b ↔ r.only cols = a ∧ r.only cols' = b := by
  constructor
  · intro h
    -- What the part of the row on both lists has is of one of the two rows.
    have hcut : ∀ x, x ∈ r ∧ (x.1 ∈ cols ∨ x.1 ∈ cols') ↔ x ∈ a ∨ x ∈ b := by
      intro x
      have := Set.ext_iff.mp h x
      simpa only [mem_only, List.mem_append, Set.mem_union] using this
    constructor
    · ext x
      rw [mem_only]
      constructor
      -- The lists share no column, so the other row cannot have it.
      · rintro ⟨hx, hc⟩
        rcases (hcut x).mp ⟨hx, Or.inl hc⟩ with h' | h'
        · exact h'
        · exact absurd (hb.mem h') (hdisj _ hc)
      · intro hx
        exact ⟨((hcut x).mpr (Or.inl hx)).1, ha.mem hx⟩
    · ext x
      rw [mem_only]
      constructor
      · rintro ⟨hx, hc⟩
        rcases (hcut x).mp ⟨hx, Or.inr hc⟩ with h' | h'
        · exact absurd hc (hdisj _ (ha.mem h'))
        · exact h'
      · intro hx
        exact ⟨((hcut x).mpr (Or.inr hx)).1, hb.mem hx⟩
  · rintro ⟨rfl, rfl⟩
    exact only_append _ _ _

end Row

/-! ## Pairs of rows -/

/-- Every row of `A` together with every row of `B`. -/
def pairs (A B : Set (Row V)) : Set (Row V) := {r | ∃ a ∈ A, ∃ b ∈ B, r = a ∪ b}

/-- Pairs of rows have no order, since a row is a set of assignments. -/
theorem pairs_comm (A B : Set (Row V)) : pairs A B = pairs B A := by
  ext r
  constructor
  · rintro ⟨a, ha, b, hb, rfl⟩
    exact ⟨b, hb, a, ha, Set.union_comm a b⟩
  · rintro ⟨b, hb, a, ha, rfl⟩
    exact ⟨a, ha, b, hb, Set.union_comm b a⟩

/-- The part of a row on the columns of two sides is a pair exactly when each of its parts is a
row of that side. -/
theorem only_mem_pairs_iff {A B : Set (Row V)} {cols cols' : List ColumnName} {r : Row V}
    (hA : ∀ a ∈ A, a.Over cols) (hB : ∀ b ∈ B, b.Over cols') (hdisj : ∀ c ∈ cols, c ∉ cols') :
    r.only (cols ++ cols') ∈ pairs A B ↔ r.only cols ∈ A ∧ r.only cols' ∈ B := by
  constructor
  · rintro ⟨a, ha, b, hb, h⟩
    obtain ⟨h₁, h₂⟩ := (Row.union_eq_only_append_iff (hA a ha) (hB b hb) hdisj).mp h
    rw [h₁, h₂]
    exact ⟨ha, hb⟩
  · rintro ⟨ha, hb⟩
    exact ⟨_, ha, _, hb, Row.only_append _ _ _⟩

/-- Every row of `A` with each row of `B` together with which it satisfies `on`, or with nulls in
`cols` if there is none. -/
def outerPairs (null : V) (cols : List ColumnName) (on : Row V → Prop) (A B : Set (Row V)) :
    Set (Row V) :=
  {r | ∃ a ∈ A, (∃ b ∈ B, on (a ∪ b) ∧ r = a ∪ b) ∨
    (∀ b ∈ B, ¬ on (a ∪ b)) ∧ r = a ∪ Row.nulls null cols}

/-- Outer pairs are over the columns of both sides, padded or not. -/
theorem outerPairs_over {null : V} {on : Row V → Prop} {A B : Set (Row V)}
    {cols cols' : List ColumnName} (hA : ∀ a ∈ A, a.Over cols) (hB : ∀ b ∈ B, b.Over cols') :
    ∀ r ∈ outerPairs null cols' on A B, r.Over (cols ++ cols') := by
  rintro _ ⟨a, ha, ⟨b, hb, -, rfl⟩ | ⟨-, rfl⟩⟩
  · exact (hA a ha).union (hB b hb)
  · exact (hA a ha).union (Row.nulls_over null cols')

/-- The part of a row on the columns of both sides is one of them exactly when it has a row of
`A`, and either a row of `B` with it or nulls for want of one. -/
theorem only_mem_outerPairs_iff {null : V} {on : Row V → Prop} {A B : Set (Row V)}
    {cols cols' : List ColumnName} {r : Row V} (hA : ∀ a ∈ A, a.Over cols)
    (hB : ∀ b ∈ B, b.Over cols') (hdisj : ∀ c ∈ cols, c ∉ cols') :
    r.only (cols ++ cols') ∈ outerPairs null cols' on A B ↔
      r.only cols ∈ A ∧
        (r.only cols' ∈ B ∧ on (r.only cols ∪ r.only cols') ∨
          r.only cols' = Row.nulls null cols' ∧ ∀ b ∈ B, ¬ on (r.only cols ∪ b)) := by
  constructor
  · rintro ⟨a, ha, ⟨b, hb, hon, h⟩ | ⟨hnone, h⟩⟩
    · obtain ⟨rfl, rfl⟩ := (Row.union_eq_only_append_iff (hA a ha) (hB b hb) hdisj).mp h
      exact ⟨ha, Or.inl ⟨hb, hon⟩⟩
    · obtain ⟨rfl, hnulls⟩ :=
        (Row.union_eq_only_append_iff (hA a ha) (Row.nulls_over null cols') hdisj).mp h
      exact ⟨ha, Or.inr ⟨hnulls, hnone⟩⟩
  · rintro ⟨ha, ⟨hb, hon⟩ | ⟨hnulls, hnone⟩⟩
    · exact ⟨_, ha, Or.inl ⟨_, hb, hon, Row.only_append _ _ _⟩⟩
    · refine ⟨_, ha, Or.inr ⟨hnone, ?_⟩⟩
      rw [Row.only_append, hnulls]

/-- Every choice of one row of each set, together. -/
def product : List (Set (Row V)) → Set (Row V)
  | [] => {∅}
  | A :: rest => pairs A (product rest)

end QueryPlan
