import QueryPlan.Proofs.Applied

/-!
# Truth over literals

A valuation where values are literals, and small tables to evaluate over.

- `Literal.compares`: comparisons of integers; no comparison of a null is true.
- `Expr.valuesIn`, `Expr.holdsIn`: what an expression evaluates to in a row, and
  whether it is true.
- `literals`: the valuation.
- `ones`, `TablePlan.one`: tables of a single row, and their plans.
- `resultWith`: the result of a run that succeeds.
-/

namespace QueryPlan

/-- Whether a comparison of two integers is true; any other two values do not compare. -/
def Literal.compares (op : BinaryOp) : Literal → Literal → Prop
  | .int x, .int y =>
    match op with
    | .eq => x = y
    | .ne => x ≠ y
    | .lt => x < y
    | .gt => y < x
    | .lte => x ≤ y
    | .gte => y ≤ x
    | _ => False
  | _, _ => False

theorem Literal.compares_reverse {op : BinaryOp} (h : op.isComparison = true) (a b : Literal) :
    a.compares op b ↔ b.compares op.reverse a := by
  cases a with
  | int x =>
    cases b with
    | int y =>
      cases op with
      | eq => exact eq_comm
      | ne => exact ne_comm
      | lt | gt | lte | gte => exact Iff.rfl
      | _ => cases h
    | _ => exact Iff.rfl
  | _ => cases b <;> exact Iff.rfl

namespace Expr

/-- The values of a constant, or of the columns that a reference resolves to. -/
def valuesIn (r : Row Literal) : Expr → Set Literal
  | .constant value => {value}
  | .reference name => {v | ∃ c, name.resolvesTo c = Bool.true ∧ (c, v) ∈ r}
  | _ => ∅

/-- Whether a predicate is true in a row. -/
def holdsIn (r : Row Literal) : Expr → Prop
  | .constant value => value = .bool Bool.true
  | .unary .isNull e => Literal.null ∈ e.valuesIn r
  | .unary .isNotNull e => ∃ v ∈ e.valuesIn r, v ≠ .null
  | .binary a .and b => a.holdsIn r ∧ b.holdsIn r
  | .binary a .or b => a.holdsIn r ∨ b.holdsIn r
  | .binary a op b => ∃ x ∈ a.valuesIn r, ∃ y ∈ b.valuesIn r, x.compares op y
  | _ => False

theorem valuesIn_congr {r s : Row Literal} {e : Expr}
    (h : ∀ ref ∈ e.references, ∀ c, ref.resolvesTo c = Bool.true →
      ∀ v, (c, v) ∈ r ↔ (c, v) ∈ s) : e.valuesIn r = e.valuesIn s := by
  cases e with
  | reference name =>
    ext v
    refine exists_congr fun c => and_congr_right fun hres => ?_
    exact h name List.mem_cons_self c hres v
  | _ => rfl

/-- Truth depends only on the columns that the references resolve to. -/
theorem holdsIn_congr {r s : Row Literal} : ∀ {e : Expr},
    (∀ ref ∈ e.references, ∀ c, ref.resolvesTo c = Bool.true →
      ∀ v, (c, v) ∈ r ↔ (c, v) ∈ s) → (e.holdsIn r ↔ e.holdsIn s)
  | .constant _, _ => Iff.rfl
  | .reference _, _ => Iff.rfl
  | .unary op e, h => by
    have hvalues : e.valuesIn r = e.valuesIn s := valuesIn_congr h
    cases op <;> simp only [holdsIn, hvalues]
  | .binary a op b, h => by
    have ha : ∀ ref ∈ a.references, ∀ c, ref.resolvesTo c = Bool.true →
        ∀ v, (c, v) ∈ r ↔ (c, v) ∈ s :=
      fun ref href => h ref (mem_references_binary.mpr (Or.inl href))
    have hb : ∀ ref ∈ b.references, ∀ c, ref.resolvesTo c = Bool.true →
        ∀ v, (c, v) ∈ r ↔ (c, v) ∈ s :=
      fun ref href => h ref (mem_references_binary.mpr (Or.inr href))
    have hva := valuesIn_congr ha
    have hvb := valuesIn_congr hb
    have hta : a.holdsIn r ↔ a.holdsIn s := holdsIn_congr ha
    have htb : b.holdsIn r ↔ b.holdsIn s := holdsIn_congr hb
    cases op <;> simp only [holdsIn, hva, hvb, hta, htb]
  | .pattern .., _ => Iff.rfl
  | .call .., _ => Iff.rfl
  | .query .., _ => Iff.rfl
  | .quantified .., _ => Iff.rfl

end Expr

/-- Truth over literals: integers compare, and nulls do not. -/
def literals : Valuation Literal where
  null := .null
  holds e r := e.holdsIn r
  holds_congr _ h := Expr.holdsIn_congr h
  holds_true _ := rfl
  holds_and _ _ _ := Iff.rfl
  holds_or _ _ _ := Iff.rfl
  holds_reverse a op b r h := by
    have hswap : (∃ x ∈ a.valuesIn r, ∃ y ∈ b.valuesIn r, x.compares op y) ↔
        ∃ y ∈ b.valuesIn r, ∃ x ∈ a.valuesIn r, y.compares op.reverse x := by
      simp only [Literal.compares_reverse h]
      constructor
      · rintro ⟨x, hx, y, hy, hxy⟩
        exact ⟨y, hy, x, hx, hxy⟩
      · rintro ⟨y, hy, x, hx, hxy⟩
        exact ⟨x, hx, y, hy, hxy⟩
    cases op <;> first | exact hswap | cases h

/-! ## Tables of a single row -/

/-- A source that gives nothing, for runs that number their marks. -/
def Identifiers.blank : Identifiers := ⟨fun _ => ""⟩

/-- Tables of one column, `x`, and one row, where it is 1. -/
def ones : Database Literal where
  columns _ := ["x"]
  rows _ := {fun _ => .int 1}

/-- The plan of such a table. -/
def TablePlan.one (number : Nat) (table : String) : TablePlan := .base ⟨number⟩ table ["x"]

/-- The column of such a table. -/
def columnOf (table : String) : Expr := .reference (.qualified table "x")

/-- The row of such a table. -/
def oneRow (table : String) : Row Literal := {(.qualified table "x", .int 1)}

theorem ones_rowsOf (table : String) : ones.rowsOf table = {oneRow table} := by
  ext r
  unfold Database.rowsOf oneRow ones
  simp only [List.mem_singleton, Set.mem_singleton_iff, exists_eq_left, Set.mem_ofPred_eq]
  exact Iff.rfl

theorem oneRow_mem_rows (table : String) :
    oneRow table ∈ PlanNode.rows ones literals (.source table) := by
  show oneRow table ∈ ones.rowsOf table
  rw [ones_rowsOf]
  exact rfl

theorem mem_valuesIn_columnOf {table : String} {r : Row Literal} {v : Literal}
    (h : (.qualified table "x", v) ∈ r) : v ∈ (columnOf table).valuesIn r := by
  refine ⟨.qualified table "x", ?_, h⟩
  simp [ColumnName.resolvesTo, ColumnName.qualified]

theorem valuesIn_columnOf {table : String} {r : Row Literal} (h : oneRow table ⊆ r)
    (hones : ∀ y ∈ r, y.2 = .int 1) : (columnOf table).valuesIn r = {.int 1} := by
  ext v
  constructor
  · rintro ⟨c, -, hc⟩
    exact hones _ hc
  · rintro rfl
    exact mem_valuesIn_columnOf (h rfl)

/-- A comparison of two such tables compares 1 with itself. -/
theorem holdsIn_columns_iff {s t : String} {op : BinaryOp} {r : Row Literal}
    (hop : op.isComparison = true) (hs : oneRow s ⊆ r) (ht : oneRow t ⊆ r)
    (hones : ∀ y ∈ r, y.2 = .int 1) :
    Expr.holdsIn r (.binary (columnOf s) op (columnOf t)) ↔
      (Literal.int 1).compares op (.int 1) := by
  have hvalues : Expr.holdsIn r (.binary (columnOf s) op (columnOf t)) ↔
      ∃ x ∈ (columnOf s).valuesIn r, ∃ y ∈ (columnOf t).valuesIn r, x.compares op y := by
    cases op <;> first | exact Iff.rfl | cases hop
  rw [hvalues, valuesIn_columnOf hs hones, valuesIn_columnOf ht hones]
  simp only [Set.mem_singleton_iff, exists_eq_left]

/-- No comparison of values that are all 1 or null finds one less than the other. -/
theorem not_holdsIn_lt {s t : String} {r : Row Literal}
    (h : ∀ y ∈ r, y.2 = .int 1 ∨ y.2 = .null) :
    ¬ Expr.holdsIn r (.binary (columnOf s) .lt (columnOf t)) := by
  rintro ⟨v, ⟨c, -, hv⟩, w, ⟨d, -, hw⟩, hless⟩
  have hv : v = .int 1 ∨ v = .null := h _ hv
  have hw : w = .int 1 ∨ w = .null := h _ hw
  rcases hv with rfl | rfl
  · rcases hw with rfl | rfl
    · have hless : (1 : Int64) < 1 := hless
      exact absurd hless (by decide)
    · exact hless
  · exact hless

/-! ## Runs -/

/-- What `f` makes of the result of a run that succeeds, and of the state after it. -/
def resultWith {ε σ α β : Type} (f : α → σ → β) : EStateM.Result ε σ α → Option β
  | .ok a s => some (f a s)
  | .error _ _ => none

theorem exists_of_resultWith {ε σ α β : Type} {r : EStateM.Result ε σ α} {f : α → σ → β} {b : β}
    (h : resultWith f r = some b) : ∃ a s, r = .ok a s ∧ f a s = b := by
  cases r with
  | ok a s => exact ⟨a, s, rfl, Option.some.inj h⟩
  | error e s => cases h

end QueryPlan
