import Mathlib.Data.List.Pairwise
import QueryPlan.Proofs.LinkedJoin

/-!
# Planning a query over base tables

- `mem_product_iff`: a choice of rows, one of each part, by its columns.
- `BaseTables`: the plans of a set are base tables of a database.
- `BaseTables.ready`: such a set is ready to be planned over.
- `planQuery_rows`: a query that is planned has the rows that the set stands for
  and of which the filter is true, unless its tree has a flaw.
-/

namespace QueryPlan

universe u

variable {V : Type u} {db : Database V} {val : Valuation V} {wiring : Wiring}

/-! ## Choices of rows -/

/-- A row is a choice of one row of each of some parts, with columns of their own, if its part on
the columns of each is one of its rows, and it has no other columns. -/
theorem mem_product_iff {α : Type*} {cols : α → List ColumnName} {rows : α → Set (Row V)}
    {parts : List α} (hover : ∀ x ∈ parts, ∀ a ∈ rows x, a.Over (cols x))
    (hdisj : parts.Pairwise fun x y => ∀ c ∈ cols x, c ∉ cols y) {r : Row V} :
    r ∈ product (parts.map rows) ↔
      (∀ y ∈ r, ∃ x ∈ parts, y.1 ∈ cols x) ∧ ∀ x ∈ parts, r.only (cols x) ∈ rows x := by
  -- The induction is on the parts. The first one has columns that no later one has, so that a row
  -- is cut into its part on these and the rest.
  induction parts generalizing r with
  | nil =>
    simp only [List.map_nil, product, Set.mem_singleton_iff, List.not_mem_nil, false_and,
      exists_false, IsEmpty.forall_iff, implies_true, and_true]
    exact Set.eq_empty_iff_forall_notMem
  | cons x rest ih =>
    rw [List.forall_mem_cons] at hover
    rw [List.pairwise_cons] at hdisj
    have ih := @ih hover.2 hdisj.2
    rw [List.forall_mem_cons]
    constructor
    · rintro ⟨a, ha, b, hb, rfl⟩
      obtain ⟨hcov, hparts⟩ := ih.mp hb
      have hacols : ∀ y ∈ a, y.1 ∈ cols x := fun y hy => (hover.1 a ha).mem hy
      have hbcols : ∀ y ∈ b, y.1 ∉ cols x := by
        intro y hy hc
        obtain ⟨z, hz, hcz⟩ := hcov y hy
        exact hdisj.1 z hz _ hc hcz
      refine ⟨?_, ?_, ?_⟩
      · rintro y (hy | hy)
        · exact ⟨x, List.mem_cons_self, hacols y hy⟩
        · obtain ⟨z, hz, hcz⟩ := hcov y hy
          exact ⟨z, List.mem_cons_of_mem _ hz, hcz⟩
      · rw [Row.only_union, Row.only_eq_self hacols, Row.only_eq_empty hbcols, Set.union_empty]
        exact ha
      · intro z hz
        rw [Row.only_union, Row.only_eq_empty fun y hy => hdisj.1 z hz _ (hacols y hy),
          Set.empty_union]
        exact hparts z hz
    · rintro ⟨hcov, hx, hparts⟩
      -- The rest is what the row has outside the columns of the first part.
      refine ⟨_, hx, r.without (cols x), ih.mpr ⟨?_, ?_⟩, ?_⟩
      · rintro y ⟨hy, hny⟩
        obtain ⟨z, hz, hcz⟩ := hcov y hy
        rcases List.mem_cons.mp hz with rfl | hz
        · exact absurd hcz hny
        · exact ⟨z, hz, hcz⟩
      · intro z hz
        have hsame : (r.without (cols x)).only (cols z) = r.only (cols z) := by
          ext y
          simp only [Row.mem_only, Row.mem_without]
          have := hdisj.1 z hz y.1
          tauto
        rw [hsame]
        exact hparts z hz
      · ext y
        simp only [Set.mem_union, Row.mem_only, Row.mem_without]
        tauto

/-! ## Base tables -/

/-- Numbered names are all different. -/
theorem MarkerGenerator.nameAt_injective {markers : MarkerGenerator}
    (h : markers.strategy = .sequential) : Function.Injective markers.nameAt := by
  intro m n hmn
  unfold nameAt at hmn
  rw [h] at hmn
  have hdigits : Nat.toDigits 10 m = Nat.toDigits 10 n := by
    rw [← Nat.toList_repr, ← Nat.toList_repr]
    exact congrArg String.toList ((String.append_right_inj _).mp hmn)
  rw [← @Nat.ofDigitChars_ten_toDigits m, hdigits, Nat.ofDigitChars_ten_toDigits]

/-- The plan of a table of the database: under its name and with its columns, not changed yet, but
with any links. -/
def TablePlan.IsBase (db : Database V) (p : TablePlan) : Prop :=
  ∃ table,
    p = { TablePlan.base p.id table (db.columns table) with left := p.left, right := p.right }

/-- The plans are those of base tables, none of them twice and each with different columns, under
handles of their own that were given out before. -/
structure BaseTables (db : Database V) (supply : PlanId.Supply) (tables : List TablePlan) :
    Prop where
  base : ∀ p ∈ tables, p.IsBase db
  names : (tables.flatMap fun p => p.executable.sources).Nodup
  columns : ∀ p ∈ tables, p.columns.Nodup
  ids : (tables.map TablePlan.id).Nodup
  given : ∀ p ∈ tables, p.id.number < supply.next

namespace TablePlan.IsBase

variable {p q : TablePlan}

/-- A base table is the source of its own name. -/
theorem source (h : p.IsBase db) : ∃ table, p.executable = .source table ∧
    p.columns = db.columnsOf table := by
  obtain ⟨table, h⟩ := h
  rw [h]
  exact ⟨table, rfl, rfl⟩

/-- A base table reads a table. -/
theorem sources_ne_nil (h : p.IsBase db) : p.executable.sources ≠ [] := by
  obtain ⟨table, htree, -⟩ := h.source
  rw [htree]
  exact List.cons_ne_nil _ _

theorem proper (h : p.IsBase db) (hnodup : p.columns.Nodup) : p.Proper db val := by
  obtain ⟨table, htree, hcols⟩ := h.source
  refine ⟨hnodup, ?_, ?_⟩
  · intro c
    rw [htree, hcols]
    rfl
  · intro r hr
    rw [htree] at hr
    rw [hcols]
    exact Database.rowsOf_over hr

/-- A base table has no mark. -/
theorem marked (h : p.IsBase db) (mark : String) : p.executable.marked mark = [] := by
  obtain ⟨table, htree, -⟩ := h.source
  rw [htree]
  rfl

/-- Columns are qualified by the name of their table. -/
theorem disjoint (hp : p.IsBase db) (hq : q.IsBase db)
    (hapart : ∀ t ∈ p.executable.sources, t ∉ q.executable.sources) :
    ∀ c ∈ p.columns, c ∉ q.columns := by
  obtain ⟨s, hs, hsc⟩ := hp.source
  obtain ⟨t, ht, htc⟩ := hq.source
  rw [hs, ht] at hapart
  rw [hsc, htc]
  intro c hcs hct
  obtain ⟨x, -, rfl⟩ := List.mem_map.mp hcs
  obtain ⟨y, -, hy⟩ := List.mem_map.mp hct
  refine hapart s List.mem_cons_self (List.mem_singleton.mpr ?_)
  simpa [ColumnName.qualified] using (congrArg ColumnName.table hy).symm

end TablePlan.IsBase

namespace BaseTables

variable {supply : PlanId.Supply} {tables : List TablePlan}

/-- Different base tables read different tables. -/
theorem apart (h : BaseTables db supply tables) : ∀ p ∈ tables, ∀ q ∈ tables, p.id ≠ q.id →
    ∀ t ∈ p.executable.sources, t ∉ q.executable.sources := by
  intro p hp q hq hne t htp htq
  have : Std.Symm (Function.onFun List.Disjoint fun p : TablePlan => p.executable.sources) :=
    ⟨fun _ _ h _ hq hp => h hp hq⟩
  have hpair := (List.nodup_flatMap.mp h.names).2
  have hpq : p ≠ q := fun heq => hne (heq ▸ rfl)
  exact hpair.forall hp hq hpq htp htq

/-- Different base tables share no column. -/
theorem disjoint (h : BaseTables db supply tables) : ∀ p ∈ tables, ∀ q ∈ tables, p.id ≠ q.id →
    ∀ c ∈ p.columns, c ∉ q.columns :=
  fun p hp q hq hne => (h.base p hp).disjoint (h.base q hq) (h.apart p hp q hq hne)

theorem proper (h : BaseTables db supply tables) : ∀ p ∈ tables, p.Proper db val :=
  fun p hp => (h.base p hp).proper (h.columns p hp)

/-- Base tables with links in order are ready to be planned over. -/
theorem ready (h : BaseTables db supply tables) {linked hasJoins : Bool} {uuids : Identifiers}
    {settings : Settings} (hne : tables ≠ []) (hlinks : Linked val wiring tables)
    (hunlinked : linked = false → ∀ p ∈ tables, ∀ side, p.linkOn side = none)
    (hmarks : wiring.outer ≠ [] →
      Function.Injective (Context.start uuids settings supply).markers.nameAt) :
    Ready db val wiring linked ⟨⟨tables, hasJoins⟩, .start uuids settings supply⟩ := by
  refine ⟨⟨hne, h.ids, h.proper, h.disjoint, h.apart, hlinks, hunlinked⟩, h.given, ?_, hmarks⟩
  intro mark _ t ht
  obtain ⟨p, hp, rfl⟩ := List.mem_map.mp ht
  exact (h.base p hp).marked mark

/-- A row is a choice of rows of base tables if it has one of each table, and no other columns. -/
theorem mem_product_iff (h : BaseTables db supply tables) {r : Row V} :
    r ∈ product (tables.map fun p => p.executable.rows db val) ↔
      (∀ y ∈ r, ∃ p ∈ tables, y.1 ∈ p.columns) ∧ ∀ p ∈ tables, p.Present db val r := by
  refine QueryPlan.mem_product_iff (fun p hp => (h.proper p hp).rows_over) ?_
  have hids : tables.Pairwise fun p q => p.id ≠ q.id := List.pairwise_map.mp h.ids
  exact hids.imp_of_mem fun hp hq hne => h.disjoint _ hp _ hq hne

end BaseTables

/-! ## Queries -/

/-- Without inner links, and where no condition meets nulls, no tree has a flaw. -/
theorem PlanNode.not_has_flaw (hinner : wiring.inner = [])
    (hrejecting : wiring.rejecting) (tree : PlanNode) : ¬ tree.Has wiring.Flaw := by
  rintro ⟨node, -, ⟨e, he, -⟩ | ⟨hnot, -⟩⟩
  · rw [hinner] at he
    cases he
  · exact hnot hrejecting

section

variable {uuids : Identifiers} {settings : Settings} {set : TableSet} {filter : Option Expr}
  {supply supply' : PlanId.Supply} {plan : TablePlan}

/-- A query that is planned passed the check, and is planned as the whole of its set. -/
theorem planQuery_ok (h : planQuery uuids settings set filter supply = .ok plan supply') :
    ∃ w, Planner.planWholeWith planCondition filter ⟨set, .start uuids settings supply⟩ =
      .ok plan w := by
  unfold planQuery at h
  simp only at h
  split at h
  · cases h
  · split at h
    · rename_i plan w hplan
      cases h
      exact ⟨w, hplan⟩
    · cases h

/-- Nothing is planned over no tables. -/
theorem nonempty_of_planQuery (h : planQuery uuids settings set filter supply = .ok plan supply') :
    set.tables ≠ [] := by
  obtain ⟨w, hplan⟩ := planQuery_ok h
  intro hempty
  unfold Planner.planWholeWith at hplan
  rw [Planner.bind_ok] at hplan
  obtain ⟨_, w₁, hcurrent, hplan⟩ := hplan
  rw [Planner.current_ok] at hcurrent
  obtain ⟨rfl, rfl⟩ := hcurrent
  rw [if_pos (List.isEmpty_iff.mpr hempty), Planner.bind_ok] at hplan
  obtain ⟨_, _, hthrow, -⟩ := hplan
  exact Planner.throw_ok.mp hthrow

/-- A query that is planned over a set has the rows that the set stands for and of which the filter
is true, unless its tree has a flaw. -/
theorem planQuery_rows {linked : Bool}
    (hready : Ready db val wiring linked ⟨set, .start uuids settings supply⟩)
    (hsub : ∀ e, filter = some e → e.hasSubQuery = false)
    (h : planQuery uuids settings set filter supply = .ok plan supply') :
    plan.executable.Has wiring.Flaw ∨
      plan.executable.rows db val = {r ∈ set.rows db val | val.meets filter r} := by
  obtain ⟨w, hplan⟩ := planQuery_ok h
  obtain ⟨w₁, hyields, htables, -⟩ := planWholeWith_ok joinLaw_linked hready hsub hplan
  have htidy := hyields.ready.tidy
  have hrows := hyields.rows
  unfold TableSet.trees TableSet.rows at hrows
  rw [htables] at htidy hrows
  rw [rowsOf_singleton htidy] at hrows
  refine hrows.imp ?_ (fun h => h)
  rintro ⟨t, ht, hflaw⟩
  rwa [List.mem_singleton.mp ht] at hflaw

end

end QueryPlan
