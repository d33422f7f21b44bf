import QueryPlan.Proofs.Evaluation
import QueryPlan.Proofs.Start

/-!
# Filters over tables without links

- `planQuery_rows_of_unlinked`: a filter over base tables without links is planned as a tree
  of the rows of their product of which it is true.
-/

namespace QueryPlan

universe u

variable {V : Type u} {db : Database V} {val : Valuation V} {uuids : Identifiers}
  {settings : Settings} {set : TableSet} {supply supply' : PlanId.Supply} {plan : TablePlan}

/-- Unlinked base tables stand for the rows of their product. -/
theorem BaseTables.rows_of_unlinked (h : BaseTables db supply set.tables)
    (hlinks : ∀ p ∈ set.tables, p.left = none ∧ p.right = none) :
    set.rows db val = product (set.tables.map fun p => p.executable.rows db val) := by
  ext r
  rw [h.mem_product_iff, TableSet.rows, mem_rowsOf]
  refine and_congr_right fun _ => forall₂_congr fun p hp => ?_
  obtain ⟨hleft, hright⟩ := hlinks p hp
  have hpad : p.padding? = none := by
    refine TablePlan.padding?_eq_none fun side => ?_
    cases side
    · exact hleft
    · exact hright
  rw [TablePlan.fits_iff_of_unpadded hpad]
  refine and_iff_left fun link hlink => ?_
  rw [hright] at hlink
  cases hlink

/-- A filter over base tables without links has the rows of their product of which it is true. -/
theorem planQuery_rows_of_unlinked {filter : Expr}
    (hbase : BaseTables db supply set.tables)
    (hlinks : ∀ p ∈ set.tables, p.left = none ∧ p.right = none)
    (hsub : filter.hasSubQuery = false)
    (h : planQuery uuids settings set (some filter) supply = .ok plan supply') :
    plan.executable.rows db val =
      {r ∈ product (set.tables.map fun p => p.executable.rows db val) | val.holds filter r} := by
  have hnone : ∀ p ∈ set.tables, ∀ side, p.linkOn side = none := by
    intro p hp side
    cases side
    · exact (hlinks p hp).1
    · exact (hlinks p hp).2
  have hready : Ready db val ⟨[], [], True⟩ false ⟨set, .start uuids settings supply⟩ :=
    hbase.ready (nonempty_of_planQuery h) (.of_no_links hnone) (fun _ => hnone)
      (fun houter => absurd rfl houter)
  have hrows := planQuery_rows hready (by rintro e ⟨⟩; exact hsub) h
  rw [hbase.rows_of_unlinked hlinks] at hrows
  rcases hrows with hflaw | hrows
  · exact absurd hflaw (PlanNode.not_has_flaw rfl trivial _)
  · rw [hrows]
    ext r
    simp only [Set.mem_ofPred_eq, Valuation.meets, Option.some.injEq, forall_eq']

/-- A comparison of two tables, or a null in one of them, over three. -/
theorem planQuery_rows_of_unlinked_ones :
    let tables := [TablePlan.one 1 "a", .one 2 "b", .one 3 "c"]
    let filter := Expr.binary (.binary (columnOf "a") .eq (columnOf "b")) .or
      (.unary .isNull (columnOf "b"))
    ∃ plan supply', planQuery .blank default ⟨tables, false⟩ (some filter) ⟨4⟩ = .ok plan supply' ∧
      plan.executable.rows ones literals =
        {r ∈ product (tables.map fun p => p.executable.rows ones literals) |
          literals.holds filter r} := by
  intro tables filter
  have hbase : BaseTables ones ⟨4⟩ tables := by
    refine ⟨?_, by decide, by decide, by decide, by decide⟩
    simp only [tables, List.forall_mem_cons]
    exact ⟨⟨"a", rfl⟩, ⟨"b", rfl⟩, ⟨"c", rfl⟩, List.forall_mem_nil _⟩
  have hok : resultWith (fun _ _ => true)
      (planQuery .blank default ⟨tables, false⟩ (some filter) ⟨4⟩) = some true := by
    decide +kernel
  obtain ⟨plan, supply', h, -⟩ := exists_of_resultWith hok
  exact ⟨plan, supply', h, planQuery_rows_of_unlinked hbase (by decide) rfl h⟩

end QueryPlan
