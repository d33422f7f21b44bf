import Mathlib.Data.List.Perm.Subperm
import QueryPlan.Proofs.Select

/-!
# A plan by itself

- `TablePlan.Proper.tidy`: a proper plan without links is tidy by itself.
- `rowsOf_singleton`: the rows of a set of one plan are the rows of its tree.
- `reorderColumns_yields`: so the only plan can expose its columns in any order.
-/

namespace QueryPlan

universe u

variable {V : Type u} {db : Database V} {val : Valuation V} {wiring : Wiring} {linked : Bool}
  {q : TablePlan}

/-- A plan by itself has no links, for want of a partner. -/
theorem Tidy.linkOn_eq_none (h : Tidy db val wiring linked [q]) (side : Side) :
    q.linkOn side = none := by
  cases hlink : q.linkOn side with
  | none => rfl
  | some link =>
    obtain ⟨s, hs, -, hne, -⟩ := h.links.answered side q List.mem_cons_self link hlink
    rw [List.mem_singleton] at hs
    subst hs
    exact absurd rfl hne

/-- A proper plan without links is tidy by itself. -/
theorem TablePlan.Proper.tidy (h : q.Proper db val) (hlinks : ∀ side, q.linkOn side = none) :
    Tidy db val wiring linked [q] := by
  have hsame : ∀ p ∈ [q], ∀ s ∈ [q], p.id ≠ s.id → False := by
    intro p hp s hs hne
    rw [List.mem_singleton.mp hp, List.mem_singleton.mp hs] at hne
    exact hne rfl
  have hnone : ∀ p ∈ [q], ∀ side, p.linkOn side = none := List.forall_mem_singleton.mpr hlinks
  refine ⟨List.cons_ne_nil _ _, List.nodup_singleton _, List.forall_mem_singleton.mpr h, ?_, ?_,
    .of_no_links hnone, fun _ => hnone⟩
  · exact fun p hp s hs hne => (hsame p hp s hs hne).elim
  · exact fun p hp s hs hne => (hsame p hp s hs hne).elim

/-- The rows of a set of one plan are the rows of its tree. -/
theorem rowsOf_singleton (h : Tidy db val wiring linked [q]) :
    rowsOf db val [q] = q.executable.rows db val := by
  have hover := (h.proper q List.mem_cons_self).rows_over
  have hpad := TablePlan.padding?_eq_none h.linkOn_eq_none
  have hright : q.right = none := h.linkOn_eq_none .right
  ext r
  rw [mem_rowsOf, List.forall_mem_singleton, TablePlan.fits_iff_of_unpadded hpad]
  simp only [List.mem_singleton, exists_eq_left]
  unfold TablePlan.Present
  constructor
  · rintro ⟨hcov, hmem, -⟩
    rwa [Row.only_eq_self hcov] at hmem
  · intro hr
    have hcov : ∀ x ∈ r, x.1 ∈ q.columns := fun x hx => (hover r hr).mem hx
    refine ⟨hcov, ?_, ?_⟩
    · rwa [Row.only_eq_self hcov]
    · intro link hlink
      rw [hright] at hlink
      cases hlink

/-! ## Columns in another order -/

section

variable {w w' : Workspace} {order : List ColumnName} {u : Unit}

/-- A projection to the columns of the only plan, in another order, changes no rows. -/
theorem project_yields {hasJoins : Bool} (hw : Ready db val wiring linked w)
    (hone : w.set.tables = [q]) (hperm : order.Perm q.columns) :
    Yields db val wiring linked (fun _ => True) w
      { w with set := ⟨[{ q.update (.project · order) with columns := order }], hasJoins⟩ } := by
  have htidy := hw.tidy
  rw [hone] at htidy
  obtain ⟨hnodup, -, hover⟩ := htidy.proper q List.mem_cons_self
  have htrees : w.set.trees = [q.executable] := by
    unfold TableSet.trees
    rw [hone]
    rfl
  have hwraps := PlanNode.Wraps.project q.executable order
  -- The plan exposes the same columns in another order, and its rows are over these.
  have hproper :
      ({ q.update (.project · order) with columns := order } : TablePlan).Proper db val :=
    ⟨hperm.nodup_iff.mpr hnodup, fun _ => Iff.rfl,
      fun r hr => (hover r hr).congr fun c => hperm.mem_iff.symm⟩
  have htidy' : Tidy db val wiring linked
      [({ q.update (.project · order) with columns := order } : TablePlan)] :=
    hproper.tidy htidy.linkOn_eq_none
  refine ⟨⟨htidy', ?_, ?_, hw.distinct⟩, .refl _, ?_, ?_, Or.inr ?_⟩
  · intro s hs
    rw [List.mem_singleton.mp hs]
    exact hw.fresh q (hone ▸ List.mem_cons_self)
  · intro mark hmark t ht
    have hnone := hw.unmarked mark hmark q.executable (htrees ▸ List.mem_cons_self)
    rw [List.mem_singleton.mp ht]
    exact hnone
  · rw [htrees]
    exact .of_wraps _ (.cons hwraps .nil)
  · intro c
    rw [hone]
    simp only [List.mem_singleton, exists_eq_left]
    exact hperm.mem_iff
  · ext r
    rw [Set.mem_ofPred_eq, and_true]
    unfold TableSet.rows
    rw [hone, rowsOf_singleton htidy, rowsOf_singleton htidy']
    rfl

/-- The only plan can expose its columns in any order. -/
theorem reorderColumns_yields (hw : Ready db val wiring linked w) (hone : w.set.tables = [q])
    (horder : order.Nodup) (h : Planner.reorderColumns order w = .ok u w') :
    Yields db val wiring linked (fun _ => True) w w' ∧ w'.set.hasJoins = w.set.hasJoins ∧
      ∃ s, w'.set.tables = [s] ∧ s.columns = order ∧ (q.touched = true → s.touched = true) := by
  unfold Planner.reorderColumns at h
  simp only [Planner.bind_ok, Planner.ask_ok] at h
  obtain ⟨p, w, ⟨hsingle, rfl⟩, h⟩ := h
  have hp : p = q := by
    unfold TableSet.single at hsingle
    rw [hone] at hsingle
    exact (Except.ok.inj hsingle).symm
  subst hp
  by_cases hsame : p.columns = order
  · rw [if_pos hsame, Planner.pure_ok] at h
    obtain ⟨-, rfl⟩ := h
    exact ⟨.refl hw, rfl, p, hone, hsame, fun h => h⟩
  · rw [if_neg hsame] at h
    by_cases hbad : (p.columns.length != order.length || !order.all p.columns.contains) = true
    · rw [if_pos hbad, Planner.throw_ok] at h
      exact h.elim
    · rw [if_neg hbad, Planner.changePlan_ok] at h
      obtain ⟨-, rfl⟩ := h
      simp only [Bool.or_eq_true, bne_iff_ne, Bool.not_eq_true', not_or, not_not,
        Bool.not_eq_false, List.all_eq_true, List.contains_iff_mem] at hbad
      -- The order lists the columns of the plan, each of them once.
      have hperm : order.Perm p.columns :=
        (List.subperm_of_subset horder fun c hc => hbad.2 c hc).perm_of_length_le hbad.1.le
      have hmodify : (w.set.modify p.id fun plan =>
          { plan.update (.project · order) with columns := order }) =
          ⟨[{ p.update (.project · order) with columns := order }], w.set.hasJoins⟩ := by
        unfold TableSet.modify
        rw [hone, List.map_singleton, if_pos rfl]
      rw [hmodify]
      exact ⟨project_yields hw hone hperm, rfl, _, rfl, rfl, fun _ => rfl⟩

end

end QueryPlan
