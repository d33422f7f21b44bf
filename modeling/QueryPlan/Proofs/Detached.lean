import QueryPlan.Proofs.Conjunction
import QueryPlan.Proofs.Outer

/-!
# The condition of a link

The condition of a link is planned over copies of its two plans, without links.

- `rowsOf_detached`: the copies stand for all pairs of rows of the two plans.
- `Ready.detached`: such a pair is ready to be planned over.
- `planCondition_ok`: the tree joins both plans and has the pairs that meet the
  condition.
-/

namespace QueryPlan

universe u

variable {V : Type u} {db : Database V} {val : Valuation V} {wiring : Wiring} {linked : Bool}
  {l r : TablePlan} {i j : PlanId} {c : Context}

@[simp] theorem TablePlan.detached_linkOn (p : TablePlan) (id : PlanId) (side : Side) :
    (p.detached id).linkOn side = none := by
  cases side <;> rfl

/-- A pair of copies stands for all pairs of rows. -/
theorem rowsOf_detached (hl : l.Proper db val) (hr : r.Proper db val)
    (hdisj : ∀ c ∈ l.columns, c ∉ r.columns) :
    rowsOf db val [l.detached i, r.detached j] =
      pairs (l.executable.rows db val) (r.executable.rows db val) := by
  -- Without links no plan is padded, so a copy demands a row of its tree and nothing else.
  have hunpadded : ∀ (p : TablePlan) (id : PlanId), (p.detached id).padding? = none :=
    fun p id => TablePlan.padding?_eq_none (p.detached_linkOn id)
  have hfits : ∀ (p : TablePlan) (id : PlanId) (x : Row V),
      (p.detached id).Fits db val x ↔ x.only p.columns ∈ p.executable.rows db val := by
    intro p id x
    rw [TablePlan.fits_iff_of_unpadded (hunpadded p id)]
    exact and_iff_left (by rintro link ⟨⟩)
  ext x
  rw [mem_rowsOf, List.forall_mem_cons, List.forall_mem_singleton, hfits, hfits,
    ← only_mem_pairs_iff hl.rows_over hr.rows_over hdisj]
  constructor
  · rintro ⟨hcov, hx⟩
    rwa [Row.only_eq_self] at hx
    intro y hy
    obtain ⟨p, hp, hc⟩ := hcov y hy
    rw [List.mem_append]
    rcases List.mem_cons.mp hp with rfl | hp
    · exact Or.inl hc
    · rw [List.mem_singleton.mp hp] at hc
      exact Or.inr hc
  · rintro ⟨a, ha, b, hb, rfl⟩
    have hover := (hl.rows_over a ha).union (hr.rows_over b hb)
    refine ⟨fun y hy => ?_, ?_⟩
    · rcases List.mem_append.mp (hover.mem hy) with hc | hc
      · exact ⟨_, List.mem_cons_self, hc⟩
      · exact ⟨_, List.mem_cons_of_mem _ List.mem_cons_self, hc⟩
    · rw [Row.only_eq_self fun y hy => hover.mem hy]
      exact ⟨a, ha, b, hb, rfl⟩

/-- A pair of copies is ready to be planned over. -/
theorem Ready.detached (hl : l.Proper db val) (hr : r.Proper db val)
    (hdisj : ∀ c ∈ l.columns, c ∉ r.columns)
    (hapart : ∀ t ∈ l.executable.sources, t ∉ r.executable.sources) (hij : i ≠ j)
    (hi : i.number < c.supply.next) (hj : j.number < c.supply.next)
    (hunmarked : ∀ mark ∈ c.markers.future,
      l.executable.marked mark = [] ∧ r.executable.marked mark = [])
    (hdistinct : wiring.outer ≠ [] → Function.Injective c.markers.nameAt) :
    Ready db val wiring false ⟨⟨[l.detached i, r.detached j], true⟩, c⟩ := by
  have hnone : ∀ p ∈ [l.detached i, r.detached j], ∀ side, p.linkOn side = none := by
    rw [List.forall_mem_cons, List.forall_mem_singleton]
    exact ⟨l.detached_linkOn i, r.detached_linkOn j⟩
  -- What holds of both orders of the two plans holds of any two different ones.
  have hboth : ∀ {P : TablePlan → TablePlan → Prop}, P (l.detached i) (r.detached j) →
      P (r.detached j) (l.detached i) → ∀ p ∈ [l.detached i, r.detached j],
      ∀ q ∈ [l.detached i, r.detached j], p.id ≠ q.id → P p q := by
    intro P hlr hrl p hp q hq hne
    simp only [List.mem_cons, List.not_mem_nil, or_false] at hp hq
    rcases hp with rfl | rfl <;> rcases hq with rfl | rfl
    · exact absurd rfl hne
    · exact hlr
    · exact hrl
    · exact absurd rfl hne
  refine ⟨⟨List.cons_ne_nil _ _, ?_, ?_, ?_, ?_, .of_no_links hnone, fun _ => hnone⟩, ?_, ?_,
    hdistinct⟩
  · rw [List.map_cons, List.map_singleton, List.nodup_cons, List.mem_singleton]
    exact ⟨hij, List.nodup_singleton _⟩
  · rw [List.forall_mem_cons, List.forall_mem_singleton]
    exact ⟨⟨hl.nodup, hl.columns, hl.rows_over⟩, ⟨hr.nodup, hr.columns, hr.rows_over⟩⟩
  · exact hboth hdisj fun c hcr hcl => hdisj c hcl hcr
  · exact hboth hapart fun t htr htl => hapart t htl htr
  · rw [List.forall_mem_cons, List.forall_mem_singleton]
    exact ⟨hi, hj⟩
  · intro mark hmark
    show ∀ t ∈ [l.executable, r.executable], _
    rw [List.forall_mem_cons, List.forall_mem_singleton]
    exact hunmarked mark hmark

/-- The tree of a condition joins both plans and has the pairs that meet it. -/
theorem planCondition_ok {on : Option Expr} {tree : PlanNode} {w' : Workspace}
    (hw : Ready db val wiring false ⟨⟨[l.detached i, r.detached j], true⟩, c⟩)
    (hl : l.Proper db val) (hr : r.Proper db val) (hdisj : ∀ c ∈ l.columns, c ∉ r.columns)
    (hplain : ∀ e, on = some e → e.hasSubQuery = false)
    (h : planCondition on ⟨⟨[l.detached i, r.detached j], true⟩, c⟩ = .ok tree w') :
    Joins db val c.markers.future l r tree ∧ c.Extends w'.context ∧
      (∀ mark ∈ w'.context.markers.future, tree.marked mark = []) ∧
      (Flawed wiring [tree] ∨ tree.rows db val =
        {x ∈ pairs (l.executable.rows db val) (r.executable.rows db val) | val.meets on x}) := by
  unfold planCondition at h
  simp only [Planner.bind_ok, Planner.pure_ok] at h
  obtain ⟨plan, w₁, hwhole, rfl, rfl⟩ := h
  obtain ⟨w₂, hyields, htables, hcontext⟩ :=
    planWholeWith_ok (joinLaw_unlinked noCondition) hw hplain hwhole
  have htidy := hyields.ready.tidy
  rw [htables] at htidy
  have hproper := htidy.proper plan List.mem_cons_self
  -- Whatever the condition is, what is left is the one plan of the tree.
  have htrees : w₂.set.trees = [plan.executable] := by
    unfold TableSet.trees
    rw [htables]
    rfl
  have hcolumns : ∀ c, c ∈ plan.columns ↔ c ∈ l.columns ++ r.columns := by
    intro c
    have hsame := hyields.columns c
    rw [htables] at hsame
    simp only [List.mem_cons, List.not_mem_nil, or_false, exists_eq_left, exists_eq_or_imp] at hsame
    rw [hsame, List.mem_append]
    rfl
  refine ⟨⟨fun c => (hproper.columns c).trans ((hcolumns c).trans List.mem_append),
    fun x hx => (hproper.rows_over x hx).congr hcolumns, ?_⟩, hcontext ▸ hyields.context, ?_, ?_⟩
  · rw [← htrees]
    exact hyields.grows
  · rw [hcontext]
    intro mark hmark
    exact hyields.ready.unmarked mark hmark _ (htrees ▸ List.mem_cons_self)
  · rw [← htrees]
    refine hyields.rows.imp id fun hrows => ?_
    unfold TableSet.rows at hrows
    rw [htables, rowsOf_singleton htidy, rowsOf_detached hl hr hdisj] at hrows
    exact hrows

end QueryPlan
