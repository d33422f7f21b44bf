import QueryPlan.Planning
import QueryPlan.Proofs.Classified
import QueryPlan.Proofs.Disjunction

/-!
# Planning a filter

- `applyAllWith_leads`: predicates applied in turn keep the rows of which all are
  true.
- `runAgendaWith_plans`: so do the conjuncts of a filter.
- `planExpressionWith_plans`: a filter keeps the rows of which it is true.
- `planWholeWith_ok`: a filter over a set becomes one plan with those rows.
-/

namespace QueryPlan

universe u

variable {V : Type u} {db : Database V} {val : Valuation V} {wiring : Wiring} {linked : Bool}
  {condition : ConditionPlanner}

theorem Expr.hasSubQuery_binary {left right : Expr} {op : BinaryOp}
    (h : (Expr.binary left op right).hasSubQuery = false) :
    left.hasSubQuery = false ∧ right.hasSubQuery = false := by
  unfold hasSubQuery at h
  exact Bool.or_eq_false_iff.mp h

/-! ## The conjuncts of a filter -/

/-- A conjunct without nested queries, with a computation that plans it if it is an OR. -/
structure Planned (db : Database V) (val : Valuation V) (wiring : Wiring) (linked : Bool)
    (x : Expr × Planner Unit) : Prop where
  plain : x.1.hasSubQuery = false
  plans : x.1.isLogical = true → Plans db val wiring linked x.2 (val.holds x.1)

section

variable (hlaw : JoinLaw db val wiring linked condition)

include hlaw

/-- Predicates that are applied in turn. -/
theorem applyAllWith_leads {placed : List (Predicate × Planner Unit)} {w w' : Workspace} {u : Unit}
    (hw : Ready db val wiring linked w)
    (hplaced : ∀ y ∈ placed, ∃ x, Planned db val wiring linked x ∧ Represents val x.1 y.1 ∧
      y.2 = x.2)
    (h : Planner.applyAllWith condition placed w = .ok u w') :
    Leads db val wiring linked (fun r => ∀ y ∈ placed, val.holds y.1.meaning r) w w' := by
  induction placed generalizing w with
  | nil =>
    unfold Planner.applyAllWith at h
    rw [Planner.pure_ok] at h
    obtain ⟨-, rfl⟩ := h
    exact (Leads.refl hw).congr fun r _ => iff_of_true trivial (by rintro e ⟨⟩)
  | cons y rest ih =>
    rw [List.forall_mem_cons] at hplaced
    obtain ⟨predicate, planOr⟩ := y
    unfold Planner.applyAllWith at h
    rw [Planner.bind_ok] at h
    obtain ⟨_, w₁, happly, h⟩ := h
    obtain ⟨⟨e, act⟩, hplanned, hrep, hact⟩ := hplaced.1
    simp only at hact hrep
    subst hact
    have hfirst := applyWith_leads hlaw hw hrep.fair
      (by
        -- An OR is planned by the computation that it came with.
        intro expr joinable heq hor
        obtain ⟨rfl, hlogic⟩ := hrep.of_subLogic expr joinable heq
        exact hplanned.plans hlogic _ _ _ hw hor) happly
    refine (hfirst.trans (ih hfirst.ready hplaced.2 h)).congr fun r _ => ?_
    rw [List.forall_mem_cons]

/-- The conjuncts of a filter, classified together. -/
theorem planAgendaWith_plans {agenda : List (Expr × Planner Unit)}
    (hagenda : ∀ x ∈ agenda, Planned db val wiring linked x) :
    Plans db val wiring linked (Planner.planAgendaWith condition agenda)
      (fun r => ∀ x ∈ agenda, val.holds x.1 r) := by
  intro w w' u hw h
  unfold Planner.planAgendaWith at h
  simp only [Planner.bind_ok, Planner.ask_ok] at h
  obtain ⟨placed, w, ⟨hclassify, rfl⟩, h⟩ := h
  obtain ⟨horigin, hholds⟩ := classifyAll_ok val (fun x hx => (hagenda x hx).plain) hclassify
  refine (applyAllWith_leads hlaw hw ?_ h).congr fun r _ => hholds r
  intro y hy
  obtain ⟨x, hx, hrep, hact⟩ := horigin y hy
  exact ⟨x, hagenda x hx, hrep, hact⟩

theorem runAgendaWith_plans {agenda : List (Expr × Planner Unit)}
    (hagenda : ∀ x ∈ agenda, Planned db val wiring linked x) :
    Plans db val wiring linked (Planner.runAgendaWith condition agenda)
      (fun r => ∀ x ∈ agenda, val.holds x.1 r) := by
  unfold Planner.runAgendaWith
  split
  · rename_i left right planOr
    intro w w' u hw h
    have hplanned := hagenda _ List.mem_cons_self
    refine (hplanned.plans rfl w w' u hw h).congr fun r _ => ?_
    rw [List.forall_mem_singleton]
  · exact planAgendaWith_plans hlaw hagenda

/-- The agenda of a filter has a computation for each OR, and its conjuncts are all true where
the filter is. -/
theorem planned_agendaWith {filter : Expr} (hsub : filter.hasSubQuery = false) :
    (∀ x ∈ Planner.agendaWith condition filter, Planned db val wiring linked x) ∧
      ∀ r, (∀ x ∈ Planner.agendaWith condition filter, val.holds x.1 r) ↔ val.holds filter r := by
  fun_induction Planner.agendaWith condition filter with
  | case1 left right ihl ihr =>
    obtain ⟨hsubl, hsubr⟩ := Expr.hasSubQuery_binary hsub
    obtain ⟨hl, hlholds⟩ := ihl hsubl
    obtain ⟨hr, hrholds⟩ := ihr hsubr
    refine ⟨List.forall_mem_append.mpr ⟨hl, hr⟩, fun r => ?_⟩
    rw [List.forall_mem_append, hlholds, hrholds, val.holds_and]
  | case2 left right ihl ihr =>
    obtain ⟨hsubl, hsubr⟩ := Expr.hasSubQuery_binary hsub
    obtain ⟨hl, hlholds⟩ := ihl hsubl
    obtain ⟨hr, hrholds⟩ := ihr hsubr
    have hplans := planOrWith_plans hlaw (runAgendaWith_plans hlaw hl) (runAgendaWith_plans hlaw hr)
    refine ⟨List.forall_mem_singleton.mpr ⟨hsub, fun _ w w' u hw h => ?_⟩, fun r =>
      List.forall_mem_singleton⟩
    refine (hplans w w' u hw h).congr fun r _ => ?_
    rw [hlholds, hrholds, val.holds_or]
  | case3 e hand hor =>
    refine ⟨List.forall_mem_singleton.mpr ⟨hsub, fun hlogic => ?_⟩, fun r =>
      List.forall_mem_singleton⟩
    -- Neither an AND nor an OR is logical.
    exfalso
    cases e with
    | binary left op right =>
      cases op with
      | and => exact hand left right rfl
      | or => exact hor left right rfl
      | _ => cases hlogic
    | _ => cases hlogic

/-- A filter keeps the rows of which it is true. -/
theorem planExpressionWith_plans {filter : Expr} (hsub : filter.hasSubQuery = false) :
    Plans db val wiring linked (Planner.planExpressionWith condition filter)
      (val.holds filter) := by
  intro w w' u hw h
  obtain ⟨hagenda, hholds⟩ := planned_agendaWith hlaw hsub
  exact (runAgendaWith_plans hlaw hagenda w w' u hw h).congr fun r _ => hholds r

/-! ## Whole plans -/

/-- A filter over a set becomes one plan with the rows of which it is true. -/
theorem planWholeWith_ok {filter : Option Expr} {plan : TablePlan} {w w' : Workspace}
    (hw : Ready db val wiring linked w) (hsub : ∀ e, filter = some e → e.hasSubQuery = false)
    (h : Planner.planWholeWith condition filter w = .ok plan w') :
    ∃ w₁, Yields db val wiring linked (val.meets filter) w w₁ ∧ w₁.set.tables = [plan] ∧
      w'.context = w₁.context := by
  -- With or without a filter, what is left in the end is joined into one plan and taken out.
  have hjoin : ∀ {w₁ : Workspace}, Yields db val wiring linked (val.meets filter) w w₁ →
      (do
        let id ← Planner.joinEverythingWith condition
        let plan ← Planner.ask fun set => set.require id
        Planner.change fun set => set.erase id
        return plan) w₁ = .ok plan w' →
      ∃ w₁, Yields db val wiring linked (val.meets filter) w w₁ ∧ w₁.set.tables = [plan] ∧
        w'.context = w₁.context := by
    intro w₁ hy h
    simp only [Planner.bind_ok, Planner.ask_ok, Planner.change_ok, Planner.pure_ok] at h
    obtain ⟨id, w₂, hall, _, w₂, ⟨hget, rfl⟩, _, _, rfl, rfl, rfl⟩ := h
    obtain ⟨hlead, -, q, hq, -⟩ := joinEverythingWith_leads hlaw hy.ready hall
    rw [Planner.require_ok, hlead.ready.tidy.get?_eq_some_iff, hq, List.mem_singleton] at hget
    obtain ⟨rfl, -⟩ := hget
    exact ⟨w₂, hy.before hlead.toYields, hq, rfl⟩
  unfold Planner.planWholeWith at h
  rw [Planner.bind_ok] at h
  obtain ⟨_, w, hcurrent, h⟩ := h
  rw [Planner.current_ok] at hcurrent
  obtain ⟨rfl, rfl⟩ := hcurrent
  by_cases hempty : w.set.tables.isEmpty = true
  · exact absurd (List.isEmpty_iff.mp hempty) hw.tidy.nonempty
  · rw [if_neg hempty] at h
    cases filter with
    | none =>
      refine hjoin ((Yields.refl hw).congr fun r _ => iff_of_true trivial (by rintro e ⟨⟩)) h
    | some e =>
      obtain ⟨u, w₁, hfilter, h⟩ := Planner.bind_ok.mp h
      have hlead := planExpressionWith_plans hlaw (hsub e rfl) w w₁ u hw hfilter
      refine hjoin (hlead.toYields.congr fun r _ => ?_) h
      unfold Valuation.meets
      simp only [Option.some.injEq, forall_eq']

end

end QueryPlan
