import QueryPlan.Proofs.ScopedFilters
import QueryPlan.Proofs.Classification
import QueryPlan.Proofs.TwinFilters
import QueryPlan.Proofs.Redrawn

/-!
# Real conjuncts

A filter that is an OR is planned at once, and any other is classified. The two ways agree, so that
a filter is planned as its conjuncts that are not TRUE are, however they are bracketed.

- `Expr.realConjuncts`: the conjuncts that are not TRUE.
- `agendaWith_eq`: a filter is planned from its conjuncts alone.
- `planAgendaWith_real`: conjuncts that are TRUE plan nothing.
- `planAgendaWith_or`: an OR that is classified is planned as one that is not.
- `planExpressionWith_eq`: a filter is planned as its real conjuncts are.
- `planExpressionWith_and_assoc`, `planExpressionWith_and_true`: brackets and added TRUEs do not
  matter.
- `planExpression_drawing`: a filter is planned alike where marks are drawn from elsewhere.
- `planExpression_of_realConjuncts`: filters with the same real conjuncts are planned alike, up to
  marks that each of the two runs draws for itself.
- `not_planExpression_of_realConjuncts`: these marks differ.
-/

namespace QueryPlan

variable {condition : ConditionPlanner} {w : Workspace} {filter : Expr}

/-- The conjuncts of a filter that are not the literal TRUE. -/
def Expr.realConjuncts (filter : Expr) : List Expr :=
  filter.conjuncts.filter fun e => !e.isTrue

theorem Expr.realConjuncts_and (left right : Expr) :
    (left.and right).realConjuncts = left.realConjuncts ++ right.realConjuncts :=
  List.filter_append ..

/-- The columns of a conjunct are columns of the filter. -/
theorem Expr.mem_references_of_conjunct {e : Expr} {c : ColumnName} (he : e ∈ filter.conjuncts)
    (hc : c ∈ e.references) : c ∈ filter.references := by
  fun_induction Expr.conjuncts filter with
  | case1 left right ihLeft ihRight =>
    rw [Expr.mem_references_binary]
    exact (List.mem_append.mp he).imp ihLeft ihRight
  | case2 f =>
    rw [List.mem_singleton] at he
    exact he ▸ hc

namespace Planner

/-! ## Conjuncts and their agenda -/

/-- What plans a conjunct by itself, if it is an OR. -/
def planAloneWith (condition : ConditionPlanner) : Expr → Planner Unit
  | .binary left .or right => planExpressionWith condition (.binary left .or right)
  | _ => return

/-- A filter is planned from its conjuncts alone. -/
theorem agendaWith_eq (filter : Expr) : agendaWith condition filter =
    filter.conjuncts.map fun e => (e, planAloneWith condition e) := by
  fun_induction agendaWith condition filter with
  | case1 left right ihLeft ihRight => rw [Expr.conjuncts, List.map_append, ihLeft, ihRight]
  | case2 => rfl
  | case3 e => simp_all [Expr.conjuncts, planAloneWith]

theorem classifyListed_real {α : Type} {set : TableSet} {agenda : List (Expr × α)} :
    set.classifyListed (agenda.filter fun x => !x.1.isTrue) = set.classifyListed agenda := by
  induction agenda with
  | nil => rfl
  | cons x rest ih =>
    obtain ⟨e, a⟩ := x
    by_cases htrue : e.isTrue = true
    · have hnone : set.classifyOne e = .ok none := if_pos htrue
      rw [List.filter_cons_of_neg (by simp [htrue]), ih, TableSet.classifyListed, hnone]
      cases set.classifyListed rest <;> rfl
    · rw [List.filter_cons_of_pos (by simp [htrue]), TableSet.classifyListed, ih,
        TableSet.classifyListed]

/-- Conjuncts that are TRUE plan nothing. -/
theorem planAgendaWith_real (agenda : List (Expr × Planner Unit)) :
    planAgendaWith condition (agenda.filter fun x => !x.1.isTrue) =
      planAgendaWith condition agenda := by
  unfold planAgendaWith TableSet.classifyAll
  simp only [classifyListed_real]

/-- An OR that is classified is planned as one that is not, if its columns have owners. -/
theorem planAgendaWith_or {left right : Expr} {planOr : Planner Unit}
    (howned : ∀ c ∈ (Expr.binary left .or right).references, ∃ id, w.set.owner c = .ok id) :
    planAgendaWith condition [(.binary left .or right, planOr)] w = planOr w := by
  obtain ⟨predicate, hpredicate⟩ := TableSet.exists_classifySubLogic howned
  have hone : w.set.classifyOne (.binary left .or right) = .ok (some (.subLogic, predicate)) := by
    show Except.map _ (w.set.classifySubLogic _) = _
    rw [hpredicate]
    rfl
  obtain ⟨joinable, rfl⟩ := TableSet.exists_of_classifySubLogic hpredicate
  have hall : w.set.classifyAll [(Expr.binary left .or right, planOr)] =
      .ok [(.subLogic (.binary left .or right) joinable, planOr)] := by
    unfold TableSet.classifyAll
    rw [TableSet.classifyListed, hone]
    rfl
  unfold planAgendaWith
  rw [bind_of_ok (ask_ok.mpr ⟨hall, rfl⟩)]
  show (planOr >>= fun _ => pure ()) w = planOr w
  cases h : planOr w with
  | ok a w' => rw [bind_of_ok h]; rfl
  | error e w' => rw [bind_of_error h]

/-- A filter is planned as its real conjuncts are. -/
theorem planExpressionWith_eq
    (howned : ∀ e ∈ filter.realConjuncts, ∀ c ∈ e.references, ∃ id, w.set.owner c = .ok id) :
    planExpressionWith condition filter w =
      planAgendaWith condition
        (filter.realConjuncts.map fun e => (e, planAloneWith condition e)) w := by
  have hreal : filter.realConjuncts.map (fun e => (e, planAloneWith condition e)) =
      (agendaWith condition filter).filter fun x => !x.1.isTrue := by
    rw [agendaWith_eq, List.filter_map]
    rfl
  rw [hreal, planAgendaWith_real]
  unfold planExpressionWith
  by_cases hor : ∃ l r planOr, agendaWith condition filter = [(.binary l .or r, planOr)]
  · obtain ⟨l, r, planOr, hagenda⟩ := hor
    have hconj : .binary l .or r ∈ filter.realConjuncts := by
      unfold Expr.realConjuncts
      rw [← map_fst_agendaWith condition, hagenda]
      exact List.mem_singleton_self _
    rw [hagenda]
    exact (planAgendaWith_or (howned _ hconj)).symm
  · rw [runAgendaWith_eq hor]

theorem planExpressionWith_congr {other : Expr}
    (hconjuncts : filter.realConjuncts = other.realConjuncts)
    (howned : ∀ e ∈ filter.realConjuncts, ∀ c ∈ e.references, ∃ id, w.set.owner c = .ok id) :
    planExpressionWith condition filter w = planExpressionWith condition other w := by
  rw [planExpressionWith_eq howned, hconjuncts]
  exact (planExpressionWith_eq (hconjuncts ▸ howned)).symm

/-- Brackets around ANDs do not matter. -/
theorem planExpressionWith_and_assoc (a b c : Expr) :
    planExpressionWith condition ((a.and b).and c) =
      planExpressionWith condition (a.and (b.and c)) := by
  unfold planExpressionWith
  simp only [Expr.and, agendaWith, List.append_assoc]

/-- TRUE may be left out. -/
theorem planExpressionWith_and_true
    (howned : ∀ e ∈ filter.realConjuncts, ∀ c ∈ e.references, ∃ id, w.set.owner c = .ok id) :
    planExpressionWith condition (filter.and .true) w = planExpressionWith condition filter w := by
  refine (planExpressionWith_congr ?_ howned).symm
  rw [Expr.realConjuncts_and]
  exact (List.append_nil _).symm

/-- Whatever the filter is, it is planned alike where marks are drawn from another source. -/
theorem planExpression_drawing (filter : Expr) (w : Workspace) (uuids : Identifiers) :
    ResultLike (.redrawn w.context.markers uuids) Eq (planExpression filter w)
      (planExpression filter (w.drawing uuids)) :=
  planExpressionWith_likewise (planCondition_likewise _)
    (fun _ _ => ⟨fun _ _ => trivial, fun hnot => hnot.elim trivial⟩) w _ (w.like_drawing uuids)

/-- Filters with the same conjuncts besides TRUE are planned alike. Where marks are numbered, both
fail in the same way, or both leave the same set in the same context. Random marks are drawn anew by
each run, from whatever `uuids` gives it, so that these alone may differ: the `n`-th mark of the one
run stands where the `n`-th mark of the other does. -/
theorem planExpression_of_realConjuncts {other : Expr}
    (hconjuncts : filter.realConjuncts = other.realConjuncts)
    (hsole : ∀ c ∈ filter.references, (w.set.tables.countP fun p => p.exposes c) = 1) :
    (w.context.markers.strategy = .sequential →
      planExpression filter w = planExpression other w) ∧
    ∀ uuids, ResultLike (.redrawn w.context.markers uuids) Eq (planExpression filter w)
      (planExpression other (w.drawing uuids)) := by
  have howned : ∀ e ∈ filter.realConjuncts, ∀ c ∈ e.references,
      ∃ id, w.set.owner c = .ok id := by
    intro e he c hc
    have hone := hsole c (Expr.mem_references_of_conjunct (List.mem_filter.mp he).1 hc)
    obtain ⟨p, hp, hexposes⟩ := List.countP_pos_iff.mp (hone ▸ Nat.one_pos)
    exact ⟨p.id, owner_eq_of_sole hp hexposes hone⟩
  -- One source gives both runs the same marks, and then the other filter draws from its own.
  have hsame : planExpression filter w = planExpression other w :=
    planExpressionWith_congr hconjuncts howned
  refine ⟨fun _ => hsame, fun uuids => ?_⟩
  rw [hsame]
  exact planExpression_drawing other w uuids

/-- An OR over two tables, alone and between two TRUEs. -/
theorem planExpression_of_realConjuncts_or :
    let or : Expr := .binary (.binary (columnOf "a") .eq (columnOf "b")) .or
      (.unary .isNull (columnOf "b"))
    let w : Workspace := ⟨⟨[TablePlan.one 1 "a", TablePlan.one 2 "b"], false⟩,
      .start .blank default ⟨3⟩⟩
    planExpression or w = planExpression (Expr.true.and (or.and .true)) w ∧
      ∃ w', planExpression or w = .ok () w' ∧ w'.set.tables.length = 1 ∧
        w'.set.hasJoins = true := by
  intro or w
  have hplan : resultWith (fun _ w' => (w'.set.tables.length, w'.set.hasJoins))
      (planExpression or w) = some (1, true) := by decide +kernel
  obtain ⟨_, w', h, hresult⟩ := exists_of_resultWith hplan
  rw [Prod.mk.injEq] at hresult
  exact ⟨(planExpression_of_realConjuncts (by rfl) (by decide)).1 rfl, w', h, hresult⟩

/-- Where marks are random, two runs draw different ones, even if both plan one filter. So an outer
join that a filter makes run has another mark in each run. Where a filter plans nothing, it is the
next mark that differs. -/
theorem not_planExpression_of_realConjuncts :
    let on := some (Expr.binary (columnOf "a") .eq (columnOf "b"))
    let set : TableSet := ⟨[(TablePlan.one 1 "a").withRight ⟨⟨2⟩, .left, on⟩,
      (TablePlan.one 2 "b").withLeft ⟨⟨1⟩, .left, on⟩], false⟩
    let random : Settings := { Settings.defaults with markers := ⟨.uuid, "OUTER_JOIN"⟩ }
    let w : Workspace := ⟨set, .start .blank random ⟨3⟩⟩
    let again := w.drawing ⟨fun _ => "9"⟩
    let filter := Expr.unary .isNull (columnOf "b")
    (∀ c ∈ filter.references, (w.set.tables.countP fun p => p.exposes c) = 1) ∧
    (∃ v v', planExpression filter w = .ok () v ∧ planExpression filter again = .ok () v' ∧
      v'.set.tables.map TablePlan.executable ≠ v.set.tables.map TablePlan.executable) ∧
    ∃ v v', planExpression .true w = .ok () v ∧ planExpression .true again = .ok () v' ∧
      v'.set = v.set ∧ v'.context.markers.next.1 ≠ v.context.markers.next.1 := by
  intro on set random w again filter
  refine ⟨by decide, ?_, w, again, rfl, rfl, rfl, by decide⟩
  -- The text of a tree shows its marks.
  let shown (_ : Unit) (v : Workspace) : List String :=
    (v.set.tables.map TablePlan.executable).map PlanNode.explain
  have hfirst : resultWith (fun _ _ => ()) (planExpression filter w) = some () := by
    decide +kernel
  have hsecond : resultWith (fun _ _ => ()) (planExpression filter again) = some () := by
    decide +kernel
  have hdiffer : resultWith shown (planExpression filter again) ≠
      resultWith shown (planExpression filter w) := by decide +kernel
  obtain ⟨_, v, h, -⟩ := exists_of_resultWith hfirst
  obtain ⟨_, v', h', -⟩ := exists_of_resultWith hsecond
  rw [h, h'] at hdiffer
  refine ⟨v, v', h, h', fun heq => hdiffer ?_⟩
  exact congrArg (fun trees => some (trees.map PlanNode.explain)) heq

end Planner

end QueryPlan
