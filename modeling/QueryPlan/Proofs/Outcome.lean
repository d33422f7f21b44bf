import QueryPlan.Planning

/-!
# What a computation that succeeds has done

For each computation on a workspace, when it succeeds and with which result and
workspace. With these equivalences a computation is taken apart step by step.
-/

namespace QueryPlan

/-- What comes after a computation that may fail succeeds only if that did. -/
theorem except_bind_ok {ε α β : Type} {x : Except ε α} {f : α → Except ε β} {b : β} :
    x >>= f = .ok b ↔ ∃ a, x = .ok a ∧ f a = .ok b := by
  cases x with
  | error e =>
    constructor
    · rintro ⟨⟩
    · rintro ⟨_, ⟨⟩, _⟩
  | ok a =>
    constructor
    · exact fun h => ⟨a, rfl, h⟩
    · rintro ⟨_, ⟨⟩, h⟩
      exact h

namespace Planner

variable {α β : Type} {w w' : Workspace}

/-! ## Sequencing -/

@[simp] theorem pure_ok {a b : α} : (pure a : Planner α) w = .ok b w' ↔ b = a ∧ w' = w := by
  show EStateM.Result.ok a w = .ok b w' ↔ _
  rw [EStateM.Result.ok.injEq, eq_comm, @eq_comm _ w]

/-- A sequence has gone well if both its parts have, one after the other. -/
@[simp] theorem bind_ok {x : Planner α} {f : α → Planner β} {b : β} :
    (x >>= f) w = .ok b w' ↔ ∃ a w₁, x w = .ok a w₁ ∧ f a w₁ = .ok b w' := by
  show EStateM.bind x f w = .ok b w' ↔ _
  unfold EStateM.bind
  cases h : x w with
  | ok a w₁ =>
    constructor
    · intro h'
      exact ⟨a, w₁, rfl, h'⟩
    · rintro ⟨a', w₁', h', hf⟩
      cases h'
      exact hf
  | error e w₁ =>
    constructor
    · intro h'
      cases h'
    · rintro ⟨a', w₁', h', -⟩
      cases h'

theorem bind_of_ok {x : Planner α} {a : α} (h : x w = .ok a w') (f : α → Planner β) :
    (x >>= f) w = f a w' := by
  show EStateM.bind x f w = _
  unfold EStateM.bind
  rw [h]

theorem bind_of_error {x : Planner α} {e : PlanError} (h : x w = .error e w')
    (f : α → Planner β) : (x >>= f) w = .error e w' := by
  show EStateM.bind x f w = _
  unfold EStateM.bind
  rw [h]

@[simp] theorem throw_ok {e : PlanError} {a : α} :
    (throw e : Planner α) w = .ok a w' ↔ False :=
  iff_of_false (by rintro ⟨⟩) id

@[simp] theorem get_ok {a : Workspace} :
    (get : Planner Workspace) w = .ok a w' ↔ a = w ∧ w' = w := by
  show EStateM.Result.ok w w = .ok a w' ↔ _
  rw [EStateM.Result.ok.injEq, @eq_comm _ w a, @eq_comm _ w w']

@[simp] theorem modify_ok {f : Workspace → Workspace} {u : PUnit} :
    (modify f : Planner PUnit) w = .ok u w' ↔ w' = f w := by
  show EStateM.Result.ok PUnit.unit (f w) = .ok u w' ↔ _
  rw [EStateM.Result.ok.injEq, @eq_comm _ (f w)]
  exact and_iff_right rfl

/-! ## The set -/

@[simp] theorem current_ok {set : TableSet} : current w = .ok set w' ↔ set = w.set ∧ w' = w := by
  simp only [current, bind_ok, get_ok, pure_ok]
  constructor
  · rintro ⟨_, _, ⟨rfl, rfl⟩, rfl, rfl⟩
    exact ⟨rfl, rfl⟩
  · rintro ⟨rfl, rfl⟩
    exact ⟨_, _, ⟨rfl, rfl⟩, rfl, rfl⟩

@[simp] theorem replaceSet_ok {set : TableSet} {u : Unit} :
    replaceSet set w = .ok u w' ↔ w' = { w with set } := by
  simp only [replaceSet, modify_ok]

@[simp] theorem change_ok {f : TableSet → TableSet} {u : Unit} :
    change f w = .ok u w' ↔ w' = { w with set := f w.set } := by
  simp only [change, modify_ok]

@[simp] theorem ask_ok {f : TableSet → Except PlanError α} {a : α} :
    ask f w = .ok a w' ↔ f w.set = .ok a ∧ w' = w := by
  unfold ask
  rw [bind_ok]
  constructor
  · rintro ⟨set, w₁, hset, h⟩
    obtain ⟨rfl, rfl⟩ := current_ok.mp hset
    cases hf : f w₁.set with
    | ok b =>
      rw [hf] at h
      obtain ⟨rfl, rfl⟩ := pure_ok.mp h
      exact ⟨rfl, rfl⟩
    | error e =>
      rw [hf] at h
      exact (throw_ok.mp h).elim
  · rintro ⟨hf, rfl⟩
    refine ⟨w'.set, w', current_ok.mpr ⟨rfl, rfl⟩, ?_⟩
    rw [hf]
    exact pure_ok.mpr ⟨rfl, rfl⟩

/-- A plan that is required is the one with the handle. -/
theorem require_ok {set : TableSet} {id : PlanId} {plan : TablePlan} :
    set.require id = .ok plan ↔ set.get? id = some plan := by
  unfold TableSet.require
  cases set.get? id with
  | none => exact iff_of_false (by rintro ⟨⟩) (by rintro ⟨⟩)
  | some p => rw [Except.ok.injEq, Option.some.injEq]

/-- A plan can be changed if there is one with the handle. -/
@[simp] theorem changePlan_ok {id : PlanId} {f : TablePlan → TablePlan} {u : Unit} :
    changePlan id f w = .ok u w' ↔
      (∃ plan, w.set.get? id = some plan) ∧ w' = { w with set := w.set.modify id f } := by
  simp only [changePlan, bind_ok, ask_ok, change_ok, require_ok]
  constructor
  · rintro ⟨plan, _, ⟨hplan, rfl⟩, rfl⟩
    exact ⟨⟨plan, hplan⟩, rfl⟩
  · rintro ⟨⟨plan, hplan⟩, rfl⟩
    exact ⟨plan, w, ⟨hplan, rfl⟩, rfl⟩

/-! ## The context -/

@[simp] theorem freshId_ok {id : PlanId} :
    freshId w = .ok id w' ↔ id = ⟨w.context.supply.next⟩ ∧
      w' = { w with context := { w.context with supply := ⟨w.context.supply.next + 1⟩ } } := by
  simp only [freshId, bind_ok, get_ok, modify_ok, pure_ok, PlanId.Supply.take]
  constructor
  · rintro ⟨_, _, ⟨rfl, rfl⟩, _, _, rfl, rfl, rfl⟩
    exact ⟨rfl, rfl⟩
  · rintro ⟨rfl, rfl⟩
    exact ⟨_, _, ⟨rfl, rfl⟩, PUnit.unit, _, rfl, rfl, rfl⟩

/-- Fresh handles are the next numbers of the supply. -/
@[simp] theorem freshIds_ok {count : Nat} {ids : List PlanId} :
    freshIds count w = .ok ids w' ↔
      ids = (List.range count).map (fun i => ⟨w.context.supply.next + i⟩) ∧
      w' = { w with context := { w.context with supply := ⟨w.context.supply.next + count⟩ } } := by
  simp only [freshIds, bind_ok, get_ok, modify_ok, pure_ok, PlanId.Supply.takeMany]
  constructor
  · rintro ⟨_, _, ⟨rfl, rfl⟩, _, _, rfl, rfl, rfl⟩
    exact ⟨rfl, rfl⟩
  · rintro ⟨rfl, rfl⟩
    exact ⟨_, _, ⟨rfl, rfl⟩, PUnit.unit, _, rfl, rfl, rfl⟩

/-- A new mark is the next name, and the marks move on. -/
@[simp] theorem nextMarker_ok {name : String} :
    nextMarker w = .ok name w' ↔ name = w.context.markers.next.1 ∧
      w' = { w with context := { w.context with markers := w.context.markers.next.2 } } := by
  simp only [nextMarker, bind_ok, get_ok, modify_ok, pure_ok]
  constructor
  · rintro ⟨_, _, ⟨rfl, rfl⟩, _, _, rfl, rfl, rfl⟩
    exact ⟨rfl, rfl⟩
  · rintro ⟨rfl, rfl⟩
    exact ⟨_, _, ⟨rfl, rfl⟩, PUnit.unit, _, rfl, rfl, rfl⟩

/-! ## Other sets -/

/-- A run over another set hands that set back, and the context that it leaves. -/
@[simp] theorem within_ok {inner : TableSet} {act : Planner α} {r : α × TableSet} :
    within inner act w = .ok r w' ↔
      ∃ w₁, act { w with set := inner } = .ok r.1 w₁ ∧ r.2 = w₁.set ∧
        w' = { w₁ with set := w.set } := by
  obtain ⟨a, set⟩ := r
  unfold within
  cases h : act { w with set := inner } with
  | ok a' w₁ =>
    simp only [EStateM.Result.ok.injEq, Prod.mk.injEq]
    constructor
    · rintro ⟨⟨rfl, rfl⟩, rfl⟩
      exact ⟨w₁, ⟨rfl, rfl⟩, rfl, rfl⟩
    · rintro ⟨_, ⟨rfl, rfl⟩, rfl, rfl⟩
      exact ⟨⟨rfl, rfl⟩, rfl⟩
  | error e w₁ =>
    constructor
    · intro h'
      cases h'
    · rintro ⟨_, h', -⟩
      cases h'

end Planner

end QueryPlan
