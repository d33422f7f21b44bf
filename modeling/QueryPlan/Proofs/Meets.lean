import QueryPlan.Proofs.Outcome

/-!
# What a computation may end in

- `PlanError.Expected`: the errors that planning is allowed to fail with.
- `Planner.Meets`: a computation succeeds with a postcondition or fails with an
  expected error. The rules below take a computation apart step by step.
-/

namespace QueryPlan

/-- The errors that planning over sound links may fail with: a column that not exactly one plan
exposes, and a full join. -/
inductive PlanError.Expected : PlanError → Prop where
  | unresolved (column : ColumnName) : Expected (.unresolvedColumn column)
  | ambiguous (column : ColumnName) (count : Nat) : Expected (.ambiguousColumn column count)
  | fullJoin : Expected (.unsupportedJoinType .full)

/-- Whether a result, if it is an error, is an expected one. -/
def Answerable {α : Type} (x : Except PlanError α) : Prop := ∀ e, x = .error e → e.Expected

namespace Planner

/-- The computation succeeds with the postcondition, or fails with an expected error. -/
def Meets {α : Type} (act : Planner α) (w : Workspace) (post : α → Workspace → Prop) : Prop :=
  match act w with
  | .ok a w' => post a w'
  | .error e _ => e.Expected

variable {α β : Type} {w w' : Workspace} {act : Planner α} {post post' : α → Workspace → Prop}

namespace Meets

/-- Success with the postcondition. -/
theorem of_ok {a : α} (h : act w = .ok a w') (hpost : post a w') : Meets act w post := by
  unfold Meets
  rw [h]
  exact hpost

/-- Failure with an expected error. -/
theorem of_error {e : PlanError} (h : act w = .error e w') (he : e.Expected) :
    Meets act w post := by
  unfold Meets
  rw [h]
  exact he

/-- What succeeds has met its postcondition. -/
theorem ok {a : α} (h : Meets act w post) (hok : act w = .ok a w') : post a w' := by
  unfold Meets at h
  rwa [hok] at h

/-- What fails does so with an expected error. -/
theorem expected {e : PlanError} (h : Meets act w post) (herror : act w = .error e w') :
    e.Expected := by
  unfold Meets at h
  rwa [herror] at h

/-- A postcondition may be weakened, where the result is known. -/
theorem imp_ok (h : Meets act w post) (himp : ∀ a w', act w = .ok a w' → post a w' → post' a w') :
    Meets act w post' := by
  cases hact : act w with
  | ok a w' => exact of_ok hact (himp a w' hact (h.ok hact))
  | error e w' => exact of_error hact (h.expected hact)

/-- A postcondition may be weakened. -/
theorem imp (h : Meets act w post) (himp : ∀ a w', post a w' → post' a w') : Meets act w post' :=
  h.imp_ok fun a w' _ => himp a w'

end Meets

/-! ## Sequencing -/

/-- A sequence meets what its second part does after the first. -/
theorem meets_bind {x : Planner α} {f : α → Planner β} {post : β → Workspace → Prop} :
    Meets (x >>= f) w post ↔ Meets x w fun a w₁ => Meets (f a) w₁ post := by
  unfold Meets
  show (match EStateM.bind x f w with | .ok b w' => post b w' | .error e _ => e.Expected) ↔ _
  unfold EStateM.bind
  cases x w <;> rfl

/-- A sequence, with what holds in between. -/
theorem Meets.bind {x : Planner α} {f : α → Planner β} {mid : α → Workspace → Prop}
    {post : β → Workspace → Prop} (hx : Meets x w mid)
    (hf : ∀ a w₁, mid a w₁ → Meets (f a) w₁ post) : Meets (x >>= f) w post :=
  meets_bind.mpr (hx.imp hf)

@[simp] theorem meets_pure {a : α} : Meets (pure a) w post ↔ post a w := Iff.rfl

/-! ## The set -/

@[simp] theorem meets_current {post : TableSet → Workspace → Prop} :
    Meets current w post ↔ post w.set w := Iff.rfl

@[simp] theorem meets_change {f : TableSet → TableSet} {post : Unit → Workspace → Prop} :
    Meets (change f) w post ↔ post () { w with set := f w.set } := Iff.rfl

/-- What is read from the set leaves everything as it is. -/
theorem meets_ask {f : TableSet → Except PlanError α} (hf : Answerable (f w.set)) :
    Meets (ask f) w fun a w' => w' = w ∧ f w.set = .ok a := by
  unfold ask
  rw [meets_bind, meets_current]
  cases h : f w.set with
  | ok a => exact ⟨rfl, rfl⟩
  | error e => exact hf e h

/-- A plan that is there is found. -/
theorem meets_require {id : PlanId} {plan : TablePlan} {post : TablePlan → Workspace → Prop}
    (h : w.set.get? id = some plan) :
    Meets (ask fun set => set.require id) w post ↔ post plan w := by
  unfold Meets
  rw [ask_ok.mpr ⟨require_ok.mpr h, rfl⟩]

/-- A plan that is there is changed. -/
theorem meets_changePlan {id : PlanId} {f : TablePlan → TablePlan} {plan : TablePlan}
    {post : Unit → Workspace → Prop} (h : w.set.get? id = some plan) :
    Meets (changePlan id f) w post ↔ post () { w with set := w.set.modify id f } := by
  unfold changePlan
  rw [meets_bind, meets_require h, meets_change]

/-! ## The context -/

@[simp] theorem meets_freshId {post : PlanId → Workspace → Prop} :
    Meets freshId w post ↔ post ⟨w.context.supply.next⟩
      { w with context := { w.context with supply := ⟨w.context.supply.next + 1⟩ } } := Iff.rfl

@[simp] theorem meets_freshIds {count : Nat} {post : List PlanId → Workspace → Prop} :
    Meets (freshIds count) w post ↔
      post ((List.range count).map fun i => ⟨w.context.supply.next + i⟩)
        { w with context := { w.context with supply := ⟨w.context.supply.next + count⟩ } } :=
  Iff.rfl

/-! ## Other sets -/

/-- A run over another set meets what it does there. -/
theorem meets_within {inner : TableSet} {post : α × TableSet → Workspace → Prop} :
    Meets (within inner act) w post ↔
      Meets act { w with set := inner } fun a w₁ => post (a, w₁.set) { w₁ with set := w.set } := by
  unfold Meets within
  cases act { w with set := inner } <;> rfl

end Planner

/-! ## Lookups -/

/-- To look for the owner of a column fails only if not exactly one plan exposes it. -/
theorem TableSet.owner_answerable (set : TableSet) (column : ColumnName) :
    Answerable (set.owner column) := by
  intro e h
  unfold owner at h
  split at h
  · cases h
    exact .unresolved column
  · cases h
  · cases h
    exact .ambiguous column _

theorem Answerable.ok {α : Type} (a : α) : Answerable (.ok a : Except PlanError α) := by
  rintro e ⟨⟩

/-- Lookups one after another. -/
theorem Answerable.bind {α β : Type} {x : Except PlanError α} {f : α → Except PlanError β}
    (hx : Answerable x) (hf : ∀ a, x = .ok a → Answerable (f a)) : Answerable (x >>= f) := by
  intro e h
  cases x with
  | error e' =>
    cases h
    exact hx _ rfl
  | ok a => exact hf a rfl e h

theorem Answerable.map {α β : Type} {x : Except PlanError α} (f : α → β) (hx : Answerable x) :
    Answerable (x.map f) := by
  intro e h
  cases x with
  | error e' =>
    cases h
    exact hx _ rfl
  | ok a => cases h

namespace TableSet

variable (set : TableSet)

/-- Whether a plan owns some columns can be asked. -/
theorem allOwnedBy_answerable (id : PlanId) (columns : List ColumnName) :
    Answerable (set.allOwnedBy id columns) := by
  induction columns with
  | nil => exact .ok _
  | cons column rest ih =>
    unfold allOwnedBy
    refine (set.owner_answerable column).bind fun id' _ => ?_
    by_cases h : id' = id
    · rw [if_pos h]
      exact ih
    · rw [if_neg h]
      exact .ok _

/-- Which plan owns all of some columns can be asked. -/
theorem commonOwner_answerable (columns : List ColumnName) :
    Answerable (set.commonOwner columns) := by
  cases columns with
  | nil => exact .ok _
  | cons column rest =>
    unfold commonOwner
    refine (set.owner_answerable column).bind fun id _ => ?_
    exact (set.allOwnedBy_answerable id rest).bind fun _ _ => .ok _

/-- Whether some sides read one plan can be asked. -/
theorem readOnePlan_answerable (common : Option PlanId) (sides : List Expr) :
    Answerable (set.readOnePlan common sides) := by
  induction sides generalizing common with
  | nil => exact .ok _
  | cons side rest ih =>
    unfold readOnePlan
    by_cases hempty : side.references.isEmpty = Bool.true
    · simp only [hempty, if_true]
      exact ih common
    · simp only [hempty]
      refine (set.commonOwner_answerable _).bind fun owner _ => ?_
      cases owner with
      | none => exact .ok _
      | some owner =>
        cases common with
        | none => exact ih _
        | some seen =>
          by_cases hsame : owner = seen
          · simp only [hsame, if_true]
            exact ih _
          · simp only [hsame, if_false]
            exact .ok _

end TableSet

end QueryPlan
