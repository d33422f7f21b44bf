import QueryPlan.Proofs.Outcome

/-!
# Runs of join resolution

To resolve a plan, or to join several plans into one, is a loop. Here the loop is
a relation, merge by merge and without a bound on their number. What is so of all
runs is proved by induction on them, and of the loops with it.

- `joinPairWith_ok`: what the join of two plans has done when it succeeds.
- `Pairing`: two plans that a run merges.
- `Resolution`, `JoinRun`: what the loops do, and with which result.
- `exists_resolution_of_ok`, `exists_joinRun_of_ok`: where a loop succeeds, however
  it is bounded, there is a run to its result.
-/

namespace QueryPlan

namespace Planner

variable {condition : ConditionPlanner} {w w' : Workspace}

/-- Two plans are joined by the link between them, or are merged without one. -/
theorem joinPairWith_ok {first second id : PlanId}
    (h : joinPairWith condition first second w = .ok id w') :
    ∃ a b, w.set.get? first = some a ∧ w.set.get? second = some b ∧
      ((∃ sided, linkBetween a b = some sided ∧ joinLinkedWith condition sided.link.joinType
          sided.link.on sided.left sided.right w = .ok id w') ∨
        linkBetween a b = none ∧ clash a b = .safe ∧
          merge first second .naturalJoin w = .ok id w') := by
  unfold joinPairWith at h
  simp only [bind_ok, ask_ok, require_ok] at h
  obtain ⟨a, _, ⟨ha, rfl⟩, b, w, ⟨hb, rfl⟩, h⟩ := h
  refine ⟨a, b, ha, hb, ?_⟩
  cases hbetween : linkBetween a b with
  | some sided =>
    simp only [hbetween] at h
    exact Or.inl ⟨sided, rfl, h⟩
  | none =>
    simp only [hbetween] at h
    cases hclash : clash a b with
    | safe =>
      simp only [hclash] at h
      exact Or.inr ⟨rfl, rfl, h⟩
    | left => simp only [hclash, throw_ok] at h
    | right => simp only [hclash, throw_ok] at h

end Planner

/-! ## Runs -/

/-- Two plans that a run merges. -/
structure Pairing where
  /-- The set in which they are merged. -/
  before : Workspace
  first : PlanId
  second : PlanId
  /-- Whether the second is a partner of the first, picked because another plan clashes with the
  first. -/
  picked : Bool

section

variable (condition : ConditionPlanner)

/-- The runs that resolve a plan: it is joined with the partner that pads it, again and again. -/
inductive Resolution :
    PlanId → Workspace → List Pairing → EStateM.Result PlanError Workspace PlanId → Prop where
  | missing {id : PlanId} {w : Workspace} (none : w.set.get? id = none) :
    Resolution id w [] (.error (.danglingLink id) w)
  | unpadded {id : PlanId} {w : Workspace} {plan : TablePlan} (found : w.set.get? id = some plan)
    (none : plan.nullPaddedBy? = none) : Resolution id w [] (.ok id w)
  | fails {id partner : PlanId} {w w' : Workspace} {plan : TablePlan} {e : PlanError}
    (found : w.set.get? id = some plan) (padded : plan.nullPaddedBy? = some partner)
    (joined : Planner.joinPairWith condition id partner w = .error e w') :
    Resolution id w [] (.error e w')
  | joins {id partner merged : PlanId} {w w₁ : Workspace} {plan : TablePlan}
    {pairings : List Pairing} {result : EStateM.Result PlanError Workspace PlanId}
    (found : w.set.get? id = some plan) (padded : plan.nullPaddedBy? = some partner)
    (joined : Planner.joinPairWith condition id partner w = .ok merged w₁)
    (rest : Resolution merged w₁ pairings result) :
    Resolution id w (⟨w, id, partner, false⟩ :: pairings) result

/-- The runs that join some plans into one: the first is joined, or one of the first two resolved,
until there is just one. -/
inductive JoinRun : List PlanId → Workspace → List Pairing →
    EStateM.Result PlanError Workspace (Option PlanId) → Prop where
  | nil (w : Workspace) : JoinRun [] w [] (.ok none w)
  | single (id : PlanId) (w : Workspace) : JoinRun [id] w [] (.ok (some id) w)
  | missingFirst {first second : PlanId} {others : List PlanId} {w : Workspace}
    (none : w.set.get? first = none) :
    JoinRun (first :: second :: others) w [] (.error (.danglingLink first) w)
  | missingSecond {first second : PlanId} {others : List PlanId} {w : Workspace} {a : TablePlan}
    (found : w.set.get? first = some a) (none : w.set.get? second = none) :
    JoinRun (first :: second :: others) w [] (.error (.danglingLink second) w)
  | resolveFails {first second padded : PlanId} {others : List PlanId} {w w' : Workspace}
    {a b : TablePlan} {e : PlanError} {pairings : List Pairing}
    (found : w.set.get? first = some a) (found' : w.set.get? second = some b)
    (next : nextJoin a b = .resolve padded)
    (resolution : Resolution condition padded w pairings (.error e w')) :
    JoinRun (first :: second :: others) w pairings (.error e w')
  | resolves {first second padded resolved : PlanId} {others : List PlanId} {w w₁ : Workspace}
    {a b : TablePlan} {pairings pairings' : List Pairing}
    {result : EStateM.Result PlanError Workspace (Option PlanId)}
    (found : w.set.get? first = some a) (found' : w.set.get? second = some b)
    (next : nextJoin a b = .resolve padded)
    (resolution : Resolution condition padded w pairings (.ok resolved w₁))
    (rest : JoinRun (resolved :: (first :: second :: others).filter w₁.set.contains) w₁ pairings'
      result) :
    JoinRun (first :: second :: others) w (pairings ++ pairings') result
  | joinFails {first second partner : PlanId} {others : List PlanId} {w w' : Workspace}
    {a b : TablePlan} {e : PlanError}
    (found : w.set.get? first = some a) (found' : w.set.get? second = some b)
    (next : nextJoin a b = .join partner)
    (joined : Planner.joinPairWith condition first partner w = .error e w') :
    JoinRun (first :: second :: others) w [] (.error e w')
  | joins {first second partner merged : PlanId} {others : List PlanId} {w w₁ : Workspace}
    {a b : TablePlan} {pairings : List Pairing}
    {result : EStateM.Result PlanError Workspace (Option PlanId)}
    (found : w.set.get? first = some a) (found' : w.set.get? second = some b)
    (next : nextJoin a b = .join partner)
    (joined : Planner.joinPairWith condition first partner w = .ok merged w₁)
    (rest : JoinRun
      (merged :: (first :: second :: others).filter fun id => id ≠ first ∧ id ≠ partner) w₁
      pairings result) :
    JoinRun (first :: second :: others) w (⟨w, first, partner, clash a b ≠ .safe⟩ :: pairings)
      result

end

/-! ## Loops that succeed -/

namespace Planner

variable {condition : ConditionPlanner} {w w' : Workspace} {id id' : PlanId}
  {working : List PlanId} {o : Option PlanId}

/-- A resolution that succeeds within some fuel is a run. -/
theorem exists_resolution_of_within (fuel : Nat)
    (h : resolveWithin condition fuel id w = .ok id' w') :
    ∃ pairings, Resolution condition id w pairings (.ok id' w') := by
  induction fuel generalizing id w with
  | zero => exact (throw_ok.mp h).elim
  | succ fuel ih =>
    unfold resolveWithin at h
    simp only [bind_ok, ask_ok, require_ok] at h
    obtain ⟨plan, w, ⟨hplan, rfl⟩, h⟩ := h
    cases hpad : plan.nullPaddedBy? with
    | none =>
      simp only [hpad, pure_ok] at h
      obtain ⟨rfl, rfl⟩ := h
      exact ⟨_, .unpadded hplan hpad⟩
    | some partner =>
      simp only [hpad, bind_ok] at h
      obtain ⟨merged, w₁, hjoin, h⟩ := h
      obtain ⟨pairings, hrest⟩ := ih h
      exact ⟨_, .joins hplan hpad hjoin hrest⟩

/-- A resolution that succeeds is a run. -/
theorem exists_resolution_of_ok (h : resolveWith condition id w = .ok id' w') :
    ∃ pairings, Resolution condition id w pairings (.ok id' w') := by
  unfold resolveWith at h
  rw [bind_ok] at h
  obtain ⟨_, w, hcurrent, h⟩ := h
  obtain ⟨-, rfl⟩ := current_ok.mp hcurrent
  exact exists_resolution_of_within _ h

theorem exists_joinRun_of_within (fuel : Nat)
    (h : joinAllWithin condition fuel working w = .ok o w') :
    ∃ pairings, JoinRun condition working w pairings (.ok o w') := by
  -- The induction is on the fuel: each turn of the loop is a step of the run, and what follows it
  -- has less fuel.
  induction fuel generalizing working w with
  | zero =>
    rcases working with _ | ⟨first, _ | ⟨second, others⟩⟩
    · obtain ⟨rfl, rfl⟩ := pure_ok.mp h
      exact ⟨_, .nil _⟩
    · obtain ⟨rfl, rfl⟩ := pure_ok.mp h
      exact ⟨_, .single _ _⟩
    · exact (throw_ok.mp h).elim
  | succ fuel ih =>
    rcases working with _ | ⟨first, _ | ⟨second, others⟩⟩
    · obtain ⟨rfl, rfl⟩ := pure_ok.mp h
      exact ⟨_, .nil _⟩
    · obtain ⟨rfl, rfl⟩ := pure_ok.mp h
      exact ⟨_, .single _ _⟩
    unfold joinAllWithin at h
    simp only [bind_ok, ask_ok, require_ok] at h
    obtain ⟨a, _, ⟨ha, rfl⟩, b, w, ⟨hb, rfl⟩, h⟩ := h
    cases hnext : nextJoin a b with
    | resolve padded =>
      simp only [hnext, bind_ok, current_ok] at h
      obtain ⟨resolved, w₁, hresolved, _, _, ⟨rfl, rfl⟩, h⟩ := h
      obtain ⟨pairings, hresolution⟩ := exists_resolution_of_ok hresolved
      obtain ⟨pairings', hrest⟩ := ih h
      exact ⟨_, .resolves ha hb hnext hresolution hrest⟩
    | join partner =>
      simp only [hnext, bind_ok] at h
      obtain ⟨merged, w₁, hjoin, h⟩ := h
      obtain ⟨pairings, hrest⟩ := ih h
      exact ⟨_, .joins ha hb hnext hjoin hrest⟩

/-- A list of plans that could be joined was joined by a run. -/
theorem exists_joinRun_of_ok (h : joinAllWith condition working w = .ok o w') :
    ∃ pairings, JoinRun condition working w pairings (.ok o w') := by
  unfold joinAllWith at h
  rw [bind_ok] at h
  obtain ⟨_, w, hcurrent, h⟩ := h
  obtain ⟨-, rfl⟩ := current_ok.mp hcurrent
  exact exists_joinRun_of_within _ h

/-- Where some plan has to come of it, the run ends in that plan. -/
theorem exists_joinRun_of_some (h : joinSomeWith condition working w = .ok id w') :
    ∃ pairings, JoinRun condition working w pairings (.ok (some id) w') := by
  unfold joinSomeWith at h
  rw [bind_ok] at h
  obtain ⟨o, w₁, hall, h⟩ := h
  cases o with
  | none => exact (throw_ok.mp h).elim
  | some id' =>
    obtain ⟨rfl, rfl⟩ := pure_ok.mp h
    exact exists_joinRun_of_ok hall

/-- Nothing comes of no plans. -/
theorem joinSomeWith_nil_ok : ¬ joinSomeWith condition [] w = .ok id w' := by
  intro h
  obtain ⟨pairings, hrun⟩ := exists_joinRun_of_some h
  cases hrun

/-- A single plan is joined as it is. -/
theorem joinSomeWith_singleton_ok {i : PlanId} (h : joinSomeWith condition [i] w = .ok id w') :
    id = i ∧ w' = w := by
  obtain ⟨pairings, hrun⟩ := exists_joinRun_of_some h
  cases hrun
  exact ⟨rfl, rfl⟩

end Planner

end QueryPlan
