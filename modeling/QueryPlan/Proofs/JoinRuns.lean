import QueryPlan.Proofs.Bystanders
import QueryPlan.Proofs.Runs

/-!
# Runs of join resolution end

A run merges plans of any set: the handles need not be apart, and the links may
dangle, be one-sided or close cycles.

- `joinPairWith_length`: a merge makes the set smaller by one.
- `JoinRun.length_le`: so a run has fewer merges than the set has plans.
- `exists_joinRun`, `JoinRun.eq_joinAllWith`: each run ends, and in what the
  bounded loop computes.
- `joinAll_ends`: the plans that a run was given become one, and others stay.
-/

namespace QueryPlan

variable {condition : ConditionPlanner} {w w' : Workspace} {pairings : List Pairing}

/-! ## Merges make the set smaller -/

/-- To take a plan out leaves one less. -/
theorem TableSet.length_erase {set : TableSet} {id : PlanId} {p : TablePlan}
    (h : set.get? id = some p) : (set.erase id).tables.length + 1 = set.tables.length := by
  obtain ⟨hp, rfl⟩ := TableSet.mem_of_get? h
  unfold TableSet.erase
  rw [List.length_eraseP_of_mem hp (decide_eq_true rfl)]
  exact Nat.sub_add_cancel (List.length_pos_of_mem hp)

/-- Where a plan is found, there is one. -/
theorem TableSet.length_pos {set : TableSet} {id : PlanId} {p : TablePlan}
    (h : set.get? id = some p) : 0 < set.tables.length :=
  List.length_pos_of_mem (TableSet.mem_of_get? h).1

namespace Planner

/-- A merge replaces two plans by one. -/
theorem merge_length {left right id : PlanId} {build : PlanNode → PlanNode → PlanNode}
    (h : merge left right build w = .ok id w') :
    0 < w'.set.tables.length ∧ w'.set.tables.length + 1 = w.set.tables.length := by
  unfold merge at h
  simp only [bind_ok, ask_ok, require_ok, change_ok, current_ok] at h
  obtain ⟨l, w, ⟨hl, rfl⟩, _, _, rfl, _, _, ⟨rfl, rfl⟩, h⟩ := h
  cases hr : (w.set.erase left).get? right with
  | none =>
    rw [hr] at h
    simp only [bind_ok, throw_ok] at h
    obtain ⟨_, _, _, h⟩ := h
    exact h.elim
  | some r =>
    rw [hr] at h
    simp only [bind_ok, freshId_ok, change_ok, pure_ok] at h
    obtain ⟨_, _, ⟨rfl, rfl⟩, _, _, rfl, rfl, rfl⟩ := h
    have hfirst := TableSet.length_erase hl
    have hsecond := TableSet.length_erase hr
    simp only [TableSet.pushMerged, TableSet.push, List.length_append, List.length_map,
      List.length_singleton]
    omega

/-- A join of linked plans changes one of them in place before it merges them. -/
theorem joinLinkedWith_length {joinType : JoinType} {on : Option Expr} {left right id : PlanId}
    (h : joinLinkedWith condition joinType on left right w = .ok id w') :
    0 < w'.set.tables.length ∧ w'.set.tables.length + 1 = w.set.tables.length := by
  simp only [joinLinkedWith, bind_ok, detachPair, ask_ok, freshId_ok, pure_ok, within_ok] at h
  obtain ⟨marked, _, hmark, _, w₁, hput, _, _, ⟨_, _, ⟨-, rfl⟩, _, _, ⟨rfl, rfl⟩, _, _, ⟨-, rfl⟩,
    _, _, ⟨rfl, rfl⟩, rfl, rfl⟩, ⟨_, _⟩, _, ⟨w₂, -, -, rfl⟩, hmerge⟩ := h
  obtain ⟨c, rfl⟩ := exists_context_of_newMark hmark
  obtain rfl := putMark_ok hput
  have hlen := merge_length hmerge
  rwa [List.length_map] at hlen

/-- A join of two plans makes the set smaller by one, and not empty. -/
theorem joinPairWith_length {first second id : PlanId}
    (h : joinPairWith condition first second w = .ok id w') :
    0 < w'.set.tables.length ∧ w'.set.tables.length + 1 = w.set.tables.length := by
  obtain ⟨_, _, -, -, ⟨_, -, hjoin⟩ | ⟨-, -, hmerge⟩⟩ := joinPairWith_ok h
  · exact joinLinkedWith_length hjoin
  · exact merge_length hmerge

end Planner

namespace Resolution

variable {id id' : PlanId} {result : EStateM.Result PlanError Workspace PlanId}

/-- Where it succeeds, the set is smaller by the number of merges. -/
theorem length_add (h : Resolution condition id w pairings (.ok id' w')) :
    0 < w'.set.tables.length ∧ pairings.length + w'.set.tables.length = w.set.tables.length := by
  generalize hresult : EStateM.Result.ok id' w' = result at h
  induction h with
  | missing => cases hresult
  | unpadded found =>
    obtain ⟨rfl, rfl⟩ := hresult
    exact ⟨TableSet.length_pos found, Nat.zero_add _⟩
  | fails => cases hresult
  | joins _ _ joined _ ih =>
    obtain ⟨hpos, hlen⟩ := ih hresult
    obtain ⟨-, hjoined⟩ := Planner.joinPairWith_length joined
    refine ⟨hpos, ?_⟩
    rw [List.length_cons]
    omega

/-- A run has fewer merges than the set has plans. -/
theorem length_le (h : Resolution condition id w pairings result) :
    pairings.length ≤ w.set.tables.length - 1 := by
  induction h with
  | missing => exact Nat.zero_le _
  | unpadded => exact Nat.zero_le _
  | fails => exact Nat.zero_le _
  | joins _ _ joined _ ih =>
    obtain ⟨hpos, hjoined⟩ := Planner.joinPairWith_length joined
    rw [List.length_cons]
    omega

/-- A padded plan is resolved by one merge at least. -/
theorem length_lt {plan : TablePlan} (h : Resolution condition id w pairings (.ok id' w'))
    (found : w.set.get? id = some plan) (padded : plan.nullPaddedBy? ≠ none) :
    w'.set.tables.length < w.set.tables.length := by
  have hlen := h.length_add.2
  cases h with
  | unpadded found' none =>
    rw [found] at found'
    exact absurd (Option.some.inj found' ▸ none) padded
  | joins =>
    rw [List.length_cons] at hlen
    omega

end Resolution

/-- What is resolved before two plans are joined is found, and padded. -/
theorem exists_of_resolve {first second padded : PlanId} {a b : TablePlan}
    (found : w.set.get? first = some a) (found' : w.set.get? second = some b)
    (next : nextJoin a b = .resolve padded) :
    ∃ p, w.set.get? padded = some p ∧ p.nullPaddedBy? ≠ none := by
  obtain ⟨-, rfl⟩ := TableSet.mem_of_get? found
  obtain ⟨-, rfl⟩ := TableSet.mem_of_get? found'
  have ha : a ∈ [a, b] := List.mem_cons_self
  have hb : b ∈ [a, b] := List.mem_cons_of_mem _ List.mem_cons_self
  obtain ⟨p, hp, rfl, hpad⟩ := padded_of_nextJoin ha hb next
  rcases List.mem_pair.mp hp with rfl | rfl
  · exact ⟨p, found, hpad⟩
  · exact ⟨p, found', hpad⟩

/-- A run has fewer merges than the set has plans. -/
theorem JoinRun.length_le {working : List PlanId}
    {result : EStateM.Result PlanError Workspace (Option PlanId)}
    (h : JoinRun condition working w pairings result) :
    pairings.length ≤ w.set.tables.length - 1 := by
  induction h with
  | nil => exact Nat.zero_le _
  | single => exact Nat.zero_le _
  | missingFirst => exact Nat.zero_le _
  | missingSecond => exact Nat.zero_le _
  | resolveFails _ _ _ resolution => exact resolution.length_le
  | resolves _ _ _ resolution _ ih =>
    obtain ⟨hpos, hlen⟩ := resolution.length_add
    rw [List.length_append]
    omega
  | joinFails => exact Nat.zero_le _
  | joins _ _ _ joined _ ih =>
    obtain ⟨hpos, hlen⟩ := Planner.joinPairWith_length joined
    rw [List.length_cons]
    omega

/-! ## Every run ends -/

/-- There is a run that resolves a plan. -/
theorem exists_resolution (condition : ConditionPlanner) (id : PlanId) (w : Workspace) :
    ∃ pairings result, Resolution condition id w pairings result := by
  induction hlen : w.set.tables.length using Nat.strong_induction_on generalizing id w with
  | _ n ih =>
  cases hget : w.set.get? id with
  | none => exact ⟨_, _, .missing hget⟩
  | some plan =>
  cases hpad : plan.nullPaddedBy? with
  | none => exact ⟨_, _, .unpadded hget hpad⟩
  | some partner =>
  cases hjoin : Planner.joinPairWith condition id partner w with
  | error e w' => exact ⟨_, _, .fails hget hpad hjoin⟩
  | ok merged w₁ =>
    obtain ⟨-, hshorter⟩ := Planner.joinPairWith_length hjoin
    obtain ⟨pairings, result, hrest⟩ := ih _ (by omega) merged w₁ rfl
    exact ⟨_, _, .joins hget hpad hjoin hrest⟩

/-- There is a run that joins any plans, in any order. -/
theorem exists_joinRun (condition : ConditionPlanner) (working : List PlanId) (w : Workspace) :
    ∃ pairings result, JoinRun condition working w pairings result := by
  -- The induction is on the number of plans, which each resolution and each join makes smaller.
  induction hlen : w.set.tables.length using Nat.strong_induction_on generalizing working w with
  | _ n ih =>
  rcases working with _ | ⟨first, _ | ⟨second, others⟩⟩
  · exact ⟨_, _, .nil w⟩
  · exact ⟨_, _, .single first w⟩
  cases hfirst : w.set.get? first with
  | none => exact ⟨_, _, .missingFirst hfirst⟩
  | some a =>
  cases hsecond : w.set.get? second with
  | none => exact ⟨_, _, .missingSecond hfirst hsecond⟩
  | some b =>
  cases hnext : nextJoin a b with
  | resolve padded =>
    obtain ⟨pairings, result, hresolution⟩ := exists_resolution condition padded w
    cases result with
    | error e w' => exact ⟨_, _, .resolveFails hfirst hsecond hnext hresolution⟩
    | ok resolved w₁ =>
      obtain ⟨p, hp, hpad⟩ := exists_of_resolve hfirst hsecond hnext
      have hshorter := hresolution.length_lt hp hpad
      obtain ⟨pairings', result, hrest⟩ := ih _ (by omega)
        (resolved :: (first :: second :: others).filter w₁.set.contains) w₁ rfl
      exact ⟨_, _, .resolves hfirst hsecond hnext hresolution hrest⟩
  | join partner =>
    cases hjoin : Planner.joinPairWith condition first partner w with
    | error e w' => exact ⟨_, _, .joinFails hfirst hsecond hnext hjoin⟩
    | ok merged w₁ =>
      obtain ⟨-, hshorter⟩ := Planner.joinPairWith_length hjoin
      obtain ⟨pairings, result, hrest⟩ := ih _ (by omega)
        (merged :: (first :: second :: others).filter fun id => id ≠ first ∧ id ≠ partner) w₁ rfl
      exact ⟨_, _, .joins hfirst hsecond hnext hjoin hrest⟩

/-! ## Runs are what the bounded loops compute -/

/-- A plan that is there is found. -/
theorem Planner.ask_require_of_some {id : PlanId} {p : TablePlan} (h : w.set.get? id = some p) :
    Planner.ask (fun set => set.require id) w = .ok p w :=
  Planner.ask_ok.mpr ⟨Planner.require_ok.mpr h, rfl⟩

/-- A plan that is missing is reported as dangling. -/
theorem Planner.ask_require_of_none {id : PlanId} (h : w.set.get? id = none) :
    Planner.ask (fun set => set.require id) w = .error (.danglingLink id) w := by
  have hrequire : w.set.require id = .error (.danglingLink id) := by
    unfold TableSet.require
    rw [h]
  unfold Planner.ask
  rw [Planner.bind_of_ok (Planner.current_ok.mpr ⟨rfl, rfl⟩)]
  simp only [hrequire]
  rfl

/-- A run that resolves a plan is what the loop computes that may go as many rounds as there are
plans. -/
theorem Resolution.eq_resolveWithin {id : PlanId}
    {result : EStateM.Result PlanError Workspace PlanId}
    (h : Resolution condition id w pairings result) (fuel : Nat)
    (hfuel : w.set.tables.length ≤ fuel) :
    Planner.resolveWithin condition fuel id w = result := by
  -- The induction is on the run. A join leaves one plan less, so that the fuel that is left is
  -- enough for the rest.
  induction h generalizing fuel with
  | missing none =>
    cases fuel with
    | zero => rfl
    | succ fuel =>
      unfold Planner.resolveWithin
      rw [Planner.bind_of_error (Planner.ask_require_of_none none)]
  | unpadded found none =>
    obtain ⟨fuel, rfl⟩ := Nat.exists_eq_add_one.mpr ((TableSet.length_pos found).trans_le hfuel)
    unfold Planner.resolveWithin
    rw [Planner.bind_of_ok (Planner.ask_require_of_some found), none]
    rfl
  | fails found padded joined =>
    obtain ⟨fuel, rfl⟩ := Nat.exists_eq_add_one.mpr ((TableSet.length_pos found).trans_le hfuel)
    unfold Planner.resolveWithin
    rw [Planner.bind_of_ok (Planner.ask_require_of_some found), padded]
    exact Planner.bind_of_error joined _
  | joins found padded joined _ ih =>
    obtain ⟨fuel, rfl⟩ := Nat.exists_eq_add_one.mpr ((TableSet.length_pos found).trans_le hfuel)
    obtain ⟨-, hshorter⟩ := Planner.joinPairWith_length joined
    unfold Planner.resolveWithin
    rw [Planner.bind_of_ok (Planner.ask_require_of_some found), padded]
    exact (Planner.bind_of_ok joined _).trans (ih fuel (by omega))

/-- A round of the loop over plans, where the first two are found. -/
theorem Planner.joinAllWithin_succ {first second : PlanId} {others : List PlanId} {a b : TablePlan}
    (found : w.set.get? first = some a) (found' : w.set.get? second = some b) (fuel : Nat) :
    Planner.joinAllWithin condition (fuel + 1) (first :: second :: others) w =
      (match nextJoin a b with
        | .resolve padded => do
          let resolved ← Planner.resolveWith condition padded
          let now ← Planner.current
          Planner.joinAllWithin condition fuel
            (resolved :: (first :: second :: others).filter now.contains)
        | .join partner => do
          let merged ← Planner.joinPairWith condition first partner
          Planner.joinAllWithin condition fuel
            (merged :: (first :: second :: others).filter fun i => i ≠ first ∧ i ≠ partner)) w := by
  conv_lhs => unfold Planner.joinAllWithin
  exact (Planner.bind_of_ok (Planner.ask_require_of_some found) _).trans
    (Planner.bind_of_ok (Planner.ask_require_of_some found') _)

namespace JoinRun

variable {working : List PlanId} {result : EStateM.Result PlanError Workspace (Option PlanId)}

/-- A run ends in what the loop computes with fuel for all plans. -/
theorem eq_joinAllWithin (h : JoinRun condition working w pairings result) (fuel : Nat)
    (hfuel : w.set.tables.length ≤ fuel) :
    Planner.joinAllWithin condition fuel working w = result := by
  -- The induction is on the run, as for resolutions: every turn has fuel, and leaves enough of it.
  induction h generalizing fuel with
  | nil => cases fuel <;> rfl
  | single => cases fuel <;> rfl
  | missingFirst none =>
    cases fuel with
    | zero => rfl
    | succ fuel =>
      unfold Planner.joinAllWithin
      exact Planner.bind_of_error (Planner.ask_require_of_none none) _
  | missingSecond found none =>
    obtain ⟨fuel, rfl⟩ := Nat.exists_eq_add_one.mpr ((TableSet.length_pos found).trans_le hfuel)
    unfold Planner.joinAllWithin
    simp only
    rw [Planner.bind_of_ok (Planner.ask_require_of_some found),
      Planner.bind_of_error (Planner.ask_require_of_none none)]
  | resolveFails found found' next resolution =>
    obtain ⟨fuel, rfl⟩ := Nat.exists_eq_add_one.mpr ((TableSet.length_pos found).trans_le hfuel)
    have hresolve := resolution.eq_resolveWithin _ le_rfl
    rw [Planner.joinAllWithin_succ found found', next]
    exact Planner.bind_of_error hresolve _
  | resolves found found' next resolution _ ih =>
    obtain ⟨fuel, rfl⟩ := Nat.exists_eq_add_one.mpr ((TableSet.length_pos found).trans_le hfuel)
    obtain ⟨p, hp, hpad⟩ := exists_of_resolve found found' next
    have hshorter := resolution.length_lt hp hpad
    have hresolve := resolution.eq_resolveWithin _ le_rfl
    rw [Planner.joinAllWithin_succ found found', next]
    exact (Planner.bind_of_ok hresolve _).trans (ih fuel (by omega))
  | joinFails found found' next joined =>
    obtain ⟨fuel, rfl⟩ := Nat.exists_eq_add_one.mpr ((TableSet.length_pos found).trans_le hfuel)
    rw [Planner.joinAllWithin_succ found found', next]
    exact Planner.bind_of_error joined _
  | joins found found' next joined _ ih =>
    obtain ⟨fuel, rfl⟩ := Nat.exists_eq_add_one.mpr ((TableSet.length_pos found).trans_le hfuel)
    obtain ⟨-, hshorter⟩ := Planner.joinPairWith_length joined
    rw [Planner.joinAllWithin_succ found found', next]
    exact (Planner.bind_of_ok joined _).trans (ih fuel (by omega))

/-- A run ends in what the bounded loop computes, so the bound cuts none short. -/
theorem eq_joinAllWith (h : JoinRun condition working w pairings result) :
    Planner.joinAllWith condition working w = result :=
  h.eq_joinAllWithin _ le_rfl

end JoinRun

/-! ## What a run leaves -/

section

variable {Q : PlanNode → Prop} {or : Prop} {P : Option Expr → Prop}
  (hlaw : MoveLaw Q or P condition)

include hlaw

/-- A plan that is resolved is what became of the plan and its partners. -/
theorem Resolution.leaves {id id' : PlanId} (h : Resolution condition id w pairings (.ok id' w'))
    (hw : Handled P w) : Leaves [id] w id' w' := by
  generalize hresult : EStateM.Result.ok id' w' = result at h
  induction h with
  | missing => cases hresult
  | unpadded found =>
    obtain ⟨rfl, rfl⟩ := hresult
    obtain ⟨hp, rfl⟩ := TableSet.mem_of_get? found
    refine ⟨TableSet.mem_ids hp, fun q hq hne => ⟨?_, q, hq, .refl q⟩⟩
    exact fun hin => hne (List.mem_singleton.mp hin)
  | fails => cases hresult
  | joins _ _ joined _ ih =>
    have hmoves := (Planner.joinPairWith_fuses hlaw hw joined).moves
    refine (Planner.joinPairWith_leaves hlaw hw joined).trans (ih (hmoves.handled hw) hresult)
      List.mem_cons_self fun i hi _ => ?_
    exact Or.inl (List.mem_cons.mpr (Or.inl (List.mem_singleton.mp hi)))

/-- Plans of the set that a run joins become one. -/
theorem JoinRun.leaves {working : List PlanId} {id : PlanId}
    (h : JoinRun condition working w pairings (.ok (some id) w')) (hw : Handled P w)
    (hmem : ∀ i ∈ working, i ∈ w.set.ids) : Leaves working w id w' := by
  generalize hresult : EStateM.Result.ok (some id) w' = result at h
  -- The induction is on the run. Plans outside the list are moved neither by a resolution nor by a
  -- join, and what is left of the list are plans of the set.
  induction h with
  | nil => cases hresult
  | single first w =>
    cases hresult
    refine ⟨hmem id List.mem_cons_self, fun q hq hne => ⟨?_, q, hq, .refl q⟩⟩
    exact fun hin => hne (List.mem_singleton.mp hin)
  | missingFirst => cases hresult
  | missingSecond => cases hresult
  | resolveFails => cases hresult
  | resolves _ _ _ resolution _ ih =>
    have hleaves := resolution.leaves hlaw hw
    obtain ⟨hmoves, -⟩ := resolution.moves hlaw hw
    refine hleaves.trans (ih (hmoves.handled hw) ?_ hresult) List.mem_cons_self fun i hi hi₁ => ?_
    · intro i hi
      rcases List.mem_cons.mp hi with rfl | hi
      · exact hleaves.mem
      · exact TableSet.contains_iff.mp (List.mem_filter.mp hi).2
    · have hkept := List.mem_filter.mpr ⟨hi, TableSet.contains_iff.mpr hi₁⟩
      exact Or.inr (List.mem_cons_of_mem _ hkept)
  | joinFails => cases hresult
  | joins _ _ _ joined _ ih =>
    have hleaves := Planner.joinPairWith_leaves hlaw hw joined
    have hfuses := Planner.joinPairWith_fuses hlaw hw joined
    refine hleaves.trans (ih (hfuses.moves.handled hw) ?_ hresult) List.mem_cons_self
      fun i hi _ => ?_
    · intro i hi
      rw [hfuses.mem_ids]
      refine (List.mem_cons.mp hi).imp_right fun hi => ?_
      obtain ⟨hi, hout⟩ := List.mem_filter.mp hi
      exact ⟨hmem i hi, of_decide_eq_true hout⟩
    · rw [List.mem_pair, List.mem_cons, List.mem_filter, decide_eq_true_eq]
      tauto

end

/-- Over any set and for any handles, there is a run that joins them. Each run ends in what is
computed, with fewer merges than there are plans. If the handles are those of different plans and
one plan comes of them, then it has their columns and their keys, and all others are as they
were. -/
theorem joinAll_ends (working : List PlanId) (w : Workspace) :
    (∃ pairings, JoinRun planCondition working w pairings (Planner.joinAll working w)) ∧
    (∀ pairings result, JoinRun planCondition working w pairings result →
      Planner.joinAll working w = result ∧ pairings.length ≤ w.set.tables.length - 1) ∧
    ∀ (listed : List TablePlan) (id : PlanId) (w' : Workspace),
      (w.set.tables.map TablePlan.id).Nodup →
      (∀ p ∈ w.set.tables, p.id.number < w.context.supply.next) →
      listed.Nodup → (∀ p ∈ listed, p ∈ w.set.tables) → working = listed.map TablePlan.id →
      Planner.joinAll working w = .ok (some id) w' →
      ∃ m ∈ w'.set.tables, m.id = id ∧
        (listed.flatMap TablePlan.columns).Subperm m.columns ∧
        (listed.flatMap TablePlan.uniqueKeys).Subperm m.uniqueKeys ∧
        ∀ q ∈ w'.set.tables, q.id ≠ id → ∃ p ∈ w.set.tables, p ∉ listed ∧ q.id = p.id ∧
          q.executable = p.executable ∧ q.columns = p.columns ∧ q.uniqueKeys = p.uniqueKeys := by
  obtain ⟨pairings, result, hrun⟩ := exists_joinRun planCondition working w
  have heq : Planner.joinAll working w = result := hrun.eq_joinAllWith
  refine ⟨⟨pairings, heq ▸ hrun⟩, fun _ _ h => ⟨h.eq_joinAllWith, h.length_le⟩, ?_⟩
  rintro listed id w' hids hgiven hlisted hmem rfl h
  rw [h] at heq
  subst heq
  -- The handles are apart now, so that columns and keys can be told by the plans that they are of.
  have hw : Handled (fun _ => True) w := ⟨hids, hgiven, fun _ _ _ _ _ => trivial⟩
  obtain ⟨hmoves, -⟩ := hrun.moves moveLaw_any hw
  have hids' := (hmoves.handled hw).nodup
  have hconserves := hmoves.conserves hw
  have hleaves := hrun.leaves moveLaw_any hw fun i hi => by
    obtain ⟨p, hp, rfl⟩ := List.mem_map.mp hi
    exact TableSet.mem_ids (hmem p hp)
  obtain ⟨m, hm, rfl⟩ := TableSet.exists_of_mem_ids hleaves.mem
  refine ⟨m, hm, rfl, ?_, ?_, fun q hq hne => ?_⟩
  · refine subperm_of_others _ hconserves.columns hids hids' hm hlisted hmem fun q hq hne => ?_
    obtain ⟨hout, p, hp, hmoved⟩ := hleaves.others q hq hne
    exact ⟨hout, p, hp, hmoved.id_eq, hmoved.columns⟩
  · refine subperm_of_others _ hconserves.keys hids hids' hm hlisted hmem fun q hq hne => ?_
    obtain ⟨hout, p, hp, hmoved⟩ := hleaves.others q hq hne
    exact ⟨hout, p, hp, hmoved.id_eq, hmoved.uniqueKeys⟩
  · obtain ⟨hout, p, hp, hmoved⟩ := hleaves.others q hq hne
    refine ⟨p, hp, fun hin => ?_, hmoved.id_eq, hmoved.executable, hmoved.columns,
      hmoved.uniqueKeys⟩
    exact hout (hmoved.id_eq ▸ List.mem_map_of_mem hin)

/-- A link to its own plan, one to a plan that is not there, and one that has no answer. -/
theorem joinAll_ends_of_stray_links :
    let a := (TablePlan.one 1 "a").withRight ⟨⟨1⟩, .inner, none⟩
    let b := (TablePlan.one 2 "b").withLeft ⟨⟨9⟩, .inner, none⟩
    let c := (TablePlan.one 3 "c").withRight ⟨⟨1⟩, .inner, none⟩
    let w : Workspace := ⟨⟨[a, b, c], false⟩, .start .blank default ⟨4⟩⟩
    ∃ pairings id w', JoinRun planCondition [⟨1⟩, ⟨2⟩] w pairings (.ok (some id) w') ∧
      pairings.length ≤ 2 ∧ ∃ m ∈ w'.set.tables, m.id = id ∧
        (a.columns ++ b.columns).Subperm m.columns ∧ ["a", "b"].Subperm m.uniqueKeys ∧
        ∀ q ∈ w'.set.tables, q.id ≠ id → ∃ p ∈ [a, b, c], p ∉ [a, b] ∧ q.id = p.id ∧
          q.executable = p.executable ∧ q.columns = p.columns ∧ q.uniqueKeys = p.uniqueKeys := by
  intro a b c w
  have hok : resultWith (fun o _ => o) (Planner.joinAll [⟨1⟩, ⟨2⟩] w) = some (some ⟨4⟩) := by
    decide +kernel
  obtain ⟨_, w', hjoin, rfl⟩ := exists_of_resultWith hok
  obtain ⟨⟨pairings, hrun⟩, hruns, hends⟩ := joinAll_ends [⟨1⟩, ⟨2⟩] w
  have hlisted : [a, b].Nodup :=
    List.Nodup.of_map TablePlan.id (by decide)
  have hmem : ∀ p ∈ [a, b], p ∈ [a, b, c] := fun p hp =>
    (List.mem_append_left [c] hp : p ∈ [a, b] ++ [c])
  obtain ⟨-, hlen⟩ := hruns _ _ hrun
  have hgiven : ∀ p ∈ w.set.tables, p.id.number < w.context.supply.next := by
    simp only [w, List.forall_mem_cons]
    decide
  exact ⟨pairings, ⟨4⟩, w', hjoin ▸ hrun, hlen,
    hends [a, b] ⟨4⟩ w' (by decide) hgiven hlisted hmem rfl hjoin⟩

end QueryPlan
