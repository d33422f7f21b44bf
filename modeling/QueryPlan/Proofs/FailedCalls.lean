import QueryPlan.Proofs.JoinRuns
import QueryPlan.Proofs.MarkPairs
import QueryPlan.Proofs.Scoped

/-!
# What failed calls leave behind

A call that fails leaves the workspace as it was at that point, with the changes
that it made before. Links are recorded once both plans are found. A merge takes
its left plan out before it looks for the right one, and a join puts the mark of
an outer link on before it plans the condition.

- `Planner.link_error`, `Planner.merge_error`: when links and merges fail, and
  what they leave.
- `TableSet.movedLast`: the set with one plan moved to its end.
- `Planner.unchanged_of_failure`: failed links change nothing, and a failed merge
  at most moves its left plan to the end.
- `TableSet.keptBy?`: the plan on which a join of two plans puts a mark.
- `Planner.set_of_failed_joinPair`: a failed join changes nothing, unless the plans
  have an outer link, whose mark it leaves.
-/

namespace QueryPlan

/-- What `f` makes of the error of a run that fails, and of the state after it. -/
def failureWith {ε σ α β : Type} (f : ε → σ → β) : EStateM.Result ε σ α → Option β
  | .ok _ _ => none
  | .error e s => some (f e s)

/-- A computation that fails has a cause and leaves a workspace. -/
theorem exists_of_failureWith {ε σ α β : Type} {r : EStateM.Result ε σ α} {f : ε → σ → β} {b : β}
    (h : failureWith f r = some b) : ∃ e s, r = .error e s ∧ f e s = b := by
  cases r with
  | ok a s => cases h
  | error e s => exact ⟨e, s, rfl, Option.some.inj h⟩

/-- A computation that fails with a cause leaves a workspace. -/
theorem exists_of_failure {ε σ α : Type} {r : EStateM.Result ε σ α} {e : ε}
    (h : failureWith (fun cause _ => cause) r = some e) : ∃ s, r = .error e s := by
  obtain ⟨_, s, hr, rfl⟩ := exists_of_failureWith h
  exact ⟨s, hr⟩

/-! ## Handles of a set -/

namespace TableSet

variable {set : TableSet} {id id' : PlanId}

/-- No plan has a handle that is not in the set. -/
theorem get?_eq_none : set.get? id = none ↔ id ∉ set.ids := by
  unfold get? ids
  rw [List.find?_eq_none, List.mem_map, not_exists]
  refine forall_congr' fun p => ?_
  rw [decide_eq_true_eq, not_and]

/-- Some plan has a handle just if it is in the set. -/
theorem exists_get?_iff : (∃ p, set.get? id = some p) ↔ id ∈ set.ids := by
  rw [← not_iff_not, ← get?_eq_none, Option.eq_none_iff_forall_ne_some, not_exists]

/-- A change that keeps handles loses none. -/
theorem ids_modify (f : TablePlan → TablePlan) (hf : ∀ p, (f p).id = p.id) :
    (set.modify id f).ids = set.ids := by
  unfold ids modify
  rw [List.map_map]
  refine List.map_congr_left fun p _ => ?_
  by_cases h : p.id = id
  · rw [Function.comp_apply, if_pos h, hf]
  · rw [Function.comp_apply, if_neg h]

/-- To take a plan out takes its handle out. -/
theorem mem_ids_erase (hids : set.ids.Nodup) :
    id' ∈ (set.erase id).ids ↔ id' ∈ set.ids ∧ id' ≠ id := by
  unfold ids
  rw [erase_tables hids]
  constructor
  · intro h
    obtain ⟨p, hp, rfl⟩ := List.mem_map.mp h
    rw [List.mem_filter, decide_eq_true_eq] at hp
    exact ⟨List.mem_map_of_mem hp.1, hp.2⟩
  · rintro ⟨h, hne⟩
    obtain ⟨p, hp, rfl⟩ := List.mem_map.mp h
    exact List.mem_map_of_mem (List.mem_filter.mpr ⟨hp, decide_eq_true hne⟩)

/-- The set with the plan of a handle moved behind all others, which keep their order. -/
def movedLast (set : TableSet) (id : PlanId) : TableSet :=
  { set with
    tables := (set.tables.filter fun p => p.id ≠ id) ++ set.tables.filter fun p => p.id = id }

/-- One plan alone has its handle. -/
theorem filter_id_eq (hids : set.ids.Nodup) {p : TablePlan} (hp : p ∈ set.tables) :
    (set.tables.filter fun q => q.id = p.id) = [p] := by
  have hall : ∀ q ∈ set.tables.filter fun q => q.id = p.id, q = p := by
    intro q hq
    rw [List.mem_filter, decide_eq_true_eq] at hq
    exact eq_of_id_of_nodup hids hq.1 hp hq.2
  refine (List.eq_replicate_iff (n := 1)).mpr ⟨?_, hall⟩
  calc (set.tables.filter fun q => q.id = p.id).length
      = set.ids.count p.id := by
        rw [← List.countP_eq_length_filter, ids, List.count, List.countP_map]
        rfl
    _ = 1 := List.count_eq_one_of_mem hids (List.mem_map_of_mem hp)

/-- Without a plan under the handle, nothing is moved. -/
theorem movedLast_of_not_mem (h : id ∉ set.ids) : set.movedLast id = set := by
  have hne : ∀ p ∈ set.tables, p.id ≠ id := fun p hp heq => h (heq ▸ List.mem_map_of_mem hp)
  unfold movedLast
  rw [List.filter_eq_self.mpr fun p hp => decide_eq_true (hne p hp),
    List.filter_eq_nil_iff.mpr fun p hp => by simpa using hne p hp, List.append_nil]

/-- What is taken out of a set and put back stands at its end. -/
theorem push_erase (hids : set.ids.Nodup) {p : TablePlan} (hp : p ∈ set.tables) :
    (set.erase p.id).push p = set.movedLast p.id := by
  unfold push movedLast
  rw [erase_tables hids, filter_id_eq hids hp]
  rfl

/-- To move a plan to the end changes nothing just if it is there already, or not in the set. -/
theorem movedLast_eq_self_iff (hids : set.ids.Nodup) :
    set.movedLast id = set ↔ id ∉ set.ids ∨ set.ids.getLast? = some id := by
  constructor
  · intro h
    by_cases hid : id ∈ set.ids
    · obtain ⟨p, hp, rfl⟩ := List.mem_map.mp hid
      refine Or.inr ?_
      rw [← h, ids, movedLast, filter_id_eq hids hp, List.map_append, List.map_singleton,
        List.getLast?_concat]
    · exact Or.inl hid
  · rintro (h | h)
    · exact movedLast_of_not_mem h
    · obtain ⟨before, hsplit⟩ := List.getLast?_eq_some_iff.mp h
      obtain ⟨front, last, htables, hfront, hlast⟩ := List.map_eq_append_iff.mp hsplit
      obtain ⟨p, rfl, rfl⟩ := List.map_eq_singleton_iff.mp hlast
      have hne : ∀ q ∈ front, q.id ≠ p.id := by
        unfold ids at hids
        rw [htables, List.map_append, List.map_singleton, List.nodup_append] at hids
        exact fun q hq => hids.2.2 q.id (List.mem_map_of_mem hq) p.id List.mem_cons_self
      have hp : p ∈ set.tables := htables ▸ List.mem_append_right front List.mem_cons_self
      unfold movedLast
      rw [filter_id_eq hids hp, htables, List.filter_append,
        List.filter_eq_self.mpr fun q hq => decide_eq_true (hne q hq),
        List.filter_cons_of_neg (by simp), List.filter_nil, List.append_nil, ← htables]

end TableSet

namespace Planner

variable {α β : Type} {w w' : Workspace} {e : PlanError}

/-! ## How a computation fails -/

@[simp] theorem pure_error {a : α} : (pure a : Planner α) w = .error e w' ↔ False :=
  iff_of_false (by rintro ⟨⟩) id

@[simp] theorem throw_error {cause : PlanError} :
    (throw cause : Planner α) w = .error e w' ↔ e = cause ∧ w' = w := by
  show EStateM.Result.error cause w = .error e w' ↔ _
  rw [EStateM.Result.error.injEq, eq_comm, @eq_comm _ w]

@[simp] theorem current_error : current w = .error e w' ↔ False :=
  iff_of_false (by rintro ⟨⟩) id

@[simp] theorem change_error {f : TableSet → TableSet} : change f w = .error e w' ↔ False :=
  iff_of_false (by rintro ⟨⟩) id

@[simp] theorem freshId_error : freshId w = .error e w' ↔ False :=
  iff_of_false (by rintro ⟨⟩) id

@[simp] theorem ask_error {f : TableSet → Except PlanError α} :
    ask f w = .error e w' ↔ f w.set = .error e ∧ w' = w := by
  unfold ask
  rw [bind_of_ok (current_ok.mpr ⟨rfl, rfl⟩)]
  cases h : f w.set with
  | ok a => exact iff_of_false (by rintro ⟨⟩) (by rintro ⟨⟨⟩, -⟩)
  | error cause =>
    rw [throw_error, Except.error.injEq, eq_comm]

/-- A plan that is required may be missing. -/
theorem require_error {set : TableSet} {id : PlanId} :
    set.require id = .error e ↔ id ∉ set.ids ∧ e = .danglingLink id := by
  rw [← TableSet.get?_eq_none]
  unfold TableSet.require
  cases set.get? id with
  | none =>
    rw [Except.error.injEq, eq_comm]
    exact (and_iff_right rfl).symm
  | some p => exact iff_of_false (by rintro ⟨⟩) (by rintro ⟨⟨⟩, -⟩)

/-- A plan can be changed unless it is missing. -/
@[simp] theorem changePlan_error {id : PlanId} {f : TablePlan → TablePlan} :
    changePlan id f w = .error e w' ↔ (id ∉ w.set.ids ∧ e = .danglingLink id) ∧ w' = w := by
  simp only [changePlan, bind_error, ask_error, require_error, change_error, and_false,
    exists_false, or_false]

/-- A failure over another set leaves the set as it was, and the context as it is by then. -/
@[simp] theorem within_error {inner : TableSet} {act : Planner α} :
    within inner act w = .error e w' ↔
      ∃ w₁, act { w with set := inner } = .error e w₁ ∧ w' = { w₁ with set := w.set } := by
  unfold within
  cases act { w with set := inner } with
  | ok a w₁ =>
    exact iff_of_false (by rintro ⟨⟩) (by rintro ⟨_, ⟨⟩, -⟩)
  | error cause w₁ =>
    simp only [EStateM.Result.error.injEq]
    constructor
    · rintro ⟨rfl, rfl⟩
      exact ⟨w₁, ⟨rfl, rfl⟩, rfl⟩
    · rintro ⟨_, ⟨rfl, rfl⟩, rfl⟩
      exact ⟨rfl, rfl⟩

/-! ## Failed links -/

/-- A link is not recorded if one of its plans is missing, for which the right one is asked first.
Nothing is changed then. -/
theorem link_error {left right : PlanId} {joinType : JoinType} {on : Option Expr} :
    link left right joinType on w = .error e w' ↔
      (right ∉ w.set.ids ∧ e = .danglingLink right ∨
        right ∈ w.set.ids ∧ left ∉ w.set.ids ∧ e = .danglingLink left) ∧ w' = w := by
  simp only [link, bind_error, ask_error, ask_ok, changePlan_error, changePlan_ok, require_error,
    require_ok, TableSet.exists_get?_iff]
  constructor
  · rintro (h | ⟨r, _, ⟨hr, rfl⟩, ⟨hleft, rfl⟩ | ⟨_, _, ⟨-, rfl⟩, ⟨hright, -⟩, -⟩⟩)
    · exact ⟨Or.inl h.1, h.2⟩
    · exact ⟨Or.inr ⟨TableSet.exists_get?_iff.mp ⟨r, hr⟩, hleft⟩, rfl⟩
    · -- The first change keeps the right plan.
      rw [TableSet.ids_modify (TablePlan.withRight _) fun _ => rfl] at hright
      exact absurd (TableSet.exists_get?_iff.mp ⟨r, hr⟩) hright
  · rintro ⟨h | ⟨hright, hleft⟩, rfl⟩
    · exact Or.inl ⟨h, rfl⟩
    · obtain ⟨r, hr⟩ := TableSet.exists_get?_iff.mpr hright
      exact Or.inr ⟨r, w', ⟨hr, rfl⟩, Or.inl ⟨hleft, rfl⟩⟩

/-- A link by keys that is not recorded changes nothing. -/
theorem linkByKey_error {leftKey rightKey : String} {joinType : JoinType} {on : Option Expr}
    (h : linkByKey leftKey rightKey joinType on w = .error e w') : w' = w := by
  simp only [linkByKey, bind_error, ask_error, ask_ok, link_error] at h
  obtain ⟨-, rfl⟩ | ⟨_, _, ⟨-, rfl⟩, ⟨-, rfl⟩ | ⟨_, _, ⟨-, rfl⟩, -, rfl⟩⟩ := h <;> rfl

/-! ## Failed merges -/

/-- A merge fails if one of its plans is missing, or if they are one plan. If the left one is found,
it is put back at the end of the set. -/
theorem merge_error {left right : PlanId} {build : PlanNode → PlanNode → PlanNode}
    (hids : w.set.ids.Nodup) :
    merge left right build w = .error e w' ↔
      (left ∉ w.set.ids ∧ e = .danglingLink left ∨
        left ∈ w.set.ids ∧ (right ∉ w.set.ids ∨ right = left) ∧ e = .danglingLink right) ∧
      w' = { w with set := w.set.movedLast left } := by
  by_cases hleft : left ∈ w.set.ids
  · obtain ⟨l, hl⟩ := TableSet.exists_get?_iff.mpr hleft
    obtain ⟨hmem, rfl⟩ := TableSet.mem_of_get? hl
    -- The left plan is out of the set when the right one is looked up, so it is not found as its
    -- own partner.
    have hrest : (w.set.erase l.id).get? right = none ↔ right ∉ w.set.ids ∨ right = l.id := by
      rw [TableSet.get?_eq_none, TableSet.mem_ids_erase hids, not_and_or, not_not]
    have herase : change (fun set => set.erase l.id) w =
        .ok () { w with set := w.set.erase l.id } := change_ok.mpr rfl
    unfold merge
    rw [bind_of_ok (ask_require_of_some hl), bind_of_ok herase,
      bind_of_ok (current_ok.mpr ⟨rfl, rfl⟩)]
    cases hr : (w.set.erase l.id).get? right with
    | none =>
      simp only [bind_error, change_error, false_or, change_ok, throw_error]
      rw [← TableSet.push_erase hids hmem]
      constructor
      · rintro ⟨_, _, rfl, rfl, rfl⟩
        exact ⟨Or.inr ⟨hleft, hrest.mp hr, rfl⟩, rfl⟩
      · rintro ⟨⟨hnot, -⟩ | ⟨-, -, rfl⟩, rfl⟩
        · exact absurd hleft hnot
        · exact ⟨(), _, rfl, rfl, rfl⟩
    | some r =>
      refine iff_of_false (by rintro ⟨⟩) ?_
      rintro ⟨⟨hnot, -⟩ | ⟨-, hnone, -⟩, -⟩
      · exact hnot hleft
      · rw [hrest.mpr hnone] at hr
        cases hr
  -- Nothing is taken out before the left plan is found.
  · unfold merge
    rw [bind_of_error (ask_require_of_none (TableSet.get?_eq_none.mpr hleft)),
      TableSet.movedLast_of_not_mem hleft, EStateM.Result.error.injEq]
    constructor
    · rintro ⟨rfl, rfl⟩
      exact ⟨Or.inl ⟨hleft, rfl⟩, rfl⟩
    · rintro ⟨⟨-, rfl⟩ | ⟨hmem, -⟩, rfl⟩
      · exact ⟨rfl, rfl⟩
      · exact absurd hmem hleft

/-- Two different plans of a set can be merged. -/
theorem not_merge_error {left right : PlanId} {build : PlanNode → PlanNode → PlanNode}
    (hids : w.set.ids.Nodup) (hleft : left ∈ w.set.ids) (hright : right ∈ w.set.ids)
    (hne : left ≠ right) : merge left right build w ≠ .error e w' := by
  intro h
  obtain ⟨⟨hnot, -⟩ | ⟨-, hnot | heq, -⟩, -⟩ := (merge_error hids).mp h
  · exact hnot hleft
  · exact hnot hright
  · exact hne heq.symm

/-- Failed links leave everything as it was. A failed merge does so just if its left plan is missing
or the last of the set. Otherwise it moves that plan to the end, and changes nothing else. -/
theorem unchanged_of_failure (hids : w.set.ids.Nodup) :
    (∀ left right joinType on e w', link left right joinType on w = .error e w' → w' = w) ∧
    (∀ leftKey rightKey joinType on e w',
      linkByKey leftKey rightKey joinType on w = .error e w' → w' = w) ∧
    ∀ left right build e w', merge left right build w = .error e w' →
      w' = { w with set := w.set.movedLast left } ∧
        (w' = w ↔ left ∉ w.set.ids ∨ w.set.ids.getLast? = some left) := by
  refine ⟨fun left right joinType on e w' h => (link_error.mp h).2,
    fun leftKey rightKey joinType on e w' h => linkByKey_error h,
    fun left right build e w' h => ?_⟩
  obtain ⟨-, rfl⟩ := (merge_error hids).mp h
  refine ⟨rfl, ?_⟩
  rw [← TableSet.movedLast_eq_self_iff hids]
  exact ⟨congrArg Workspace.set, fun hset => by rw [hset]⟩

/-- A merge into the end of a chain of joins, and a link to it, where the other plan is missing. -/
theorem unchanged_of_failure_of_chain :
    let set : TableSet := ⟨chainOfOnes .left (.binary (columnOf "a") .eq (columnOf "b"))
      (.binary (columnOf "b") .lt (columnOf "c")), false⟩
    let w : Workspace := ⟨set, .start .blank default ⟨5⟩⟩
    (∃ w', link ⟨4⟩ ⟨3⟩ .inner none w = .error (.danglingLink ⟨4⟩) w' ∧ w' = w) ∧
    (∃ w', linkByKey "a" "d" .inner none w = .error (.unknownUniqueKey "d") w' ∧ w' = w) ∧
    (∃ w', merge ⟨3⟩ ⟨4⟩ .naturalJoin w = .error (.danglingLink ⟨4⟩) w' ∧ w' = w) ∧
    ∃ w', merge ⟨1⟩ ⟨1⟩ .naturalJoin w = .error (.danglingLink ⟨1⟩) w' ∧ w' ≠ w := by
  intro set w
  obtain ⟨hlink, hkeys, hmerge⟩ := unchanged_of_failure (w := w) (by decide)
  obtain ⟨w₁, h₁⟩ : ∃ w', link ⟨4⟩ ⟨3⟩ .inner none w = .error (.danglingLink ⟨4⟩) w' :=
    exists_of_failure (by decide)
  obtain ⟨w₂, h₂⟩ : ∃ w', linkByKey "a" "d" .inner none w = .error (.unknownUniqueKey "d") w' :=
    exists_of_failure (by decide)
  obtain ⟨w₃, h₃⟩ : ∃ w', merge ⟨3⟩ ⟨4⟩ .naturalJoin w = .error (.danglingLink ⟨4⟩) w' :=
    exists_of_failure (by decide)
  obtain ⟨w₄, h₄⟩ : ∃ w', merge ⟨1⟩ ⟨1⟩ .naturalJoin w = .error (.danglingLink ⟨1⟩) w' :=
    exists_of_failure (by decide)
  refine ⟨⟨w₁, h₁, hlink _ _ _ _ _ _ h₁⟩, ⟨w₂, h₂, hkeys _ _ _ _ _ _ h₂⟩,
    ⟨w₃, h₃, (hmerge _ _ _ _ _ h₃).2.mpr (by decide)⟩, w₄, h₄, fun heq => ?_⟩
  exact absurd ((hmerge _ _ _ _ _ h₄).2.mp heq) (by decide)

/-- A merge of the first of two plans with a missing one leaves the set in another order. -/
theorem not_unchanged_of_failure :
    let w : Workspace := ⟨⟨[.one 1 "a", .one 2 "b"], false⟩, .start .blank default ⟨4⟩⟩
    w.set.ids.Nodup ∧ ∃ w', merge ⟨1⟩ ⟨3⟩ (fun _ _ => .source "c") w =
      .error (.danglingLink ⟨3⟩) w' ∧ w.set.ids = [⟨1⟩, ⟨2⟩] ∧ w'.set.ids = [⟨2⟩, ⟨1⟩] := by
  intro w
  have hmerge : failureWith (fun cause w' => (cause, w'.set.ids))
      (merge ⟨1⟩ ⟨3⟩ (fun _ _ => .source "c") w) = some (.danglingLink ⟨3⟩, [⟨2⟩, ⟨1⟩]) := by
    decide
  obtain ⟨_, w', h, hresult⟩ := exists_of_failureWith hmerge
  obtain ⟨rfl, hmoved⟩ := Prod.mk.inj hresult
  exact ⟨by decide, w', h, rfl, hmoved⟩

end Planner

/-! ## Failed joins -/

/-- The plan of which a left or a right join keeps all rows. -/
def SidedLink.kept? (sided : SidedLink) : Option PlanId :=
  match sided.link.joinType with
  | .left => some sided.left
  | .right => some sided.right
  | .inner | .full => none

/-- The plan on which a join of two plans puts a mark: that of which the link between them, if there
is one, keeps all rows. -/
def TableSet.keptBy? (set : TableSet) (first second : PlanId) : Option PlanId := do
  let a ← set.get? first
  let b ← set.get? second
  (← linkBetween a b).kept?

/-- No mark is put on if a plan is missing. -/
theorem TableSet.keptBy?_of_not_mem {set : TableSet} {first second : PlanId}
    (h : first ∉ set.ids ∨ second ∉ set.ids) : set.keptBy? first second = none := by
  unfold keptBy?
  rcases h with h | h
  · rw [get?_eq_none.mpr h]
    rfl
  · rw [get?_eq_none.mpr h]
    cases set.get? first <;> rfl

/-- Which plan is marked is read off the link between the two. -/
theorem TableSet.keptBy?_eq {set : TableSet} {first second : PlanId} {a b : TablePlan}
    (ha : set.get? first = some a) (hb : set.get? second = some b) :
    set.keptBy? first second = (linkBetween a b).bind SidedLink.kept? := by
  unfold keptBy?
  rw [ha, hb]
  rfl

/-- A mark is a further node. -/
theorem PlanNode.cacheMark_ne (tree : PlanNode) (mark : String) : tree.cacheMark mark ≠ tree := by
  intro h
  have := congrArg sizeOf h
  simp only [cacheMark.sizeOf_spec] at this
  omega

namespace Planner

variable {condition : ConditionPlanner} {w w' : Workspace} {e : PlanError} {first second : PlanId}

/-- Of all joins, only a full one has no mark. -/
theorem newMark_error {joinType : JoinType} {left right : PlanId} :
    newMark joinType left right w = .error e w' ↔
      joinType = .full ∧ e = .unsupportedJoinType .full ∧ w' = w := by
  cases joinType with
  | full => simp only [newMark, throw_error, true_and]
  | _ => exact iff_of_false (by rintro ⟨⟩) (by rintro ⟨⟨⟩, -⟩)

/-- A copy of a pair is made of plans of the set, which stays as it is. -/
theorem detachPair_error {left right : PlanId} (h : detachPair left right w = .error e w') :
    left ∉ w.set.ids ∨ right ∉ w.set.ids := by
  simp only [detachPair, bind_error, ask_error, ask_ok, freshId_error, freshId_ok, require_error,
    pure_error, false_or] at h
  rcases h with h | ⟨_, _, ⟨-, rfl⟩, _, _, ⟨-, rfl⟩, h | ⟨_, _, -, _, _, -, h⟩⟩
  · exact Or.inl h.1.1
  · exact Or.inr h.1.1
  · exact h.elim

/-- The pair is taken for a copy, and the set stays as it is. -/
theorem set_of_detachPair {left right : PlanId} {pair : TableSet}
    (h : detachPair left right w = .ok pair w') : w'.set = w.set := by
  simp only [detachPair, bind_ok, ask_ok, freshId_ok, pure_ok] at h
  obtain ⟨_, _, ⟨-, rfl⟩, _, _, ⟨rfl, rfl⟩, _, _, ⟨-, rfl⟩, _, _, ⟨rfl, rfl⟩, rfl, rfl⟩ := h
  rfl

/-- Where a condition can not be planned over copies of two plans, these stay as they are. Where it
can, the plans are merged. -/
theorem mergeOverCopies_error {on : Option Expr} {left right : PlanId}
    {tree : PlanNode → PlanNode} (hids : w.set.ids.Nodup) (hleft : left ∈ w.set.ids)
    (hright : right ∈ w.set.ids) (hne : left ≠ right)
    (h : (do
      let pair ← detachPair left right
      let (joined, _) ← within pair (condition on)
      merge left right fun _ _ => tree joined) w = .error e w') : w'.set = w.set := by
  rw [bind_error] at h
  rcases h with h | ⟨pair, w₁, hpair, h⟩
  · obtain hnot | hnot := detachPair_error h
    · exact absurd hleft hnot
    · exact absurd hright hnot
  rw [← set_of_detachPair hpair] at hids hleft hright ⊢
  rw [bind_error] at h
  rcases h with h | ⟨⟨joined, _⟩, w₂, hplan, h⟩
  · obtain ⟨_, -, rfl⟩ := within_error.mp h
    rfl
  · obtain ⟨v, -, -, rfl⟩ := within_ok.mp hplan
    exact (not_merge_error (w := ⟨w₁.set, v.context⟩) hids hleft hright hne h).elim

/-- A join of two linked plans fails for a full join, or when their condition can not be planned. By
then the mark of an outer join is put on. -/
theorem joinLinkedWith_error {joinType : JoinType} {on : Option Expr} {left right : PlanId}
    (hids : w.set.ids.Nodup) (hleft : left ∈ w.set.ids) (hright : right ∈ w.set.ids)
    (hne : left ≠ right)
    (h : joinLinkedWith condition joinType on left right w = .error e w') :
    joinType = .full ∧ w'.set = w.set ∨
      ∃ marked c, newMark joinType left right w = .ok marked { w with context := c } ∧
        w'.set = { w.set with tables := w.set.tables.map (TablePlan.withMark marked) } := by
  unfold joinLinkedWith at h
  rw [bind_error] at h
  rcases h with h | ⟨marked, _, hmark, h⟩
  · obtain ⟨hfull, -, rfl⟩ := newMark_error.mp h
    exact Or.inl ⟨hfull, rfl⟩
  refine Or.inr ⟨marked, ?_⟩
  obtain ⟨c, rfl⟩ := exists_context_of_newMark hmark
  refine ⟨c, hmark, ?_⟩
  rw [bind_error] at h
  rcases h with h | ⟨_, _, hput, h⟩
  · -- The plan to be marked is one of the pair.
    obtain ⟨-, rfl, -⟩ | ⟨kept, hkept, rfl, -⟩ := newMark_ok hmark
    · exact (pure_error.mp h).elim
    · obtain ⟨⟨hnot, -⟩, -⟩ := changePlan_error.mp h
      rcases hkept with ⟨-, rfl⟩ | ⟨-, rfl⟩
      · exact absurd hleft hnot
      · exact absurd hright hnot
  · obtain rfl := putMark_ok hput
    have hmarked : (w.set.tables.map (TablePlan.withMark marked)).map TablePlan.id = w.set.ids := by
      rw [List.map_map]
      exact List.map_congr_left fun p _ => TablePlan.withMark_id marked p
    rw [← hmarked] at hids hleft hright
    exact mergeOverCopies_error (w := ⟨⟨_, w.set.hasJoins⟩, c⟩) hids hleft hright hne h

/-- A join of two different plans that fails leaves the set as it was, unless these have an outer
link. Then it leaves the mark. -/
theorem joinPairWith_error (hids : w.set.ids.Nodup) (hne : first ≠ second)
    (h : joinPairWith condition first second w = .error e w') :
    w.set.keptBy? first second = none ∧ w'.set = w.set ∨
      ∃ kept, w.set.keptBy? first second = some kept ∧ kept ∈ w.set.ids ∧
        w'.set = w.set.modify kept (TablePlan.update (.cacheMark · w.context.markers.next.1)) := by
  unfold joinPairWith at h
  rw [bind_error] at h
  -- The two plans are looked up first, one after the other.
  rcases h with h | ⟨a, w, ha, h⟩
  · obtain ⟨hnot, rfl⟩ := ask_error.mp h
    exact Or.inl ⟨TableSet.keptBy?_of_not_mem (Or.inl (require_error.mp hnot).1), rfl⟩
  obtain ⟨ha, rfl⟩ := ask_ok.mp ha
  rw [require_ok] at ha
  rw [bind_error] at h
  rcases h with h | ⟨b, w, hb, h⟩
  · obtain ⟨hnot, rfl⟩ := ask_error.mp h
    exact Or.inl ⟨TableSet.keptBy?_of_not_mem (Or.inr (require_error.mp hnot).1), rfl⟩
  obtain ⟨hb, rfl⟩ := ask_ok.mp hb
  rw [require_ok] at hb
  rw [TableSet.keptBy?_eq ha hb]
  have hfirst := TableSet.exists_get?_iff.mp ⟨a, ha⟩
  have hsecond := TableSet.exists_get?_iff.mp ⟨b, hb⟩
  -- Without a link between them, the merge cannot fail, since both are there.
  cases hbetween : linkBetween a b with
  | none =>
    simp only [hbetween] at h
    refine Or.inl ⟨rfl, ?_⟩
    cases hclash : clash a b with
    | safe =>
      simp only [hclash] at h
      exact (not_merge_error hids hfirst hsecond hne h).elim
    | _ =>
      simp only [hclash] at h
      exact congrArg Workspace.set (throw_error.mp h).2
  | some sided =>
    simp only [hbetween] at h
    obtain ⟨l, r, hpair, hleft, hright, -⟩ := between_of_linkBetween hbetween
    obtain ⟨hl, hr, hsides⟩ : sided.left ∈ w.set.ids ∧ sided.right ∈ w.set.ids ∧
        sided.left ≠ sided.right := by
      rw [hleft, hright]
      obtain ⟨-, hida⟩ := TableSet.mem_of_get? ha
      obtain ⟨-, hidb⟩ := TableSet.mem_of_get? hb
      rcases hpair with ⟨rfl, rfl⟩ | ⟨rfl, rfl⟩
      · rw [hida, hidb]
        exact ⟨hfirst, hsecond, hne⟩
      · rw [hida, hidb]
        exact ⟨hsecond, hfirst, hne.symm⟩
    rw [Option.bind_some]
    unfold SidedLink.kept?
    -- By a link the join fails at once, or after the mark is put on the plan whose rows it keeps.
    rcases joinLinkedWith_error hids hl hr hsides h with ⟨hfull, hset⟩ | ⟨marked, c, hmark, hset⟩
    · rw [hfull]
      exact Or.inl ⟨rfl, hset⟩
    · rcases newMark_ok hmark with ⟨hinner, rfl, -⟩ | ⟨kept, ⟨htype, rfl⟩ | ⟨htype, rfl⟩, rfl, -⟩
      · rw [hinner]
        have hsame : TablePlan.withMark none = id := rfl
        rw [hsame, List.map_id] at hset
        exact Or.inl ⟨rfl, hset⟩
      · rw [htype]
        exact Or.inr ⟨sided.left, rfl, hl, hset⟩
      · rw [htype]
        exact Or.inr ⟨sided.right, rfl, hr, hset⟩

/-- A join of two different plans that fails leaves the set as it was just if the link that it
goes by is no left or right join. Otherwise it leaves a mark on the plan of which that join would
have kept all rows, which counts as touched then, and changes nothing else. -/
theorem set_of_failed_joinPair (hids : w.set.ids.Nodup) (hne : first ≠ second)
    (h : joinPair first second w = .error e w') :
    (w'.set = w.set ↔ w.set.keptBy? first second = none) ∧
    ∀ kept, w.set.keptBy? first second = some kept →
      w'.set = w.set.modify kept (TablePlan.update (.cacheMark · w.context.markers.next.1)) := by
  rcases joinPairWith_error hids hne h with ⟨hnone, hset⟩ | ⟨kept, hkept, hmem, hset⟩
  · rw [hnone]
    exact ⟨iff_of_true hset rfl, by rintro _ ⟨⟩⟩
  · rw [hkept]
    refine ⟨iff_of_false (fun hsame => ?_) (Option.some_ne_none kept), ?_⟩
    · obtain ⟨p, hp, rfl⟩ := List.mem_map.mp hmem
      have htables := congrArg TableSet.tables (hset.symm.trans hsame)
      have hplan := List.map_inj_left.mp (htables.trans (List.map_id _).symm) p hp
      rw [if_pos rfl] at hplan
      exact PlanNode.cacheMark_ne _ _ (congrArg TablePlan.executable hplan)
    · rintro _ ⟨⟩
      exact hset

/-- The condition of the first link in a chain reads a table that is not there. If it is that of an
inner join, nothing is changed, and if it is that of a right join, the second plan is marked. -/
theorem set_of_failed_joinPair_of_chain :
    let start (joinType : JoinType) : Workspace :=
      ⟨⟨chainOfOnes joinType (.binary (columnOf "a") .eq (columnOf "d"))
        (.binary (columnOf "b") .lt (columnOf "c")), false⟩, .start .blank default ⟨4⟩⟩
    let missing := PlanError.unresolvedColumn (.qualified "d" "x")
    (∃ w', joinPair ⟨1⟩ ⟨2⟩ (start .inner) = .error missing w' ∧ w'.set = (start .inner).set) ∧
    ∃ w', joinPair ⟨1⟩ ⟨2⟩ (start .right) = .error missing w' ∧
      w'.set = (start .right).set.modify ⟨2⟩ (TablePlan.update (.cacheMark · "OUTER_JOIN_1")) := by
  intro start missing
  have hne : (⟨1⟩ : PlanId) ≠ ⟨2⟩ := by decide
  obtain ⟨w₁, h₁⟩ : ∃ w', joinPair ⟨1⟩ ⟨2⟩ (start .inner) = .error missing w' :=
    exists_of_failure (by decide +kernel)
  obtain ⟨w₂, h₂⟩ : ∃ w', joinPair ⟨1⟩ ⟨2⟩ (start .right) = .error missing w' :=
    exists_of_failure (by decide +kernel)
  have hname : (start .right).context.markers.next.1 = "OUTER_JOIN_1" := by decide
  exact ⟨⟨w₁, h₁, (set_of_failed_joinPair (by decide) hne h₁).1.mpr (by decide)⟩,
    w₂, h₂, hname ▸ (set_of_failed_joinPair (by decide) hne h₂).2 ⟨2⟩ (by decide)⟩

/-- The condition of a left join reads a table that is not there. After the join failed, the left
plan has a mark that no outer join adds back, and counts as touched. -/
theorem not_set_of_failed_joinPair :
    let on := Expr.binary (columnOf "a") .eq (columnOf "c")
    let set : TableSet := ⟨[(TablePlan.one 1 "a").withRight ⟨⟨2⟩, .left, some on⟩,
      (TablePlan.one 2 "b").withLeft ⟨⟨1⟩, .left, some on⟩], false⟩
    set.validateLinks = .ok () ∧
      set.tables.map (fun p => (p.executable.looseMarks, p.touched)) = [([], false), ([], false)] ∧
      ∃ w', joinPair ⟨1⟩ ⟨2⟩ ⟨set, .start .blank default ⟨3⟩⟩ =
          .error (.unresolvedColumn (.qualified "c" "x")) w' ∧
        w'.set.tables.map (fun p => (p.executable.looseMarks, p.touched)) =
          [(["OUTER_JOIN_1"], true), ([], false)] := by
  intro on set
  have hjoin : failureWith (fun cause w' => (cause,
        w'.set.tables.map fun p => (p.executable.looseMarks, p.touched)))
      (joinPair ⟨1⟩ ⟨2⟩ ⟨set, .start .blank default ⟨3⟩⟩) = some
        (.unresolvedColumn (.qualified "c" "x"), [(["OUTER_JOIN_1"], true), ([], false)]) := by
    decide +kernel
  obtain ⟨_, w', h, hresult⟩ := exists_of_failureWith hjoin
  obtain ⟨rfl, hmarks⟩ := Prod.mk.inj hresult
  exact ⟨by decide +kernel, by decide, w', h, hmarks⟩

end Planner

end QueryPlan
