import QueryPlan.Proofs.LikeQueries
import QueryPlan.Proofs.MarkPairs

/-!
# The same set under other handles

- `TableSet.rename`: a set with its handles renamed.
- `Renames`: names that differ, and that come before those still to be given out.
- `Renames.likeness`: how two runs over a set and the renamed set are alike.
- `Renames.set_like`, `Renames.error_eq`: the two sets are alike, and where both
  runs fail, the errors differ by the names.
-/

namespace QueryPlan

/-- The plan under another handle, with its links aimed at the renamed plans. -/
def TablePlan.rename (g : PlanId → PlanId) (plan : TablePlan) : TablePlan :=
  { plan with
    id := g plan.id
    left := plan.left.map (JoinLink.rename g)
    right := plan.right.map (JoinLink.rename g) }

/-- The set under other handles. -/
def TableSet.rename (g : PlanId → PlanId) (set : TableSet) : TableSet :=
  { set with tables := set.tables.map (TablePlan.rename g) }

/-- The handle of the plan, and those that its links are aimed at. -/
def TablePlan.handles (plan : TablePlan) : List PlanId :=
  plan.id :: (plan.leftTarget?.toList ++ plan.rightTarget?.toList)

/-- The handles that occur in a set. -/
def TableSet.handles (set : TableSet) : List PlanId := set.tables.flatMap TablePlan.handles

/-- Names of the handles of a set that differ. All handles are from before the first one that is
still to be given out, and so are their names. -/
structure Renames (g : PlanId → PlanId) (set : TableSet) (supply supply' : PlanId.Supply) :
    Prop where
  differ : ∀ i ∈ set.handles, ∀ j ∈ set.handles, g i = g j → i = j
  given : ∀ i ∈ set.handles, i.number < supply.next
  givenNames : ∀ i ∈ set.handles, (g i).number < supply'.next

/-- The names, where each handle still to be given out has the next one of the other supply. -/
def namesFrom (supply supply' : PlanId.Supply) (g : PlanId → PlanId) (i : PlanId) : PlanId :=
  if i.number < supply.next then g i else ⟨supply'.next + (i.number - supply.next)⟩

/-! ## Renaming -/

section

variable (f g : PlanId → PlanId)

theorem TablePlan.rename_linkOn (p : TablePlan) (side : Side) :
    (p.rename g).linkOn side = (p.linkOn side).map (JoinLink.rename g) := by
  cases side <;> rfl

/-- To rename twice is to rename by both names. -/
theorem TablePlan.rename_rename (p : TablePlan) :
    (p.rename g).rename f = p.rename (f ∘ g) := by
  unfold rename
  simp only [Option.map_map]
  rfl

/-- To rename nothing leaves the plan as it is. -/
theorem TablePlan.rename_id (p : TablePlan) : p.rename (fun i => i) = p := by
  have hsame : ∀ o : Option JoinLink, o.map (JoinLink.rename fun i => i) = o := by
    intro o
    cases o <;> rfl
  unfold rename
  rw [hsame, hsame]

/-- To rename a set twice is to rename it by both names. -/
theorem TableSet.rename_rename (s : TableSet) :
    (s.rename g).rename f = s.rename (f ∘ g) := by
  unfold rename
  simp only [List.map_map]
  congr 1
  exact List.map_congr_left fun p _ => p.rename_rename f g

/-- To rename nothing leaves the set as it is. -/
theorem TableSet.rename_id (s : TableSet) : s.rename (fun i => i) = s := by
  unfold rename
  congr 1
  exact (List.map_congr_left fun p _ => p.rename_id).trans (List.map_id _)

/-- The handles of a renamed set are the new names. -/
theorem TableSet.rename_ids (s : TableSet) :
    (s.rename g).tables.map TablePlan.id = (s.tables.map TablePlan.id).map g := by
  unfold rename
  rw [List.map_map, List.map_map]
  rfl

end

/-! ## Trees like themselves -/

namespace PlanNode

variable {L : Likeness} {node child n m : PlanNode}

/-- What is in an input of a node is in the node. -/
theorem mem_walk_of_child (hchild : child ∈ node.children) (h : n ∈ child.walk) :
    n ∈ node.walk := by
  rw [walk_eq]
  exact List.mem_cons_of_mem _ (List.mem_flatMap.mpr ⟨child, hchild, h⟩)

/-- What is below a node of the tree is in the tree. -/
theorem mem_walk_trans (hm : m ∈ node.walk) (hn : n ∈ m.walk) : n ∈ node.walk := by
  induction node using induction_children with
  | step node ih =>
    rw [walk_eq, List.mem_cons, List.mem_flatMap] at hm
    rcases hm with rfl | ⟨child, hchild, hm⟩
    · exact hn
    · exact mem_walk_of_child hchild (ih child hchild hm)

/-- A tree is like itself, if marks and the ids of its caches stand for themselves and the nested
queries that it compares rows with may come up. -/
theorem like_self (hmarks : ∀ mark, L.marks mark mark)
    (hcaches : ∀ m i, .cache m i ∈ node.walk → ∃ same, L.caches? = some same ∧ same i i)
    (hqueries : ∀ m q columns op quantifier,
      .anyAllSelect m q columns op quantifier ∈ node.walk → L.queries q) : node.Like L node := by
  -- The induction is on the tree: marks are like themselves everywhere, ids of caches and nested
  -- queries where they occur.
  induction node using induction_children with
  | step node ih =>
    have hlike : ∀ child ∈ node.children, child.Like L child := fun child hchild =>
      ih child hchild (fun m i h => hcaches m i (mem_walk_of_child hchild h))
        fun m q columns op quantifier h =>
          hqueries m q columns op quantifier (mem_walk_of_child hchild h)
    have hself : node ∈ node.walk := walk_eq node ▸ List.mem_cons_self
    cases node with
    | source name => exact .source name
    | naturalJoin l r =>
      rw [children, List.forall_mem_cons, List.forall_mem_singleton] at hlike
      exact .naturalJoin hlike.1 hlike.2
    | join l r column op value =>
      rw [children, List.forall_mem_cons, List.forall_mem_singleton] at hlike
      exact .join hlike.1 hlike.2 column op value
    | outerJoin input mark =>
      exact .outerJoin (hlike input (List.mem_singleton_self _)) (hmarks mark)
    | union l r =>
      rw [children, List.forall_mem_cons, List.forall_mem_singleton] at hlike
      exact .union hlike.1 hlike.2
    | project input columns => exact .project (hlike input (List.mem_singleton_self _)) columns
    | cache input i =>
      obtain ⟨same, hsome, hsame⟩ := hcaches input i hself
      exact .cache hsome (hlike input (List.mem_singleton_self _)) hsame
    | cacheMark input mark =>
      exact .cacheMark (hlike input (List.mem_singleton_self _)) (hmarks mark)
    | constantSelect input predicate =>
      exact .constantSelect (hlike input (List.mem_singleton_self _)) predicate
    | simpleSelect input column op value =>
      exact .simpleSelect (hlike input (List.mem_singleton_self _)) column op value
    | patternSelect input column op pattern escape =>
      exact .patternSelect (hlike input (List.mem_singleton_self _)) column op pattern escape
    | exhaustiveSelect input predicate =>
      exact .exhaustiveSelect (hlike input (List.mem_singleton_self _)) predicate
    | anyAllSelect input q columns op quantifier =>
      rw [children, List.forall_mem_cons, List.forall_mem_singleton] at hlike
      exact .anyAllSelect hlike.1 (hqueries input q columns op quantifier hself) columns op
        quantifier

end PlanNode

variable {g : PlanId → PlanId} {set : TableSet} {supply supply' : PlanId.Supply} {i j : PlanId}
  {uuids uuids' : Identifiers} {settings settings' : Settings} {marks : String → String → Prop}
  {caches? : Option (Nat → Nat → Prop)} {queries : PlanNode → Prop} {ors : Prop}

/-- A handle that was given out has its new name. -/
theorem namesFrom_of_given (h : i.number < supply.next) : namesFrom supply supply' g i = g i :=
  if_pos h

/-- Handles that are still to come are given out in step. -/
theorem namesFrom_next (k : Nat) :
    namesFrom supply supply' g ⟨supply.next + k⟩ = ⟨supply'.next + k⟩ := by
  unfold namesFrom
  rw [if_neg (Nat.not_lt.mpr (Nat.le_add_right _ _)), Nat.add_sub_cancel_left]

namespace Renames

/-- Handles that occur, and those still to be given out, have different names. -/
theorem eq_of_names (h : Renames g set supply supply')
    (hi : i ∈ set.handles ∨ supply.next ≤ i.number) (hj : j ∈ set.handles ∨ supply.next ≤ j.number)
    (heq : namesFrom supply supply' g i = namesFrom supply supply' g j) : i = j := by
  unfold namesFrom at heq
  rcases hi with hi | hi
  · rw [if_pos (h.given i hi)] at heq
    rcases hj with hj | hj
    · rw [if_pos (h.given j hj)] at heq
      exact h.differ i hi j hj heq
    · rw [if_neg (Nat.not_lt.mpr hj)] at heq
      have hgiven := h.givenNames i hi
      rw [heq] at hgiven
      exact absurd hgiven (Nat.not_lt.mpr (Nat.le_add_right _ _))
  · rw [if_neg (Nat.not_lt.mpr hi)] at heq
    rcases hj with hj | hj
    · rw [if_pos (h.given j hj)] at heq
      have hgiven := h.givenNames j hj
      rw [← heq] at hgiven
      exact absurd hgiven (Nat.not_lt.mpr (Nat.le_add_right _ _))
    · rw [if_neg (Nat.not_lt.mpr hj)] at heq
      have hnumber : i.number = j.number := by
        have := PlanId.mk.inj heq
        omega
      cases i
      cases j
      exact congrArg PlanId.mk hnumber

/-- How a run over the set and a run over the renamed set are alike. -/
def likeness (h : Renames g set supply supply') (marks : String → String → Prop)
    (caches? : Option (Nat → Nat → Prop)) (queries : PlanNode → Prop) (ors : Prop) : Likeness where
  handles i i' := i' = namesFrom supply supply' g i ∧ (i ∈ set.handles ∨ supply.next ≤ i.number)
  oneToOne := by
    rintro i _ j _ ⟨rfl, hi⟩ ⟨rfl, hj⟩
    exact ⟨congrArg _, h.eq_of_names hi hj⟩
  marks := marks
  caches? := caches?
  queries := queries
  ors := ors

variable (h : Renames g set supply supply')

theorem handles_given (hi : i ∈ set.handles) :
    (h.likeness marks caches? queries ors).handles i (g i) :=
  ⟨(namesFrom_of_given (h.given i hi)).symm, Or.inl hi⟩

/-- The renamed set is alike, if each tree is like itself and all conditions are admitted. -/
theorem set_like
    (htrees : ∀ p ∈ set.tables,
      p.executable.Like (h.likeness marks caches? queries ors) p.executable)
    (hlinks : ∀ side, ∀ p ∈ set.tables, ∀ link, p.linkOn side = some link →
      Admits queries ors link.on) :
    set.Like (h.likeness marks caches? queries ors) (set.rename g) := by
  refine ⟨?_, rfl⟩
  unfold TableSet.rename
  rw [List.forall₂_map_right_iff, List.forall₂_same]
  intro p hp
  have hmem : ∀ i ∈ p.handles, i ∈ set.handles := fun i hi => List.mem_flatMap.mpr ⟨p, hp, hi⟩
  -- A link and the renamed link are alike.
  have hlink : ∀ side, Option.Rel (JoinLink.Like (h.likeness marks caches? queries ors))
      (p.linkOn side) ((p.linkOn side).map (JoinLink.rename g)) := by
    intro side
    cases hlink : p.linkOn side with
    | none => exact .none
    | some link =>
      have htarget : link.target ∈ p.handles := by
        cases side with
        | left =>
          rw [TablePlan.linkOn_left] at hlink
          simp [TablePlan.handles, TablePlan.leftTarget?, hlink]
        | right =>
          rw [TablePlan.linkOn_right] at hlink
          simp [TablePlan.handles, TablePlan.rightTarget?, hlink]
      exact .some ⟨h.handles_given (hmem _ htarget), rfl, rfl, hlinks side p hp link hlink⟩
  exact ⟨h.handles_given (hmem _ List.mem_cons_self), htrees p hp, rfl, rfl, hlink .left,
    hlink .right, rfl⟩

/-- What is still to be handed out is alike, where marks are numbered. -/
theorem context_like (hmarks : settings.markers.strategy = .sequential)
    (hmarkers : settings'.markers = settings.markers)
    (hcaching : (h.likeness Eq caches? queries ors).Caching (.start uuids settings supply)
      (.start uuids' settings' supply')) :
    (Context.start uuids settings supply).Like (h.likeness Eq caches? queries ors)
      (.start uuids' settings' supply') := by
  refine ⟨rfl, fun n _ => ?_, fun k => ⟨(namesFrom_next k).symm, Or.inr (Nat.le_add_right _ _)⟩,
    fun _ => hcaching⟩
  show MarkerGenerator.nameAt _ n = MarkerGenerator.nameAt _ n
  simp only [Context.start, MarkerGenerator.start, MarkerGenerator.nameAt, hmarkers, hmarks]

/-- Where both runs fail, the errors differ by the names. -/
theorem error_eq {e e' : PlanError} (he : e.Like (h.likeness marks caches? queries ors) e') :
    e' = e.mapIds (namesFrom supply supply' g) := by
  cases he with
  | plain noIds => exact (noIds _).symm
  | danglingLink id =>
    rw [id.1]
    rfl
  | joinClash left right side =>
    rw [left.1, right.1]
    rfl
  | unanswered plan side partner =>
    rw [plan.1, partner.1]
    rfl

end Renames

end QueryPlan
