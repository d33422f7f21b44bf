import QueryPlan.Proofs.InnerLinks
import QueryPlan.Proofs.LinkEnds
import QueryPlan.Proofs.SoundFilters

/-!
# How many outer joins are planned

- `PlanNode.marks`: the marks of a kind of node of a tree.
- `pendingOuter`: how many plans have a left or right join on their right side.
- `Steps.marked`: every new mark is for such a join that is not pending any more.
- `Steps.pendingOuter_eq`: none of them is lost, unless a node joins across two
  links at once.
- `planQuery_outerJoins`: so a filter is planned with one outer join for each, if no
  node does.
- `not_planQuery_outerJoins`: otherwise there may be none for a join.

All of it is about filters and conditions without an OR and without nested
queries: the sides of an OR are planned over copies of the set, so that the outer
joins of both are in its tree.
-/

namespace QueryPlan

universe u

variable {V : Type u} {db : Database V} {pairs : List (String × String)} {plain : Prop}
  {P : Option Expr → Prop} {w w' : Workspace} {f : PlanNode → Option String}

/-! ## Marks -/

namespace PlanNode

/-- The mark of a node that adds back the rows that an outer join keeps. -/
def outerMark? : PlanNode → Option String
  | .outerJoin _ mark => some mark
  | _ => none

/-- The mark of a node that remembers them. -/
def cacheMark? : PlanNode → Option String
  | .cacheMark _ mark => some mark
  | _ => none

/-- What `f` reads off the nodes of the tree. -/
def marks (f : PlanNode → Option String) (tree : PlanNode) : List String := tree.walk.filterMap f

/-- `f` reads nothing off nodes that filter, cache or join rows. -/
structure ReadsMarks (f : PlanNode → Option String) : Prop where
  covered : ∀ {node input}, node.covered? = some input → f node = none
  joined : ∀ {node l r}, node.joined? = some (l, r) → f node = none

/-- Outer joins are told by the node itself. -/
theorem readsMarks_outerMark : ReadsMarks outerMark? := by
  constructor
  · intro node input h
    cases node <;> cases h <;> rfl
  · intro node l r h
    cases node <;> cases h <;> rfl

/-- Nodes that remember rows are told by the node itself. -/
theorem readsMarks_cacheMark : ReadsMarks cacheMark? := by
  constructor
  · intro node input h
    cases node <;> cases h <;> rfl
  · intro node l r h
    cases node <;> cases h <;> rfl

/-- The marks of a tree are its own and those of its inputs. -/
theorem marks_eq (f : PlanNode → Option String) (node : PlanNode) :
    node.marks f = (f node).toList ++ node.children.flatMap (marks f) := by
  unfold marks
  rw [walk_eq, List.filterMap_cons, List.filterMap_flatMap]
  cases f node <;> rfl

variable {node input l r : PlanNode}

/-- A node without a mark, over one input, adds none. -/
theorem ReadsMarks.of_covered (hf : ReadsMarks f) (h : node.covered? = some input)
    (hchildren : node.children = [input]) : node.marks f = input.marks f := by
  rw [marks_eq, hf.covered h, hchildren, List.flatMap_singleton]
  rfl

/-- A join has the marks of both its inputs. -/
theorem ReadsMarks.of_joined (hf : ReadsMarks f) (h : node.joined? = some (l, r)) :
    node.marks f = l.marks f ++ r.marks f := by
  rw [marks_eq, hf.joined h, children_of_joined h]
  simp

end PlanNode

/-- What `f` reads off the nodes of the trees of the plans. -/
def marksOf (f : PlanNode → Option String) (tables : List TablePlan) : List String :=
  tables.flatMap fun p => p.executable.marks f

/-- The marks of a merge are those of its two plans, and what was put on their trees. -/
theorem marksOf_merged {tables : List TablePlan} {l r : TablePlan} {m : PlanId} {tree : PlanNode}
    {added : List String} (hnodup : (tables.map TablePlan.id).Nodup) (hl : l ∈ tables)
    (hr : r ∈ tables) (hne : l.id ≠ r.id)
    (htree : (tree.marks f).Perm (added ++ marksOf f [l, r])) :
    (marksOf f (mergedTables tables l r m tree)).Perm (added ++ marksOf f tables) := by
  have hbefore : (marksOf f tables).Perm (marksOf f [l, r] ++
      marksOf f (tables.filter fun p => p.id ≠ l.id ∧ p.id ≠ r.id)) := by
    unfold marksOf
    rw [← List.flatMap_append]
    exact (perm_pair_cons hnodup hl hr hne).flatMap_right _
  have hafter : marksOf f (mergedTables tables l r m tree) =
      marksOf f (tables.filter fun p => p.id ≠ l.id ∧ p.id ≠ r.id) ++ tree.marks f := by
    unfold marksOf mergedTables
    rw [List.flatMap_append, List.flatMap_map, List.flatMap_singleton]
    rfl
  rw [hafter]
  refine (htree.append_left _).trans (.trans ?_ (hbefore.symm.append_left added))
  exact List.perm_append_comm.trans (.of_eq (List.append_assoc _ _ _))

/-- A merge by a node that joins rows has the marks of its two plans. -/
theorem marksOf_joined {tables : List TablePlan} {l r : TablePlan} {m : PlanId} {tree : PlanNode}
    (hf : PlanNode.ReadsMarks f) (hnodup : (tables.map TablePlan.id).Nodup) (hl : l ∈ tables)
    (hr : r ∈ tables) (hne : l.id ≠ r.id)
    (hjoined : tree.joined? = some (l.executable, r.executable)) :
    (marksOf f (mergedTables tables l r m tree)).Perm (marksOf f tables) := by
  have htree : (tree.marks f).Perm ([] ++ marksOf f [l, r]) := by
    rw [hf.of_joined hjoined]
    simp [marksOf]
  exact marksOf_merged hnodup hl hr hne htree

/-! ## Pending joins -/

/-- Whether one side's rows are kept. -/
def JoinLink.isOuter (link : JoinLink) : Bool :=
  link.joinType = .left || link.joinType = .right

/-- Whether the plan has such a link on its right, which leads to a plan that `inside` picks. -/
def TablePlan.pendsOuter (inside : PlanId → Bool) (p : TablePlan) : Bool :=
  p.right.any fun link => link.isOuter && inside link.target

/-- How many left and right joins are pending, each by its left plan. -/
def pendingOuter (tables : List TablePlan) : Nat :=
  tables.countP (TablePlan.pendsOuter fun _ => true)

/-- What is pending with a plan is a link to the right. -/
theorem exists_of_pendsOuter {p : TablePlan} {id : PlanId} (h : p.pendsOuter (· = id) = true) :
    ∃ link, p.right = some link ∧ link.target = id := by
  unfold TablePlan.pendsOuter at h
  cases hlink : p.right with
  | none =>
    rw [hlink] at h
    cases h
  | some link =>
    rw [hlink, Option.any_some, Bool.and_eq_true, decide_eq_true_eq] at h
    exact ⟨link, rfl, h.2⟩

/-- A link to the right is pending as an outer join if it is one. -/
theorem pendsOuter_of_right {p : TablePlan} {id : PlanId} {link : JoinLink}
    (hlink : p.right = some link) (htarget : link.target = id) :
    p.pendsOuter (· = id) = link.isOuter := by
  rw [TablePlan.pendsOuter, hlink]
  simp [htarget]

/-- Nothing is pending with a plan that no link leads to. -/
theorem pendsOuter_of_unlinked {p q : TablePlan} (h : p.isLinkedTo q.id = false) :
    p.pendsOuter (· = q.id) = false := by
  refine Bool.eq_false_iff.mpr fun hpends => ?_
  obtain ⟨link, hlink, htarget⟩ := exists_of_pendsOuter hpends
  rw [isLinkedTo_of_right hlink htarget] at h
  cases h

/-- A merge has the pending joins of its two plans, apart from those between them. -/
theorem pendingOuter_merged {tables : List TablePlan} {l r : TablePlan} {m : PlanId}
    {tree : PlanNode} (h : Answered tables) (hl : l ∈ tables) (hr : r ∈ tables)
    (hne : l.id ≠ r.id) (hclear : Clear l r) :
    pendingOuter (mergedTables tables l r m tree) + (l.pendsOuter (· = r.id)).toNat +
      (r.pendsOuter (· = l.id)).toNat = pendingOuter tables := by
  -- Plans beside the merge have the same links, with the pair renamed in them.
  have hrest : ∀ p : TablePlan, (p.retarget [l.id, r.id] m).pendsOuter (fun _ => true) =
      p.pendsOuter fun _ => true := by
    intro p
    show ((p.right.map _).any _) = _
    unfold TablePlan.pendsOuter
    cases hp : p.right with
    | none => rfl
    | some link =>
      simp only [Option.map_some, Option.any_some, JoinLink.isOuter, JoinLink.retarget]
      split <;> rfl
  have hl' : ∀ link, l.right = some link → link.target ≠ l.id := fun _ hlink =>
    h.target_ne hl (show l.linkOn .right = _ from hlink)
  have hr' : ∀ link, r.right = some link → link.target ≠ r.id := fun _ hlink =>
    h.target_ne hr (show r.linkOn .right = _ from hlink)
  -- Of the two right links of the pair, the merge has the one that leads out; the others are those
  -- between the two. So each pending join is counted once on both sides.
  have hmerge : ((mergedPlan m l r fun _ _ => tree).pendsOuter fun _ => true).toNat +
      (l.pendsOuter (· = r.id)).toNat + (r.pendsOuter (· = l.id)).toNat =
      (l.pendsOuter fun _ => true).toNat + (r.pendsOuter fun _ => true).toNat := by
    have hside := hclear .right
    rw [TablePlan.linkOn_right, TablePlan.linkOn_right] at hside
    show ((outsideLink [l.id, r.id] l.right r.right).any _).toNat + _ + _ = _
    unfold TablePlan.pendsOuter outsideLink
    cases hlr : l.right with
    | none =>
      cases hrr : r.right with
      | none => rfl
      | some b =>
        by_cases hb : b.target = l.id <;> simp [Option.filter, hb, hr' b hrr]
    | some a =>
      cases hrr : r.right with
      | none => by_cases ha : a.target = r.id <;> simp [Option.filter, ha, hl' a hlr]
      | some b =>
        rcases hside a b hlr hrr with ha | hb
        · by_cases hb : b.target = l.id <;>
            simp [Option.filter, ha, hb, hr' b hrr, hne, hne.symm, add_comm]
        · by_cases ha : a.target = r.id <;>
            simp [Option.filter, ha, hb, hl' a hlr, hne, hne.symm, add_comm]
  have hsame : (TablePlan.pendsOuter fun _ => true) ∘ TablePlan.retarget [l.id, r.id] m =
      TablePlan.pendsOuter fun _ => true := funext hrest
  have hone : ∀ p : TablePlan, (if (p.pendsOuter fun _ => true) = true then 1 else 0) =
      (p.pendsOuter fun _ => true).toNat := fun p => by
    cases p.pendsOuter fun _ => true <;> rfl
  unfold pendingOuter mergedTables
  rw [(perm_pair_cons h.nodup hl hr hne).countP_eq, List.countP_append, List.countP_map, hsame,
    List.countP_singleton, List.countP_cons, List.countP_cons, hone, hone, hone]
  omega

/-! ## Names -/

namespace MarkerGenerator

/-- The next names are those of the next numbers. -/
theorem names_eq (markers : MarkerGenerator) (count : Nat) :
    markers.names count = (List.range' (markers.issued + 1) count).map markers.nameAt := by
  induction count generalizing markers with
  | zero => rfl
  | succ count ih =>
    rw [List.range'_succ, List.map_cons]
    show markers.next.1 :: markers.next.2.names count = _
    rw [ih]
    rfl

/-- The names that are made are those that are made first and those that are made then. -/
theorem names_add (markers : MarkerGenerator) (m n : Nat) :
    markers.names (m + n) =
      markers.names m ++ { markers with issued := markers.issued + m }.names n := by
  rw [names_eq, names_eq, names_eq, ← List.range'_append_1, List.map_append, Nat.add_right_comm]
  rfl

end MarkerGenerator

/-- A left or right join takes one new name, for one of its two plans. -/
theorem newMark_names {link : JoinLink} {left right : PlanId} {marked : Option (PlanId × String)}
    {c : Context}
    (h : Planner.newMark link.joinType left right w = .ok marked { w with context := c }) :
    c.markers = { w.context.markers with
      issued := w.context.markers.issued + link.isOuter.toNat } ∧
    (marked.map Prod.snd).toList = w.context.markers.names link.isOuter.toNat ∧
    ∀ x, marked = some x → x.1 = left ∨ x.1 = right := by
  rcases Planner.newMark_ok h with ⟨htype, rfl, heq⟩ | ⟨kept, hkept, rfl, heq⟩
  · obtain rfl : c = w.context := congrArg Workspace.context heq
    have hinner : link.isOuter = false := by
      rw [JoinLink.isOuter, htype]
      rfl
    rw [hinner]
    exact ⟨rfl, rfl, by rintro _ ⟨⟩⟩
  · obtain rfl : c = { w.context with markers := w.context.markers.next.2 } :=
      congrArg Workspace.context heq
    have houter : link.isOuter = true := by
      rcases hkept with ⟨htype, -⟩ | ⟨htype, -⟩
      · rw [JoinLink.isOuter, htype]
        rfl
      · rw [JoinLink.isOuter, htype]
        rfl
    rw [houter]
    refine ⟨rfl, rfl, ?_⟩
    rintro _ ⟨⟩
    exact hkept.imp And.right And.right

/-- The node that adds back rows has the new mark. -/
theorem outerMarks_addBack (marked : Option (PlanId × String)) (tree : PlanNode) :
    (Planner.addBack marked tree).marks PlanNode.outerMark? =
      (marked.map Prod.snd).toList ++ tree.marks PlanNode.outerMark? := by
  rcases marked with _ | ⟨_, mark⟩
  · rfl
  · show PlanNode.marks _ (.outerJoin tree mark) = _
    rw [PlanNode.marks_eq]
    exact congrArg _ (List.flatMap_singleton _ _)

/-- To add rows back remembers no further rows. -/
theorem cacheMarks_addBack (marked : Option (PlanId × String)) (tree : PlanNode) :
    (Planner.addBack marked tree).marks PlanNode.cacheMark? =
      tree.marks PlanNode.cacheMark? := by
  rcases marked with _ | ⟨_, mark⟩
  · rfl
  · show PlanNode.marks _ (.outerJoin tree mark) = _
    rw [PlanNode.marks_eq]
    exact List.flatMap_singleton _ _

/-- Copies of a pair have its outer marks. -/
theorem outerMarks_detached (marked : Option (PlanId × String)) (l r : TablePlan)
    (one two : PlanId) :
    marksOf PlanNode.outerMark? [(l.withMark marked).detached one,
      (r.withMark marked).detached two] = marksOf PlanNode.outerMark? [l, r] := by
  have hmark : ∀ p : TablePlan, (p.withMark marked).executable.marks PlanNode.outerMark? =
      p.executable.marks PlanNode.outerMark? := by
    intro p
    rcases p.withMark_eq marked with h | ⟨mark, h⟩
    · rw [h]
    · rw [h]
      show PlanNode.marks _ (.cacheMark p.executable mark) = _
      rw [PlanNode.marks_eq]
      exact List.flatMap_singleton _ _
  exact congrArg₂ (fun a b => a ++ (b ++ [])) (hmark l) (hmark r)

/-- One of the copies of a pair has the new mark. -/
theorem cacheMarks_detached {marked : Option (PlanId × String)} {l r : TablePlan}
    (one two : PlanId) (hne : l.id ≠ r.id)
    (hkept : ∀ x, marked = some x → x.1 = l.id ∨ x.1 = r.id) :
    (marksOf PlanNode.cacheMark? [(l.withMark marked).detached one,
      (r.withMark marked).detached two]).Perm
        ((marked.map Prod.snd).toList ++ marksOf PlanNode.cacheMark? [l, r]) := by
  have hmarked : ∀ (p : TablePlan) (mark : String), PlanNode.marks PlanNode.cacheMark?
      (.cacheMark p.executable mark) = mark :: p.executable.marks PlanNode.cacheMark? := by
    intro p mark
    rw [PlanNode.marks_eq]
    exact congrArg _ (List.flatMap_singleton _ _)
  rcases marked with _ | ⟨kept, mark⟩
  · exact .refl _
  · rcases hkept _ rfl with rfl | rfl
    · rw [TablePlan.withMark_of_eq rfl, TablePlan.withMark_of_ne hne.symm]
      show (PlanNode.marks _ (.cacheMark l.executable mark) ++ _).Perm _
      rw [hmarked]
      exact .refl _
    · rw [TablePlan.withMark_of_ne hne, TablePlan.withMark_of_eq rfl]
      show (l.executable.marks _ ++ (PlanNode.marks _ (.cacheMark r.executable mark) ++ [])).Perm _
      rw [hmarked]
      exact List.perm_middle

/-! ## Steps and marks -/

/-- On the way `count` names were made, each for a new outer join and for what it remembers, and at
least as many left and right joins are not pending any more. -/
structure Marks (count : Nat) (w w' : Workspace) : Prop where
  markers : w'.context.markers =
    { w.context.markers with issued := w.context.markers.issued + count }
  outer : (marksOf PlanNode.outerMark? w'.set.tables).Perm
    (w.context.markers.names count ++ marksOf PlanNode.outerMark? w.set.tables)
  caches : (marksOf PlanNode.cacheMark? w'.set.tables).Perm
    (w.context.markers.names count ++ marksOf PlanNode.cacheMark? w.set.tables)
  pending : pendingOuter w'.set.tables + count ≤ pendingOuter w.set.tables

/-- Two runs make the marks of both. -/
theorem Marks.trans {w₁ : Workspace} {m n : Nat} (h : Marks m w w₁) (h' : Marks n w₁ w') :
    Marks (m + n) w w' := by
  have hnames : ∀ {a b c : List String}, a.Perm (w₁.context.markers.names n ++ b) →
      b.Perm (w.context.markers.names m ++ c) → a.Perm (w.context.markers.names (m + n) ++ c) := by
    intro a b c ha hb
    rw [MarkerGenerator.names_add, ← h.markers]
    refine ha.trans ((hb.append_left _).trans ?_)
    rw [← List.append_assoc]
    exact List.perm_append_comm.append_right c
  refine ⟨?_, hnames h'.outer h.outer, hnames h'.caches h.caches, ?_⟩
  · rw [h'.markers, h.markers, Nat.add_assoc]
  · have := h.pending
    have := h'.pending
    omega

/-- Copies of two plans have no links, so that no name is made for them. -/
theorem Marks.of_pair {count : Nat} {l r : TablePlan} {one two : PlanId} {hasJoins : Bool}
    {c : Context} (h : Marks count ⟨⟨[l.detached one, r.detached two], hasJoins⟩, c⟩ w') :
    Marks 0 ⟨⟨[l.detached one, r.detached two], hasJoins⟩, c⟩ w' := by
  obtain rfl : count = 0 := Nat.le_zero.mp ((Nat.le_add_left _ _).trans h.pending)
  exact h

/-- Nodes on trees leave their marks as they are. -/
theorem marksOf_covers {tables tables' : List TablePlan} (hf : PlanNode.ReadsMarks f)
    (h : List.Forall₂ (TablePlan.Covers plain) tables tables') (hplain : plain) :
    marksOf f tables' = marksOf f tables := by
  unfold marksOf
  rw [List.flatMap_def, List.flatMap_def]
  refine congrArg _ (map_eq_of_forall₂ h fun p q hpq => ?_)
  rcases hpq.tree with htree | ⟨htree, hchildren⟩
  · rw [htree]
  · exact hf.of_covered htree (hchildren hplain)

/-- Plain nodes that cover the trees leave the pending joins as they are. -/
theorem pendingOuter_covers {tables tables' : List TablePlan}
    (h : List.Forall₂ (TablePlan.Covers plain) tables tables') :
    pendingOuter tables' = pendingOuter tables := by
  have hsame : tables'.map (TablePlan.pendsOuter fun _ => true) =
      tables.map (TablePlan.pendsOuter fun _ => true) := by
    refine map_eq_of_forall₂ h fun p q hpq => ?_
    rw [TablePlan.pendsOuter, hpq.right]
    rfl
  have hcount := congrArg (List.countP id) hsame
  rwa [List.countP_map, List.countP_map] at hcount

namespace Steps

/-- Every new mark is for a left or right join that is not pending any more. -/
theorem marked (h : Steps plain w w') (hplain : plain) (hw : Sound P w) :
    ∃ count, Marks count w w' := by
  -- The induction is on the steps. Only a join by a link makes a mark, and it is then no longer
  -- pending.
  induction h generalizing P with
  | refl => exact ⟨0, rfl, .refl _, .refl _, le_rfl⟩
  | trans first _ ih ih' =>
    obtain ⟨m, hm⟩ := ih hw
    obtain ⟨n, hn⟩ := ih' (first.sound hw)
    exact ⟨m + n, hm.trans hn⟩
  | spend _ markers => exact ⟨0, markers hplain, .refl _, .refl _, le_rfl⟩
  | cover covers =>
    exact ⟨0, rfl, .of_eq (marksOf_covers PlanNode.readsMarks_outerMark covers hplain),
      .of_eq (marksOf_covers PlanNode.readsMarks_cacheMark covers hplain),
      (pendingOuter_covers covers).le⟩
  | @join w l r tree left right ne safe _ _ joined =>
    have hclear := clear_of_safe hw.answered left right ne safe
    refine ⟨0, rfl,
      marksOf_joined PlanNode.readsMarks_outerMark hw.answered.nodup left right ne joined,
      marksOf_joined PlanNode.readsMarks_cacheMark hw.answered.nodup left right ne joined, ?_⟩
    rw [← pendingOuter_merged hw.answered left right ne hclear]
    exact Nat.le_of_add_right_le (Nat.le_add_right _ _)
  | @joinLinked w w₁ l r x link marked c left right ne linked target marks pair single ih =>
    obtain ⟨hmarkers, hnames, hkept⟩ := newMark_names marks
    obtain ⟨n, hpair⟩ := ih Sound.pair
    obtain ⟨hnone, houter, hcaches, -⟩ := hpair.of_pair
    -- The pair was planned into one tree, with no marks but its own.
    have hsingle : ∀ f, marksOf f w₁.set.tables = x.executable.marks f := by
      intro f
      rw [single]
      exact List.flatMap_singleton _ _
    rw [hsingle] at houter hcaches
    refine ⟨link.isOuter.toNat, ?_, ?_, ?_, ?_⟩
    · show w₁.context.markers = _
      rw [hnone, hmarkers]
      rfl
    · refine marksOf_merged hw.answered.nodup left right ne ?_
      rw [outerMarks_addBack, hnames]
      exact (houter.trans (.of_eq (outerMarks_detached marked l r _ _))).append_left _
    · refine marksOf_merged hw.answered.nodup left right ne ?_
      rw [cacheMarks_addBack, ← hnames]
      exact hcaches.trans (cacheMarks_detached _ _ ne hkept)
    · rw [← pendsOuter_of_right linked target, ← pendingOuter_merged hw.answered left right ne
        (hw.clear_of_right left right ne linked target)]
      exact Nat.le_add_right _ _
  | unite or => exact absurd hplain or
  | uniteJoined or => exact absurd hplain or

end Steps

/-! ## Joins across two links -/

namespace PlanNode

/-- Whether some node of the tree joins the tables of several pairs at once. -/
def joinsSeveral (pairs : List (String × String)) (tree : PlanNode) : Bool :=
  tree.walk.any fun node => 1 < pairs.countP fun e => node.joins e

/-- A tree joins across several links if a node of it does. -/
theorem joinsSeveral_iff {tree : PlanNode} :
    tree.joinsSeveral pairs = true ↔
      tree.Has fun node => 1 < pairs.countP fun e => node.joins e := by
  simp only [joinsSeveral, List.any_eq_true, decide_eq_true_eq, Has]

/-- Caches join nothing. -/
theorem not_several_cache (pairs : List (String × String)) (input : PlanNode) (id : Nat) :
    ¬ 1 < pairs.countP fun e => (PlanNode.cache input id).joins e := by
  have hnone : (fun e => (PlanNode.cache input id).joins e) = fun _ => false := rfl
  rw [hnone, List.countP_false]
  exact Nat.not_lt_zero 1

/-- A node with the tables of a pair on opposite sides, and those of another pair. -/
theorem one_lt_countP_joins {node : PlanNode} {e e' : String × String}
    (hsub : [e, e'].Subperm pairs) (h : node.joins e = true) (h' : node.joins e' = true) :
    1 < pairs.countP fun e => node.joins e := by
  have htwo : [e, e'].countP (fun e => node.joins e) = 2 := by
    simp [h, h']
  exact Nat.one_lt_two.trans_le (htwo ▸ hsub.countP_le _)

end PlanNode

section

variable {p q : TablePlan} {Q : PlanNode → Prop} (hcache : ∀ input id, ¬ Q (.cache input id))

/-- The plan has all nodes that it had. -/
theorem TablePlan.Covers.has (h : p.Covers plain q) (hp : p.executable.Has Q) :
    q.executable.Has Q := by
  rcases h.tree with htree | ⟨htree, -⟩
  · rwa [htree]
  · exact hp.of_child (PlanNode.mem_children_of_covered htree)

include hcache in
/-- What is below a cache stays when the cache is taken off. -/
theorem PlanNode.has_withoutCache {tree : PlanNode} (h : tree.Has Q) : tree.withoutCache.Has Q := by
  cases tree with
  | cache input id =>
    rcases PlanNode.has_iff.mp h with hself | ⟨child, hchild, hhas⟩
    · exact absurd hself (hcache input id)
    · exact List.mem_singleton.mp hchild ▸ hhas
  | _ => exact h

include hcache in
/-- The plan has all nodes that it had, but for caches. -/
theorem TablePlan.Unites.has (h : p.Unites q) (hp : p.executable.Has Q) : q.executable.Has Q := by
  rcases h.tree with htree | htree | ⟨other, htree⟩
  · rwa [htree]
  · rw [htree]
    exact PlanNode.has_withoutCache hcache hp
  · rw [htree]
    exact hp.of_child List.mem_cons_self

/-- What a tree has stays under another order of the columns. -/
theorem TablePlan.has_reordered {order : List ColumnName} (hp : p.executable.Has Q) :
    (p.reordered order).executable.Has Q := by
  unfold TablePlan.reordered
  split
  · exact hp
  · exact hp.of_child List.mem_cons_self

end

/-- What a tree has stays under a mark. -/
theorem has_withMark {Q : PlanNode → Prop} (marked : Option (PlanId × String)) {p : TablePlan}
    (hp : p.executable.Has Q) : (p.withMark marked).executable.Has Q := by
  rcases p.withMark_eq marked with h | ⟨mark, h⟩
  · rwa [h]
  · rw [h]
    exact hp.of_child List.mem_cons_self

/-- What a tree has stays under an outer join. -/
theorem has_addBack {Q : PlanNode → Prop} (marked : Option (PlanId × String)) {tree : PlanNode}
    (h : tree.Has Q) : (Planner.addBack marked tree).Has Q := by
  rcases marked with _ | ⟨_, _⟩
  · exact h
  · exact h.of_child List.mem_cons_self

namespace Steps

/-- Trees keep their nodes, but for caches. -/
theorem has (h : Steps plain w w') (hw : Sound P w) {Q : PlanNode → Prop}
    (hcache : ∀ input id, ¬ Q (.cache input id))
    (hQ : ∃ p ∈ w.set.tables, p.executable.Has Q) : ∃ q ∈ w'.set.tables, q.executable.Has Q := by
  have hcopied : ∀ {set copy : TableSet} {c : Context}, set.Copied copy c →
      (∃ p ∈ set.tables, p.executable.Has Q) → ∃ q ∈ copy.tables, q.executable.Has Q := by
    rintro set copy c hcopy ⟨p, hp, hpQ⟩
    obtain ⟨q, hq, hpq⟩ := exists_right_of_forall₂ hcopy.copies hp
    exact ⟨q, hq, hpq.executable ▸ hpQ⟩
  -- The induction is on the steps: each puts trees under others. Of the two sides of an OR, the
  -- left one is kept whole.
  induction h generalizing P with
  | refl => exact hQ
  | trans first _ ih ih' => exact ih' (first.sound hw) (ih hw hQ)
  | spend => exact hQ
  | cover covers =>
    obtain ⟨p, hp, hpQ⟩ := hQ
    obtain ⟨q, hq, hpq⟩ := exists_right_of_forall₂ covers hp
    exact ⟨q, hq, hpq.has hpQ⟩
  | join left right _ _ _ _ joined =>
    refine exists_of_merged hw.answered.nodup left right (fun p hp hpQ => ?_) hQ
    refine hpQ.of_child ?_
    rw [PlanNode.children_of_joined joined]
    rcases hp with rfl | rfl
    · exact List.mem_cons_self
    · exact List.mem_cons_of_mem _ List.mem_cons_self
  | @joinLinked w w₁ l r x link marked c left right ne linked target marks pair single ih =>
    refine exists_of_merged hw.answered.nodup left right (fun p hp hpQ => ?_) hQ
    obtain ⟨q, hq, hqQ⟩ := ih (P := fun _ => False) Sound.pair
      (exists_of_detached hp (has_withMark marked hpQ))
    rw [single, List.mem_singleton] at hq
    exact has_addBack marked (hq ▸ hqQ)
  | unite _ _ copied _ _ united _ ih =>
    obtain ⟨p, hp, hpQ⟩ := ih (hw.copied copied) (hcopied copied hQ)
    obtain ⟨q, hq, hpq⟩ := exists_right_of_forall₂ united hp
    exact ⟨q, hq, hpq.has hcache hpQ⟩
  | uniteJoined _ _ copied _ single united _ _ ih =>
    obtain ⟨p, hp, hpQ⟩ := ih (hw.copied copied) (hcopied copied hQ)
    rw [single, List.mem_singleton] at hp
    subst hp
    exact ⟨_, List.mem_singleton_self _, united.has hcache (TablePlan.has_reordered hpQ)⟩

/-- Two plans become one by a node that joins all tables of the one with all of the other. -/
theorem crosses {one other : Set String} (h : Steps plain w w') (hw : Unlinked w)
    (hp : Paired (fun p q => (∀ t ∈ one, t ∈ p.executable.sources) ∧
      ∀ t ∈ other, t ∈ q.executable.sources)
        (fun x => x.executable.Has (PlanNode.Crosses one other)) w.set.tables) :
    Paired (fun p q => (∀ t ∈ one, t ∈ p.executable.sources) ∧
      ∀ t ∈ other, t ∈ q.executable.sources)
        (fun x => x.executable.Has (PlanNode.Crosses one other)) w'.set.tables := by
  have hcache := PlanNode.not_crosses_cache one other
  -- Plans that follow others read their tables.
  have hsources : ∀ {R : TablePlan → TablePlan → Prop} {g : PlanId → PlanId},
      (∀ p q, R p q → p.Follows g q) → ∀ p p' q q', R p p' → R q q' →
      (∀ t ∈ one, t ∈ p.executable.sources) ∧ (∀ t ∈ other, t ∈ q.executable.sources) →
      (∀ t ∈ one, t ∈ p'.executable.sources) ∧ ∀ t ∈ other, t ∈ q'.executable.sources :=
    fun hR _ _ _ _ hp hq ⟨hone, hother⟩ => ⟨fun t ht => (hR _ _ hp).sources t (hone t ht),
      fun t ht => (hR _ _ hq).sources t (hother t ht)⟩
  have hcopied : ∀ {set copy : TableSet} {c : Context}, set.Copied copy c →
      Paired (fun p q => (∀ t ∈ one, t ∈ p.executable.sources) ∧
        ∀ t ∈ other, t ∈ q.executable.sources)
          (fun x => x.executable.Has (PlanNode.Crosses one other)) set.tables →
      Paired (fun p q => (∀ t ∈ one, t ∈ p.executable.sources) ∧
        ∀ t ∈ other, t ∈ q.executable.sources)
          (fun x => x.executable.Has (PlanNode.Crosses one other)) copy.tables := by
    intro set copy c hcopy hp
    obtain ⟨g, -, hall⟩ := hcopy.renamed
    exact hp.of_forall₂ hall (hsources fun _ _ h => .of_mirrors h.1)
      fun _ _ hx hhas => hx.2.executable ▸ hhas
  -- The induction is on the steps. The two groups of tables are in two plans until these are
  -- joined, and then under a node that crosses them.
  induction h with
  | refl => exact hp
  | trans first _ ih ih' => exact ih' (first.sound hw) (ih hw hp)
  | spend => exact hp
  | cover covers =>
    exact hp.of_forall₂ covers (hsources fun _ _ => TablePlan.Covers.follows) fun _ _ hx => hx.has
  | @join w l r tree left right ne _ _ _ joined =>
    refine hp.merged left right ne ?_
    rintro (hsides | hsides)
    · exact .of_self ⟨l.executable, r.executable, joined, Or.inl hsides⟩
    · exact .of_self ⟨l.executable, r.executable, joined, Or.inr hsides.symm⟩
  | joinLinked left _ _ linked =>
    have hnone := hw.linkOn_eq_none left .right
    rw [TablePlan.linkOn_right, linked] at hnone
    cases hnone
  | unite _ _ copied _ _ united _ ih =>
    exact (ih (hw.copied copied) (hcopied copied hp)).of_forall₂ united
      (hsources fun _ _ => TablePlan.Unites.follows) fun _ _ hx => hx.has hcache
  | uniteJoined _ _ copied _ single united _ _ ih =>
    have hx := (ih (hw.copied copied) (hcopied copied hp)).of_single single
    exact Or.inr ⟨_, rfl, united.has hcache (TablePlan.has_reordered hx)⟩

/-- If each of two plans has a link to the other one on its right, the tree that their copies become
has a node that joins across both links. -/
theorem has_joins_of_pair {l r x : TablePlan} {link back : JoinLink}
    {marked : Option (PlanId × String)} {hasJoins : Bool} {c : Context}
    (pair : Steps plain ⟨⟨[(l.withMark marked).detached ⟨c.supply.next⟩,
      (r.withMark marked).detached ⟨c.supply.next + 1⟩], hasJoins⟩,
      { c with supply := ⟨c.supply.next + 2⟩ }⟩ w')
    (single : w'.set.tables = [x]) {tables : List TablePlan} (hwired : Wired pairs tables)
    (hnodup : (tables.map TablePlan.id).Nodup) (hl : l ∈ tables) (hr : r ∈ tables)
    (hne : l.id ≠ r.id) (hlink : l.right = some link) (hid : link.target = r.id)
    (hback : r.right = some back) (hid' : back.target = l.id) :
    x.executable.Has fun node => 1 < pairs.countP fun e => node.joins e := by
  obtain ⟨e, e', hsub, hends, hends'⟩ :=
    hwired.exists_two_ends hnodup hl hr hne hlink hid hback hid'
  have hx : x.executable.Has (PlanNode.Crosses {t | t ∈ l.executable.sources}
      {t | t ∈ r.executable.sources}) := by
    refine (pair.crosses Sound.pair (Or.inl ⟨_, _, rfl, ?_, ?_⟩)).of_single single
    · exact fun t ht => (l.withMark_sources marked).symm ▸ ht
    · exact fun t ht => (r.withMark_sources marked).symm ▸ ht
  refine hx.imp fun {node} hnode => PlanNode.one_lt_countP_joins hsub ?_ ?_
  · exact PlanNode.joins_of_crosses (hnode.mono (Set.singleton_subset_iff.mpr hends.1)
      (Set.singleton_subset_iff.mpr hends.2))
  · exact PlanNode.joins_of_crosses (hnode.symm.mono (Set.singleton_subset_iff.mpr hends'.1)
      (Set.singleton_subset_iff.mpr hends'.2))

/-- No left or right join stops being pending but for a new mark, unless a node joins across two
links at once. -/
theorem pendingOuter_eq (h : Steps plain w w') (hplain : plain) (hw : Sound P w)
    (hwired : Wired pairs w.set.tables) :
    pendingOuter w'.set.tables + w'.context.markers.issued =
        pendingOuter w.set.tables + w.context.markers.issued ∨
      ∃ p ∈ w'.set.tables, p.executable.joinsSeveral pairs = true := by
  simp only [PlanNode.joinsSeveral_iff]
  induction h generalizing P with
  | refl => exact Or.inl rfl
  | trans first rest ih ih' =>
    rcases ih hw hwired with heq | hhas
    · rcases ih' (first.sound hw) (first.wired hw hwired) with heq' | hhas
      · exact Or.inl (heq'.trans heq)
      · exact Or.inr hhas
    · exact Or.inr (rest.has (first.sound hw) (PlanNode.not_several_cache pairs) hhas)
  | spend _ markers =>
    refine Or.inl ?_
    rw [markers hplain]
  | cover covers =>
    refine Or.inl ?_
    rw [pendingOuter_covers covers]
  | @join w l r tree left right ne safe unlinked unlinked' joined =>
    -- There are no links between the two that could be lost.
    refine Or.inl (congrArg (· + _) ?_)
    rw [← pendingOuter_merged hw.answered left right ne
      (clear_of_safe hw.answered left right ne safe), pendsOuter_of_unlinked unlinked,
      pendsOuter_of_unlinked unlinked']
    rfl
  | @joinLinked w w₁ l r x link marked c left right ne linked target marks pair single ih =>
    have hclear := hw.clear_of_right left right ne linked target
    by_cases hback : r.pendsOuter (· = l.id) = true
    · obtain ⟨back, hright, hid⟩ := exists_of_pendsOuter hback
      exact Or.inr ⟨_, mergedPlan_mem, has_addBack marked
        (pair.has_joins_of_pair single hwired hw.answered.nodup left right ne linked target
          hright hid)⟩
    · obtain ⟨hmarkers, -, -⟩ := newMark_names marks
      obtain ⟨n, hpair⟩ := pair.marked hplain Sound.pair
      have hcount : pendingOuter (mergedTables w.set.tables l r ⟨w₁.context.supply.next⟩
          (Planner.addBack marked x.executable)) + link.isOuter.toNat =
          pendingOuter w.set.tables := by
        rw [← pendingOuter_merged hw.answered left right ne hclear,
          pendsOuter_of_right linked target, Bool.eq_false_iff.mpr hback]
        rfl
      refine Or.inl ?_
      show pendingOuter (mergedTables _ _ _ _ _) + w₁.context.markers.issued = _
      rw [hpair.of_pair.markers, hmarkers, ← hcount]
      show _ + (w.context.markers.issued + link.isOuter.toNat + 0) = _
      omega
  | unite or => exact absurd hplain or
  | uniteJoined or => exact absurd hplain or

end Steps

/-! ## Queries -/

section

variable {uuids : Identifiers} {settings : Settings} {set : TableSet} {filter : Option Expr}
  {supply supply' : PlanId.Supply} {plan : TablePlan}

/-- Over base tables, a filter without an OR is planned with one outer join for each left and right
join, with a mark of its own and one node that remembers rows for it, if no node of the tree joins
across several links at once and the names that are made are all different. -/
theorem planQuery_outerJoins
    (hbase : ∀ p ∈ set.tables, ∃ table, p.executable = .source table)
    (hids : (set.tables.map TablePlan.id).Nodup)
    (hgiven : ∀ p ∈ set.tables, p.id.number < supply.next) (hvalid : set.validateLinks = .ok ())
    (hconditions : ∀ side, ∀ p ∈ set.tables, ∀ link, p.linkOn side = some link →
      ∀ e, link.on = some e → e.isPlain = true)
    (hfilter : ∀ e, filter = some e → e.isPlain = true)
    (h : planQuery uuids settings set filter supply = .ok plan supply')
    (honce : plan.executable.joinsSeveral set.linkEnds = false) :
    (plan.executable.marks PlanNode.outerMark?).length = pendingOuter set.tables ∧
      (plan.executable.marks PlanNode.cacheMark?).length = pendingOuter set.tables ∧
      (Set.InjOn (Context.start uuids settings supply).markers.nameAt {n | n ≤ set.tables.length} →
        (plan.executable.marks PlanNode.outerMark?).Nodup) := by
  obtain ⟨w, hplan⟩ := planQuery_ok h
  have hw : Sound (fun on => ∀ e, on = some e → True → e.isPlain = true)
      ⟨set, .start uuids settings supply⟩ :=
    sound_of_validateLinks (nonempty_of_planQuery h) hids hgiven hvalid
      fun side p hp link hlink e he _ => hconditions side p hp link hlink e he
  obtain ⟨w₁, hsteps, hsingle, -⟩ := (Planner.meets_planWholeWith (conditionLaw_planCondition True)
    (fun e he _ => hfilter e he) hw).ok hplan
  obtain ⟨count, hmarks⟩ := hsteps.marked trivial hw
  -- All joins were planned, as a single plan has no links.
  have hnone : pendingOuter w₁.set.tables = 0 := by
    have hanswered := (hsteps.sound hw).answered
    rw [hsingle] at hanswered ⊢
    have hright : plan.right = none := hanswered.linkOn_of_single .right
    refine List.countP_eq_zero.mpr fun p hp => ?_
    rw [List.mem_singleton.mp hp, TablePlan.pendsOuter, hright]
    exact Bool.false_ne_true
  have hcount : count = pendingOuter set.tables := by
    rcases hsteps.pendingOuter_eq trivial hw (.of_base hbase hw.answered) with
      heq | ⟨p, hp, hseveral⟩
    · rw [hnone, hmarks.markers] at heq
      have hstart : (Context.start uuids settings supply).markers.issued = 0 := rfl
      simp only [hstart] at heq
      omega
    · rw [hsingle, List.mem_singleton] at hp
      rw [← hp, hseveral] at honce
      cases honce
  -- Base tables have no marks.
  have hempty : ∀ f, (∀ table, f (.source table) = none) → marksOf f set.tables = [] := by
    intro f hf
    refine List.flatMap_eq_nil_iff.mpr fun p hp => ?_
    obtain ⟨table, htree⟩ := hbase p hp
    rw [htree, PlanNode.marks_eq, hf]
    rfl
  have hperm : ∀ {f}, (marksOf f w₁.set.tables).Perm
      ((Context.start uuids settings supply).markers.names count ++ marksOf f set.tables) →
      (∀ table, f (.source table) = none) →
        (plan.executable.marks f).Perm
          ((Context.start uuids settings supply).markers.names count) := by
    intro f hf hsource
    rwa [hempty f hsource, List.append_nil, hsingle, marksOf, List.flatMap_singleton] at hf
  have houter := hperm hmarks.outer fun _ => rfl
  have hcaches := hperm hmarks.caches fun _ => rfl
  have hlength : ((Context.start uuids settings supply).markers.names count).length = count := by
    rw [MarkerGenerator.names_eq, List.length_map, List.length_range']
  refine ⟨?_, ?_, fun hinj => ?_⟩
  · rw [houter.length_eq, hlength, hcount]
  · rw [hcaches.length_eq, hlength, hcount]
  · rw [houter.nodup_iff, MarkerGenerator.names_eq]
    -- The numbers of the names go from one to how many there are.
    have hle : ∀ i ∈ List.range' ((Context.start uuids settings supply).markers.issued + 1) count,
        i ≤ set.tables.length := by
      intro i hi
      have hlast : i < 0 + 1 + count := (List.mem_range'_1.mp hi).2
      have hmost : pendingOuter set.tables ≤ set.tables.length := List.countP_le_length
      omega
    exact List.Nodup.map_on (fun i hi j hj => hinj (hle i hi) (hle j hj)) List.nodup_range'

end

/-- A chain of left joins with a filter that reads its ends has two outer joins. -/
theorem planQuery_outerJoins_chain :
    let set : TableSet := ⟨chainOfOnes .left (.binary (columnOf "a") .eq (columnOf "b"))
      (.binary (columnOf "b") .lt (columnOf "c")), false⟩
    let filter := Expr.binary (columnOf "a") .eq (columnOf "c")
    ∃ plan supply', planQuery .blank default set (some filter) ⟨4⟩ = .ok plan supply' ∧
      plan.executable.joinsSeveral set.linkEnds = false ∧
      (plan.executable.marks PlanNode.outerMark?).length = 2 ∧
      (plan.executable.marks PlanNode.cacheMark?).length = 2 ∧
      (plan.executable.marks PlanNode.outerMark?).Nodup := by
  intro set filter
  have hset : CheckedTables ones literals ⟨4⟩ set .left :=
    chainOfOnes_checked (.refl _) rfl ⟨rfl, by decide⟩ ⟨rfl, by decide⟩
  have hok : resultWith (fun plan _ => plan.executable.joinsSeveral set.linkEnds)
      (planQuery .blank default set (some filter) ⟨4⟩) = some false := by
    decide +kernel
  obtain ⟨plan, supply', h, honce⟩ := exists_of_resultWith hok
  have hconditions : ∀ side, ∀ p ∈ set.tables, ∀ link, p.linkOn side = some link →
      ∀ e, link.on = some e → e.isPlain = true := by
    simp only [set, chainOfOnes, List.forall_mem_cons]
    intro side
    cases side
    · exact ⟨by rintro _ ⟨⟩, by rintro _ ⟨⟩ _ ⟨⟩; rfl, by rintro _ ⟨⟩ _ ⟨⟩; rfl,
        List.forall_mem_nil _⟩
    · exact ⟨by rintro _ ⟨⟩ _ ⟨⟩; rfl, by rintro _ ⟨⟩ _ ⟨⟩; rfl, by rintro _ ⟨⟩,
        List.forall_mem_nil _⟩
  obtain ⟨houter, hcaches, hnodup⟩ := planQuery_outerJoins
    (fun p hp => (hset.base.base p hp).source.imp fun _ => And.left) hset.base.ids
    hset.base.given hset.valid hconditions (by rintro e ⟨⟩; rfl) h honce
  exact ⟨plan, supply', h, honce, houter, hcaches,
    hnodup (MarkerGenerator.nameAt_injective rfl).injOn⟩

/-- If the ends of a chain are listed before its middle, they are merged first, and the outer join
of one of them is lost. -/
theorem not_planQuery_outerJoins :
    let ab := Expr.binary (columnOf "a") .eq (columnOf "b")
    let bc := Expr.binary (columnOf "b") .lt (columnOf "c")
    let set : TableSet := ⟨[(TablePlan.one 1 "a").withRight ⟨⟨2⟩, .inner, some ab⟩,
      (TablePlan.one 3 "c").withLeft ⟨⟨2⟩, .right, some bc⟩,
      ((TablePlan.one 2 "b").withLeft ⟨⟨1⟩, .inner, some ab⟩).withRight ⟨⟨3⟩, .right, some bc⟩],
      false⟩
    BaseTables ones ⟨4⟩ set.tables ∧ set.validateLinks = .ok () ∧ pendingOuter set.tables = 1 ∧
      ∃ plan supply', planQuery .blank default set none ⟨4⟩ = .ok plan supply' ∧
        plan.executable.marks PlanNode.outerMark? = [] ∧
        plan.executable.marks PlanNode.cacheMark? = [] := by
  intro ab bc set
  have hones : List.Forall₂ TablePlan.IsOne set.tables [(1, "a"), (3, "c"), (2, "b")] :=
    .cons rfl (.cons rfl (.cons rfl .nil))
  have hbase : BaseTables ones ⟨4⟩ set.tables :=
    .of_ones hones (by decide) (by decide) (by decide)
  have htree : resultWith (fun plan _ => plan.executable) (planQuery .blank default set none ⟨4⟩) =
      some (.join (.naturalJoin (.source "a") (.source "c")) (.source "b") (.qualified "a" "x") .eq
        (columnOf "b")) := by
    rfl
  obtain ⟨plan, supply', h, htree⟩ := exists_of_resultWith htree
  refine ⟨hbase, rfl, rfl, plan, supply', h, ?_, ?_⟩
  · rw [htree]
    rfl
  · rw [htree]
    rfl

end QueryPlan
