import QueryPlan.Filter
import QueryPlan.Proofs.Copies
import QueryPlan.Proofs.LinkedJoin
import QueryPlan.Proofs.Validated

/-!
# The steps of planning

Whatever a planning run does that succeeds is a chain of a few kinds of steps:
nodes are put on trees, two plans become one, and the plans of a copy take the
place of those of the set after an OR was planned. What holds of all of planning
is proved once, by induction over such chains.

- `Steps`: chains of steps. The `plain` ones come from filters and conditions
  without an OR and without nested queries.
- `Sound`: plans whose links are answered, under handles that were given out.
- `sound_of_validateLinks`: a set whose links pass their check is sound.
- `Steps.sound`: steps keep a set sound.
- `Steps.columns_perm`: the plans have the same columns together as before.
- `Steps.positions`: until plans are joined, every plan stays in its place.
-/

namespace QueryPlan

/-! ## Nodes on one tree -/

namespace PlanNode

/-- The input of a node that filters or caches the rows of its input. -/
def covered? : PlanNode → Option PlanNode
  | .cache input _ => some input
  | .constantSelect input _ => some input
  | .simpleSelect input _ _ _ => some input
  | .patternSelect input _ _ _ _ => some input
  | .exhaustiveSelect input _ => some input
  | .anyAllSelect input _ _ _ _ => some input
  | _ => none

variable {node input : PlanNode}

/-- What a node is put on is an input of the node. -/
theorem mem_children_of_covered (h : node.covered? = some input) : input ∈ node.children := by
  cases node <;> cases h <;> exact List.mem_cons_self

/-- A node that is put on one input reads its tables, and nested queries are no tables of the
tree. -/
theorem sources_of_covered (h : node.covered? = some input) : node.sources = input.sources := by
  cases node <;> cases h <;> rfl

/-- To take a cache off loses no table. -/
theorem sources_withoutCache (node : PlanNode) : node.withoutCache.sources = node.sources := by
  cases node <;> rfl

end PlanNode

namespace TablePlan

/-- `q` is `p`, perhaps with a node on its tree that filters or caches its rows. In a `plain` step
the node has no other input. -/
structure Covers (plain : Prop) (p q : TablePlan) : Prop where
  id_eq : q.id = p.id
  left : q.left = p.left
  right : q.right = p.right
  columns : q.columns = p.columns
  tree : q.executable = p.executable ∨ q.executable.covered? = some p.executable ∧
    (plain → q.executable.children = [p.executable])

/-- `q` is `p`, perhaps with its rows united with others, or without the cache on its tree. -/
structure Unites (p q : TablePlan) : Prop where
  id_eq : q.id = p.id
  left : q.left = p.left
  right : q.right = p.right
  columns : q.columns = p.columns
  tree : q.executable = p.executable ∨ q.executable = p.executable.withoutCache ∨
    ∃ other, q.executable = .union p.executable other

/-- The plan with the columns `order`, by a projection unless it has them already. -/
def reordered (order : List ColumnName) (p : TablePlan) : TablePlan :=
  if p.columns = order then p else { p.update (.project · order) with columns := order }

variable {p q : TablePlan}

theorem Covers.refl (plain : Prop) (p : TablePlan) : p.Covers plain p :=
  ⟨rfl, rfl, rfl, rfl, Or.inl rfl⟩

/-- A plan with further nodes follows the plan. -/
theorem Covers.follows {plain : Prop} (h : p.Covers plain q) : p.Follows (fun i => i) q := by
  refine .of_eq h.id_eq h.left h.right fun t ht => ?_
  rcases h.tree with htree | ⟨htree, -⟩
  · rwa [htree]
  · rwa [PlanNode.sources_of_covered htree]

/-- A plan that unites both sides of an OR follows that of the left side. -/
theorem Unites.follows (h : p.Unites q) : p.Follows (fun i => i) q := by
  refine .of_eq h.id_eq h.left h.right fun t ht => ?_
  rcases h.tree with htree | htree | ⟨other, htree⟩
  · rwa [htree]
  · rwa [htree, PlanNode.sources_withoutCache]
  · rw [htree]
    exact List.mem_append_left _ ht

@[simp] theorem reordered_columns (order : List ColumnName) (p : TablePlan) :
    (p.reordered order).columns = order := by
  unfold reordered
  by_cases h : p.columns = order
  · rw [if_pos h, h]
  · rw [if_neg h]

/-- A plan with its columns in another order follows the plan. -/
theorem follows_reordered (order : List ColumnName) (p : TablePlan) :
    p.Follows (fun i => i) (p.reordered order) := by
  unfold reordered
  by_cases h : p.columns = order
  · rw [if_pos h]
    exact .of_eq rfl rfl rfl fun _ ht => ht
  · rw [if_neg h]
    exact .of_eq rfl rfl rfl fun _ ht => ht

/-- A marked plan follows the plan. -/
theorem follows_withMark (marked : Option (PlanId × String)) (p : TablePlan) :
    p.Follows (fun i => i) (p.withMark marked) := by
  rcases p.withMark_eq marked with h | ⟨mark, h⟩
  · rw [h]
    exact .of_eq rfl rfl rfl fun _ ht => ht
  · rw [h]
    exact .of_eq rfl rfl rfl fun _ ht => ht

/-- The plans of a set, of which one may be marked, follow those of the set. -/
theorem followsAll_withMark (marked : Option (PlanId × String)) (tables : List TablePlan) :
    FollowsAll (fun i => i) tables (tables.map (withMark marked)) := by
  rw [FollowsAll, List.forall₂_map_right_iff, List.forall₂_same]
  exact fun p _ => p.follows_withMark marked

/-- What follows a plan that follows another one follows that. -/
theorem Follows.trans {g f : PlanId → PlanId} {s : TablePlan} (h : p.Follows g q)
    (h' : q.Follows f s) : p.Follows (f ∘ g) s := by
  refine ⟨by rw [h'.id_eq, h.id_eq]; rfl, fun side => ?_, fun t ht => h'.sources t (h.sources t ht)⟩
  rw [h'.links, h.links, Option.map_map]
  rfl

end TablePlan

/-! ## Copies -/

/-- `copy` has the plans of `set` under other handles, which were given out before `c`. -/
structure TableSet.Copied (set copy : TableSet) (c : Context) : Prop where
  renamed : ∃ g, Set.InjOn g {id | id ∈ set.tables.map TablePlan.id} ∧
    List.Forall₂ (fun p q => p.Mirrors g q ∧ p.Copies q) set.tables copy.tables
  hasJoins : copy.hasJoins = false
  given : ∀ q ∈ copy.tables, q.id.number < c.supply.next

/-- A copy of a set has copies of its plans. -/
theorem TableSet.Copied.copies {set copy : TableSet} {c : Context} (h : set.Copied copy c) :
    List.Forall₂ TablePlan.Copies set.tables copy.tables := by
  obtain ⟨g, -, hall⟩ := h.renamed
  exact hall.imp fun _ _ h => h.2

/-! ## Chains of steps -/

/-- The chains of steps from one workspace to another. The `plain` steps are those for filters and
conditions without an OR and without nested queries. -/
inductive Steps (plain : Prop) : Workspace → Workspace → Prop where
  | refl (w : Workspace) : Steps plain w w
  | trans {w w₁ w' : Workspace} (first : Steps plain w w₁) (rest : Steps plain w₁ w') :
    Steps plain w w'
  /-- Handles and cache ids are given out, and names of marks in the planning of another set. -/
  | spend {w : Workspace} {c : Context} (used : w.context.Extends c)
    (markers : plain → c.markers = w.context.markers) : Steps plain w ⟨w.set, c⟩
  /-- Nodes are put on the trees of some plans. -/
  | cover {w : Workspace} {tables : List TablePlan}
    (covers : List.Forall₂ (TablePlan.Covers plain) w.set.tables tables) :
    Steps plain w ⟨⟨tables, w.set.hasJoins⟩, w.context⟩
  /-- Two plans that are not linked with each other become one. -/
  | join {w : Workspace} {l r : TablePlan} {tree : PlanNode} (left : l ∈ w.set.tables)
    (right : r ∈ w.set.tables) (ne : l.id ≠ r.id) (safe : clash l r = .safe)
    (unlinked : l.isLinkedTo r.id = false) (unlinked' : r.isLinkedTo l.id = false)
    (joined : tree.joined? = some (l.executable, r.executable)) :
    Steps plain w ⟨⟨mergedTables w.set.tables l r ⟨w.context.supply.next⟩ tree, true⟩,
      { w.context with supply := ⟨w.context.supply.next + 1⟩ }⟩
  /-- Two linked plans become one: the tree is planned over copies of them, of which an outer join
  marks one. -/
  | joinLinked {w w₁ : Workspace} {l r x : TablePlan} {link : JoinLink}
    {marked : Option (PlanId × String)} {c : Context} (left : l ∈ w.set.tables)
    (right : r ∈ w.set.tables) (ne : l.id ≠ r.id) (linked : l.right = some link)
    (target : link.target = r.id)
    (marks : Planner.newMark link.joinType l.id r.id w = .ok marked { w with context := c })
    (pair : Steps plain ⟨⟨[(l.withMark marked).detached ⟨c.supply.next⟩,
      (r.withMark marked).detached ⟨c.supply.next + 1⟩], true⟩,
      { c with supply := ⟨c.supply.next + 2⟩ }⟩ w₁)
    (single : w₁.set.tables = [x]) :
    Steps plain w ⟨⟨mergedTables w.set.tables l r ⟨w₁.context.supply.next⟩
      (Planner.addBack marked x.executable), true⟩,
      { w₁.context with supply := ⟨w₁.context.supply.next + 1⟩ }⟩
  /-- One side of an OR was planned over a copy. Its plans are united with those of the other side,
  position by position. -/
  | unite {w side : Workspace} {copy : TableSet} {c c' : Context} {tables : List TablePlan}
    (or : ¬ plain) (before : w.context.Extends c) (copied : w.set.Copied copy c)
    (planned : Steps plain ⟨copy, c⟩ side) (unjoined : side.set.hasJoins = false)
    (united : List.Forall₂ TablePlan.Unites side.set.tables tables)
    (after : side.context.Extends c') : Steps plain w ⟨⟨tables, w.set.hasJoins⟩, c'⟩
  /-- One side of an OR was planned over a copy and joined into one plan. With the columns in their
  order before the OR, it is united with that of the other side. -/
  | uniteJoined {w side : Workspace} {copy : TableSet} {c c' : Context} {x y : TablePlan}
    {hasJoins : Bool} (or : ¬ plain) (before : w.context.Extends c)
    (copied : w.set.Copied copy c) (planned : Steps plain ⟨copy, c⟩ side)
    (single : side.set.tables = [x])
    (united : (x.reordered (w.set.tables.flatMap TablePlan.columns)).Unites y)
    (joins : hasJoins = false → w.set.hasJoins = false ∧ side.set.hasJoins = false)
    (after : side.context.Extends c') : Steps plain w ⟨⟨[y], hasJoins⟩, c'⟩

variable {plain : Prop} {P : Option Expr → Prop} {w w' : Workspace}

/-- A new mark uses up a name at most. -/
theorem newMark_extends {joinType : JoinType} {left right : PlanId}
    {marked : Option (PlanId × String)} {c : Context}
    (h : Planner.newMark joinType left right w = .ok marked { w with context := c }) :
    w.context.Extends c := by
  rcases Planner.newMark_ok h with ⟨-, -, heq⟩ | ⟨_, -, -, heq⟩
  · obtain rfl : c = w.context := congrArg Workspace.context heq
    exact .refl _
  · obtain rfl : c = { w.context with markers := w.context.markers.next.2 } :=
      congrArg Workspace.context heq
    exact ⟨le_rfl, ⟨w.context.markers.issued + 1, Nat.le_succ _, rfl⟩, rfl⟩

/-- More handles may be given out. -/
theorem Context.extends_supply (c : Context) (count : Nat) :
    c.Extends { c with supply := ⟨c.supply.next + count⟩ } :=
  ⟨Nat.le_add_right _ _, ⟨_, le_rfl, rfl⟩, rfl⟩

/-- Steps only use up handles and names. -/
theorem Steps.extends (h : Steps plain w w') : w.context.Extends w'.context := by
  induction h with
  | refl => exact .refl _
  | trans _ _ ih ih' => exact ih.trans ih'
  | spend hext => exact hext
  | cover => exact .refl _
  | join => exact Context.extends_supply _ 1
  | joinLinked _ _ _ _ _ marks _ _ ih =>
    exact (newMark_extends marks).trans ((Context.extends_supply _ 2).trans
      (ih.trans (Context.extends_supply _ 1)))
  | unite _ before _ _ _ _ after ih => exact before.trans (ih.trans after)
  | uniteJoined _ before _ _ _ _ _ after ih => exact before.trans (ih.trans after)

/-! ## Sound sets -/

/-- There are plans, their links are answered and have conditions that satisfy `P`, and their
handles were given out before. -/
structure Sound (P : Option Expr → Prop) (w : Workspace) : Prop where
  nonempty : w.set.tables ≠ []
  answered : Answered w.set.tables
  conditions : ∀ side, ∀ p ∈ w.set.tables, ∀ link, p.linkOn side = some link → P link.on
  given : ∀ p ∈ w.set.tables, p.id.number < w.context.supply.next

/-- Workspaces without links. -/
abbrev Unlinked (w : Workspace) : Prop := Sound (fun _ => False) w

namespace Sound

/-- An unlinked plan has no links on either side. -/
theorem linkOn_eq_none (h : Unlinked w) {p : TablePlan} (hp : p ∈ w.set.tables) (side : Side) :
    p.linkOn side = none := by
  cases hlink : p.linkOn side with
  | none => rfl
  | some link => exact (h.conditions side p hp link hlink).elim

/-- Without links, all conditions are of any kind. -/
theorem of_unlinked (h : Unlinked w) : Sound P w :=
  ⟨h.nonempty, h.answered, fun side p hp link hlink => (h.conditions side p hp link hlink).elim,
    h.given⟩

/-- A handle that was not given out is not in the set. -/
theorem id_ne (h : Sound P w) {p : TablePlan} (hp : p ∈ w.set.tables) {id : PlanId}
    (hid : w.context.supply.next ≤ id.number) : p.id ≠ id := by
  rintro rfl
  exact absurd (h.given p hp) (not_lt.mpr hid)

theorem extend (h : Sound P w) {c : Context} (hc : w.context.Extends c) : Sound P ⟨w.set, c⟩ :=
  ⟨h.nonempty, h.answered, h.conditions, fun p hp => (h.given p hp).trans_le hc.supply⟩

/-- The same plans under other handles. -/
theorem follow {g : PlanId → PlanId} {set : TableSet} {c : Context} (h : Sound P w)
    (hf : FollowsAll g w.set.tables set.tables)
    (hinj : Set.InjOn g {id | id ∈ w.set.tables.map TablePlan.id})
    (hgiven : ∀ p ∈ set.tables, p.id.number < c.supply.next) : Sound P ⟨set, c⟩ := by
  refine ⟨?_, h.answered.follow hf hinj, ?_, hgiven⟩
  · intro hnil
    exact h.nonempty (List.eq_nil_of_length_eq_zero (by rw [hf.length_eq, hnil]; rfl))
  · intro side q hq link hlink
    obtain ⟨p, hp, hpq⟩ := exists_left_of_forall₂ hf hq
    rw [hpq.links, Option.map_eq_some_iff] at hlink
    obtain ⟨link', hlink', rfl⟩ := hlink
    exact h.conditions side p hp link' hlink'

/-- The same plans under the same handles. -/
theorem stay {set : TableSet} {c : Context} (h : Sound P w)
    (hf : FollowsAll (fun i => i) w.set.tables set.tables) (hc : w.context.Extends c) :
    Sound P ⟨set, c⟩ := by
  refine h.follow hf (fun _ _ _ _ heq => heq) fun q hq => ?_
  obtain ⟨p, hp, hpq⟩ := exists_left_of_forall₂ hf hq
  rw [hpq.id_eq]
  exact (h.given p hp).trans_le hc.supply

/-- A mark on a plan keeps the set sound. -/
theorem marked {c : Context} (h : Sound P w) (marked : Option (PlanId × String))
    (hc : w.context.Extends c) :
    Sound P ⟨⟨w.set.tables.map (TablePlan.withMark marked), w.set.hasJoins⟩, c⟩ :=
  h.stay (TablePlan.followsAll_withMark marked _) hc

/-- A copy of a sound set is sound. -/
theorem copied {copy : TableSet} {c : Context} (h : Sound P w) (hcopy : w.set.Copied copy c) :
    Sound P ⟨copy, c⟩ := by
  obtain ⟨g, hinj, hall⟩ := hcopy.renamed
  exact h.follow (hall.imp fun _ _ hpq => .of_mirrors hpq.1) hinj hcopy.given

/-- Two plans that do not clash become one. -/
theorem merged {l r : TablePlan} {m : PlanId} {tree : PlanNode} {c : Context} {hasJoins : Bool}
    (h : Sound P w) (hl : l ∈ w.set.tables) (hr : r ∈ w.set.tables) (hclear : Clear l r)
    (hnew : w.context.supply.next ≤ m.number) (hc : m.number < c.supply.next) :
    Sound P ⟨⟨mergedTables w.set.tables l r m tree, hasJoins⟩, c⟩ := by
  refine ⟨?_, h.answered.merged hl hr hclear fun p hp => h.id_ne hp hnew, ?_, ?_⟩
  · exact List.ne_nil_of_mem (mergedPlan_mem)
  · intro side q hq link hlink
    rcases mem_mergedTables.mp hq with ⟨p, hp, -, -, rfl⟩ | rfl
    · rw [retarget_linkOn, Option.map_eq_some_iff] at hlink
      obtain ⟨link', hlink', rfl⟩ := hlink
      exact h.conditions side p hp link' hlink'
    · rcases ((mergedPlan_linkOn hclear).mp hlink).1 with hlink | hlink
      · exact h.conditions side l hl link hlink
      · exact h.conditions side r hr link hlink
  · intro q hq
    rcases mem_mergedTables.mp hq with ⟨p, hp, -, -, rfl⟩ | rfl
    · exact ((h.given p hp).trans_le hnew).trans hc
    · exact hc

/-- Copies of two plans without their links. -/
theorem pair {l r : TablePlan} {hasJoins : Bool} {c : Context} :
    Unlinked ⟨⟨[l.detached ⟨c.supply.next⟩, r.detached ⟨c.supply.next + 1⟩], hasJoins⟩,
      { c with supply := ⟨c.supply.next + 2⟩ }⟩ := by
  have hnone : ∀ p ∈ [l.detached ⟨c.supply.next⟩, r.detached ⟨c.supply.next + 1⟩], ∀ side,
      p.linkOn side = none := by
    simp only [List.forall_mem_cons]
    exact ⟨by rintro (_ | _) <;> rfl, by rintro (_ | _) <;> rfl, List.forall_mem_nil _⟩
  refine ⟨List.cons_ne_nil _ _, .of_no_links ?_ hnone, ?_, ?_⟩
  · show [(⟨c.supply.next⟩ : PlanId), ⟨c.supply.next + 1⟩].Nodup
    simp
  · intro side p hp link hlink
    rw [hnone p hp side] at hlink
    cases hlink
  · simp only [List.forall_mem_cons]
    exact ⟨Nat.lt_add_of_pos_right Nat.zero_lt_two, Nat.lt_succ_self _, List.forall_mem_nil _⟩

end Sound

/-- A set whose links pass their check is sound. -/
theorem sound_of_validateLinks {set : TableSet} {context : Context} {P : Option Expr → Prop}
    (hne : set.tables ≠ []) (hids : (set.tables.map TablePlan.id).Nodup)
    (hgiven : ∀ p ∈ set.tables, p.id.number < context.supply.next)
    (hvalid : set.validateLinks = .ok ())
    (hconditions : ∀ side, ∀ p ∈ set.tables, ∀ link, p.linkOn side = some link → P link.on) :
    Sound P ⟨set, context⟩ :=
  ⟨hne, answered_of_validateLinks hids hvalid, hconditions, hgiven⟩

/-- A plan is linked to the target of its right link. -/
theorem isLinkedTo_of_right {l r : TablePlan} {link : JoinLink} (hlink : l.right = some link)
    (htarget : link.target = r.id) : l.isLinkedTo r.id = true :=
  isLinkedTo_iff.mpr ⟨.right, link, hlink, htarget⟩

/-- Plans that are linked do not clash. -/
theorem clash_of_right {l r : TablePlan} {link : JoinLink} (hlink : l.right = some link)
    (htarget : link.target = r.id) : clash l r = .safe :=
  clash_eq_safe_of_linked (Or.inl (isLinkedTo_of_right hlink htarget))

/-- Linked plans have no other links that compete for a side of their merge. -/
theorem Sound.clear_of_right (h : Sound P w) {l r : TablePlan} {link : JoinLink}
    (hl : l ∈ w.set.tables) (hr : r ∈ w.set.tables) (hne : l.id ≠ r.id)
    (hlink : l.right = some link) (htarget : link.target = r.id) : Clear l r :=
  clear_of_safe h.answered hl hr hne (clash_of_right hlink htarget)

/-- Plans with the same columns, position by position, have the same ones together. -/
theorem flatMap_columns_of_forall₂ {tables tables' : List TablePlan}
    (h : List.Forall₂ (fun p q => q.columns = p.columns) tables tables') :
    tables'.flatMap TablePlan.columns = tables.flatMap TablePlan.columns := by
  rw [List.flatMap_def, List.flatMap_def, map_eq_of_forall₂ h fun _ _ h => h]

namespace Steps

/-- Steps keep a set sound. -/
theorem sound (h : Steps plain w w') (hw : Sound P w) : Sound P w' := by
  induction h generalizing P with
  | refl => exact hw
  | trans _ _ ih ih' => exact ih' (ih hw)
  | spend hext => exact hw.extend hext
  | cover covers => exact hw.stay (covers.imp fun _ _ => TablePlan.Covers.follows) (.refl _)
  | join left right ne safe =>
    exact hw.merged left right (clear_of_safe hw.answered left right ne safe) le_rfl
      (Nat.lt_succ_self _)
  | joinLinked left right ne linked target marks pair _ =>
    have hext := (newMark_extends marks).trans ((Context.extends_supply _ 2).trans pair.extends)
    exact hw.merged left right (hw.clear_of_right left right ne linked target) hext.supply
      (Nat.lt_succ_self _)
  | unite _ _ copied _ _ united after ih =>
    exact (ih (hw.copied copied)).stay (united.imp fun _ _ => TablePlan.Unites.follows) after
  | uniteJoined _ _ copied _ single united _ after ih =>
    refine (ih (hw.copied copied)).stay ?_ after
    rw [single]
    exact .cons ((TablePlan.follows_reordered _ _).trans united.follows) .nil

/-! ## Columns -/

/-- The plans have the same columns together as before. -/
theorem columns_perm (h : Steps plain w w') (hw : Sound P w) :
    (w'.set.tables.flatMap TablePlan.columns).Perm (w.set.tables.flatMap TablePlan.columns) := by
  have hmerged : ∀ {w : Workspace} {l r : TablePlan} {m : PlanId} {tree : PlanNode}, Sound P w →
      l ∈ w.set.tables → r ∈ w.set.tables → l.id ≠ r.id →
      ((mergedTables w.set.tables l r m tree).flatMap TablePlan.columns).Perm
        (w.set.tables.flatMap TablePlan.columns) := by
    intro w l r m tree hw hl hr hne
    refine .trans ?_ ((perm_pair_cons hw.answered.nodup hl hr hne).flatMap_right _).symm
    unfold mergedTables
    rw [List.flatMap_append, List.flatMap_map, List.flatMap_singleton, List.flatMap_cons,
      List.flatMap_cons, ← List.append_assoc]
    exact List.perm_append_comm
  induction h with
  | refl => exact .refl _
  | trans first _ ih ih' => exact (ih' (first.sound hw)).trans (ih hw)
  | spend => exact .refl _
  | cover covers => rw [flatMap_columns_of_forall₂ (covers.imp fun _ _ h => h.columns)]
  | join left right ne => exact hmerged hw left right ne
  | joinLinked left right ne => exact hmerged hw left right ne
  | unite _ _ copied _ _ united _ ih =>
    rw [flatMap_columns_of_forall₂ (united.imp fun _ _ h => h.columns)]
    exact (ih (hw.copied copied)).trans
      (.of_eq (flatMap_columns_of_forall₂ (copied.copies.imp fun _ _ h => h.alike.columns)))
  | uniteJoined _ _ _ _ _ united =>
    rw [List.flatMap_singleton, united.columns, TablePlan.reordered_columns]

/-- Until plans are joined, every plan keeps its place and its columns. -/
theorem positions (h : Steps plain w w') (hjoins : w'.set.hasJoins = false) :
    w.set.hasJoins = false ∧
      List.Forall₂ (fun p q => q.columns = p.columns) w.set.tables w'.set.tables := by
  have htrans : ∀ {as bs cs : List TablePlan},
      List.Forall₂ (fun p q => q.columns = p.columns) as bs →
      List.Forall₂ (fun p q => q.columns = p.columns) bs cs →
      List.Forall₂ (fun p q => q.columns = p.columns) as cs :=
    fun h h' => forall₂_trans (fun _ _ _ hab hbc => hbc.trans hab) h h'
  induction h with
  | refl => exact ⟨hjoins, List.forall₂_same.mpr fun _ _ => rfl⟩
  | trans _ _ ih ih' =>
    obtain ⟨hjoins₁, hall'⟩ := ih' hjoins
    obtain ⟨hjoins₀, hall⟩ := ih hjoins₁
    exact ⟨hjoins₀, htrans hall hall'⟩
  | spend => exact ⟨hjoins, List.forall₂_same.mpr fun _ _ => rfl⟩
  | cover covers => exact ⟨hjoins, covers.imp fun _ _ h => h.columns⟩
  | join => cases hjoins
  | joinLinked => cases hjoins
  | unite _ _ copied _ unjoined united _ ih =>
    refine ⟨hjoins, htrans (copied.copies.imp fun _ _ h => h.alike.columns) ?_⟩
    exact htrans (ih unjoined).2 (united.imp fun _ _ h => h.columns)
  | @uniteJoined w side _ _ _ x y _ _ _ copied _ single united joins _ ih =>
    obtain ⟨hjoins, hunjoined⟩ := joins hjoins
    have hall := htrans (copied.copies.imp fun _ _ h => h.alike.columns) (ih hunjoined).2
    rw [single] at hall
    -- A single plan has all columns of the set.
    obtain ⟨p, hp⟩ := List.length_eq_one_iff.mp hall.length_eq
    refine ⟨hjoins, ?_⟩
    rw [hp]
    refine .cons ?_ .nil
    rw [united.columns, TablePlan.reordered_columns, hp, List.flatMap_singleton]

end Steps

end QueryPlan
