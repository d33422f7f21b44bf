import QueryPlan.Proofs.Meets
import QueryPlan.Proofs.Steps

/-!
# Joins over sound sets

Over a sound set every plan that a join looks for is there: links are answered,
a handle is replaced in every list that has it, and each join makes the set
smaller. So a join succeeds by steps, unless it comes to a full join.

- `ConditionLaw`: what is required of the planner of conditions.
- `Merges`: two plans became one under a new handle.
- `meets_joinPairWith`: so do two plans with a link, or that do not clash.
- `Round`: a new plan stands for some of those that are to become one.
- `meets_resolveWith`, `meets_joinSomeWith`, `meets_joinEverythingWith`,
  `meets_joinReadersWith`: the same for the joins that repeat it.
-/

namespace QueryPlan

/-- A planner of conditions turns plans without links into one tree by steps, for conditions that
satisfy `P`. -/
def ConditionLaw (plain : Prop) (P : Option Expr → Prop) (condition : ConditionPlanner) : Prop :=
  ∀ on, P on → ∀ w, Unlinked w → Planner.Meets (condition on) w fun tree w' =>
    ∃ w₁ x, Steps plain w w₁ ∧ w₁.set.tables = [x] ∧ tree = x.executable ∧
      w'.context = w₁.context

/-- Where no condition comes up, any planner of conditions will do. -/
theorem conditionLaw_unlinked (plain : Prop) (condition : ConditionPlanner) :
    ConditionLaw plain (fun _ => False) condition :=
  fun _ h => h.elim

variable {plain : Prop} {P : Option Expr → Prop} {condition : ConditionPlanner}
  {w w' : Workspace} {l r a b : TablePlan}

namespace TableSet

theorem mem_ids {set : TableSet} {p : TablePlan} (h : p ∈ set.tables) : p.id ∈ set.ids :=
  List.mem_map_of_mem h

theorem exists_of_mem_ids {set : TableSet} {id : PlanId} (h : id ∈ set.ids) :
    ∃ p ∈ set.tables, p.id = id :=
  List.mem_map.mp h

/-- A set contains a handle just if a plan of it has that. -/
theorem contains_iff {set : TableSet} {id : PlanId} : set.contains id = true ↔ id ∈ set.ids := by
  unfold contains
  rw [Option.isSome_iff_exists]
  constructor
  · rintro ⟨p, hp⟩
    obtain ⟨hmem, rfl⟩ := mem_of_get? hp
    exact mem_ids hmem
  · intro h
    obtain ⟨p, hp, rfl⟩ := exists_of_mem_ids h
    cases hget : set.get? p.id with
    | some q => exact ⟨q, rfl⟩
    | none => exact absurd (List.find?_eq_none.mp hget p hp) (by simp)

end TableSet

/-- A plan of a sound set is found under its handle. -/
theorem Sound.get? (hw : Sound P w) {p : TablePlan} (hp : p ∈ w.set.tables) :
    w.set.get? p.id = some p :=
  (get?_eq_some_of_nodup hw.answered.nodup).mpr ⟨hp, rfl⟩

/-! ## Merges -/

/-- Two plans became one under a new handle. -/
structure Merges (plain : Prop) (first second : PlanId) (w : Workspace) (id : PlanId)
    (w' : Workspace) : Prop where
  steps : Steps plain w w'
  fresh : w.context.supply.next ≤ id.number
  shorter : w'.set.tables.length < w.set.tables.length
  mem_ids : ∀ i, i ∈ w'.set.ids ↔ i = id ∨ i ∈ w.set.ids ∧ i ≠ first ∧ i ≠ second

/-- After a merge there are the handle of the merge and those of the other plans. -/
theorem mem_ids_mergedTables {tables : List TablePlan} {m i : PlanId} {tree : PlanNode} :
    i ∈ (mergedTables tables l r m tree).map TablePlan.id ↔
      i = m ∨ i ∈ tables.map TablePlan.id ∧ i ≠ l.id ∧ i ≠ r.id := by
  simp only [List.mem_map, mem_mergedTables]
  constructor
  · rintro ⟨q, ⟨p, hp, hpl, hpr, rfl⟩ | rfl, rfl⟩
    · exact Or.inr ⟨⟨p, hp, rfl⟩, hpl, hpr⟩
    · exact Or.inl rfl
  · rintro (rfl | ⟨⟨p, hp, rfl⟩, hpl, hpr⟩)
    · exact ⟨_, Or.inr rfl, rfl⟩
    · exact ⟨_, Or.inl ⟨p, hp, hpl, hpr, rfl⟩, rfl⟩

/-- After a merge there is one plan less. -/
theorem length_mergedTables {tables : List TablePlan} {m : PlanId} {tree : PlanNode}
    (hnodup : (tables.map TablePlan.id).Nodup) (hl : l ∈ tables) (hr : r ∈ tables)
    (hne : l.id ≠ r.id) : (mergedTables tables l r m tree).length + 1 = tables.length := by
  rw [(perm_pair_cons hnodup hl hr hne).length_eq]
  unfold mergedTables
  rw [List.length_append, List.length_map]
  rfl

/-- Steps to a set where two plans are merged. -/
theorem Merges.of_steps {m : PlanId} {tree : PlanNode} {hasJoins : Bool} {c : Context}
    (hw : Sound P w) (hl : l ∈ w.set.tables) (hr : r ∈ w.set.tables) (hne : l.id ≠ r.id)
    (hnew : w.context.supply.next ≤ m.number)
    (hsteps : Steps plain w ⟨⟨mergedTables w.set.tables l r m tree, hasJoins⟩, c⟩) :
    Merges plain l.id r.id w m ⟨⟨mergedTables w.set.tables l r m tree, hasJoins⟩, c⟩ := by
  refine ⟨hsteps, hnew, ?_, fun _ => mem_ids_mergedTables⟩
  show (mergedTables w.set.tables l r m tree).length < w.set.tables.length
  have : (mergedTables w.set.tables l r m tree).length + 1 = w.set.tables.length :=
    length_mergedTables hw.answered.nodup hl hr hne
  omega

/-- Whichever of the two plans comes first. -/
theorem Merges.symm {first second id : PlanId} (h : Merges plain first second w id w') :
    Merges plain second first w id w' := by
  refine ⟨h.steps, h.fresh, h.shorter, fun i => ?_⟩
  rw [h.mem_ids, and_comm (a := i ≠ second)]

namespace Planner

/-- A merge of two plans of the set succeeds. -/
theorem meets_merge {build : PlanNode → PlanNode → PlanNode} (hw : Sound P w)
    (hl : l ∈ w.set.tables) (hr : r ∈ w.set.tables) (hne : l.id ≠ r.id) :
    Meets (merge l.id r.id build) w fun id w' => id = ⟨w.context.supply.next⟩ ∧
      w' = ⟨⟨mergedTables w.set.tables l r id (build l.executable r.executable), true⟩,
        { w.context with supply := ⟨w.context.supply.next + 1⟩ }⟩ := by
  have hnodup := hw.answered.nodup
  have hrest : (w.set.erase l.id).get? r.id = some r := by
    have hnodup' : ((w.set.erase l.id).tables.map TablePlan.id).Nodup := by
      rw [erase_tables hnodup]
      exact hnodup.sublist (List.filter_sublist.map _)
    rw [get?_eq_some_of_nodup hnodup', erase_tables hnodup, List.mem_filter, decide_eq_true_eq]
    exact ⟨⟨hr, hne.symm⟩, rfl⟩
  have hmeets : Meets (merge l.id r.id build) w fun _ _ => True := by
    unfold merge
    simp only [meets_bind, meets_require (hw.get? hl), meets_change, meets_current, hrest,
      meets_freshId, meets_pure]
  refine hmeets.imp_ok fun id w' hok _ => ?_
  obtain ⟨l', hl', r', hr', hlid, hrid, -, hid, hset⟩ := merge_ok hnodup hok
  obtain rfl := hw.answered.eq_of_id hl' hl hlid
  obtain rfl := hw.answered.eq_of_id hr' hr hrid
  exact ⟨hid, hset⟩

/-- A merge of two plans that are not linked with each other and do not clash is a step. -/
theorem meets_merge_unlinked {build : PlanNode → PlanNode → PlanNode} (hw : Sound P w)
    (hl : l ∈ w.set.tables) (hr : r ∈ w.set.tables) (hne : l.id ≠ r.id)
    (hsafe : clash l r = .safe) (hlr : l.isLinkedTo r.id = false)
    (hrl : r.isLinkedTo l.id = false) (hbuild : ∀ s t, (build s t).joined? = some (s, t)) :
    Meets (merge l.id r.id build) w (Merges plain l.id r.id w) := by
  refine (meets_merge hw hl hr hne).imp ?_
  rintro id w' ⟨rfl, rfl⟩
  exact .of_steps hw hl hr hne le_rfl (.join hl hr hne hsafe hlr hrl (hbuild _ _))

/-! ## Two plans -/

/-- A new mark can be made, except for a full join. -/
theorem meets_newMark (joinType : JoinType) (left right : PlanId) :
    Meets (newMark joinType left right) w fun _ _ => True := by
  cases joinType with
  | inner => trivial
  | left => trivial
  | right => trivial
  | full => exact .fullJoin

/-- The mark is put on one of the two plans, which is in the set. -/
theorem meets_putMark {joinType : JoinType} {marked : Option (PlanId × String)} {c : Context}
    (hw : Sound P w) (hl : l ∈ w.set.tables) (hr : r ∈ w.set.tables)
    (h : newMark joinType l.id r.id w = .ok marked { w with context := c }) :
    Meets (putMark marked) { w with context := c } fun _ w' =>
      w' = ⟨⟨w.set.tables.map (TablePlan.withMark marked), w.set.hasJoins⟩, c⟩ := by
  have hmeets : Meets (putMark marked) { w with context := c } fun _ _ => True := by
    rcases newMark_ok h with ⟨-, rfl, -⟩ | ⟨kept, hkept, rfl, -⟩
    · trivial
    · have hget : ∃ p, w.set.get? kept = some p := by
        rcases hkept with ⟨-, rfl⟩ | ⟨-, rfl⟩
        · exact ⟨l, hw.get? hl⟩
        · exact ⟨r, hw.get? hr⟩
      obtain ⟨p, hp⟩ := hget
      exact (meets_changePlan (by exact hp)).mpr trivial
  exact hmeets.imp_ok fun _ _ hok _ => putMark_ok hok

/-- Two plans of the set can be copied without their links. -/
theorem meets_detachPair (hw : Sound P w) (hl : l ∈ w.set.tables) (hr : r ∈ w.set.tables) :
    Meets (detachPair l.id r.id) w fun pair w' =>
      pair = ⟨[l.detached ⟨w.context.supply.next⟩, r.detached ⟨w.context.supply.next + 1⟩], true⟩ ∧
      w' = { w with context := { w.context with supply := ⟨w.context.supply.next + 2⟩ } } := by
  unfold detachPair
  simp only [meets_bind, meets_require (hw.get? hl), meets_freshId]
  refine (meets_require (by exact hw.get? hr)).mpr ?_
  exact ⟨rfl, rfl⟩

/-- Marked plans are found under the handles that they had. -/
theorem meets_detachMarked {c : Context} (marked : Option (PlanId × String)) (hw : Sound P w)
    (hl : l ∈ w.set.tables) (hr : r ∈ w.set.tables) (hextends : w.context.Extends c) :
    Meets (detachPair l.id r.id)
      ⟨⟨w.set.tables.map (TablePlan.withMark marked), w.set.hasJoins⟩, c⟩ fun pair w' =>
      pair = ⟨[(l.withMark marked).detached ⟨c.supply.next⟩,
        (r.withMark marked).detached ⟨c.supply.next + 1⟩], true⟩ ∧
      w' = ⟨⟨w.set.tables.map (TablePlan.withMark marked), w.set.hasJoins⟩,
        { c with supply := ⟨c.supply.next + 2⟩ }⟩ := by
  have hmeets := meets_detachPair (hw.marked marked hextends)
    (List.mem_map_of_mem (f := TablePlan.withMark marked) hl)
    (List.mem_map_of_mem (f := TablePlan.withMark marked) hr)
  rwa [TablePlan.withMark_id, TablePlan.withMark_id] at hmeets

/-- Two linked plans become one, unless by a full join. -/
theorem meets_joinLinkedWith (hlaw : ConditionLaw plain P condition) {link : JoinLink}
    {on : Option Expr} (hw : Sound P w) (hl : l ∈ w.set.tables) (hr : r ∈ w.set.tables)
    (hne : l.id ≠ r.id) (hlink : l.right = some link) (htarget : link.target = r.id)
    (hon : P on) :
    Meets (joinLinkedWith condition link.joinType on l.id r.id) w
      (Merges plain l.id r.id w) := by
  -- First, no step of it fails: the mark, the copies, the condition over these, and the merge.
  have hmeets : Meets (joinLinkedWith condition link.joinType on l.id r.id) w fun _ _ => True := by
    unfold joinLinkedWith
    refine (meets_newMark _ _ _).imp_ok (fun marked w₁ hmark _ => ?_) |> meets_bind.mpr
    obtain ⟨c, rfl⟩ := exists_context_of_newMark hmark
    refine (meets_putMark hw hl hr hmark).bind ?_
    rintro _ w₂ rfl
    have hmarked := hw.marked marked (newMark_extends hmark)
    have hl' := List.mem_map_of_mem (f := TablePlan.withMark marked) hl
    have hr' := List.mem_map_of_mem (f := TablePlan.withMark marked) hr
    refine (meets_detachMarked marked hw hl hr (newMark_extends hmark)).bind ?_
    rintro _ _ ⟨rfl, rfl⟩
    simp only [meets_bind, meets_within]
    refine (hlaw on hon _ Sound.pair).imp ?_
    rintro tree w₃ ⟨w₄, x, hsteps, -, -, hcontext⟩
    have hextends : c.Extends w₃.context := by
      rw [hcontext]
      exact (Context.extends_supply _ 2).trans hsteps.extends
    have hne' : (l.withMark marked).id ≠ (r.withMark marked).id := by
      rwa [TablePlan.withMark_id, TablePlan.withMark_id]
    have hmerge : Meets (merge (l.withMark marked).id (r.withMark marked).id
        fun _ _ => addBack marked tree) ⟨_, w₃.context⟩ _ :=
      meets_merge (hmarked.extend hextends) hl' hr' hne'
    rw [TablePlan.withMark_id, TablePlan.withMark_id] at hmerge
    exact hmerge.imp fun _ _ _ => trivial
  -- Second, where it succeeds it is a step.
  refine hmeets.imp_ok fun id w' hok _ => ?_
  obtain ⟨marked, c, tree, w₁, hmark, htree, -, rfl, rfl⟩ :=
    joinLinkedWith_ok hw.answered.nodup hl hr hok
  obtain ⟨w₂, x, hsteps, hsingle, rfl, hcontext⟩ := (hlaw on hon _ Sound.pair).ok htree
  have hnew := (newMark_extends hmark).trans ((Context.extends_supply _ 2).trans hsteps.extends)
  rw [hcontext]
  exact .of_steps hw hl hr hne hnew.supply
    (.joinLinked hl hr hne hlink htarget hmark hsteps hsingle)

/-- The link between two plans of the set, by the plan that has it on its right. -/
theorem exists_of_linkBetween (hw : Sound P w) (ha : a ∈ w.set.tables) (hb : b ∈ w.set.tables)
    {sided : SidedLink} (h : linkBetween a b = some sided) :
    ∃ l r link, (l = a ∧ r = b ∨ l = b ∧ r = a) ∧ sided.left = l.id ∧ sided.right = r.id ∧
      l.right = some link ∧ link.target = r.id ∧ link.joinType = sided.link.joinType ∧
      P sided.link.on := by
  obtain ⟨l, r, hsides, hleft, hright, hlink⟩ := between_of_linkBetween h
  obtain ⟨hl, hr⟩ : l ∈ w.set.tables ∧ r ∈ w.set.tables := by
    rcases hsides with ⟨rfl, rfl⟩ | ⟨rfl, rfl⟩
    · exact ⟨ha, hb⟩
    · exact ⟨hb, ha⟩
  rcases hlink with ⟨hlink, htarget⟩ | ⟨hlink, htarget⟩
  · exact ⟨l, r, _, hsides, hleft, hright, hlink, htarget, rfl,
      hw.conditions .right l hl _ hlink⟩
  · -- A link on the left is answered by one on the right.
    obtain ⟨s, hs, hsid, -, back, hback, hbt, htype⟩ := hw.answered.back .left r hr _ hlink
    obtain rfl := hw.answered.eq_of_id hs hl (hsid.trans htarget)
    exact ⟨s, r, back, hsides, hleft, hright, hback, hbt, htype,
      hw.conditions .left r hr _ hlink⟩

/-- Two plans with a link between them, or that do not clash, become one. -/
theorem meets_joinPairWith (hlaw : ConditionLaw plain P condition) (hw : Sound P w)
    (ha : a ∈ w.set.tables) (hb : b ∈ w.set.tables) (hne : a.id ≠ b.id)
    (hjoinable : a.isLinkedTo b.id = true ∨ clash a b = .safe) :
    Meets (joinPairWith condition a.id b.id) w (Merges plain a.id b.id w) := by
  unfold joinPairWith
  simp only [meets_bind, meets_require (hw.get? ha), meets_require (hw.get? hb)]
  cases hbetween : linkBetween a b with
  | some sided =>
    obtain ⟨l, r, link, hsides, hleft, hright, hlink, htarget, htype, hon⟩ :=
      exists_of_linkBetween hw ha hb hbetween
    simp only [hleft, hright, ← htype]
    rcases hsides with ⟨rfl, rfl⟩ | ⟨rfl, rfl⟩
    · exact meets_joinLinkedWith hlaw hw ha hb hne hlink htarget hon
    · exact (meets_joinLinkedWith hlaw hw hb ha hne.symm hlink htarget hon).imp
        fun _ _ h => h.symm
  | none =>
    obtain ⟨hab, hba⟩ := linkBetween_eq_none_iff.mp hbetween
    have hsafe : clash a b = .safe := by
      rcases hjoinable with hlinked | hsafe
      · rw [hab] at hlinked
        cases hlinked
      · exact hsafe
    simp only [hsafe]
    exact meets_merge_unlinked hw ha hb hne hsafe hab hba fun _ _ => rfl

end Planner

/-! ## Resolving a plan -/

/-- A plan that is not padded stayed as it is, or it was joined with its partners. -/
structure Resolves (plain : Prop) (w : Workspace) (id id' : PlanId) (w' : Workspace) : Prop where
  steps : Steps plain w w'
  mem : id' ∈ w'.set.ids
  mem_ids : ∀ i ∈ w'.set.ids, i = id' ∨ i ∈ w.set.ids ∧ i ≠ id
  moved : (id' = id ∧ w' = w ∧ ∀ p ∈ w.set.tables, p.id = id → p.nullPaddedBy? = none) ∨
    (w.context.supply.next ≤ id'.number ∧ w'.set.tables.length < w.set.tables.length)

namespace Planner

/-- The partner of a link is another plan of the set. -/
theorem exists_of_isLinkedTo (hw : Sound P w) (ha : a ∈ w.set.tables) {id : PlanId}
    (h : a.isLinkedTo id = true) : ∃ q ∈ w.set.tables, q.id = id ∧ a.id ≠ q.id := by
  obtain ⟨side, link, hlink, rfl⟩ := isLinkedTo_iff.mp h
  obtain ⟨q, hq, hid, hne, -⟩ := hw.answered.back side a ha link hlink
  exact ⟨q, hq, hid, hne.symm⟩

/-- A plan is resolved in as many rounds as there are plans. -/
theorem meets_resolveWithin (hlaw : ConditionLaw plain P condition) (fuel : Nat) {id : PlanId}
    (hw : Sound P w) (hid : id ∈ w.set.ids) (hfuel : w.set.tables.length ≤ fuel) :
    Meets (resolveWithin condition fuel id) w (Resolves plain w id) := by
  -- The induction is on the fuel, of which there is as much as there are plans: each join leaves
  -- one less.
  induction fuel generalizing w id with
  | zero => exact absurd (List.eq_nil_of_length_eq_zero (Nat.le_zero.mp hfuel)) hw.nonempty
  | succ fuel ih =>
    obtain ⟨plan, hplan, rfl⟩ := TableSet.exists_of_mem_ids hid
    unfold resolveWithin
    simp only [meets_bind, meets_require (hw.get? hplan)]
    cases hpad : plan.nullPaddedBy? with
    | none =>
      refine ⟨.refl w, hid, fun i hi => ?_, Or.inl ⟨rfl, rfl, fun p hp hpid => ?_⟩⟩
      · exact (eq_or_ne i plan.id).imp_right fun hne => ⟨hi, hne⟩
      · rw [hw.answered.eq_of_id hp hplan hpid, hpad]
    | some partner =>
      have hlinked := isLinkedTo_of_nullPaddedBy hpad
      obtain ⟨q, hq, rfl, hne⟩ := exists_of_isLinkedTo hw hplan hlinked
      refine meets_bind.mpr ((meets_joinPairWith hlaw hw hplan hq hne (Or.inl hlinked)).imp
        fun merged w₁ hmerged => ?_)
      have hmem : merged ∈ w₁.set.ids := (hmerged.mem_ids merged).mpr (Or.inl rfl)
      have hshorter := hmerged.shorter
      refine (ih (hmerged.steps.sound hw) hmem (by omega)).imp fun id' w' hres => ?_
      refine ⟨hmerged.steps.trans hres.steps, hres.mem, fun i hi => ?_, Or.inr ?_⟩
      · refine (hres.mem_ids i hi).imp_right fun ⟨hi, hnot⟩ => ?_
        obtain ⟨hi, hne, -⟩ := ((hmerged.mem_ids i).mp hi).resolve_left hnot
        exact ⟨hi, hne⟩
      · rcases hres.moved with ⟨rfl, rfl, -⟩ | ⟨hfresh, hlt⟩
        · exact ⟨hmerged.fresh, hshorter⟩
        · exact ⟨hmerged.steps.extends.supply.trans hfresh, hlt.trans hshorter⟩

/-- A plan of a sound set is resolved with the fuel that the planner takes. -/
theorem meets_resolveWith (hlaw : ConditionLaw plain P condition) {id : PlanId} (hw : Sound P w)
    (hid : id ∈ w.set.ids) : Meets (resolveWith condition id) w (Resolves plain w id) := by
  unfold resolveWith
  rw [meets_bind, meets_current]
  exact meets_resolveWithin hlaw _ hw hid le_rfl

end Planner

/-! ## Joining all of some plans -/

/-- What is resolved before two plans are joined is one of them, and padded. -/
theorem padded_of_nextJoin {tables : List TablePlan} {padded : PlanId} (ha : a ∈ tables)
    (hb : b ∈ tables) (h : nextJoin a b = .resolve padded) :
    ∃ p ∈ tables, p.id = padded ∧ p.nullPaddedBy? ≠ none := by
  rcases exists_of_outside (nextJoin_eq_resolve_iff.mp h).2 with
    ⟨rfl, id, hid, -⟩ | ⟨rfl, id, hid, -⟩
  · exact ⟨a, ha, rfl, hid ▸ Option.some_ne_none id⟩
  · exact ⟨b, hb, rfl, hid ▸ Option.some_ne_none id⟩

/-- What a plan is joined with is another plan of the set. -/
theorem partner_of_nextJoin {partner : PlanId} (hw : Sound P w) (ha : a ∈ w.set.tables)
    (hb : b ∈ w.set.tables) (hab : a.id ≠ b.id) (h : nextJoin a b = .join partner) :
    ∃ q ∈ w.set.tables, q.id = partner ∧ a.id ≠ q.id ∧
      (a.isLinkedTo q.id = true ∨ clash a q = .safe) := by
  rcases joinable_of_nextJoin h with hlinked | ⟨rfl, hsafe⟩
  · obtain ⟨q, hq, rfl, hne⟩ := Planner.exists_of_isLinkedTo hw ha hlinked
    exact ⟨q, hq, rfl, hne, Or.inl hlinked⟩
  · exact ⟨b, hb, rfl, hab, Or.inr hsafe⟩

/-- Some plans, perhaps with others, became one. -/
structure GathersInto (plain : Prop) (w : Workspace) (working : List PlanId) (id : PlanId)
    (w' : Workspace) : Prop where
  steps : Steps plain w w'
  mem : id ∈ w'.set.ids
  mem_ids : ∀ i ∈ w'.set.ids, i = id ∨ i ∈ w.set.ids ∧ i ∉ working

/-- A round of it: a new plan stands for those of `working` that `keep` does not pick. -/
structure Round (plain : Prop) (w : Workspace) (working : List PlanId) (keep : PlanId → Bool)
    (id : PlanId) (w' : Workspace) : Prop where
  steps : Steps plain w w'
  fresh : w.context.supply.next ≤ id.number
  shorter : w'.set.tables.length < w.set.tables.length
  mem : id ∈ w'.set.ids
  kept : ∀ i ∈ working, keep i = true → i ∈ w'.set.ids
  mem_ids : ∀ i ∈ w'.set.ids, i = id ∨ i ∈ w.set.ids ∧ (i ∈ working → keep i = true)

namespace Round

variable {working : List PlanId} {keep : PlanId → Bool} {id id' : PlanId} {w₁ : Workspace}

/-- A plan that was resolved because it was padded. -/
theorem of_resolves {p : TablePlan} (h : Resolves plain w p.id id w') (hp : p ∈ w.set.tables)
    (hpad : p.nullPaddedBy? ≠ none) : Round plain w working w'.set.contains id w' := by
  obtain ⟨hfresh, hshorter⟩ := h.moved.resolve_left fun ⟨_, _, hnone⟩ => hpad (hnone p hp rfl)
  refine ⟨h.steps, hfresh, hshorter, h.mem, fun i _ => TableSet.contains_iff.mp, fun i hi => ?_⟩
  exact (h.mem_ids i hi).imp_right fun ⟨hi', _⟩ => ⟨hi', fun _ => TableSet.contains_iff.mpr hi⟩

/-- After a merge, the list has the merge in the place of the two plans. -/
theorem of_merges {a b : PlanId} (h : Merges plain a b w id w')
    (hmem : ∀ i ∈ working, i ∈ w.set.ids) :
    Round plain w working (fun i => i ≠ a ∧ i ≠ b) id w' := by
  refine ⟨h.steps, h.fresh, h.shorter, (h.mem_ids _).mpr (Or.inl rfl), fun i hi hout => ?_,
    fun i hi => ?_⟩
  · exact (h.mem_ids i).mpr (Or.inr ⟨hmem i hi, of_decide_eq_true hout⟩)
  · exact ((h.mem_ids i).mp hi).imp_right fun ⟨hi, hout⟩ => ⟨hi, fun _ => decide_eq_true hout⟩

/-- The list of the next round has no handle twice. -/
theorem nodup (h : Round plain w working keep id w') (hw : Sound P w)
    (hmem : ∀ i ∈ working, i ∈ w.set.ids) (hnodup : working.Nodup) :
    (id :: working.filter keep).Nodup := by
  refine List.nodup_cons.mpr ⟨fun hin => ?_, hnodup.filter _⟩
  obtain ⟨p, hp, hpid⟩ := TableSet.exists_of_mem_ids (hmem id (List.mem_of_mem_filter hin))
  exact hw.id_ne hp h.fresh hpid

/-- The list of the next round is of plans of the set. -/
theorem subset (h : Round plain w working keep id w') :
    ∀ i ∈ id :: working.filter keep, i ∈ w'.set.ids := by
  rintro i (_ | ⟨_, hi⟩)
  · exact h.mem
  · obtain ⟨hi, hkeep⟩ := List.mem_filter.mp hi
    exact h.kept i hi hkeep

/-- What the plan and those that were kept become is what all of them do. -/
theorem gathers (h : Round plain w working keep id w₁)
    (hrest : GathersInto plain w₁ (id :: working.filter keep) id' w') :
    GathersInto plain w working id' w' := by
  refine ⟨h.steps.trans hrest.steps, hrest.mem, fun i hi => ?_⟩
  refine (hrest.mem_ids i hi).imp_right fun ⟨hi₁, hnot⟩ => ?_
  rw [List.mem_cons, not_or] at hnot
  obtain ⟨hi, hkeep⟩ := (h.mem_ids i hi₁).resolve_left hnot.1
  exact ⟨hi, fun hin => hnot.2 (List.mem_filter.mpr ⟨hin, hkeep hin⟩)⟩

end Round

namespace Planner

/-- Plans become one in as many rounds as there are plans in the set. -/
theorem meets_joinAllWithin (hlaw : ConditionLaw plain P condition) (fuel : Nat)
    {working : List PlanId} (hw : Sound P w) (hne : working ≠ []) (hnodup : working.Nodup)
    (hmem : ∀ i ∈ working, i ∈ w.set.ids) (hfuel : w.set.tables.length ≤ fuel) :
    Meets (joinAllWithin condition fuel working) w
      fun o w' => ∃ id, o = some id ∧ GathersInto plain w working id w' := by
  -- The induction is on the fuel. A round makes the set smaller, whether it resolves a plan or
  -- joins two.
  induction fuel generalizing w working with
  | zero => exact absurd (List.eq_nil_of_length_eq_zero (Nat.le_zero.mp hfuel)) hw.nonempty
  | succ fuel ih =>
    have hround : ∀ {keep : PlanId → Bool} {id : PlanId} {w₁ : Workspace},
        Round plain w working keep id w₁ →
        Meets (joinAllWithin condition fuel (id :: working.filter keep)) w₁
          fun o w' => ∃ id, o = some id ∧ GathersInto plain w working id w' := by
      intro keep id w₁ h
      have hshorter := h.shorter
      refine (ih (h.steps.sound hw) (List.cons_ne_nil _ _) (h.nodup hw hmem hnodup) h.subset
        (by omega)).imp ?_
      rintro o w' ⟨id', rfl, hrest⟩
      exact ⟨id', rfl, h.gathers hrest⟩
    unfold joinAllWithin
    rcases working with _ | ⟨first, _ | ⟨second, rest⟩⟩
    · exact absurd rfl hne
    · refine ⟨first, rfl, .refl w, hmem first (List.mem_singleton_self _), fun i hi => ?_⟩
      exact (eq_or_ne i first).imp_right fun hne => ⟨hi, fun h => hne (List.mem_singleton.mp h)⟩
    · obtain ⟨a, ha, rfl⟩ := TableSet.exists_of_mem_ids (hmem first List.mem_cons_self)
      obtain ⟨b, hb, rfl⟩ := TableSet.exists_of_mem_ids
        (hmem second (List.mem_cons_of_mem _ List.mem_cons_self))
      have hab : a.id ≠ b.id := fun heq =>
        (List.nodup_cons.mp hnodup).1 (heq ▸ List.mem_cons_self)
      simp only [meets_bind, meets_require (hw.get? ha), meets_require (hw.get? hb)]
      cases hnext : nextJoin a b with
      | resolve padded =>
        obtain ⟨p, hp, rfl, hpad⟩ := padded_of_nextJoin ha hb hnext
        refine meets_bind.mpr ((meets_resolveWith hlaw hw (TableSet.mem_ids hp)).imp
          fun resolved w₁ hres => ?_)
        rw [meets_bind, meets_current]
        exact hround (.of_resolves hres hp hpad)
      | join partner =>
        obtain ⟨q, hq, rfl, hne', hjoin⟩ := partner_of_nextJoin hw ha hb hab hnext
        exact (meets_joinPairWith hlaw hw ha hq hne' hjoin).bind fun merged w₁ hmerged =>
          hround (.of_merges hmerged hmem)

/-- Plans of a sound set are joined into one with the fuel that the planner takes. -/
theorem meets_joinSomeWith (hlaw : ConditionLaw plain P condition) {working : List PlanId}
    (hw : Sound P w) (hne : working ≠ []) (hnodup : working.Nodup)
    (hmem : ∀ i ∈ working, i ∈ w.set.ids) :
    Meets (joinSomeWith condition working) w (GathersInto plain w working) := by
  unfold joinSomeWith joinAllWith
  rw [meets_bind, meets_bind, meets_current]
  refine (meets_joinAllWithin hlaw _ hw hne hnodup hmem le_rfl).imp ?_
  rintro o w' ⟨id, rfl, hg⟩
  exact hg

/-- All plans of a set become one. -/
theorem meets_joinEverythingWith (hlaw : ConditionLaw plain P condition) (hw : Sound P w) :
    Meets (joinEverythingWith condition) w
      fun id w' => Steps plain w w' ∧ ∃ x, w'.set.tables = [x] ∧ x.id = id := by
  unfold joinEverythingWith
  rw [meets_bind, meets_current]
  have hne : w.set.ids ≠ [] := by
    unfold TableSet.ids
    rw [Ne, List.map_eq_nil_iff]
    exact hw.nonempty
  refine (meets_joinSomeWith hlaw hw hne hw.answered.nodup fun _ h => h).imp fun id w' hg => ?_
  refine ⟨hg.steps, ?_⟩
  -- No other handle is left, and none is there twice.
  have hall : ∀ i ∈ w'.set.ids, i = id := fun i hi =>
    (hg.mem_ids i hi).resolve_right fun h => h.2 h.1
  obtain ⟨x, hx, rfl⟩ := TableSet.exists_of_mem_ids hg.mem
  have hanswered := (hg.steps.sound hw).answered
  refine ⟨x, List.perm_singleton.mp ?_, rfl⟩
  refine (List.perm_ext_iff_of_nodup hanswered.nodup.of_map (List.nodup_singleton x)).mpr ?_
  intro p
  rw [List.mem_singleton]
  constructor
  · intro hp
    exact hanswered.eq_of_id hp hx (hall _ (TableSet.mem_ids hp))
  · rintro rfl
    exact hx

/-! ## Joining the owners of columns -/

/-- The owner of a column is in the set. -/
theorem meets_owner (column : ColumnName) :
    Meets (ask fun set => set.owner column) w fun id w' => w' = w ∧ id ∈ w.set.ids := by
  refine (meets_ask (w.set.owner_answerable column)).imp ?_
  rintro id w' ⟨rfl, howner⟩
  obtain ⟨⟨p, hp, rfl, -⟩, -⟩ := owner_ok howner
  exact ⟨rfl, TableSet.mem_ids hp⟩

/-- The owner of a column, once its outer joins are resolved, is in the set. -/
theorem meets_ownerWith (hlaw : ConditionLaw plain P condition) (hw : Sound P w)
    (column : ColumnName) :
    Meets (ownerWith condition column) w fun id w' => Steps plain w w' ∧ id ∈ w'.set.ids := by
  refine (meets_owner column).bind ?_
  rintro id w ⟨rfl, hid⟩
  exact (meets_resolveWith hlaw hw hid).imp fun _ _ h => ⟨h.steps, h.mem⟩

/-- To resolve the owners of several columns takes steps. -/
theorem meets_resolveOwnersWith (hlaw : ConditionLaw plain P condition) (hw : Sound P w)
    (columns : List ColumnName) :
    Meets (resolveOwnersWith condition columns) w fun _ w' => Steps plain w w' := by
  induction columns generalizing w with
  | nil => exact .refl w
  | cons column rest ih =>
    unfold resolveOwnersWith
    refine (meets_owner column).bind ?_
    rintro id w ⟨rfl, hid⟩
    refine (meets_resolveWith hlaw hw hid).bind fun _ w₁ hres => ?_
    exact (ih (hres.steps.sound hw)).imp fun _ _ h => hres.steps.trans h

/-- To look up owners changes nothing. -/
theorem meets_owners (columns : List ColumnName) :
    Meets (columns.mapM fun column => ask fun set => set.owner column) w
      fun ids w' => w' = w ∧ ids.length = columns.length ∧ ∀ i ∈ ids, i ∈ w.set.ids := by
  induction columns with
  | nil => exact ⟨rfl, rfl, List.forall_mem_nil _⟩
  | cons column rest ih =>
    rw [List.mapM_cons]
    refine (meets_owner column).bind ?_
    rintro id w ⟨rfl, hid⟩
    refine ih.bind ?_
    rintro ids w ⟨rfl, hlen, hids⟩
    exact ⟨rfl, congrArg (· + 1) hlen, List.forall_mem_cons.mpr ⟨hid, hids⟩⟩

/-- The plans that own some columns become one. -/
theorem meets_joinReadersWith (hlaw : ConditionLaw plain P condition) (hw : Sound P w)
    (columns : List ColumnName) :
    Meets (joinReadersWith condition columns) w
      fun id w' => Steps plain w w' ∧ id ∈ w'.set.ids := by
  unfold joinReadersWith
  cases columns with
  | nil =>
    refine (meets_joinEverythingWith hlaw hw).imp ?_
    rintro id w' ⟨hsteps, x, hx, rfl⟩
    exact ⟨hsteps, TableSet.mem_ids (by rw [hx]; exact List.mem_singleton_self x)⟩
  | cons column rest =>
    refine (meets_resolveOwnersWith hlaw hw _).bind fun _ w₁ hsteps => ?_
    refine (meets_owners _).bind ?_
    rintro ids w₁ ⟨rfl, hlen, hids⟩
    have hne : distinct ids ≠ [] := by
      have hpos : 0 < ids.length := by
        rw [hlen]
        exact Nat.succ_pos _
      obtain ⟨i, hi⟩ := List.exists_mem_of_length_pos hpos
      exact List.ne_nil_of_mem (mem_distinct.mpr hi)
    refine (meets_joinSomeWith hlaw (hsteps.sound hw) hne (nodup_distinct ids)
      fun i hi => hids i (mem_distinct.mp hi)).imp fun id w' hg => ?_
    exact ⟨hsteps.trans hg.steps, hg.mem⟩

end Planner

end QueryPlan
