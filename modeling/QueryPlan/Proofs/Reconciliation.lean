import QueryPlan.Proofs.Positions
import QueryPlan.Proofs.Vacuous

/-!
# Copies that line up

The sides of an OR are planned over copies of one set, and their plans are then
paired by position. That this is sound needs that a copy stays lined up with what
becomes of it, as long as it is not flagged to have joins, and that its plans are
flagged to be touched where their trees change.

- `SelfContained.of_copy`: a copy has handles of its own, whatever set it is one of.
- `TableSet.Aligned`: sets with the same plans, position by position, and with the
  same trees where no plan was touched.
- `aligned_of_planExpressionWith`: a filter without joins leaves plans lined up.
- `Planner.UnitesSides`: a run of an OR, with the two sides that it pairs.
- `Planner.aligned_of_copy`: copies stay lined up, and the plans that are paired
  have the same columns.
-/

namespace QueryPlan

variable {w w₁ w' : Workspace} {condition : ConditionPlanner} {C D left right : TableSet}

/-! ## Copies of any set -/

theorem mem_of_renameLink {names : List (PlanId × PlanId)} {o : Option JoinLink} {link : JoinLink}
    (h : TableSet.renameLink names o = .ok (some link)) : link.target ∈ names.map Prod.snd := by
  cases o with
  | none => cases h
  | some link' =>
    unfold TableSet.renameLink at h
    cases hlookup : names.lookup link'.target with
    | none =>
      simp only [hlookup] at h
      cases h
    | some target =>
      simp only [hlookup] at h
      cases h
      obtain ⟨l₁, l₂, rfl, -⟩ := List.lookup_eq_some_iff.mp hlookup
      exact List.mem_map_of_mem (List.mem_append_right l₁ List.mem_cons_self)

/-- A copy is under the handles that it is given, to which its links are aimed. -/
theorem ids_of_copyAs {set copy : TableSet} {ids : List PlanId}
    (hlen : set.tables.length = ids.length) (h : set.copyAs ids = .ok copy) :
    copy.hasJoins = false ∧ copy.ids = ids ∧
      ∀ q ∈ copy.tables, ∀ side link, q.linkOn side = some link → link.target ∈ ids := by
  obtain ⟨hjoins, hall⟩ := copyAs_plans h
  have hsnd : (set.tables.zip ids).map Prod.snd = ids := List.map_snd_zip (le_of_eq hlen.symm)
  refine ⟨hjoins, ?_, fun q hq side link hlink => ?_⟩
  · rw [TableSet.ids, ← hsnd]
    refine map_eq_of_forall₂ hall ?_
    rintro x q ⟨left, right, -, -, rfl⟩
    rfl
  · obtain ⟨x, -, left, right, hleft, hright, rfl⟩ := exists_left_of_forall₂ hall hq
    have hids : (set.ids.zip ids).map Prod.snd ⊆ ids := fun j hj => by
      obtain ⟨x, hx, rfl⟩ := List.mem_map.mp hj
      exact (List.of_mem_zip hx).2
    cases side with
    | left =>
      obtain rfl : left = some link := hlink
      exact hids (mem_of_renameLink hleft)
    | right =>
      obtain rfl : right = some link := hlink
      exact hids (mem_of_renameLink hright)

/-- A copy has handles of its own, whatever those of the set are. -/
theorem SelfContained.of_copy {c : Context} (h : Planner.copy w = .ok C w₁)
    (hc : w₁.context.supply.next ≤ c.supply.next) : SelfContained ⟨C, c⟩ := by
  obtain ⟨hcopy, rfl⟩ := Planner.copy_ok.mp h
  obtain ⟨-, hids, htargets⟩ := ids_of_copyAs (by simp) hcopy
  refine ⟨?_, fun p hp => ?_, fun p hp side link hlink => ?_⟩
  · show C.ids.Nodup
    rw [hids]
    exact List.nodup_range.map fun i j hij => Nat.add_left_cancel (PlanId.mk.inj hij)
  · have hmem := hids ▸ TableSet.mem_ids hp
    obtain ⟨i, hi, hid⟩ := List.mem_map.mp hmem
    rw [← hid]
    exact (Nat.add_lt_add_left (List.mem_range.mp hi) _).trans_le hc
  · rw [hids]
    exact htargets p hp side link hlink

/-- A copy is flagged neither to have joins nor to have touched plans. -/
theorem flags_of_copy (h : Planner.copy w = .ok C w₁) :
    C.hasJoins = false ∧ ∀ p ∈ C.tables, p.touched = false := by
  obtain ⟨hcopy, rfl⟩ := Planner.copy_ok.mp h
  refine ⟨(ids_of_copyAs (by simp) hcopy).1, fun q hq => ?_⟩
  obtain ⟨p, -, hpq⟩ := exists_left_of_forall₂ (isCopy_of_copyAs (by simp) hcopy) hq
  rw [hpq]
  rfl

/-! ## Sets that line up -/

/-- The link `l'` is to `D` what `l` is to `C`: of the same type, with the same condition, and aimed
at the same position. -/
structure JoinLink.Aligned (C D : TableSet) (l l' : JoinLink) : Prop where
  joinType : l'.joinType = l.joinType
  on : l'.on = l.on
  position : ∃ i : Nat, C.ids[i]? = some l.target ∧ D.ids[i]? = some l'.target

/-- The plan `q` is to `D` what `p` is to `C`. If it is not touched, it has the same tree. -/
structure TablePlan.Aligned (C D : TableSet) (p q : TablePlan) : Prop where
  columns : q.columns = p.columns
  uniqueKeys : q.uniqueKeys = p.uniqueKeys
  links : ∀ side, Option.Rel (JoinLink.Aligned C D) (p.linkOn side) (q.linkOn side)
  untouched : q.touched = false → q.executable = p.executable

/-- The sets have as many plans, which correspond position by position. A handle stands for one
position only. -/
structure TableSet.Aligned (C D : TableSet) : Prop where
  nodup : C.ids.Nodup
  nodup' : D.ids.Nodup
  plans : List.Forall₂ (TablePlan.Aligned C D) C.tables D.tables

variable {g : PlanId → PlanId}

theorem JoinLink.aligned_rename {link : JoinLink} (hids : D.ids = C.ids.map g)
    (htarget : link.target ∈ C.ids) : link.Aligned C D (link.rename g) := by
  obtain ⟨i, hi⟩ := List.mem_iff_getElem?.mp htarget
  refine ⟨rfl, rfl, i, hi, ?_⟩
  rw [hids, List.getElem?_map, hi]
  rfl

/-- What keeps the fields of the plans but for their trees, and the trees of what is not touched,
leaves the set lined up. -/
theorem aligned_of_remains {c c' : Context} (hC : SelfContained ⟨C, c⟩)
    (hD : Handled (fun _ => True) ⟨D, c'⟩)
    (hremains : List.Forall₂ (TablePlan.Remains g) C.tables D.tables)
    (hrests : List.Forall₂ TablePlan.Rests C.tables D.tables) : C.Aligned D := by
  have hids : D.ids = C.ids.map g := by
    unfold TableSet.ids
    rw [List.map_map]
    exact map_eq_of_forall₂ hremains fun _ _ hpq => hpq.id_eq
  refine ⟨hC.nodup, hD.nodup, ?_⟩
  have hmem := (List.forall₂_and_left _ _).mpr ⟨fun _ hp => hp, forall₂_and hremains hrests⟩
  refine hmem.imp ?_
  rintro p q ⟨hp, hpq, hquiet⟩
  refine ⟨hpq.columns, hpq.uniqueKeys, fun side => ?_, fun h => (hquiet h).2⟩
  rw [hpq.links]
  cases hlink : p.linkOn side with
  | none => exact .none
  | some link => exact .some (JoinLink.aligned_rename hids (hC.targets p hp side link hlink))

/-! ## Filters over a copy -/

theorem admits_any (on : Option Expr) : Admits (fun _ => True) True on :=
  fun _ _ => ⟨fun _ _ => trivial, fun h => absurd trivial h⟩

/-- Both planners of conditions move: the one for sets, and the one for pairs of plans, over
which no condition comes up. -/
theorem moveLaw_of_planner (hcondition : condition = planCondition ∨ condition = noCondition) :
    MoveLaw (fun _ => True) True (fun _ => True) condition := by
  rcases hcondition with rfl | rfl
  · intro on _
    exact moveLaw_planCondition _ _ on (admits_any on)
  · intro on _ w tree w' _ h
    exact (Planner.throw_ok.mp h).elim

theorem SelfContained.handled (hw : SelfContained w) : Handled (fun _ => True) w :=
  ⟨hw.nodup, hw.given, fun _ _ _ _ _ => trivial⟩

namespace Planner

variable {filter lhs rhs : Expr}

theorem moves_planExpressionWith (hcondition : condition = planCondition ∨ condition = noCondition)
    (hw : SelfContained w) (h : planExpressionWith condition filter w = .ok () w') :
    Moves (fun _ => True) True w w' :=
  moving_planExpressionWith (moveLaw_of_planner hcondition) (admits_any _) w () w' hw.handled h

/-- A filter after which the set is not flagged to have joins leaves it lined up. -/
theorem aligned_of_planExpressionWith
    (hcondition : condition = planCondition ∨ condition = noCondition) (hw : SelfContained w)
    (h : planExpressionWith condition filter w = .ok () w') (hjoins : w'.set.hasJoins = false) :
    w.set.Aligned w'.set := by
  have hmoves := moves_planExpressionWith hcondition hw h
  obtain ⟨g, hremains⟩ := hmoves.remains hw.handled hjoins
  exact aligned_of_remains hw (hmoves.handled hw.handled) hremains (hmoves.rests hw.handled hjoins)

/-! ## The sides of an OR -/

/-- Runs of an OR over `w` that end in `w'`, where the plans of `left` and `right` are paired by
position, and a pair of which one plan is touched becomes a union. -/
inductive UnitesSides (condition : ConditionPlanner) (lhs rhs : Expr) (w : Workspace) :
    TableSet → TableSet → Workspace → Prop where
  /-- The sides are paired as they were planned. -/
  | positions {cached : List Bool} {w₁ w₂ : Workspace} {left right : TableSet}
    (caches : cacheForSides w = .ok cached w₁)
    (sides : planSides (planExpressionWith condition lhs) (planExpressionWith condition rhs) w₁ =
      .ok (left, right) w₂)
    (fits : mustReshape left right = false) :
    UnitesSides condition lhs rhs w left right
      ⟨⟨unitePositions (cached.zip w₁.set.tables) left.tables right.tables, w₁.set.hasJoins⟩,
        w₂.context⟩
  /-- Each side is joined into one plan before, which gets the columns in their order. -/
  | joined {cached : List Bool} {w₁ w₂ w₃ : Workspace} {left right left' right' : TableSet}
    (caches : cacheForSides w = .ok cached w₁)
    (sides : planSides (planExpressionWith condition lhs) (planExpressionWith condition rhs) w₁ =
      .ok (left, right) w₂)
    (reshaped : mustReshape left right = true)
    (joins : joinSidesWith condition (w₁.set.tables.flatMap TablePlan.columns) left right w₂ =
      .ok (left', right') w₃) :
    UnitesSides condition lhs rhs w left' right'
      ⟨⟨left'.tables.zipWith unitePair right'.tables,
        w₁.set.hasJoins || left'.hasJoins || right'.hasJoins⟩, w₃.context⟩

/-- There are no other runs of an OR. -/
theorem exists_unitesSides (h : planExpressionWith condition (.binary lhs .or rhs) w = .ok () w') :
    ∃ left right, UnitesSides condition lhs rhs w left right w' := by
  rw [planExpressionWith_or] at h
  simp only [planOrWith, bind_ok, current_ok] at h
  obtain ⟨cached, w₁, hcaches, _, _, ⟨rfl, rfl⟩, ⟨left, right⟩, w₂, hsides, h⟩ := h
  by_cases hshape : mustReshape left right = true
  · simp only [if_pos hshape, bind_ok, replaceSet_ok] at h
    obtain ⟨⟨left', right'⟩, w₃, hjoins, rfl⟩ := h
    exact ⟨left', right', .joined hcaches hsides hshape hjoins⟩
  · simp only [if_neg hshape, replaceSet_ok] at h
    subst h
    exact ⟨left, right, .positions hcaches hsides (Bool.eq_false_iff.mpr hshape)⟩

/-- What becomes of a side of an OR over `set`: the plans of a copy move, after which the context
is used up to `c`. -/
def MovedCopy (set side : TableSet) (c : Context) : Prop :=
  ∃ copy c₀ c₁, Handled (fun _ => True) ⟨copy, c₀⟩ ∧
    List.Forall₂ TablePlan.IsCopy set.tables copy.tables ∧
    Moves (fun _ => True) True ⟨copy, c₀⟩ ⟨side, c₁⟩ ∧ c₁.Extends c

theorem MovedCopy.handled {set side : TableSet} {c : Context} (h : MovedCopy set side c) :
    Handled (fun _ => True) ⟨side, c⟩ := by
  obtain ⟨copy, c₀, c₁, hcopy, -, hmoves, hc⟩ := h
  exact (hmoves.handled hcopy).extend hc

/-- Until plans are joined, a side has the columns of the set, position by position. -/
theorem MovedCopy.columns {set side : TableSet} {c : Context} (h : MovedCopy set side c)
    (hjoins : side.hasJoins = false) :
    side.tables.map TablePlan.columns = set.tables.map TablePlan.columns := by
  obtain ⟨copy, c₀, c₁, hhandled, hcopies, hmoves, -⟩ := h
  obtain ⟨g, hremains⟩ := hmoves.remains hhandled hjoins
  calc side.tables.map TablePlan.columns
      = copy.tables.map TablePlan.columns := map_eq_of_forall₂ hremains fun _ _ hpq => hpq.columns
    _ = set.tables.map TablePlan.columns := map_eq_of_forall₂ hcopies fun p q hpq => by
        rw [hpq]
        rfl

theorem movedCopies_of_planSides
    (hcondition : condition = planCondition ∨ condition = noCondition)
    (h : planSides (planExpressionWith condition lhs) (planExpressionWith condition rhs) w =
      .ok (left, right) w') :
    MovedCopy w.set left w'.context ∧ MovedCopy w.set right w'.context := by
  simp only [planSides, bind_ok, within_ok, pure_ok] at h
  obtain ⟨copyLeft, w₂, hcopyLeft, copyRight, w₃, hcopyRight, ⟨_, _⟩, _, ⟨l, hplanLeft, rfl, rfl⟩,
    ⟨_, _⟩, _, ⟨r, hplanRight, rfl, rfl⟩, heq, rfl⟩ := h
  obtain ⟨rfl, rfl⟩ := Prod.mk.inj heq
  obtain ⟨hleft, rfl⟩ := copy_ok.mp hcopyLeft
  obtain ⟨hright, rfl⟩ := copy_ok.mp hcopyRight
  -- The handles of both copies are given out before the first of the sides is planned.
  have hl : SelfContained ⟨copyLeft, { w.context with
      supply := ⟨w.context.supply.next + w.set.tables.length + w.set.tables.length⟩ }⟩ :=
    .of_copy hcopyLeft (Nat.le_add_right _ _)
  have hmoves := moves_planExpressionWith hcondition hl hplanLeft
  have hr : SelfContained ⟨copyRight, l.context⟩ := .of_copy hcopyRight hmoves.extends.supply
  have hmoves' := moves_planExpressionWith hcondition hr hplanRight
  exact ⟨⟨copyLeft, _, _, hl.handled, isCopy_of_copyAs (by simp) hleft, hmoves, hmoves'.extends⟩,
    ⟨copyRight, _, _, hr.handled, isCopy_of_copyAs (by simp) hright, hmoves', .refl _⟩⟩

/-- The plans that an OR pairs have the same columns. -/
theorem UnitesSides.columns_eq (hcondition : condition = planCondition ∨ condition = noCondition)
    (h : UnitesSides condition lhs rhs w left right w') :
    left.tables.map TablePlan.columns = right.tables.map TablePlan.columns := by
  cases h with
  | positions caches sides fits =>
    obtain ⟨hleft, hright⟩ := movedCopies_of_planSides hcondition sides
    obtain ⟨hnone, hnone'⟩ := hasJoins_of_not_mustReshape fits
    rw [hleft.columns hnone, hright.columns hnone']
  | joined caches sides reshaped joins =>
    obtain ⟨hleft, hright⟩ := movedCopies_of_planSides hcondition sides
    obtain ⟨l, r, x, y, -, -, -, -, heq, -⟩ := joinSidesWith_ok (moveLaw_of_planner hcondition)
      hleft.handled hright.handled joins
    obtain ⟨rfl, rfl⟩ := Prod.mk.inj heq
    simp only [List.map_cons, List.map_nil, TablePlan.reordered_columns]

/-- Pairing the sides of an OR by position is sound. A set whose links are aimed at its own plans
has a copy, without joins and touched plans. Any filter that is planned over it later, after
which it is still not flagged to have joins, leaves it lined up: there are as many plans, with
the same columns, keys and links at each position, and with the same tree if they are not
touched. So the plans that an OR over any set pairs have the same columns, whether these are
paired by position or joined into one plan on each side before. All this is so for the ORs of
filters and for those of the conditions of links. -/
theorem aligned_of_copy (hcondition : condition = planCondition ∨ condition = noCondition) :
    ((∀ p ∈ w.set.tables, ∀ side link, p.linkOn side = some link → link.target ∈ w.set.ids) →
      ∃ C w₁, copy w = .ok C w₁ ∧ C.hasJoins = false ∧ (∀ p ∈ C.tables, p.touched = false) ∧
        ∀ c filter w', w₁.context.supply.next ≤ c.supply.next →
          planExpressionWith condition filter ⟨C, c⟩ = .ok () w' → w'.set.hasJoins = false →
            C.Aligned w'.set) ∧
    ∀ lhs rhs w', planExpressionWith condition (.binary lhs .or rhs) w = .ok () w' →
      ∃ left right, UnitesSides condition lhs rhs w left right w' ∧
        left.tables.map TablePlan.columns = right.tables.map TablePlan.columns := by
  refine ⟨fun htargets => ?_, fun lhs rhs w' h => ?_⟩
  · obtain ⟨C, hcopyAs⟩ : ∃ C, w.set.copyAs ((List.range w.set.tables.length).map
        fun i => (⟨w.context.supply.next + i⟩ : PlanId)) = .ok C :=
      exists_copyAs htargets (by simp)
    have hcopy := copy_ok.mpr ⟨hcopyAs, rfl⟩
    obtain ⟨hjoins, htouched⟩ := flags_of_copy hcopy
    refine ⟨C, _, hcopy, hjoins, htouched, fun c filter w' hc h hnone => ?_⟩
    have hC : SelfContained ⟨C, c⟩ := .of_copy hcopy hc
    exact aligned_of_planExpressionWith hcondition hC h hnone
  · obtain ⟨left, right, hsides⟩ := exists_unitesSides h
    exact ⟨left, right, hsides, hsides.columns_eq hcondition⟩

/-- Over a chain of outer joins, nested ORs on the first table leave a copy of the three plans lined
up, of which one is touched. An OR of the first table alone is united by position; where its other
side reads the second table, each side is joined into one plan before. -/
theorem aligned_of_copy_chain :
    let set : TableSet := ⟨chainOfOnes .left (.binary (columnOf "a") .eq (columnOf "b"))
      (.binary (columnOf "b") .lt (columnOf "c")), false⟩
    let w : Workspace := ⟨set, .start .blank default ⟨4⟩⟩
    let near := Expr.unary .isNull (columnOf "a")
    let far := Expr.unary .isNull (columnOf "b")
    (∃ C w₁ w', Planner.copy w = .ok C w₁ ∧
      planExpression (.binary near .or (.binary near .or near)) ⟨C, w₁.context⟩ = .ok () w' ∧
      w'.set.tables.map TablePlan.touched = [true, false, false] ∧ C.Aligned w'.set) ∧
    (∃ left right w', UnitesSides planCondition near near w left right w' ∧
      w'.set.tables.map TablePlan.touched = [true, false, false] ∧
      left.tables.map TablePlan.columns = right.tables.map TablePlan.columns) ∧
    ∃ left right w', UnitesSides planCondition near far w left right w' ∧
      w'.set.tables.map TablePlan.touched = [true] ∧
      left.tables.map TablePlan.columns = right.tables.map TablePlan.columns := by
  intro set w near far
  have hcondition : planCondition = planCondition ∨ planCondition = noCondition := Or.inl rfl
  have hw : SelfContained w := selfContained_chainOfOnes
  obtain ⟨hcopies, hsides⟩ := aligned_of_copy (w := w) hcondition
  have hunited : ∀ rhs flags, resultWith (fun _ w' => w'.set.tables.map TablePlan.touched)
      (planExpression (.binary near .or rhs) w) = some flags →
      ∃ left right w', UnitesSides planCondition near rhs w left right w' ∧
        w'.set.tables.map TablePlan.touched = flags ∧
        left.tables.map TablePlan.columns = right.tables.map TablePlan.columns := by
    intro rhs flags hok
    obtain ⟨_, w', hplan, htouched⟩ := exists_of_resultWith hok
    obtain ⟨left, right, hunites, hcolumns⟩ := hsides near rhs w' hplan
    exact ⟨left, right, w', hunites, htouched, hcolumns⟩
  refine ⟨?_, ?_, ?_⟩
  · obtain ⟨C, w₁, hcopy, -, -, hall⟩ := hcopies hw.targets
    have hok : resultWith (fun r _ => (r.2.hasJoins, r.2.tables.map TablePlan.touched))
        ((do within (← copy) (planExpression (.binary near .or (.binary near .or near)))) w) =
        some (false, [true, false, false]) := by decide +kernel
    obtain ⟨⟨_, s⟩, v, hrun, hflags⟩ := exists_of_resultWith hok
    simp only [bind_ok, within_ok] at hrun
    obtain ⟨C', _, hcopy', w', hplan, rfl, -⟩ := hrun
    cases hcopy.symm.trans hcopy'
    obtain ⟨hjoins, htouched⟩ := Prod.mk.inj hflags
    obtain ⟨-, rfl⟩ := copy_ok.mp hcopy
    exact ⟨C, _, w', hcopy, hplan, htouched, hall _ _ w' le_rfl hplan hjoins⟩
  · exact hunited near _ (by decide +kernel)
  · exact hunited far _ (by decide +kernel)

end Planner

end QueryPlan
