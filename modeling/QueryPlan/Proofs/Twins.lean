import Mathlib.Data.List.Forall2
import QueryPlan.Proofs.LightPredicates
import QueryPlan.Proofs.Moving
import QueryPlan.Proofs.Outlines
import QueryPlan.Proofs.ScopedFilters

/-!
# Runs over twin sets

Over two plans without links, a condition is planned in the same way whatever the
plans are, as long as they expose the same of the columns that it reads.

- `TablePlan.Twin`, `Twins`: plans, and workspaces, that planning does not tell
  apart.
- `SamePlace`: handles of plans in the same place of two workspaces.
- `InStep`: where one computation succeeds, another one does not fail as expected,
  and where both succeed they end alike.
- `inStep_joinSomeWith`, `inStep_joinReadersWith`: joins go in step.
-/

namespace QueryPlan

variable {α β γ δ : Type} {read : List ColumnName} {w v w' v' : Workspace}
  {condition : ConditionPlanner}

/-! ## Computations in step -/

/-- Where `act` succeeds, `act'` does not fail as expected, and if it succeeds too, `post` holds of
how both end. -/
def InStep (act : Planner α) (act' : Planner β) (w v : Workspace)
    (post : α → Workspace → β → Workspace → Prop) : Prop :=
  ∀ a w', act w = .ok a w' → Planner.Spares act' v ∧ ∀ b v', act' v = .ok b v' → post a w' b v'

namespace InStep

variable {x : Planner α} {y : Planner β} {f : α → Planner γ} {g : β → Planner δ}
  {mid : α → Workspace → β → Workspace → Prop} {post : γ → Workspace → δ → Workspace → Prop}

theorem bind (h : InStep x y w v mid)
    (hf : ∀ a w₁ b v₁, mid a w₁ b v₁ → InStep (f a) (g b) w₁ v₁ post) :
    InStep (x >>= f) (y >>= g) w v post := by
  intro c w' hw
  obtain ⟨a, w₁, hx, hfa⟩ := Planner.bind_ok.mp hw
  obtain ⟨hspares, hmid⟩ := h a w₁ hx
  refine ⟨hspares.bind fun b v₁ hy => (hf a w₁ b v₁ (hmid b v₁ hy) c w' hfa).1, fun d v' hv => ?_⟩
  obtain ⟨b, v₁, hy, hgb⟩ := Planner.bind_ok.mp hv
  exact (hf a w₁ b v₁ (hmid b v₁ hy) c w' hfa).2 d v' hgb

theorem imp {mid' : α → Workspace → β → Workspace → Prop} (h : InStep x y w v mid)
    (himp : ∀ a w' b v', mid a w' b v' → mid' a w' b v') : InStep x y w v mid' :=
  fun a w' hx => ⟨(h a w' hx).1, fun b v' hy => himp a w' b v' ((h a w' hx).2 b v' hy)⟩

/-- What is known of either computation by itself holds of both. -/
theorem and {A : α → Workspace → Prop} {B : β → Workspace → Prop} (h : InStep x y w v mid)
    (hx : ∀ a w', x w = .ok a w' → A a w') (hy : ∀ b v', y v = .ok b v' → B b v') :
    InStep x y w v fun a w' b v' => mid a w' b v' ∧ A a w' ∧ B b v' :=
  fun a w' hw => ⟨(h a w' hw).1, fun b v' hv => ⟨(h a w' hw).2 b v' hv, hx a w' hw, hy b v' hv⟩⟩

/-- What does not fail as expected goes in step with everything. -/
theorem of_spares (h : Planner.Spares y v) : InStep x y w v fun _ _ _ _ => True :=
  fun _ _ _ => ⟨h, fun _ _ _ => trivial⟩

theorem pure {a : α} {b : β} (h : mid a w b v) : InStep (Pure.pure a) (Pure.pure b) w v mid := by
  intro a' w' hw
  obtain ⟨rfl, rfl⟩ := Planner.pure_ok.mp hw
  refine ⟨.pure b, fun b' v' hv => ?_⟩
  obtain ⟨rfl, rfl⟩ := Planner.pure_ok.mp hv
  exact h

theorem replaceSet {s t : TableSet} {R : TableSet → TableSet → Prop} (h : R s t) :
    InStep (Planner.replaceSet s) (Planner.replaceSet t) w v fun _ w' _ v' => R w'.set v'.set := by
  intro _ w' hw
  obtain rfl := Planner.replaceSet_ok.mp hw
  refine ⟨.modify _, fun _ v' hv => ?_⟩
  obtain rfl := Planner.replaceSet_ok.mp hv
  exact h

theorem bind_current {f : TableSet → Planner γ} {g : TableSet → Planner δ}
    (h : InStep (f w.set) (g v.set) w v post) :
    InStep (Planner.current >>= f) (Planner.current >>= g) w v post := by
  intro c w' hw
  obtain ⟨_, w, hcurrent, hw⟩ := Planner.bind_ok.mp hw
  obtain ⟨rfl, rfl⟩ := Planner.current_ok.mp hcurrent
  refine ⟨.bind_current (h c w' hw).1, fun d v' hv => ?_⟩
  obtain ⟨_, v, hcurrent', hv⟩ := Planner.bind_ok.mp hv
  obtain ⟨rfl, rfl⟩ := Planner.current_ok.mp hcurrent'
  exact (h c w' hw).2 d v' hv

/-- Sets are asked in step, if what the one answers the other answers too. -/
theorem ask {f : TableSet → Except PlanError α} {g : TableSet → Except PlanError β}
    {R : α → β → Prop} (h : ∀ a, f w.set = .ok a → ∃ b, g v.set = .ok b ∧ R a b) :
    InStep (Planner.ask f) (Planner.ask g) w v fun a w' b v' => w' = w ∧ v' = v ∧ R a b := by
  intro a w' hw
  obtain ⟨ha, rfl⟩ := Planner.ask_ok.mp hw
  obtain ⟨b, hb, hab⟩ := h a ha
  refine ⟨.ask fun e he => ?_, fun b' v' hv => ?_⟩
  · rw [hb] at he
    cases he
  · obtain ⟨hb', rfl⟩ := Planner.ask_ok.mp hv
    rw [hb] at hb'
    exact ⟨rfl, rfl, Except.ok.inj hb' ▸ hab⟩

/-- Other sets are worked on in step, in the same contexts. -/
theorem within {inner inner' : TableSet}
    (h : InStep x y { w with set := inner } { v with set := inner' } mid) :
    InStep (Planner.within inner x) (Planner.within inner' y) w v fun a w' b v' =>
      w'.set = w.set ∧ v'.set = v.set ∧ mid a.1 ⟨a.2, w'.context⟩ b.1 ⟨b.2, v'.context⟩ := by
  rintro ⟨a, set⟩ w' hw
  obtain ⟨w₁, hx, rfl, rfl⟩ := Planner.within_ok.mp hw
  refine ⟨.within (h a w₁ hx).1, ?_⟩
  rintro ⟨b, set'⟩ v' hv
  obtain ⟨v₁, hy, rfl, rfl⟩ := Planner.within_ok.mp hv
  exact ⟨rfl, rfl, (h a w₁ hx).2 b v₁ hy⟩

end InStep

/-! ## Twins -/

/-- Two plans that planning does not tell apart: they expose the same of the columns `read`, and
both of them were touched or none. -/
structure TablePlan.Twin (read : List ColumnName) (p q : TablePlan) : Prop where
  exposes : ∀ c ∈ read, q.exposes c = p.exposes c
  touched : q.touched = p.touched

/-- Sets of at most two plans, which are twins in each place. -/
structure TwinSets (read : List ColumnName) (s t : TableSet) : Prop where
  tables : List.Forall₂ (TablePlan.Twin read) s.tables t.tables
  hasJoins : t.hasJoins = s.hasJoins
  few : s.tables.length ≤ 2
  /-- The plan that others were joined into was touched. -/
  joined : s.hasJoins = true → ∀ x, s.tables = [x] → x.touched = true

/-- Workspaces without links, with twins for plans. -/
structure Twins (read : List ColumnName) (w v : Workspace) : Prop where
  sets : TwinSets read w.set v.set
  left : Unlinked w
  right : Unlinked v

/-- The handles are those of plans in the same place. -/
def SamePlace (w v : Workspace) (i j : PlanId) : Prop := (i, j) ∈ w.set.ids.zip v.set.ids

namespace SamePlace

variable {i j i' j' : PlanId}

theorem mem_left (h : SamePlace w v i j) : i ∈ w.set.ids := (List.of_mem_zip h).1

theorem mem_right (h : SamePlace w v i j) : j ∈ v.set.ids := (List.of_mem_zip h).2

/-- In each place there is one handle on either side. -/
theorem eq_iff (h : SamePlace w v i j) (h' : SamePlace w v i' j') (hw : w.set.ids.Nodup)
    (hv : v.set.ids.Nodup) : i = i' ↔ j = j' := by
  obtain ⟨k, hk, heq⟩ := List.mem_iff_getElem.mp h
  obtain ⟨k', hk', heq'⟩ := List.mem_iff_getElem.mp h'
  rw [List.getElem_zip, Prod.mk.injEq] at heq heq'
  obtain ⟨rfl, rfl⟩ := heq
  obtain ⟨rfl, rfl⟩ := heq'
  rw [hw.getElem_inj_iff, hv.getElem_inj_iff]

end SamePlace

namespace Twins

variable {i j i' j' : PlanId}

theorem tables (h : Twins read w v) :
    List.Forall₂ (TablePlan.Twin read) w.set.tables v.set.tables :=
  h.sets.tables

theorem eq_iff (h : Twins read w v) (hi : SamePlace w v i j) (hi' : SamePlace w v i' j') :
    i = i' ↔ j = j' :=
  hi.eq_iff hi' h.left.answered.nodup h.right.answered.nodup

/-- Twins have handles in the same place. -/
theorem places (h : Twins read w v) : List.Forall₂
    (fun p q => p.Twin read q ∧ SamePlace w v p.id q.id) w.set.tables v.set.tables := by
  refine List.forall₂_iff_zip.mpr ⟨h.tables.length_eq, fun {p q} hmem => ?_⟩
  refine ⟨List.forall₂_zip h.tables hmem, ?_⟩
  unfold SamePlace TableSet.ids
  rw [List.zip_map]
  exact List.mem_map_of_mem (f := Prod.map TablePlan.id TablePlan.id) hmem

/-- The plans of handles in the same place are twins. -/
theorem exists_plans (h : Twins read w v) (hi : SamePlace w v i j) : ∃ p ∈ w.set.tables,
    ∃ q ∈ v.set.tables, p.id = i ∧ q.id = j ∧ p.Twin read q := by
  unfold SamePlace TableSet.ids at hi
  rw [List.zip_map, List.mem_map] at hi
  obtain ⟨⟨p, q⟩, hmem, heq⟩ := hi
  obtain ⟨rfl, rfl⟩ := Prod.mk.inj heq
  obtain ⟨hp, hq⟩ := List.of_mem_zip hmem
  exact ⟨p, hp, q, hq, rfl, rfl, List.forall₂_zip h.tables hmem⟩

/-- A column is owned in the same place. -/
theorem exists_owner {c : ColumnName} (h : Twins read w v) (hc : c ∈ read)
    (hi : w.set.owner c = .ok i) : ∃ j, v.set.owner c = .ok j ∧ SamePlace w v i j := by
  have howners := List.rel_filter (p := fun p => p.exposes c) (q := fun q => q.exposes c)
    (fun p q hpq => by show p.exposes c = true ↔ q.exposes c = true; rw [hpq.1.exposes c hc])
    h.places
  obtain ⟨p, hfilter, rfl⟩ := owner_ok_iff.mp hi
  rw [hfilter] at howners
  obtain ⟨q, _, ⟨-, hplace⟩, hnil, hfilter'⟩ := List.forall₂_cons_left_iff.mp howners
  rw [List.forall₂_nil_left_iff] at hnil
  subst hnil
  exact ⟨q.id, owner_ok_iff.mpr ⟨q, hfilter', rfl⟩, hplace⟩

end Twins

/-! ## Plans without links -/

theorem Sound.nullPaddedBy_eq_none (h : Unlinked w) :
    ∀ p ∈ w.set.tables, p.nullPaddedBy? = none := by
  intro p hp
  rw [TablePlan.nullPaddedBy?_eq, TablePlan.padding?_eq_none fun side => h.linkOn_eq_none hp side]
  rfl

/-- Two plans without links are joined as they are. -/
structure TablePlan.Loose (a b : TablePlan) : Prop where
  not_linked : a.isLinkedTo b.id = false
  not_linked' : b.isLinkedTo a.id = false
  linkBetween : linkBetween a b = none
  clash : clash a b = .safe
  nextJoin : nextJoin a b = .join b.id

theorem Sound.loose (h : Unlinked w) {a b : TablePlan} (ha : a ∈ w.set.tables)
    (hb : b ∈ w.set.tables) : a.Loose b := by
  have hab := not_isLinkedTo (fun side => h.linkOn_eq_none ha side) b.id
  have hba := not_isLinkedTo (fun side => h.linkOn_eq_none hb side) a.id
  have hsafe : clash a b = .safe := by
    refine clash_eq_safe_iff.mpr (Or.inr ?_)
    rintro side ⟨x, -, hx, -⟩
    rw [h.linkOn_eq_none ha side] at hx
    cases hx
  have hinside : nullPaddedFromOutside? a b = none := by
    rw [inside_iff, h.nullPaddedBy_eq_none a ha, h.nullPaddedBy_eq_none b hb]
    exact ⟨nofun, nofun⟩
  exact ⟨hab, hba, linkBetween_eq_none_iff.mpr ⟨hab, hba⟩, hsafe, nextJoin_of_inside hsafe hinside⟩

namespace Planner

/-- Two plans without links are joined as all pairs of their rows. -/
theorem joinSomeWith_pair_ok (hw : Unlinked w) {i j id : PlanId}
    (h : joinSomeWith condition [i, j] w = .ok id w') : merge i j .naturalJoin w = .ok id w' := by
  obtain ⟨pairings, hrun⟩ := exists_joinRun_of_some h
  have hfound : ∀ {a b : TablePlan}, w.set.get? i = some a → w.set.get? j = some b → a.Loose b :=
    fun ha hb => hw.loose (TableSet.mem_of_get? ha).1 (TableSet.mem_of_get? hb).1
  cases hrun with
  | resolves ha hb next =>
    rw [(hfound ha hb).nextJoin] at next
    cases next
  | joins ha hb next joined rest =>
    have hloose := hfound ha hb
    rw [hloose.nextJoin] at next
    obtain ⟨-, hid⟩ := TableSet.mem_of_get? hb
    cases next
    rw [hid] at joined rest
    -- The merge is the only plan that is left of the two.
    have hrest : [i, j].filter (fun id => id ≠ i ∧ id ≠ j) = [] := by
      simp
    rw [hrest] at rest
    cases rest
    obtain ⟨a', b', ha', hb', ⟨_, hbetween, -⟩ | ⟨-, -, hmerge⟩⟩ := joinPairWith_ok joined
    · rw [(hfound ha' hb').linkBetween] at hbetween
      cases hbetween
    · exact hmerge

/-- Two plans without links, if there are no others, become one. -/
theorem merge_pair_ok {i j m : PlanId} {build : PlanNode → PlanNode → PlanNode} (hw : Unlinked w)
    (hfew : w.set.tables.length ≤ 2) (hbuild : ∀ s t, (build s t).joined? = some (s, t))
    (h : merge i j build w = .ok m w') : Unlinked w' ∧ ∃ l ∈ w.set.tables, ∃ r ∈ w.set.tables,
      l.id = i ∧ r.id = j ∧ ∃ x, w'.set = ⟨[x], true⟩ ∧ x.id = m ∧ x.touched = true ∧
        x.columns = l.columns ++ r.columns := by
  obtain ⟨l, hl, r, hr, rfl, rfl, hne, rfl, rfl⟩ := merge_ok hw.answered.nodup h
  have hloose := hw.loose hl hr
  have hmerges : Merges False l.id r.id w _ _ := (meets_merge_unlinked hw hl hr hne hloose.clash
    hloose.not_linked hloose.not_linked' hbuild).ok h
  have hlen : (mergedTables w.set.tables l r ⟨w.context.supply.next⟩
      (build l.executable r.executable)).length + 1 = w.set.tables.length :=
    length_mergedTables hw.answered.nodup hl hr hne
  refine ⟨hmerges.steps.sound hw, l, hl, r, hr, rfl, rfl,
    mergedPlan _ l r fun _ _ => build l.executable r.executable, ?_, rfl, rfl, rfl⟩
  unfold mergedTables at hlen ⊢
  rw [List.length_append, List.length_map, List.length_singleton] at hlen
  have hrest : (w.set.tables.filter fun p => p.id ≠ l.id ∧ p.id ≠ r.id) = [] :=
    List.eq_nil_of_length_eq_zero (by omega)
  rw [hrest]
  rfl

end Planner

theorem TablePlan.exposes_of_append {x l r : TablePlan} (h : x.columns = l.columns ++ r.columns)
    (c : ColumnName) : x.exposes c = (l.exposes c || r.exposes c) := by
  unfold exposes
  rw [h, List.any_append]

/-- What twins become is twins. -/
theorem Twins.merged {i i' j j' m m' : PlanId} {build build' : PlanNode → PlanNode → PlanNode}
    (h : Twins read w v) (hi : SamePlace w v i i') (hj : SamePlace w v j j')
    (hbuild : ∀ s t, (build s t).joined? = some (s, t))
    (hbuild' : ∀ s t, (build' s t).joined? = some (s, t))
    (hw : Planner.merge i j build w = .ok m w') (hv : Planner.merge i' j' build' v = .ok m' v') :
    Twins read w' v' ∧ SamePlace w' v' m m' := by
  obtain ⟨hunlinked, l, hl, r, hr, rfl, rfl, x, hx, rfl, htouched, hcolumns⟩ :=
    Planner.merge_pair_ok h.left h.sets.few hbuild hw
  obtain ⟨hunlinked', l', hl', r', hr', rfl, rfl, y, hy, rfl, htouched', hcolumns'⟩ :=
    Planner.merge_pair_ok h.right (h.tables.length_eq ▸ h.sets.few) hbuild' hv
  -- Plans at one position are twins, so their merges expose the same columns that are read.
  have htwin : ∀ {p q : TablePlan}, p ∈ w.set.tables → q ∈ v.set.tables →
      SamePlace w v p.id q.id → p.Twin read q := by
    intro p q hp hq hplace
    obtain ⟨p', hp', q', hq', hid, hid', htwin⟩ := h.exists_plans hplace
    obtain rfl := h.left.answered.eq_of_id hp' hp hid
    obtain rfl := h.right.answered.eq_of_id hq' hq hid'
    exact htwin
  have hpair : x.Twin read y := by
    refine ⟨fun c hc => ?_, htouched'.trans htouched.symm⟩
    rw [TablePlan.exposes_of_append hcolumns, TablePlan.exposes_of_append hcolumns',
      (htwin hl hl' hi).exposes c hc, (htwin hr hr' hj).exposes c hc]
  refine ⟨⟨⟨?_, ?_, ?_, ?_⟩, hunlinked, hunlinked'⟩, ?_⟩
  · rw [hx, hy]
    exact .cons hpair .nil
  · rw [hx, hy]
  · rw [hx]
    exact Nat.le_succ 1
  · rw [hx]
    rintro - _ ⟨⟩
    exact htouched
  · unfold SamePlace TableSet.ids
    rw [hx, hy]
    exact List.mem_singleton_self _

namespace Planner

/-! ## Joins -/

/-- How two computations end that each give the handle of a plan. -/
def Found (read : List ColumnName) (i : PlanId) (w : Workspace) (j : PlanId)
    (v : Workspace) : Prop :=
  Twins read w v ∧ SamePlace w v i j

theorem inStep_owner {c : ColumnName} (h : Twins read w v) (hc : c ∈ read) :
    InStep (ask fun set => set.owner c) (ask fun set => set.owner c) w v
      fun i w' j v' => w' = w ∧ v' = v ∧ SamePlace w v i j :=
  .ask fun _ hi => h.exists_owner hc hi

theorem inStep_ownerWith {c : ColumnName} (h : Twins read w v) (hc : c ∈ read) :
    InStep (ownerWith condition c) (ownerWith condition c) w v
      fun i w' j v' => w' = w ∧ v' = v ∧ SamePlace w v i j := by
  refine (inStep_owner h hc).bind ?_
  rintro i w j v ⟨rfl, rfl, hplace⟩ i' w' hw
  obtain ⟨rfl, rfl⟩ := resolveWith_of_unpadded h.left.nullPaddedBy_eq_none hw
  refine ⟨?_, fun j' v' hv => ?_⟩
  · exact spares_resolveWith (conditionLaw_unlinked False condition)
      (.of_unlinked h.right (List.forall_mem_nil _))
  · obtain ⟨rfl, rfl⟩ := resolveWith_of_unpadded h.right.nullPaddedBy_eq_none hv
    exact ⟨rfl, rfl, hplace⟩

theorem inStep_resolveOwnersWith {columns : List ColumnName} (h : Twins read w v)
    (hcolumns : ∀ c ∈ columns, c ∈ read) :
    InStep (resolveOwnersWith condition columns) (resolveOwnersWith condition columns) w v
      fun _ w' _ v' => w' = w ∧ v' = v := by
  induction columns with
  | nil => exact .pure ⟨rfl, rfl⟩
  | cons column rest ih =>
    rw [List.forall_mem_cons] at hcolumns
    rw [resolveOwnersWith_cons]
    refine (inStep_ownerWith h hcolumns.1).bind ?_
    rintro _ _ _ _ ⟨rfl, rfl, -⟩
    exact ih hcolumns.2

theorem inStep_owners {columns : List ColumnName} (h : Twins read w v)
    (hcolumns : ∀ c ∈ columns, c ∈ read) :
    InStep (columns.mapM fun column => ask fun set => set.owner column)
      (columns.mapM fun column => ask fun set => set.owner column) w v
      fun ids w' ids' v' => w' = w ∧ v' = v ∧ List.Forall₂ (SamePlace w v) ids ids' := by
  induction columns with
  | nil => exact .pure ⟨rfl, rfl, .nil⟩
  | cons column rest ih =>
    rw [List.forall_mem_cons] at hcolumns
    rw [List.mapM_cons]
    refine (inStep_owner h hcolumns.1).bind ?_
    rintro _ _ _ _ ⟨rfl, rfl, hplace⟩
    refine (ih hcolumns.2).bind ?_
    rintro _ _ _ _ ⟨rfl, rfl, hall⟩
    exact .pure ⟨rfl, rfl, .cons hplace hall⟩

/-- Handles in the same places on one side are as different as those on the other. -/
theorem nodup_of_samePlace {ids ids' : List PlanId} (h : Twins read w v)
    (hids : List.Forall₂ (SamePlace w v) ids ids') (hnodup : ids.Nodup) : ids'.Nodup := by
  induction hids with
  | nil => exact .nil
  | cons hi hrest ih =>
    rw [List.nodup_cons] at hnodup ⊢
    refine ⟨fun hj => hnodup.1 ?_, ih hnodup.2⟩
    obtain ⟨i', hi', hplace⟩ := exists_left_of_forall₂ hrest hj
    rwa [(h.eq_iff hi hplace).mpr rfl]

/-- Plans in the same places are joined in step. -/
theorem inStep_joinSomeWith {ids ids' : List PlanId} (h : Twins read w v)
    (hids : List.Forall₂ (SamePlace w v) ids ids') (hnodup : ids.Nodup) :
    InStep (joinSomeWith condition ids) (joinSomeWith condition ids') w v (Found read) := by
  intro i w' hw
  have hnodup' := nodup_of_samePlace h hids hnodup
  refine ⟨?_, fun j v' hv => ?_⟩
  · refine spares_joinSomeWith (conditionLaw_unlinked False condition)
      (.of_unlinked h.right (List.forall_mem_nil _)) hnodup' fun j hj => ?_
    obtain ⟨i, -, hplace⟩ := exists_left_of_forall₂ hids hj
    exact hplace.mem_right
  -- There are two plans at most, so there is nothing to join, or one merge.
  · have hlen : ids.length ≤ 2 := by
      have hsub : ids ⊆ w.set.ids := fun i hi => by
        obtain ⟨j, -, hplace⟩ := exists_right_of_forall₂ hids hi
        exact hplace.mem_left
      have hle := (hnodup.subperm hsub).length_le
      rw [TableSet.ids, List.length_map] at hle
      exact hle.trans h.sets.few
    cases hids with
    | nil => exact absurd hw joinSomeWith_nil_ok
    | cons hi hrest =>
      cases hrest with
      | nil =>
        obtain ⟨rfl, rfl⟩ := joinSomeWith_singleton_ok hw
        obtain ⟨rfl, rfl⟩ := joinSomeWith_singleton_ok hv
        exact ⟨h, hi⟩
      | cons hj hrest =>
        cases hrest with
        | nil =>
          have hmerge := joinSomeWith_pair_ok h.left hw
          have hmerge' := joinSomeWith_pair_ok h.right hv
          exact h.merged hi hj (fun _ _ => rfl) (fun _ _ => rfl) hmerge hmerge'
        | cons _ _ => simp at hlen

theorem inStep_joinEverythingWith (h : Twins read w v) :
    InStep (joinEverythingWith condition) (joinEverythingWith condition) w v (Found read) := by
  refine .bind_current (inStep_joinSomeWith h ?_ h.left.answered.nodup)
  unfold TableSet.ids
  rw [List.forall₂_map_left_iff, List.forall₂_map_right_iff]
  exact h.places.imp fun _ _ h => h.2

theorem forall₂_distinct {ids ids' : List PlanId} (h : Twins read w v)
    (hids : List.Forall₂ (SamePlace w v) ids ids') :
    List.Forall₂ (SamePlace w v) (distinct ids) (distinct ids') := by
  induction hids with
  | nil => exact .nil
  | cons hi hrest ih =>
    unfold distinct
    refine .cons hi (List.rel_filter ?_ ih)
    intro i' j' hplace
    show decide (i' ≠ _) = true ↔ decide (j' ≠ _) = true
    rw [decide_eq_true_iff, decide_eq_true_iff]
    exact not_congr (h.eq_iff hplace hi)

/-- The owners of columns are joined in step. -/
theorem inStep_joinReadersWith {columns : List ColumnName} (h : Twins read w v)
    (hcolumns : ∀ c ∈ columns, c ∈ read) :
    InStep (joinReadersWith condition columns) (joinReadersWith condition columns) w v
      (Found read) := by
  unfold joinReadersWith
  cases columns with
  | nil => exact inStep_joinEverythingWith h
  | cons column rest =>
    refine (inStep_resolveOwnersWith h hcolumns).bind ?_
    rintro _ _ _ _ ⟨rfl, rfl⟩
    refine (inStep_owners h hcolumns).bind ?_
    rintro ids _ ids' _ ⟨rfl, rfl, hids⟩
    exact inStep_joinSomeWith h (forall₂_distinct h hids) (nodup_distinct ids)

end Planner

end QueryPlan
