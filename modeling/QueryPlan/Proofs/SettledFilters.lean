import QueryPlan.Proofs.LocalFilters
import QueryPlan.Proofs.ReportedColumns
import QueryPlan.Proofs.UnpaddedRuns

/-!
# Predicates and pending outer joins

A predicate on rows that an outer join is still to pad would see them too early. So it
is applied to a plan that no pending outer join pads, whatever has to be joined for
that.

- `Settled`: an unpadded plan owns some columns.
- `Gathered`: some plans became an unpadded one; their columns are settled then.
- `Settles`: columns that were settled are settled still.
- `joinReadersWith_settles`: the columns that are joined for a predicate are settled.
- `PlanNode.Applies`: the node on top of a tree applies a predicate.
- `applyWith_lands`: the plan with that node is unpadded and owns what it reads.
- `apply_unpadded`: so it is in any state that planning comes through.
-/

namespace QueryPlan

variable {w w₁ w' : Workspace} {columns : List ColumnName} {c : ColumnName} {id id' i : PlanId}

/-! ## Settled columns -/

/-- The plan `id` owns the columns, and no pending outer join pads it. -/
structure Settled (set : TableSet) (columns : List ColumnName) (id : PlanId) : Prop where
  unpadded : ∃ p ∈ set.tables, p.id = id ∧ p.nullPaddedBy? = none
  owner : ∀ c ∈ columns, set.owner c = .ok id

theorem Settled.append {others : List ColumnName} {set : TableSet} (h : Settled set columns id)
    (h' : Settled set others id) : Settled set (columns ++ others) id :=
  ⟨h.unpadded, List.forall_mem_append.mpr ⟨h.owner, h'.owner⟩⟩

theorem Settled.nullPaddedBy?_eq_none (h : Settled w.set columns id)
    (hw : Sound (fun _ => True) w) {p : TablePlan} (hp : p ∈ w.set.tables) (hid : p.id = id) :
    p.nullPaddedBy? = none := by
  obtain ⟨q, hq, rfl, hnone⟩ := h.unpadded
  rwa [hw.answered.eq_of_id hp hq hid]

theorem Settled.mono {others : List ColumnName} {set : TableSet} (h : Settled set columns id)
    (hsub : ∀ c ∈ others, c ∈ columns) : Settled set others id :=
  ⟨h.unpadded, fun c hc => h.owner c (hsub c hc)⟩

/-- A column is owned by the plan that stands for its owner. -/
theorem Regroups.owner {g : PlanId → PlanId} {set set' : TableSet}
    (h : Regroups g set.tables set'.tables) (hids : (set'.tables.map TablePlan.id).Nodup)
    (howner : set.owner c = .ok i) : set'.owner c = .ok (g i) := by
  obtain ⟨⟨p, hp, rfl, hexposes⟩, honly⟩ := owner_ok howner
  obtain ⟨q, hq, hid⟩ := h.mem p hp
  have hqc := (h.exposes q hq c).mpr ⟨p, hp, hid.symm, hexposes⟩
  rw [← hid]
  refine owner_eq_of_sole hq hqc ((owned_iff hids).mp ⟨q, hq, hqc, fun s hs hsc => ?_⟩)
  obtain ⟨t, ht, hts, htc⟩ := (h.exposes s hs c).mp hsc
  rw [← hts, honly t ht htc, hid]

/-- Some plans, perhaps with others, became one that is unpadded. -/
structure Gathered (working : List PlanId) (w : Workspace) (id : PlanId) (w' : Workspace) : Prop
    extends Leaves working w id w' where
  steps : Steps False w w'
  unpadded : ∀ p ∈ w'.set.tables, p.id = id → p.nullPaddedBy? = none

/-- Columns that were settled are settled still, perhaps on another plan. -/
structure Settles (w w' : Workspace) : Prop where
  sound : Sound (fun _ => True) w'
  settled : ∀ columns id, Settled w.set columns id → ∃ id', Settled w'.set columns id'

theorem Settles.refl (hw : Sound (fun _ => True) w) : Settles w w :=
  ⟨hw, fun _ id h => ⟨id, h⟩⟩

theorem Settles.trans (h : Settles w w₁) (h' : Settles w₁ w') : Settles w w' := by
  refine ⟨h'.sound, fun columns id hsettled => ?_⟩
  obtain ⟨id₁, h₁⟩ := h.settled columns id hsettled
  exact h'.settled columns id₁ h₁

namespace Gathered

variable {working : List PlanId}

theorem settled_nil (h : Gathered working w id w') : Settled w'.set [] id := by
  obtain ⟨p, hp, rfl⟩ := TableSet.exists_of_mem_ids h.mem
  exact ⟨⟨p, hp, rfl, h.unpadded p hp rfl⟩, List.forall_mem_nil _⟩

/-- The owner of a column is the new plan, or what it was before. -/
theorem owner (h : Gathered working w id w') (hw : Sound (fun _ => True) w)
    (howner : w.set.owner c = .ok i) : w'.set.owner c = .ok id ∨
      i ∉ working ∧ ∃ p ∈ w.set.tables, ∃ q ∈ w'.set.tables, p.id = i ∧ p.Moved q ∧
        w'.set.owner c = .ok q.id := by
  obtain ⟨g, hg⟩ := h.steps.regroups hw
  have howner' := hg.owner (h.steps.sound hw).answered.nodup howner
  obtain ⟨⟨q, hq, hid, hexposes⟩, -⟩ := owner_ok howner'
  rw [← hid] at howner'
  by_cases hne : q.id = id
  · exact Or.inl (hne ▸ howner')
  · obtain ⟨hout, p, hp, hmoved⟩ := h.others q hq hne
    have hpc : p.exposes c = true := by rwa [← TablePlan.exposes_of_perm (.of_eq hmoved.columns)]
    obtain rfl := (owner_ok howner).2 p hp hpc
    exact Or.inr ⟨hmoved.id_eq ▸ hout, p, hp, q, hq, rfl, hmoved, howner'⟩

/-- Columns of plans that were gathered are settled. -/
theorem settled (h : Gathered working w id w') (hw : Sound (fun _ => True) w)
    (howner : ∀ c ∈ columns, ∃ i ∈ working, w.set.owner c = .ok i) : Settled w'.set columns id := by
  refine ⟨h.settled_nil.unpadded, fun c hc => ?_⟩
  obtain ⟨i, hi, howner⟩ := howner c hc
  exact (h.owner hw howner).resolve_right fun hout => hout.1 hi

theorem settles (h : Gathered working w id w') (hw : Sound (fun _ => True) w) : Settles w w' := by
  have hw' := h.steps.sound hw
  refine ⟨hw', fun columns i hsettled => ?_⟩
  obtain ⟨g, hg⟩ := h.steps.regroups hw
  have hall : ∀ c ∈ columns, w'.set.owner c = .ok (g i) := fun c hc =>
    hg.owner hw'.answered.nodup (hsettled.owner c hc)
  rcases columns with _ | ⟨c, rest⟩
  · exact ⟨id, h.settled_nil⟩
  -- All of the columns have the owner that the first one has.
  suffices hfirst : ∃ q ∈ w'.set.tables, w'.set.owner c = .ok q.id ∧ q.nullPaddedBy? = none by
    obtain ⟨q, hq, howner, hnone⟩ := hfirst
    have hid : q.id = g i := Except.ok.inj (howner.symm.trans (hall c List.mem_cons_self))
    exact ⟨g i, ⟨q, hq, hid, hnone⟩, hall⟩
  obtain ⟨p, hp, rfl, hnone⟩ := hsettled.unpadded
  rcases h.owner hw (hsettled.owner c List.mem_cons_self) with howner | ⟨-, p', hp', q, hq, hid,
    hmoved, howner⟩
  · obtain ⟨q, hq, rfl⟩ := TableSet.exists_of_mem_ids h.mem
    exact ⟨q, hq, howner, h.unpadded q hq rfl⟩
  · obtain rfl := hw.answered.eq_of_id hp' hp hid
    exact ⟨q, hq, howner, hmoved.nullPaddedBy?_eq_none.mpr hnone⟩

end Gathered

/-! ## Joins -/

namespace Planner

/-- A plan that is resolved becomes, with its partners, an unpadded one. -/
theorem resolveWith_gathered (hw : Sound (fun _ => True) w) (hid : id ∈ w.set.ids)
    (h : resolveWith planCondition id w = .ok id' w') : Gathered [id] w id' w' := by
  have hresolves := (meets_resolveWith conditionLaw_any hw hid).ok h
  obtain ⟨pairings, hrun⟩ := exists_resolution_of_ok h
  obtain ⟨q, hget, hnone⟩ := hrun.ends_unpadded
  obtain ⟨hq, rfl⟩ := TableSet.mem_of_get? hget
  refine ⟨hrun.leaves moveLaw_any (.of_sound hw), hresolves.steps, fun p hp hpid => ?_⟩
  rwa [(hresolves.steps.sound hw).answered.eq_of_id hp hq hpid]

/-- Unpadded plans that are joined become an unpadded one. -/
theorem joinSomeWith_gathered {working : List PlanId} (hw : Sound (fun _ => True) w)
    (hnodup : working.Nodup) (hmem : ∀ i ∈ working, i ∈ w.set.ids)
    (hunpadded : ∀ p ∈ w.set.tables, p.id ∈ working → p.nullPaddedBy? = none)
    (h : joinSomeWith planCondition working w = .ok id w') : Gathered working w id w' := by
  obtain ⟨pairings, hrun⟩ := exists_joinRun_of_some h
  have hne : working ≠ [] := by
    rintro rfl
    cases hrun
  exact ⟨hrun.leaves moveLaw_any (.of_sound hw) hmem,
    ((meets_joinSomeWith conditionLaw_any hw hne hnodup hmem).ok h).steps,
    hrun.unpadded hw hnodup hmem (.of_unpadded hunpadded) id w' rfl⟩

/-- After the owner of a column was resolved, the column is settled. -/
theorem ownerWith_gathered {column : ColumnName} (hw : Sound (fun _ => True) w)
    (h : ownerWith planCondition column w = .ok id w') :
    Settles w w' ∧ Settled w'.set [column] id := by
  unfold ownerWith at h
  simp only [bind_ok, ask_ok] at h
  obtain ⟨i, _, ⟨howner, rfl⟩, h⟩ := h
  obtain ⟨⟨p, hp, rfl, -⟩, -⟩ := owner_ok howner
  have hgathered := resolveWith_gathered hw (TableSet.mem_ids hp) h
  refine ⟨hgathered.settles hw, hgathered.settled hw fun c hc => ?_⟩
  exact ⟨p.id, List.mem_singleton_self _, List.mem_singleton.mp hc ▸ howner⟩

/-- After the owners of columns were resolved, each of the columns is settled. -/
theorem resolveOwnersWith_settles {u : Unit} (hw : Sound (fun _ => True) w)
    (h : resolveOwnersWith planCondition columns w = .ok u w') :
    Settles w w' ∧ ∀ c ∈ columns, ∃ i, Settled w'.set [c] i := by
  induction columns generalizing w with
  | nil =>
    obtain ⟨-, rfl⟩ := pure_ok.mp h
    exact ⟨.refl hw, List.forall_mem_nil _⟩
  | cons column rest ih =>
    rw [resolveOwnersWith_cons, bind_ok] at h
    obtain ⟨i, w₁, howner, h⟩ := h
    obtain ⟨hsettles, hcolumn⟩ := ownerWith_gathered hw howner
    obtain ⟨hrest, hsettled⟩ := ih hsettles.sound h
    exact ⟨hsettles.trans hrest, List.forall_mem_cons.mpr ⟨hrest.settled _ _ hcolumn, hsettled⟩⟩

/-- The owners of columns, as they are looked up one by one. -/
theorem owners_ok {ids : List PlanId}
    (h : (columns.mapM fun column => ask fun set => set.owner column) w = .ok ids w') :
    w' = w ∧ List.Forall₂ (fun c i => w.set.owner c = .ok i) columns ids := by
  induction columns generalizing w ids with
  | nil =>
    obtain ⟨rfl, rfl⟩ := pure_ok.mp h
    exact ⟨rfl, .nil⟩
  | cons column rest ih =>
    rw [List.mapM_cons] at h
    simp only [bind_ok, ask_ok, pure_ok] at h
    obtain ⟨i, _, ⟨howner, rfl⟩, others, _, hothers, rfl, rfl⟩ := h
    obtain ⟨rfl, hall⟩ := ih hothers
    exact ⟨rfl, .cons howner hall⟩

/-- The plan that is joined from the owners of columns settles them. -/
theorem joinReadersWith_settles (hw : Sound (fun _ => True) w) (hne : columns ≠ [])
    (h : joinReadersWith planCondition columns w = .ok id w') :
    Settles w w' ∧ Settled w'.set columns id := by
  unfold joinReadersWith at h
  rw [if_neg (by rwa [List.isEmpty_iff])] at h
  simp only [bind_ok] at h
  obtain ⟨u, w₁, hresolve, ids, w₂, howners, h⟩ := h
  obtain ⟨hsettles, hsettled⟩ := resolveOwnersWith_settles hw hresolve
  obtain ⟨rfl, hall⟩ := owners_ok howners
  have hw₁ := hsettles.sound
  -- Each of the plans is the unpadded owner of one of the columns.
  have howned : ∀ i ∈ ids, ∃ p ∈ w₂.set.tables, p.id = i ∧ p.nullPaddedBy? = none := by
    intro i hi
    obtain ⟨c, hc, howner⟩ := exists_left_of_forall₂ hall hi
    obtain ⟨j, hj⟩ := hsettled c hc
    obtain rfl := Except.ok.inj ((hj.owner c (List.mem_singleton_self c)).symm.trans howner)
    exact hj.unpadded
  have hmem : ∀ i ∈ distinct ids, i ∈ w₂.set.ids := by
    intro i hi
    obtain ⟨p, hp, rfl, -⟩ := howned i (mem_distinct.mp hi)
    exact TableSet.mem_ids hp
  have hunpadded : ∀ p ∈ w₂.set.tables, p.id ∈ distinct ids → p.nullPaddedBy? = none := by
    intro p hp hin
    obtain ⟨q, hq, hid, hnone⟩ := howned p.id (mem_distinct.mp hin)
    rwa [hw₁.answered.eq_of_id hp hq hid.symm]
  have hgathered := joinSomeWith_gathered hw₁ (nodup_distinct ids) hmem hunpadded h
  refine ⟨hsettles.trans (hgathered.settles hw₁), hgathered.settled hw₁ fun c hc => ?_⟩
  obtain ⟨i, hi, howner⟩ := exists_right_of_forall₂ hall hc
  exact ⟨i, mem_distinct.mpr hi, howner⟩

end Planner

/-! ## Predicates -/

/-- The node on top of a tree applies the predicate. -/
inductive PlanNode.Applies : Predicate → PlanNode → Prop where
  | simpleSelect (input : PlanNode) (column : ColumnName) (op : BinaryOp) (value : Expr) :
    Applies (.simpleSingle column op value) (.simpleSelect input column op value)
  | patternSelect (input : PlanNode) (column : ColumnName) (op : MatchOp) (pattern : Expr)
    (escape : Option Expr) :
    Applies (.simplePattern column op pattern escape)
      (.patternSelect input column op pattern escape)
  | anyAllSelect (input : PlanNode) (column : ColumnName) (op : BinaryOp) (quantifier : Quantifier)
    (query : SubQuery) :
    Applies (.simpleSubQuery column op quantifier query)
      (.anyAllSelect input query.plan [column] op quantifier)
  /-- The predicate is evaluated row by row. -/
  | exhaustiveSelect (input : PlanNode) (predicate : Predicate) :
    Applies predicate (.exhaustiveSelect input predicate.meaning)
  | join (left right : PlanNode) (column : ColumnName) (op : BinaryOp) (value : Expr)
    (mixed : Bool) :
    Applies (.standardJoin (.binary (.reference column) op value) mixed)
      (.join left right column op value)
  /-- The side of a comparison that is a column alone comes to the left. -/
  | joinReversed (left right : PlanNode) (column : ColumnName) (op : BinaryOp) (value : Expr)
    (mixed : Bool) :
    Applies (.standardJoin (.binary value op (.reference column)) mixed)
      (.join left right column op.reverse value)

/-- A plan applies the predicate and owns what that reads, and no pending outer join pads it. -/
def Lands (predicate : Predicate) (set : TableSet) : Prop :=
  ∃ p ∈ set.tables, p.executable.Applies predicate ∧ p.nullPaddedBy? = none ∧
    ∀ c ∈ predicate.reads, set.owner c = .ok p.id

namespace Planner

variable {predicate : Predicate} {u : Unit}

/-- A select lands on a plan that has the columns of its predicate settled. -/
theorem selectOn_lands {select : PlanNode → PlanNode} (hw : Sound (fun _ => True) w)
    (hcovered : ∀ t, (select t).covered? = some t) (happlies : ∀ t, (select t).Applies predicate)
    (hsettled : Settled w.set predicate.reads id) (h : selectOn id select w = .ok u w') :
    Lands predicate w'.set := by
  obtain ⟨p, hp, rfl, hnone⟩ := hsettled.unpadded
  have hsteps : Steps False w w' :=
    (meets_selectOn hw (TableSet.mem_ids hp) hcovered False.elim).ok h
  obtain ⟨-, rfl⟩ := changePlan_ok.mp h
  -- All plans keep their columns.
  have hsame : Regroups (fun i => i) w.set.tables (w.set.modify p.id (.update select)).tables := by
    refine .of_stay hw.answered.nodup (List.forall₂_map_right_iff.mpr
      (List.forall₂_same.mpr fun q _ => ?_))
    have hcovers : q.Covers False (if q.id = p.id then q.update select else q) :=
      .update_if hcovered False.elim _ q
    exact ⟨hcovers.follows, .of_eq hcovers.columns⟩
  refine ⟨p.update select, List.mem_map.mpr ⟨p, hp, if_pos rfl⟩, happlies _, hnone, fun c hc => ?_⟩
  exact hsame.owner (hsteps.sound hw).answered.nodup (hsettled.owner c hc)

theorem selectRows_lands (hw : Sound (fun _ => True) w)
    (hsettled : Settled w.set predicate.reads id)
    (h : selectRows id predicate.meaning w = .ok u w') : Lands predicate w'.set :=
  selectOn_lands hw (fun _ => rfl) (fun t => .exhaustiveSelect t predicate) hsettled h

/-- A select lands on the plan that owns a column, after that was resolved. -/
theorem selectOwner_lands {column : ColumnName} {select : PlanNode → PlanNode}
    (hw : Sound (fun _ => True) w) (hcovered : ∀ t, (select t).covered? = some t)
    (happlies : ∀ t, (select t).Applies predicate) (hreads : predicate.reads = [column])
    (h : (do selectOn (← ownerWith planCondition column) select) w = .ok u w') :
    Lands predicate w'.set := by
  obtain ⟨id, w₁, howner, h⟩ := bind_ok.mp h
  obtain ⟨hsettles, hsettled⟩ := ownerWith_gathered hw howner
  exact selectOn_lands hsettles.sound hcovered happlies (hreads ▸ hsettled) h

/-- A predicate that is evaluated row by row lands on the plan that is joined for it. -/
theorem selectReaders_lands (hw : Sound (fun _ => True) w) (hne : predicate.reads ≠ [])
    (h : (do selectRows (← joinReadersWith planCondition predicate.reads) predicate.meaning) w =
      .ok u w') : Lands predicate w'.set := by
  obtain ⟨id, w₁, hjoin, h⟩ := bind_ok.mp h
  obtain ⟨hsettles, hsettled⟩ := joinReadersWith_settles hw hne hjoin
  exact selectRows_lands hsettles.sound hsettled h

section

variable {a b : TablePlan} {left right : List ColumnName} (hw : Sound (fun _ => True) w)
  (ha : a ∈ w.set.tables) (hb : b ∈ w.set.tables) (hl : Settled w.set left a.id)
  (hr : Settled w.set right b.id) (hreads : ∀ c ∈ predicate.reads, c ∈ left ∨ c ∈ right)

include hw ha hb hl hr hreads

/-- A predicate that is evaluated on the join of two settled plans lands there. -/
theorem joinThenSelectWith_lands (hne : a.id ≠ b.id)
    (h : joinThenSelectWith planCondition a.id b.id predicate.meaning w = .ok u w') :
    Lands predicate w'.set := by
  unfold joinThenSelectWith at h
  rw [bind_ok] at h
  obtain ⟨id, w₁, hjoin, h⟩ := h
  have hmem : ∀ i ∈ [a.id, b.id], i ∈ w.set.ids := by
    simp only [List.forall_mem_cons]
    exact ⟨TableSet.mem_ids ha, TableSet.mem_ids hb, List.forall_mem_nil _⟩
  have hunpadded : ∀ p ∈ w.set.tables, p.id ∈ [a.id, b.id] → p.nullPaddedBy? = none := by
    intro p hp hin
    rcases List.mem_pair.mp hin with hid | hid
    · exact hl.nullPaddedBy?_eq_none hw hp hid
    · exact hr.nullPaddedBy?_eq_none hw hp hid
  have hgathered := joinSomeWith_gathered hw (by simp [hne]) hmem hunpadded hjoin
  refine selectRows_lands (hgathered.steps.sound hw) (hgathered.settled hw fun c hc => ?_) h
  rcases hreads c hc with hc | hc
  · exact ⟨a.id, by simp, hl.owner c hc⟩
  · exact ⟨b.id, by simp, hr.owner c hc⟩

/-- A comparison on which two settled plans are merged lands on the merge, if they have no link with
each other and do not clash. -/
theorem merge_lands {build : PlanNode → PlanNode → PlanNode}
    (hbuild : ∀ s t, (build s t).joined? = some (s, t))
    (happlies : ∀ s t, (build s t).Applies predicate) (hfree : Free w.set a.id b.id)
    (h : merge a.id b.id build w = .ok id w') : Lands predicate w'.set := by
  obtain ⟨hab, hba, hsafe⟩ := hfree.of_mem hw.answered.nodup ha hb
  obtain ⟨a', ha', b', hb', hida, hidb, hne, hid, rfl⟩ := merge_ok hw.answered.nodup h
  obtain rfl := hw.answered.eq_of_id ha' ha hida
  obtain rfl := hw.answered.eq_of_id hb' hb hidb
  have hmerges : Merges False a'.id b'.id w id _ :=
    (meets_merge_unlinked hw ha hb hne hsafe hab hba hbuild).ok h
  have hclear := clear_of_safe hw.answered ha hb hne hsafe
  have hnone : (mergedPlan id a' b' fun _ _ =>
      build a'.executable b'.executable).nullPaddedBy? = none := by
    refine nullPaddedBy?_eq_none_iff.mpr fun side link hpad => ?_
    rcases ((mergedPlan_paddedOn hclear).mp hpad).1 with hpad | hpad
    · exact nullPaddedBy?_eq_none_iff.mp (hl.nullPaddedBy?_eq_none hw ha rfl) side link hpad
    · exact nullPaddedBy?_eq_none_iff.mp (hr.nullPaddedBy?_eq_none hw hb rfl) side link hpad
  have hregroups : Regroups (collapse a'.id b'.id id) w.set.tables
      (mergedTables w.set.tables a' b' id (build a'.executable b'.executable)) :=
    .merged hw.answered.nodup ha hb hclear fun p hp => hw.id_ne hp hmerges.fresh
  refine ⟨_, mergedPlan_mem, happlies _ _, hnone, fun c hc => ?_⟩
  have hnodup := (hmerges.steps.sound hw).answered.nodup
  rcases hreads c hc with hc | hc
  · rw [hregroups.owner hnodup (hl.owner c hc), collapse_left]
    rfl
  · rw [hregroups.owner hnodup (hr.owner c hc), collapse_right]
    rfl

end

/-- A comparison that is put on two settled plans lands. -/
theorem compareWith_lands {left right : Expr} {op : BinaryOp} {mixed : Bool} {lhs rhs : PlanId}
    (hw : Sound (fun _ => True) w) (hl : Settled w.set left.references lhs)
    (hr : Settled w.set right.references rhs)
    (h : compareWith planCondition left op right lhs rhs w = .ok u w') :
    Lands (.standardJoin (.binary left op right) mixed) w'.set := by
  have hreads : ∀ c ∈ (Predicate.standardJoin (.binary left op right) mixed).reads,
      c ∈ left.references ∨ c ∈ right.references :=
    fun c hc => Expr.mem_references_binary.mp hc
  obtain ⟨a, ha, rfl, -⟩ := hl.unpadded
  obtain ⟨b, hb, rfl, -⟩ := hr.unpadded
  cases compareWith_ok h with
  | inside same selected =>
    rw [← same] at hr
    exact selectRows_lands hw ((hl.append hr).mono fun c hc => List.mem_append.mpr (hreads c hc))
      selected
  | rows ne selected => exact joinThenSelectWith_lands hw ha hb hl hr hreads ne selected
  | onLeft _ side free merged =>
    subst side
    exact merge_lands hw ha hb hl hr hreads (fun _ _ => rfl) (fun s t => .join s t _ _ _ _) free
      merged
  | onRight _ side free merged =>
    subst side
    exact merge_lands hw hb ha hr hl (fun c hc => (hreads c hc).symm) (fun _ _ => rfl)
      (fun s t => .joinReversed s t _ _ _ _) free.symm merged

/-- A comparison lands on the plan that both of its sides are joined into. -/
theorem applyStandardJoinWith_lands {left right : Expr} {op : BinaryOp} {mixed : Bool}
    (hw : Sound (fun _ => True) w) (hne : (Expr.binary left op right).references ≠ [])
    (h : applyStandardJoinWith planCondition (.binary left op right) w = .ok u w') :
    Lands (.standardJoin (.binary left op right) mixed) w'.set := by
  rcases Expr.constant_or_reads left right with hconstant | ⟨first, hfirst, hleft, hright⟩
  · rw [applyStandardJoinWith_of_constant hconstant] at h
    exact selectReaders_lands hw hne h
  · rw [applyStandardJoinWith_of_reads hleft hright] at h
    simp only [bind_ok, ask_ok] at h
    obtain ⟨id₁, w₁, hjoin₁, rhs, w₂, hjoin₂, lhs, w₂, ⟨howner, rfl⟩, h⟩ := h
    obtain ⟨hsettles₁, hsettled₁⟩ := joinReadersWith_settles hw (List.ne_nil_of_mem hfirst) hjoin₁
    obtain ⟨hsettles₂, hr⟩ := joinReadersWith_settles hsettles₁.sound hright hjoin₂
    -- All columns of the left side still have one owner, perhaps that of the right side.
    obtain ⟨l, hl⟩ := hsettles₂.settled _ _ hsettled₁
    obtain rfl : l = lhs := Except.ok.inj ((hl.owner first hfirst).symm.trans howner)
    exact compareWith_lands hsettles₂.sound hl hr h

/-- A predicate that reads columns, and is not an OR, lands. -/
theorem applyWith_lands {planOr : Planner Unit} (hw : Sound (fun _ => True) w)
    (happlicable : predicate.Applicable False) (hreads : predicate.reads ≠ [])
    (hlogic : ∀ e joinable, predicate ≠ .subLogic e joinable)
    (h : applyWith planCondition planOr predicate w = .ok u w') : Lands predicate w'.set := by
  cases predicate with
  | constant expr => exact absurd rfl hreads
  | simpleSingle column op value =>
    exact selectOwner_lands hw (fun _ => rfl) (fun t => .simpleSelect t _ _ _) rfl h
  | complexSingle column expr =>
    exact selectOwner_lands hw (fun _ => rfl)
      (fun t => .exhaustiveSelect t (.complexSingle column expr)) rfl h
  | simplePattern column op pattern escape =>
    exact selectOwner_lands hw (fun _ => rfl) (fun t => .patternSelect t _ _ _ _) rfl h
  | simpleSubQuery column op quantifier query =>
    exact selectOwner_lands hw (fun _ => rfl) (fun t => .anyAllSelect t _ _ _ _) rfl h
  | complexPattern expr references => exact selectReaders_lands hw hreads h
  | exhaustiveJoin expr references => exact selectReaders_lands hw hreads h
  | exhaustiveSubQuery expr references => exact selectReaders_lands hw hreads h
  | standardJoin expr mixed =>
    cases expr with
    | binary left op right => exact applyStandardJoinWith_lands hw hreads h
    | _ => exact happlicable.elim
  | subLogic expr joinable => exact absurd rfl (hlogic expr joinable)

end Planner

/-- A predicate that reads columns is not applied to an empty set. -/
theorem nonempty_of_applyWith {condition : ConditionPlanner} {planOr : Planner Unit}
    {predicate : Predicate} {u : Unit} (hreads : predicate.reads ≠ [])
    (hlogic : ∀ e joinable, predicate ≠ .subLogic e joinable)
    (h : Planner.applyWith condition planOr predicate w = .ok u w') : w.set.tables ≠ [] := by
  let Empty : Workspace → Prop := fun w => w.set.tables = []
  have hlookup : ∀ c, Lookup Empty False c := by
    intro c w i w' hempty h
    obtain ⟨⟨p, hp, -⟩, -⟩ := owner_ok (Planner.ask_ok.mp h).1
    rw [hempty] at hp
    exact List.not_mem_nil hp
  have hkeeps : ∀ {α : Type} {act : Planner α}, Finds Empty False act → Keeps Empty act :=
    fun h w a w' hw hok => (h w a w' hw hok).elim
  have howner : ∀ column, Keeps Empty (Planner.ownerWith condition column) :=
    fun column => hkeeps (Planner.finds_ownerWith (hlookup column))
  obtain ⟨c, hc⟩ := List.exists_mem_of_ne_nil _ hreads
  refine fun hempty => Planner.finds_applyWith howner hc ?_ ?_ (hlookup c) w u w' hempty h
  · intro left op right mixed _
    rcases hleft : left.references with _ | ⟨first, others⟩
    · exact Or.inr (Or.inl rfl)
    · exact Or.inr (Or.inr (hkeeps
        (Planner.finds_joinReadersWith howner List.mem_cons_self (hlookup first))))
  · exact fun e joinable heq => absurd heq (hlogic e joinable)

/-! ## Planning -/

/-- Every predicate of some conjuncts is that of one of them. -/
theorem TableSet.exists_of_classify {set : TableSet} {conjuncts : List Expr}
    {predicates : List Predicate} {predicate : Predicate}
    (h : set.classify conjuncts = .ok predicates) (hmem : predicate ∈ predicates) :
    ∃ bucket e, set.classifyOne e = .ok (some (bucket, predicate)) := by
  unfold classify at h
  obtain ⟨placed, hplaced, h⟩ := except_bind_ok.mp h
  cases h
  obtain ⟨y, hy, rfl⟩ := List.mem_map.mp hmem
  obtain ⟨x, -, bucket, hone, -⟩ := mem_of_classifyAll hplaced hy
  exact ⟨bucket, x.1, hone⟩

/-- Applied in any state that planning comes through from links that pass their check, a predicate
of a conjunct lands on a plan that no pending outer join pads. -/
theorem apply_unpadded {uuids : Identifiers} {settings : Settings} {set among : TableSet}
    {supply : PlanId.Supply} {conjuncts : List Expr} {predicates : List Predicate}
    {predicate : Predicate}
    (hids : (set.tables.map TablePlan.id).Nodup)
    (hgiven : ∀ p ∈ set.tables, p.id.number < supply.next) (hvalid : set.validateLinks = .ok ())
    (hw : Reached ⟨set, .start uuids settings supply⟩ w)
    (hclass : among.classify conjuncts = .ok predicates) (hmem : predicate ∈ predicates)
    (hconstant : ∀ expr, predicate ≠ .constant expr)
    (hlogic : ∀ expr joinable, predicate ≠ .subLogic expr joinable)
    (h : Planner.apply predicate w = .ok () w') :
    ∃ p ∈ w'.set.tables, p.executable.Applies predicate ∧ predicate.reads ≠ [] ∧
      (∀ c ∈ predicate.reads, w'.set.owner c = .ok p.id) ∧ p.nullPaddedBy? = none ∧
      (∀ link, p.left = some link → link.joinType ≠ .left ∧ link.joinType ≠ .full) ∧
      ∀ link, p.right = some link → link.joinType ≠ .right ∧ link.joinType ≠ .full := by
  obtain ⟨bucket, e, hone⟩ := TableSet.exists_of_classify hclass hmem
  -- Only constants read no column.
  have hreads : predicate.reads ≠ [] := by
    intro hnone
    rcases TableSet.kind_of_classifyOne hone with ⟨-, joinable, heq⟩ | ⟨-, hkind⟩
    · exact hlogic e joinable heq
    · obtain ⟨-, expr, heq⟩ := hkind.constant_of_reads hnone
      exact hconstant expr heq
  -- The state is sound: there are plans, since there are columns.
  have hsound : Sound (fun _ => True) w := by
    refine hw.sound (sound_of_validateLinks (fun hempty => ?_) hids hgiven hvalid
      fun _ _ _ _ _ => trivial)
    exact nonempty_of_applyWith hreads hlogic h (hw.eq_nil hempty)
  obtain ⟨p, hp, happlies, hnone, howner⟩ := Planner.applyWith_lands hsound
    (TableSet.applicable_of_classifyOne nofun hone) hreads hlogic h
  have hpad := nullPaddedBy?_eq_none_iff.mp hnone
  refine ⟨p, hp, happlies, hreads, howner, hnone, fun link hlink => ?_, fun link hlink => ?_⟩
  · have := fun hpads => hpad .left link ⟨hlink, hpads⟩
    constructor <;> intro heq <;> exact this (by rw [heq]; rfl)
  · have := fun hpads => hpad .right link ⟨hlink, hpads⟩
    constructor <;> intro heq <;> exact this (by rw [heq]; rfl)

/-- The table in the middle of a chain of outer joins is joined with the first before a predicate
on it is applied. -/
theorem apply_unpadded_of_chain :
    let set : TableSet := ⟨chainOfOnes .left (.binary (columnOf "a") .eq (columnOf "b"))
      (.binary (columnOf "b") .lt (columnOf "c")), false⟩
    let predicate := Predicate.simpleSingle (.qualified "b" "x") .eq (.constant (.int 1))
    (∃ p ∈ set.tables, p.id = ⟨2⟩ ∧ p.nullPaddedBy? = some ⟨1⟩) ∧
      set.classify [.binary (columnOf "b") .eq (.constant (.int 1))] = .ok [predicate] ∧
      ∃ w, Planner.apply predicate ⟨set, .start .blank default ⟨4⟩⟩ = .ok () w ∧
        ∃ p ∈ w.set.tables, p.executable.Applies predicate ∧ p.nullPaddedBy? = none ∧
          w.set.owner (.qualified "b" "x") = .ok p.id := by
  intro set predicate
  have hclass : set.classify [.binary (columnOf "b") .eq (.constant (.int 1))] =
      .ok [predicate] := by rfl
  have hrun : resultWith (fun _ _ => ())
      (Planner.apply predicate ⟨set, .start .blank default ⟨4⟩⟩) = some () := by decide +kernel
  obtain ⟨_, w, h, -⟩ := exists_of_resultWith hrun
  obtain ⟨p, hp, happlies, -, howner, hnone, -⟩ := apply_unpadded (by decide) (by decide)
    (by decide +kernel) .start hclass (List.mem_singleton_self _)
    (fun _ heq => Predicate.noConfusion heq) (fun _ _ heq => Predicate.noConfusion heq) h
  have hb : set.tables[1] ∈ set.tables := List.getElem_mem _
  exact ⟨⟨_, hb, rfl, rfl⟩, hclass, w, h, p, hp, happlies, hnone,
    howner _ (List.mem_singleton_self _)⟩

end QueryPlan
