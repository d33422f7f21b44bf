import QueryPlan.Proofs.LightPredicates
import QueryPlan.Proofs.Positions
import QueryPlan.Proofs.ScopedFilters
import QueryPlan.Proofs.TwinFilters
import QueryPlan.Proofs.Vacuous

/-!
# Filters on one plan

A filter whose columns all belong to one plan, which no pending outer join pads,
changes the tree of that plan and nothing else.

- `ChangesOnly`: the same plans under other handles, of which one has another tree.
- `OwnsAll`: one plan alone exposes the columns of a filter.
- `StaysLocal`: a computation that changes that plan only.
- `staysLocal_applyWith`: predicates that read a column are applied locally.
- `LocalSide`: what becomes of copies of the plans on a side of an OR.
- `staysLocal_planOrWith`: an OR is planned locally if its sides are.
- `planExpression_of_one_owner`: so a filter is, each part of which reads a column.
-/

namespace QueryPlan

/-- The operands of the ANDs and ORs at the top of an expression. -/
def Expr.leaves : Expr → List Expr
  | .binary left .and right => left.leaves ++ right.leaves
  | .binary left .or right => left.leaves ++ right.leaves
  | e => [e]

variable {w w₁ w' : Workspace} {t : PlanId} {g f : PlanId → PlanId} {p q r : TablePlan}
  {reads : List ColumnName} {c : ColumnName} {condition : ConditionPlanner}

/-! ## What stays -/

/-- What stays of a plan when the rows of `t` are filtered: all of it, up to handles, but the tree
of `t` itself and whether that was touched. -/
structure TablePlan.Stays (t : PlanId) (g : PlanId → PlanId) (p q : TablePlan) : Prop where
  id_eq : q.id = g p.id
  columns : q.columns = p.columns
  uniqueKeys : q.uniqueKeys = p.uniqueKeys
  links : ∀ side, q.linkOn side = (p.linkOn side).map (JoinLink.rename g)
  others : p.id ≠ t → q.executable = p.executable ∧ q.touched = p.touched

theorem TablePlan.Stays.remains (h : p.Stays t g q) : p.Remains g q :=
  ⟨h.id_eq, h.columns, h.uniqueKeys, h.links⟩

/-- The plans of `w'` are those of `w`, position by position, under the names `g`. None but `t` was
changed. -/
structure ChangesOnly (t : PlanId) (g : PlanId → PlanId) (w w' : Workspace) : Prop where
  names : Names g w.set.ids w'.context.supply.next
  supply : w.context.supply.next ≤ w'.context.supply.next
  hasJoins : w'.set.hasJoins = w.set.hasJoins
  plans : List.Forall₂ (TablePlan.Stays t g) w.set.tables w'.set.tables

theorem TablePlan.linkOn_rename_id (p : TablePlan) (side : Side) :
    p.linkOn side = (p.linkOn side).map (JoinLink.rename fun i => i) := by
  rw [← rename_linkOn, rename_id]

namespace ChangesOnly

theorem refl (hw : SelfContained w) : ChangesOnly t (fun i => i) w w := by
  refine ⟨hw.names_id, le_rfl, rfl, List.forall₂_same.mpr fun p _ => ?_⟩
  exact ⟨rfl, rfl, rfl, p.linkOn_rename_id, fun _ => ⟨rfl, rfl⟩⟩

theorem ids_eq (h : ChangesOnly t g w w') : w'.set.ids = w.set.ids.map g := by
  unfold TableSet.ids
  rw [List.map_map]
  exact map_eq_of_forall₂ h.plans fun _ _ hpq => hpq.id_eq

theorem trans (ht : t ∈ w.set.ids) (h : ChangesOnly t g w w₁) (h' : ChangesOnly (g t) f w₁ w') :
    ChangesOnly t (f ∘ g) w w' := by
  refine ⟨h.names.comp (h.ids_eq ▸ h'.names), h.supply.trans h'.supply,
    h'.hasJoins.trans h.hasJoins, ?_⟩
  refine forall₂_trans ?_ ((List.forall₂_and_left _ _).mpr ⟨fun _ hp => hp, h.plans⟩) h'.plans
  rintro p q r ⟨hp, hpq⟩ hqr
  refine ⟨?_, hqr.columns.trans hpq.columns, hqr.uniqueKeys.trans hpq.uniqueKeys, ?_, ?_⟩
  · rw [hqr.id_eq, hpq.id_eq]
    rfl
  · intro side
    rw [hqr.links, hpq.links, Option.map_map]
    rfl
  · intro hne
    have hne' : q.id ≠ g t := by
      rw [hpq.id_eq]
      exact fun heq => hne (h.names.differ (TableSet.mem_ids hp) ht heq)
    obtain ⟨htree, htouched⟩ := hpq.others hne
    obtain ⟨htree', htouched'⟩ := hqr.others hne'
    exact ⟨htree'.trans htree, htouched'.trans htouched⟩

end ChangesOnly

/-! ## The plan that owns the columns -/

/-- The plan `t` alone exposes the columns `reads`, and no pending outer join pads it. -/
structure OwnsAll (reads : List ColumnName) (t : PlanId) (w : Workspace) : Prop where
  selfContained : SelfContained w
  mem : t ∈ w.set.ids
  unpadded : ∀ p ∈ w.set.tables, p.id = t → p.nullPaddedBy? = none
  exposed : ∀ c ∈ reads, ∀ p ∈ w.set.tables, p.exposes c = true ↔ p.id = t

/-- A plan with the same links under other handles is padded by the same partner. -/
theorem TablePlan.nullPaddedBy?_of_links
    (h : ∀ side, q.linkOn side = (p.linkOn side).map (JoinLink.rename g)) :
    q.nullPaddedBy? = p.nullPaddedBy?.map g := by
  rw [nullPaddedBy?_eq, nullPaddedBy?_eq, padding?_of_links h, Option.map_map, Option.map_map]
  rfl

theorem SelfContained.get? (hw : SelfContained w) (hp : p ∈ w.set.tables) :
    w.set.get? p.id = some p :=
  (get?_eq_some_of_nodup hw.nodup).mpr ⟨hp, rfl⟩

namespace OwnsAll

theorem owner (h : OwnsAll reads t w) (hc : c ∈ reads) : w.set.owner c = .ok t := by
  obtain ⟨p, hp, rfl⟩ := TableSet.exists_of_mem_ids h.mem
  have hexposes := (h.exposed c hc p hp).mpr rfl
  exact owner_eq_of_sole hp hexposes (countP_exposes_of_id h.selfContained.nodup hp hexposes
    fun q hq hq' => (h.exposed c hc q hq).mp hq')

/-- The plan still owns the columns under its new handle. -/
theorem follow {tables : List TablePlan} {hasJoins : Bool} {c : Context}
    (h : OwnsAll reads t w) (hg : Names g w.set.ids c.supply.next)
    (hall : List.Forall₂ (fun p q => q.id = g p.id ∧ q.columns = p.columns ∧
      ∀ side, q.linkOn side = (p.linkOn side).map (JoinLink.rename g)) w.set.tables tables) :
    OwnsAll reads (g t) ⟨⟨tables, hasJoins⟩, c⟩ := by
  have hself : ∀ {p q : TablePlan}, p ∈ w.set.tables → q.id = g p.id →
      (q.id = g t ↔ p.id = t) := by
    intro p q hp hid
    rw [hid]
    exact ⟨fun heq => hg.differ (TableSet.mem_ids hp) h.mem heq, congrArg g⟩
  refine ⟨h.selfContained.follow hg (hall.imp fun _ _ hpq => ⟨hpq.1, hpq.2.2⟩), ?_, ?_, ?_⟩
  · obtain ⟨p, hp, rfl⟩ := TableSet.exists_of_mem_ids h.mem
    obtain ⟨q, hq, hid, -⟩ := exists_right_of_forall₂ hall hp
    exact hid ▸ TableSet.mem_ids hq
  · intro q hq hid
    obtain ⟨p, hp, hpid, -, hlinks⟩ := exists_left_of_forall₂ hall hq
    rw [TablePlan.nullPaddedBy?_of_links hlinks, h.unpadded p hp ((hself hp hpid).mp hid)]
    rfl
  · intro column hcolumn q hq
    obtain ⟨p, hp, hpid, hcolumns, -⟩ := exists_left_of_forall₂ hall hq
    rw [TablePlan.exposes, hcolumns, hself hp hpid]
    exact h.exposed column hcolumn p hp

theorem changed (h : OwnsAll reads t w) (hchange : ChangesOnly t g w w') :
    OwnsAll reads (g t) w' :=
  h.follow hchange.names (hchange.plans.imp fun _ _ hpq => ⟨hpq.id_eq, hpq.columns, hpq.links⟩)

/-- Copies of the plans are owners in turn. -/
theorem copy {c : Context} (h : OwnsAll reads t w) (hg : Names g w.set.ids c.supply.next) :
    OwnsAll reads (g t) ⟨⟨w.set.tables.map (TablePlan.copyUnder g), false⟩, c⟩ := by
  refine h.follow hg ?_
  rw [List.forall₂_map_right_iff, List.forall₂_same]
  exact fun p _ => ⟨rfl, rfl, p.rename_linkOn g⟩

/-- Caches on the plans do not change who owns the columns. -/
theorem wrapped {tables : List TablePlan} {hasJoins : Bool} {c : Context} {last newLast : Nat}
    (h : OwnsAll reads t w) {xs : List (Bool × TablePlan)}
    (hall : List.Forall₂ (TablePlan.Wraps last newLast) w.set.tables xs)
    (htables : xs.map Prod.snd = tables) (hc : c.supply = w.context.supply) :
    OwnsAll reads t ⟨⟨tables, hasJoins⟩, c⟩ := by
  refine h.follow (g := fun i => i) (hc ▸ h.selfContained.names_id) ?_
  rw [← htables, List.forall₂_map_right_iff]
  refine hall.imp fun p x hpx => ?_
  cases hpx with
  | bare => exact ⟨rfl, rfl, p.linkOn_rename_id⟩
  | cached => exact ⟨rfl, rfl, p.linkOn_rename_id⟩

end OwnsAll

/-! ## Local computations -/

/-- The computation changes no plan but the one that owns the columns `reads`. -/
def StaysLocal (reads : List ColumnName) (act : Planner Unit) : Prop :=
  ∀ w t, OwnsAll reads t w → ∃ g w', act w = .ok () w' ∧ ChangesOnly t g w w'

namespace StaysLocal

theorem pure : StaysLocal reads (Pure.pure ()) :=
  fun w _ h => ⟨_, w, rfl, .refl h.selfContained⟩

theorem bind {act act' : Planner Unit} (h : StaysLocal reads act) (h' : StaysLocal reads act') :
    StaysLocal reads (act >>= fun _ => act') := by
  intro w t howns
  obtain ⟨g, w₁, hact, hg⟩ := h w t howns
  obtain ⟨f, w', hact', hf⟩ := h' w₁ (g t) (howns.changed hg)
  exact ⟨f ∘ g, w', Planner.bind_ok.mpr ⟨(), w₁, hact, hact'⟩, hg.trans howns.mem hf⟩

end StaysLocal

/-! ## Predicates -/

namespace Planner

/-- The owner is found without a join. -/
theorem resolveWith_owner (h : OwnsAll reads t w) : resolveWith condition t w = .ok t w := by
  obtain ⟨p, hp, rfl⟩ := TableSet.exists_of_mem_ids h.mem
  obtain ⟨fuel, hfuel⟩ : ∃ fuel, w.set.tables.length = fuel + 1 :=
    Nat.exists_eq_add_one.mpr (List.length_pos_of_mem hp)
  refine bind_ok.mpr ⟨_, w, current_ok.mpr ⟨rfl, rfl⟩, ?_⟩
  rw [hfuel]
  refine bind_ok.mpr ⟨p, w, ask_ok.mpr ⟨require_ok.mpr (h.selfContained.get? hp), rfl⟩, ?_⟩
  rw [h.unpadded p hp rfl]
  rfl

theorem ownerWith_owner (h : OwnsAll reads t w) (hc : c ∈ reads) :
    ownerWith condition c w = .ok t w :=
  bind_ok.mpr ⟨t, w, ask_ok.mpr ⟨h.owner hc, rfl⟩, resolveWith_owner h⟩

theorem resolveOwnersWith_owner (h : OwnsAll reads t w) {columns : List ColumnName}
    (hreads : ∀ c ∈ columns, c ∈ reads) : resolveOwnersWith condition columns w = .ok () w := by
  induction columns with
  | nil => rfl
  | cons column rest ih =>
    rw [List.forall_mem_cons] at hreads
    rw [resolveOwnersWith_cons]
    exact bind_ok.mpr ⟨t, w, ownerWith_owner h hreads.1, ih hreads.2⟩

theorem owners_owner (h : OwnsAll reads t w) {columns : List ColumnName}
    (hreads : ∀ c ∈ columns, c ∈ reads) :
    (columns.mapM fun column => ask fun set => set.owner column) w =
      .ok (columns.map fun _ => t) w := by
  induction columns with
  | nil => rfl
  | cons column rest ih =>
    rw [List.forall_mem_cons] at hreads
    rw [List.mapM_cons]
    exact bind_ok.mpr ⟨t, w, ask_ok.mpr ⟨h.owner hreads.1, rfl⟩,
      bind_ok.mpr ⟨_, w, ih hreads.2, rfl⟩⟩

/-- One owner of several columns is one plan already. -/
theorem joinReadersWith_owner (h : OwnsAll reads t w) {columns : List ColumnName}
    (hne : columns ≠ []) (hreads : ∀ c ∈ columns, c ∈ reads) :
    joinReadersWith condition columns w = .ok t w := by
  unfold joinReadersWith
  rw [if_neg (by rwa [List.isEmpty_iff])]
  refine bind_ok.mpr ⟨(), w, resolveOwnersWith_owner h hreads, ?_⟩
  refine bind_ok.mpr ⟨_, w, owners_owner h hreads, ?_⟩
  rw [distinct_map_const hne]
  refine bind_ok.mpr ⟨some t, w, bind_ok.mpr ⟨_, w, current_ok.mpr ⟨rfl, rfl⟩, ?_⟩, rfl⟩
  unfold joinAllWithin
  rfl

/-- A select on the owner changes the owner only. -/
theorem selectOn_owner (h : OwnsAll reads t w) (select : PlanNode → PlanNode) :
    ∃ g w', selectOn t select w = .ok () w' ∧ ChangesOnly t g w w' := by
  obtain ⟨p, hp, rfl⟩ := TableSet.exists_of_mem_ids h.mem
  refine ⟨fun i => i, _, changePlan_ok.mpr ⟨⟨p, h.selfContained.get? hp⟩, rfl⟩,
    h.selfContained.names_id, le_rfl, rfl, ?_⟩
  show List.Forall₂ _ w.set.tables (w.set.tables.map _)
  rw [List.forall₂_map_right_iff, List.forall₂_same]
  intro q _
  by_cases hid : q.id = p.id
  · rw [if_pos hid]
    exact ⟨rfl, rfl, rfl, q.linkOn_rename_id, absurd hid⟩
  · rw [if_neg hid]
    exact ⟨rfl, rfl, rfl, q.linkOn_rename_id, fun _ => ⟨rfl, rfl⟩⟩

theorem staysLocal_selectOwner (hc : c ∈ reads) (select : PlanNode → PlanNode) :
    StaysLocal reads (do selectOn (← ownerWith condition c) select) := by
  intro w t h
  obtain ⟨g, w', hselect, hchange⟩ := selectOn_owner h select
  exact ⟨g, w', bind_ok.mpr ⟨t, w, ownerWith_owner h hc, hselect⟩, hchange⟩

theorem staysLocal_selectReaders {columns : List ColumnName} (hne : columns ≠ [])
    (hreads : ∀ c ∈ columns, c ∈ reads) (expr : Expr) :
    StaysLocal reads (do selectRows (← joinReadersWith condition columns) expr) := by
  intro w t h
  obtain ⟨g, w', hselect, hchange⟩ := selectOn_owner h (.exhaustiveSelect · expr)
  exact ⟨g, w', bind_ok.mpr ⟨t, w, joinReadersWith_owner h hne hreads, hselect⟩, hchange⟩

/-- Both sides of a comparison are found in one plan. -/
theorem staysLocal_applyStandardJoinWith {left right : Expr} {op : BinaryOp}
    (hne : (Expr.binary left op right).references ≠ [])
    (hreads : ∀ c ∈ (Expr.binary left op right).references, c ∈ reads) :
    StaysLocal reads (applyStandardJoinWith condition (.binary left op right)) := by
  rcases Expr.constant_or_reads left right with hconstant | ⟨first, hfirst, hleft, hright⟩
  · rw [applyStandardJoinWith_of_constant hconstant]
    exact staysLocal_selectReaders hne hreads _
  · rw [applyStandardJoinWith_of_reads hleft hright]
    have hl : ∀ c ∈ left.references, c ∈ reads :=
      fun c hc => hreads c (Expr.mem_references_binary.mpr (Or.inl hc))
    have hr : ∀ c ∈ right.references, c ∈ reads :=
      fun c hc => hreads c (Expr.mem_references_binary.mpr (Or.inr hc))
    intro w t h
    obtain ⟨g, w', hselect, hchange⟩ :=
      selectOn_owner h (.exhaustiveSelect · (.binary left op right))
    refine ⟨g, w', ?_, hchange⟩
    refine bind_ok.mpr ⟨t, w, joinReadersWith_owner h (List.ne_nil_of_mem hfirst) hl, ?_⟩
    refine bind_ok.mpr ⟨t, w, joinReadersWith_owner h hright hr, ?_⟩
    refine bind_ok.mpr ⟨t, w, ask_ok.mpr ⟨h.owner (hl first hfirst), rfl⟩, ?_⟩
    unfold compareWith
    rw [if_pos rfl]
    exact hselect

/-- A predicate that reads a column is applied to the owner, and an OR as it is planned. -/
theorem staysLocal_applyWith {planOr : Planner Unit} (hor : StaysLocal reads planOr)
    {predicate : Predicate} (happlicable : predicate.Applicable False)
    (hne : predicate.reads ≠ [] ∨ ∃ e joinable, predicate = .subLogic e joinable)
    (hreads : ∀ c ∈ predicate.reads, c ∈ reads) :
    StaysLocal reads (applyWith condition planOr predicate) := by
  rcases hne with hne | ⟨e, joinable, rfl⟩
  · unfold applyWith
    cases predicate with
    | constant => exact absurd rfl hne
    | simpleSingle | complexSingle | simplePattern | simpleSubQuery =>
      exact staysLocal_selectOwner (hreads _ (List.mem_singleton_self _)) _
    | complexPattern | exhaustiveJoin | exhaustiveSubQuery =>
      exact staysLocal_selectReaders hne hreads _
    | standardJoin expr mixed =>
      cases expr with
      | binary left op right => exact staysLocal_applyStandardJoinWith hne hreads
      | _ => exact happlicable.elim
    | subLogic => exact hor
  · exact hor

end Planner

/-! ## ORs -/

/-- What became of a copy under the names `g` of a plan `q`, when the rows of the copy of `t` were
filtered. -/
structure TablePlan.StaysInCopy (t : PlanId) (g f : PlanId → PlanId) (q y : TablePlan) : Prop where
  alone : g q.id = g t → q.id = t
  stays : (q.copyUnder g).Stays (g t) f y

/-- What became of copies of plans on a side of an OR: no plans were joined. -/
structure LocalSide (t : PlanId) (g f : PlanId → PlanId) (tables : List TablePlan)
    (side : TableSet) : Prop where
  hasJoins : side.hasJoins = false
  copies : List.Forall₂ (TablePlan.StaysInCopy t g f) tables side.tables

namespace TablePlan.StaysInCopy

variable {l : TablePlan} {f' g' : PlanId → PlanId}

/-- Only the copy of `t` is touched. -/
theorem touched (h : q.StaysInCopy t g f l) (htouched : l.touched = true) : q.id = t := by
  by_contra hne
  obtain ⟨-, hsame⟩ := h.stays.others fun heq => hne (h.alone heq)
  rw [hsame] at htouched
  cases htouched

/-- What stays of a plan on both sides of an OR stays when they are united. -/
theorem united {last newLast : Nat} {x : Bool × TablePlan} (hx : p.Wraps last newLast x)
    (hl : x.2.StaysInCopy t g f l) (hr : x.2.StaysInCopy t g' f' r) :
    p.Stays t (f ∘ g) (unitePosition x.1 x.2 l r) := by
  have hcopy : x.2.Remains g (x.2.copyUnder g) := ⟨rfl, rfl, rfl, x.2.rename_linkOn g⟩
  have hremains : p.Remains (f ∘ g) (unitePosition x.1 x.2 l r) :=
    ((hx.remains.trans hcopy).trans hl.stays.remains).trans (unitePosition_remains x.1 x.2 l r)
  have hid : x.2.id = p.id := hx.remains.id_eq
  refine ⟨hremains.id_eq, hremains.columns, hremains.uniqueKeys, hremains.links, fun hne => ?_⟩
  -- Neither side touched the plan, so it loses the cache again.
  have huntouched : ¬ (l.touched || r.touched) = true := by
    rw [Bool.or_eq_true_iff]
    exact fun h => hne (hid ▸ h.elim hl.touched hr.touched)
  obtain ⟨htree, -⟩ := hl.stays.others fun heq => hne (hid ▸ hl.alone heq)
  unfold unitePosition
  rw [if_neg huntouched]
  cases hx with
  | bare => exact ⟨htree, rfl⟩
  | cached => exact ⟨congrArg PlanNode.withoutCache htree, rfl⟩

end TablePlan.StaysInCopy

/-- If both sides touch `t` only, at most one position was touched. -/
theorem countP_touched_le {tables ls rs : List TablePlan}
    (hl : List.Forall₂ (fun p l => l.touched = true → p.id = t) tables ls)
    (hr : List.Forall₂ (fun p r => r.touched = true → p.id = t) tables rs) :
    (ls.zip rs).countP (fun x => x.1.touched || x.2.touched) ≤
      tables.countP fun p => p.id == t := by
  induction hl generalizing rs with
  | nil => exact Nat.zero_le _
  | @cons p l tables ls hpl _ ih =>
    cases hr with
    | @cons _ r _ rs hpr hr =>
      rw [List.zip_cons_cons, List.countP_cons, List.countP_cons]
      refine Nat.add_le_add (ih hr) ?_
      by_cases htouched : (l.touched || r.touched) = true
      · have hid : p.id = t := (Bool.or_eq_true_iff.mp htouched).elim hpl hpr
        rw [if_pos htouched, if_pos (beq_iff_eq.mpr hid)]
      · rw [if_neg htouched]
        exact Nat.zero_le _

/-- Sides that were planned locally fit together, position by position. -/
theorem LocalSide.not_mustReshape {l r : TableSet} {tables : List TablePlan}
    {f' g' : PlanId → PlanId} (hnodup : (tables.map TablePlan.id).Nodup)
    (hl : LocalSide t g f tables l) (hr : LocalSide t g' f' tables r) :
    mustReshape l r = false := by
  have hone : (tables.countP fun p => p.id == t) ≤ 1 := by
    have hcount : (tables.map TablePlan.id).count t = tables.countP fun p => p.id == t := by
      rw [List.count, List.countP_map]
      rfl
    exact hcount ▸ List.nodup_iff_count_le_one.mp hnodup t
  have hfew := (countP_touched_le (hl.copies.imp fun _ _ h => h.touched)
    (hr.copies.imp fun _ _ h => h.touched)).trans hone
  exact mustReshape_eq_false_iff.mpr
    ⟨hfew, hl.copies.length_eq.symm.trans hr.copies.length_eq, hl.hasJoins, hr.hasJoins⟩

namespace Planner

variable {planLeft planRight : Planner Unit}

/-- A side that is planned locally. -/
theorem localSide_of_staysLocal (hl : StaysLocal reads planLeft) {tables : List TablePlan}
    {hasJoins : Bool} {start c : Context} (h : OwnsAll reads t ⟨⟨tables, hasJoins⟩, start⟩)
    (hg : Names g (tables.map TablePlan.id) c.supply.next) :
    ∃ f l, planLeft ⟨⟨tables.map (TablePlan.copyUnder g), false⟩, c⟩ = .ok () l ∧
      LocalSide t g f tables l.set ∧ c.supply.next ≤ l.context.supply.next ∧
      Names (f ∘ g) (tables.map TablePlan.id) l.context.supply.next := by
  obtain ⟨f, l, hok, hchange⟩ := hl _ _ (h.copy hg)
  have hids : (tables.map (TablePlan.copyUnder g)).map TablePlan.id =
      (tables.map TablePlan.id).map g := by
    rw [List.map_map, List.map_map]
    rfl
  refine ⟨f, l, hok, ⟨hchange.hasJoins, ?_⟩, hchange.supply, hg.comp (hids ▸ hchange.names)⟩
  refine List.Forall₂.imp (fun q y hqy => ⟨hqy.1, hqy.2⟩) ((List.forall₂_and_left _ _).mpr
    ⟨fun q hq => ?_, List.forall₂_map_left_iff.mp hchange.plans⟩)
  exact hg.differ (List.mem_map_of_mem hq) h.mem

/-- Both sides of an OR are planned locally, over copies. -/
theorem planSides_owner (hl : StaysLocal reads planLeft) (hr : StaysLocal reads planRight)
    (h : OwnsAll reads t w) :
    ∃ g f g' f' left right c, planSides planLeft planRight w = .ok (left, right) ⟨w.set, c⟩ ∧
      LocalSide t g f w.set.tables left ∧ LocalSide t g' f' w.set.tables right ∧
      w.context.supply.next ≤ c.supply.next ∧ Names (f ∘ g) w.set.ids c.supply.next := by
  obtain ⟨g, hg, hcopy⟩ := copy_selfContained h.selfContained
  obtain ⟨g', hg', hcopy'⟩ := copy_selfContained (h.selfContained.spend (c := { w.context with
    supply := ⟨w.context.supply.next + w.set.tables.length⟩ }) (Nat.le_add_right _ _))
  obtain ⟨f, l, hleft, hside, hnext, hf⟩ := localSide_of_staysLocal hl h (c := { w.context with
    supply := ⟨w.context.supply.next + w.set.tables.length + w.set.tables.length⟩ })
    (hg.mono (Nat.le_add_right _ _))
  obtain ⟨f', r, hright, hside', hnext', -⟩ := localSide_of_staysLocal hr h (hg'.mono hnext)
  refine ⟨g, f, g', f', l.set, r.set, r.context, ?_, hside, hside', ?_, hf.mono hnext'⟩
  · exact bind_ok.mpr ⟨_, _, hcopy, bind_ok.mpr ⟨_, _, hcopy',
      bind_ok.mpr ⟨(_, _), _, within_ok.mpr ⟨_, hleft, rfl, rfl⟩,
        bind_ok.mpr ⟨(_, _), _, within_ok.mpr ⟨_, hright, rfl, rfl⟩, pure_ok.mpr ⟨rfl, rfl⟩⟩⟩⟩⟩
  · exact (Nat.le_add_right _ _).trans ((Nat.le_add_right _ _).trans (hnext.trans hnext'))

/-- An OR is planned locally if its sides are: they touch copies of the owner only, so that they are
united position by position. -/
theorem staysLocal_planOrWith (hl : StaysLocal reads planLeft) (hr : StaysLocal reads planRight) :
    StaysLocal reads (planOrWith condition planLeft planRight) := by
  intro w t h
  obtain ⟨cached, tables, hcaches, hlen, -, -⟩ := cacheForSides_counted w
  have hwraps := (cacheForSides_wraps hcaches).2
  have htables : (cached.zip tables).map Prod.snd = tables :=
    List.map_snd_zip (le_of_eq hlen.symm)
  have h₁ : OwnsAll reads t ⟨⟨tables, w.set.hasJoins⟩, { w.context with
      cacheIds := w.context.cacheIds + w.uncachedPlans }⟩ := h.wrapped hwraps htables rfl
  obtain ⟨g, f, g', f', left, right, c, hsides, hleft, hright, hnext, hnames⟩ :=
    planSides_owner hl hr h₁
  have hids : tables.map TablePlan.id = w.set.ids := by
    rw [← htables, List.map_map]
    exact map_eq_of_forall₂ hwraps fun _ _ hpx => by cases hpx <;> rfl
  refine ⟨f ∘ g, ⟨⟨unitePositions (cached.zip tables) left.tables right.tables, w.set.hasJoins⟩, c⟩,
    ?_, hids ▸ hnames, hnext, rfl, ?_⟩
  · refine bind_ok.mpr ⟨_, _, hcaches, bind_ok.mpr ⟨_, _, current_ok.mpr ⟨rfl, rfl⟩, ?_⟩⟩
    refine bind_ok.mpr ⟨(left, right), _, hsides, ?_⟩
    dsimp only
    rw [hleft.not_mustReshape h₁.selfContained.nodup hright, if_neg Bool.false_ne_true,
      replaceSet_ok]
  · exact forall₂_unitePositions_of_wraps hwraps (htables.symm ▸ hleft.copies)
      (htables.symm ▸ hright.copies) fun _ _ _ _ hpx hl hr => hl.united hpx hr

end Planner

/-! ## Filters -/

/-- Only a constant looks up no column, and its conjunct reads none. -/
theorem Predicate.KindOf.constant_of_reads {set : TableSet} {e : Expr} {predicate : Predicate}
    (h : predicate.KindOf set e) (hnone : predicate.reads = []) :
    readsWithOuter e = [] ∧ ∃ expr, predicate = .constant expr := by
  cases h with
  | constant _ unread => exact ⟨unread, _, rfl⟩
  | columnLeft | columnRight | complexSingle | simplePattern | simpleSubQuery => cases hnone
  | complexPattern owned =>
    have hrefs : e.references = [] := hnone
    rw [hrefs] at owned
    cases owned
  | standardJoin _ _ _ several | exhaustiveJoin _ several =>
    have hrefs : e.references = [] := hnone
    rw [hrefs] at several
    cases several
  | exhaustiveSubQuery _ _ read => exact absurd hnone read

/-- An OR, or a conjunct that reads a column, is classified as such. -/
theorem TableSet.reads_ne_nil_of_classifyOne {set : TableSet} {e : Expr}
    {placed : Bucket × Predicate} (h : set.classifyOne e = .ok (some placed))
    (hne : (∃ left right, e = .binary left .or right) ∨ Predicate.readsWithOuter e ≠ []) :
    placed.2.reads ≠ [] ∨ ∃ e joinable, placed.2 = .subLogic e joinable := by
  rcases kind_of_classifyOne h with ⟨-, joinable, hplaced⟩ | ⟨hlogic, hkind⟩
  · exact Or.inr ⟨e, joinable, hplaced⟩
  · rcases hne with ⟨left, right, rfl⟩ | hne
    · cases hlogic
    · exact Or.inl fun hnone => hne (hkind.constant_of_reads hnone).1

/-- What a conjunct is required to be: the literal TRUE, an OR that is planned locally, or else it
reads a column. All that it reads is among `reads`. -/
structure LocalConjunct (reads : List ColumnName) (x : Expr × Planner Unit) : Prop where
  read : ∀ c ∈ Predicate.readsWithOuter x.1, c ∈ reads
  kind : x.1.isTrue = true ∨ (∃ left right, x.1 = .binary left .or right) ∨
    Predicate.readsWithOuter x.1 ≠ []
  planned : StaysLocal reads x.2

namespace Planner

theorem staysLocal_applyAllWith {placed : List (Predicate × Planner Unit)}
    (h : ∀ y ∈ placed, StaysLocal reads (applyWith condition y.2 y.1)) :
    StaysLocal reads (applyAllWith condition placed) := by
  induction placed with
  | nil => exact .pure
  | cons y rest ih =>
    rw [List.forall_mem_cons] at h
    exact h.1.bind (ih h.2)

theorem staysLocal_planAgendaWith {agenda : List (Expr × Planner Unit)}
    (h : ∀ x ∈ agenda, LocalConjunct reads x) :
    StaysLocal reads (planAgendaWith condition agenda) := by
  intro w t howns
  have howner : ∀ x ∈ agenda, ∀ c ∈ x.1.references, ∃ id, w.set.owner c = .ok id := by
    intro x hx c hc
    have hread := (h x hx).read c (Predicate.mem_readsWithOuter.mpr (Or.inl hc))
    exact ⟨t, howns.owner hread⟩
  obtain ⟨placed, hplaced⟩ := TableSet.exists_classifyAll howner
  have hall : StaysLocal reads (applyAllWith condition placed) := by
    refine staysLocal_applyAllWith fun y hy => ?_
    obtain ⟨x, hx, bucket, hclass, hact⟩ := TableSet.mem_of_classifyAll hplaced hy
    have hconjunct := h x hx
    refine staysLocal_applyWith (hact ▸ hconjunct.planned)
      (TableSet.applicable_of_classifyOne nofun hclass) ?_ fun c hc => ?_
    · refine TableSet.reads_ne_nil_of_classifyOne hclass
        (hconjunct.kind.resolve_left fun htrue => ?_)
      -- The literal TRUE has no predicate.
      unfold TableSet.classifyOne at hclass
      rw [if_pos htrue] at hclass
      cases hclass
    · exact hconjunct.read c ((TableSet.ofConjunct_of_classifyOne hclass).reads c hc)
  obtain ⟨g, w', hok, hchange⟩ := hall w t howns
  exact ⟨g, w', bind_ok.mpr ⟨placed, w, ask_ok.mpr ⟨hplaced, rfl⟩, hok⟩, hchange⟩

theorem staysLocal_runAgendaWith {agenda : List (Expr × Planner Unit)}
    (h : ∀ x ∈ agenda, LocalConjunct reads x) :
    StaysLocal reads (runAgendaWith condition agenda) := by
  by_cases hone : ∃ l r planOr, agenda = [(.binary l .or r, planOr)]
  · obtain ⟨l, r, planOr, rfl⟩ := hone
    exact (h _ (List.mem_singleton_self _)).planned
  · rw [runAgendaWith_eq hone]
    exact staysLocal_planAgendaWith h

theorem localConjunct_agendaWith {e : Expr} (hreads : ∀ c ∈ Predicate.readsWithOuter e, c ∈ reads)
    (hleaves : ∀ leaf ∈ e.leaves, leaf.isTrue = true ∨ Predicate.readsWithOuter leaf ≠ []) :
    ∀ x ∈ agendaWith condition e, LocalConjunct reads x := by
  have hsides : ∀ {left right : Expr} {op : BinaryOp},
      (∀ c ∈ Predicate.readsWithOuter (.binary left op right), c ∈ reads) →
      (∀ c ∈ Predicate.readsWithOuter left, c ∈ reads) ∧
        ∀ c ∈ Predicate.readsWithOuter right, c ∈ reads := fun h =>
    ⟨fun c hc => h c (Predicate.mem_readsWithOuter_binary.mpr (Or.inl hc)),
      fun c hc => h c (Predicate.mem_readsWithOuter_binary.mpr (Or.inr hc))⟩
  fun_induction agendaWith condition e with
  | case1 left right ihLeft ihRight =>
    rw [Expr.leaves, List.forall_mem_append] at hleaves
    rw [List.forall_mem_append]
    exact ⟨ihLeft (hsides hreads).1 hleaves.1, ihRight (hsides hreads).2 hleaves.2⟩
  | case2 left right ihLeft ihRight =>
    rw [Expr.leaves, List.forall_mem_append] at hleaves
    refine List.forall_mem_singleton.mpr ⟨hreads, Or.inr (Or.inl ⟨left, right, rfl⟩), ?_⟩
    exact staysLocal_planOrWith (staysLocal_runAgendaWith (ihLeft (hsides hreads).1 hleaves.1))
      (staysLocal_runAgendaWith (ihRight (hsides hreads).2 hleaves.2))
  | case3 e hand hor =>
    rw [Expr.leaves.eq_3 e hand hor, List.forall_mem_singleton] at hleaves
    exact List.forall_mem_singleton.mpr ⟨hreads, hleaves.imp_right Or.inr, .pure⟩

/-- A filter is planned locally if each operand of its ANDs and ORs is TRUE or reads a column. -/
theorem staysLocal_planExpressionWith {e : Expr}
    (hreads : ∀ c ∈ Predicate.readsWithOuter e, c ∈ reads)
    (hleaves : ∀ leaf ∈ e.leaves, leaf.isTrue = true ∨ Predicate.readsWithOuter leaf ≠ []) :
    StaysLocal reads (planExpressionWith condition e) :=
  staysLocal_runAgendaWith (localConjunct_agendaWith hreads hleaves)

end Planner

/-- A filter that reads the columns of one plan alone, which no pending outer join pads, is planned.
No other plan is changed or touched, and no plans are joined; the plan itself keeps its columns, its
keys and its links. -/
theorem planExpression_of_one_owner {e : Expr} (hw : SelfContained w) (hp : p ∈ w.set.tables)
    (hunpadded : p.nullPaddedBy? = none)
    (howner : ∀ c ∈ Predicate.readsWithOuter e, w.set.owner c = .ok p.id)
    (hleaves : ∀ leaf ∈ e.leaves, leaf.isTrue = true ∨ Predicate.readsWithOuter leaf ≠ []) :
    ∃ g w', Planner.planExpression e w = .ok () w' ∧ ChangesOnly p.id g w w' := by
  have howns : OwnsAll (Predicate.readsWithOuter e) p.id w := by
    refine ⟨hw, TableSet.mem_ids hp, fun q hq hid => ?_, fun c hc q hq => ?_⟩
    · rwa [eq_of_id_of_nodup hw.nodup hq hp hid]
    · obtain ⟨⟨q', hq', hid', hexposes⟩, honly⟩ := owner_ok (howner c hc)
      refine ⟨honly q hq, fun hid => ?_⟩
      rwa [eq_of_id_of_nodup hw.nodup hq hq' (hid.trans hid'.symm)]
  exact Planner.staysLocal_planExpressionWith (fun _ hc => hc) hleaves w p.id howns

/-- An OR and an AND over the first table of a chain of outer joins. -/
theorem planExpression_of_one_owner_chain :
    let set : TableSet := ⟨chainOfOnes .left (.binary (columnOf "a") .eq (columnOf "b"))
      (.binary (columnOf "b") .lt (columnOf "c")), false⟩
    let w : Workspace := ⟨set, .start .blank default ⟨4⟩⟩
    let filter := Expr.binary
      (.binary (.unary .isNull (columnOf "a")) .or (.binary .true .and
        (.binary (columnOf "a") .eq (columnOf "a"))))
      .and (.binary .true .or (.binary (columnOf "a") .lt (columnOf "a")))
    ∃ g w', Planner.planExpression filter w = .ok () w' ∧ ChangesOnly ⟨1⟩ g w w' := by
  intro set w filter
  have howner : ∀ c ∈ Predicate.readsWithOuter filter, w.set.owner c = .ok ⟨1⟩ := by decide +kernel
  have hleaves : ∀ leaf ∈ filter.leaves,
      leaf.isTrue = true ∨ Predicate.readsWithOuter leaf ≠ [] := by decide +kernel
  exact planExpression_of_one_owner selfContained_chainOfOnes List.mem_cons_self rfl howner hleaves

end QueryPlan
