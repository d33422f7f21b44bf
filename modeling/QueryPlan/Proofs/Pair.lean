import QueryPlan.Proofs.Answered

/-!
# Pairs of plans

What is known of two plans before they are merged, and the merge of two plans
that have no link with each other.

- `merge_ok`: what a merge that succeeds has done.
- `present_merged`, `inner_merged`: what a merge demands of a row.
- `merge_unlinked_leads`: plans without a link become their pairs.
-/

namespace QueryPlan

universe u

variable {V : Type u} {db : Database V} {val : Valuation V} {wiring : Wiring} {linked : Bool}
  {tables : List TablePlan} {l r : TablePlan} {m : PlanId} {tree : PlanNode}

/-- A merge that succeeds replaces two different plans. -/
theorem merge_ok {left right id : PlanId} {build : PlanNode → PlanNode → PlanNode}
    {w w' : Workspace} (hnodup : (w.set.tables.map TablePlan.id).Nodup)
    (h : Planner.merge left right build w = .ok id w') :
    ∃ l ∈ w.set.tables, ∃ r ∈ w.set.tables, l.id = left ∧ r.id = right ∧ l.id ≠ r.id ∧
      id = ⟨w.context.supply.next⟩ ∧
      w' = ⟨⟨mergedTables w.set.tables l r id (build l.executable r.executable), true⟩,
        { w.context with supply := ⟨w.context.supply.next + 1⟩ }⟩ := by
  unfold Planner.merge at h
  simp only [Planner.bind_ok, Planner.ask_ok, Planner.change_ok, Planner.current_ok] at h
  obtain ⟨l, w, ⟨hl, rfl⟩, _, _, rfl, _, _, ⟨rfl, rfl⟩, h⟩ := h
  rw [Planner.require_ok, get?_eq_some_of_nodup hnodup] at hl
  obtain ⟨hl, rfl⟩ := hl
  -- The left plan is taken out first, so the right one is looked up among the others.
  cases hget : (w.set.erase l.id).get? right with
  | none =>
    rw [hget] at h
    simp only [Planner.bind_ok, Planner.throw_ok] at h
    obtain ⟨_, _, _, h⟩ := h
    exact h.elim
  | some r =>
    rw [hget] at h
    simp only [Planner.bind_ok, Planner.freshId_ok, Planner.change_ok, Planner.pure_ok] at h
    obtain ⟨_, _, ⟨rfl, rfl⟩, _, _, rfl, rfl, rfl⟩ := h
    have htables := erase_tables hnodup l.id
    have hmem := List.mem_of_find?_eq_some hget
    have hrid : r.id = right := by simpa using List.find?_some hget
    rw [htables, List.mem_filter, decide_eq_true_eq] at hmem
    refine ⟨l, hl, r, hmem.1, rfl, hrid, Ne.symm hmem.2, rfl, ?_⟩
    -- To take both out, one after the other, leaves the plans with other handles than theirs.
    have hnodup' : ((w.set.erase l.id).tables.map TablePlan.id).Nodup := by
      rw [htables]
      exact hnodup.sublist (List.filter_sublist.map _)
    subst hrid
    simp only [TableSet.pushMerged, TableSet.push, mergedTables, erase_tables hnodup', htables,
      List.filter_filter, Workspace.mk.injEq, TableSet.mk.injEq, and_true]
    congr 2
    refine List.filter_congr fun p _ => ?_
    rw [Bool.and_comm, ← Bool.decide_and]

/-! ## What a merge demands of a row -/

/-- A row has a row of the merge if it has one of each plan and these meet the condition of the
merge. -/
theorem present_merged {cond : Row V → Prop} (hl : l.Proper db val) (hr : r.Proper db val)
    (hdisj : ∀ c ∈ l.columns, c ∉ r.columns)
    (hrows : tree.rows db val =
      {x ∈ pairs (l.executable.rows db val) (r.executable.rows db val) | cond x}) {x : Row V} :
    (mergedPlan m l r fun _ _ => tree).Present db val x ↔
      (l.Present db val x ∧ r.Present db val x) ∧ cond (x.only (l.columns ++ r.columns)) := by
  unfold TablePlan.Present
  show x.only (l.columns ++ r.columns) ∈ tree.rows db val ↔ _
  rw [hrows, Set.mem_ofPred_eq, only_mem_pairs_iff hl.rows_over hr.rows_over hdisj]

/-- The inner links of a merge are those of its plans that point outside the pair. -/
theorem inner_merged (hclear : Clear l r) {x : Row V} :
    (∀ link, (mergedPlan m l r fun _ _ => tree).right = some link → link.joinType = .inner →
      val.meets link.on x) ↔
    ∀ link, (l.right = some link ∨ r.right = some link) → link.target ∉ [l.id, r.id] →
      link.joinType = .inner → val.meets link.on x := by
  refine forall_congr' fun link => ?_
  have : (mergedPlan m l r fun _ _ => tree).linkOn .right = some link ↔
      (l.linkOn .right = some link ∨ r.linkOn .right = some link) ∧ link.target ∉ [l.id, r.id] :=
    mergedPlan_linkOn hclear
  rw [TablePlan.linkOn_right, TablePlan.linkOn_right, TablePlan.linkOn_right] at this
  rw [this, and_imp]

/-! ## Plans without a link between them -/

/-- A node that joins two trees and keeps the pairs that satisfy `e`. -/
structure Builds (db : Database V) (val : Valuation V) (e : Row V → Prop)
    (build : PlanNode → PlanNode → PlanNode) : Prop where
  joined : ∀ l r, (build l r).joined? = some (l, r)
  rows : ∀ l r, (build l r).rows db val =
    {x ∈ pairs (l.rows db val) (r.rows db val) | e x}

/-- A natural join of plans without a shared column gives all pairs of rows. -/
theorem Builds.naturalJoin (db : Database V) (val : Valuation V) :
    Builds db val (fun _ => True) .naturalJoin := by
  refine ⟨fun _ _ => rfl, fun l r => ?_⟩
  ext x
  exact ⟨fun h => ⟨h, trivial⟩, And.left⟩

/-- A join by a comparison gives the pairs of rows of which it is true. -/
theorem Builds.join (db : Database V) (val : Valuation V) (column : ColumnName) (op : BinaryOp)
    (value : Expr) : Builds db val (val.holds (.binary (.reference column) op value))
      (.join · · column op value) :=
  ⟨fun _ _ => rfl, fun _ _ => rfl⟩

/-- The tree of two joined plans has what both trees have. -/
theorem joins_of_builds {e : Row V → Prop} {build : PlanNode → PlanNode → PlanNode}
    (hb : Builds db val e build) (fresh : Set String) (hl : l.Proper db val)
    (hr : r.Proper db val) : Joins db val fresh l r (build l.executable r.executable) := by
  have hj := hb.joined l.executable r.executable
  refine ⟨?_, ?_, Grows.of_joined fresh hj⟩
  · intro c
    rw [PlanNode.columns_of_joined db hj, List.mem_append, hl.columns, hr.columns]
  · intro x hx
    rw [hb.rows] at hx
    obtain ⟨⟨a, ha, b, hb, rfl⟩, -⟩ := hx
    exact (hl.rows_over a ha).union (hr.rows_over b hb)

/-- What a merge demands of a row, for two unpadded plans without a link between them. -/
theorem fits_merged_of_unlinked {e : Row V → Prop} {build : PlanNode → PlanNode → PlanNode}
    (hb : Builds db val e build) (ht : Tidy db val wiring linked tables) (hl : l ∈ tables)
    (hr : r ∈ tables) (hne : l.id ≠ r.id) (hclear : Clear l r) (hlpad : l.padding? = none)
    (hrpad : r.padding? = none) (hlr : l.isLinkedTo r.id = false)
    (hrl : r.isLinkedTo l.id = false) {x : Row V} :
    (mergedPlan m l r fun _ _ => build l.executable r.executable).Fits db val x ↔
      (l.Fits db val x ∧ r.Fits db val x) ∧ e (x.only (l.columns ++ r.columns)) := by
  have hpads : PadsInside l r := Or.inl ⟨hlpad, hrpad⟩
  have hpad : (mergedPlan m l r fun _ _ => build l.executable r.executable).padding? = none :=
    mergedPlan_unpadded ht hl hr hclear hpads (Or.inl hlpad)
  -- Without a link between the plans, all links point outside the pair.
  have hself : ∀ p ∈ tables, ∀ side link, p.linkOn side = some link → link.target ≠ p.id := by
    intro p hp side link hlink
    obtain ⟨q, -, hid, hqp, -⟩ := ht.links.answered side p hp link hlink
    exact hid ▸ hqp
  have hout : ∀ link, l.right = some link ∨ r.right = some link →
      link.target ∉ [l.id, r.id] := by
    intro link hlink
    simp only [List.mem_cons, List.not_mem_nil, or_false, not_or]
    rcases hlink with hlink | hlink
    · refine ⟨hself l hl .right link hlink, fun htarget => ?_⟩
      rw [isLinkedTo_iff.mpr ⟨.right, link, hlink, htarget⟩] at hlr
      cases hlr
    · refine ⟨fun htarget => ?_, hself r hr .right link hlink⟩
      rw [isLinkedTo_iff.mpr ⟨.right, link, hlink, htarget⟩] at hrl
      cases hrl
  rw [TablePlan.fits_iff_of_unpadded hpad, TablePlan.fits_iff_of_unpadded hlpad,
    TablePlan.fits_iff_of_unpadded hrpad, inner_merged hclear,
    present_merged (ht.proper l hl) (ht.proper r hr) (ht.disjoint l hl r hr hne) (hb.rows _ _)]
  constructor
  · rintro ⟨⟨⟨hpl, hpr⟩, he⟩, hinner⟩
    exact ⟨⟨⟨hpl, fun link h => hinner link (Or.inl h) (hout link (Or.inl h))⟩,
      ⟨hpr, fun link h => hinner link (Or.inr h) (hout link (Or.inr h))⟩⟩, he⟩
  · rintro ⟨⟨⟨hpl, hil⟩, ⟨hpr, hir⟩⟩, he⟩
    refine ⟨⟨⟨hpl, hpr⟩, he⟩, ?_⟩
    rintro link (h | h) -
    · exact hil link h
    · exact hir link h

/-- A merge of two unpadded plans without a link between them keeps the rows that satisfy the
condition of its node. -/
theorem merge_unlinked_leads {e : Row V → Prop} {build : PlanNode → PlanNode → PlanNode}
    (hb : Builds db val e build) {w w' : Workspace} {left right id : PlanId}
    (hw : Ready db val wiring linked w) (h : Planner.merge left right build w = .ok id w')
    (hpair : ∀ l ∈ w.set.tables, ∀ r ∈ w.set.tables, l.id = left → r.id = right →
      (l.padding? = none ∧ r.padding? = none) ∧ clash l r = .safe ∧
        l.isLinkedTo r.id = false ∧ r.isLinkedTo l.id = false ∧
        ∀ x : Row V, (∀ y ∈ x, ∃ p ∈ w.set.tables, y.1 ∈ p.columns) →
          (e (x.only (l.columns ++ r.columns)) ↔ e x)) :
    Leads db val wiring linked e w w' ∧
      Absorbs (collapse left right id) w.set.tables w'.set.tables := by
  obtain ⟨l, hl, r, hr, rfl, rfl, hne, rfl, rfl⟩ := merge_ok hw.tidy.nodup_ids h
  obtain ⟨⟨hlpad, hrpad⟩, hsafe, hlr, hrl, hlocal⟩ := hpair l hl r hr rfl rfl
  have hclear := clear_of_safe hw.tidy.answered hl hr hne hsafe
  have hjoins := joins_of_builds hb w.context.markers.future (hw.tidy.proper l hl)
    (hw.tidy.proper r hr)
  refine leads_of_merged hw hl hr hne hclear (Or.inl ⟨hlpad, hrpad⟩) rfl ?_ le_rfl
    (Nat.lt_succ_self _) ?_ hjoins (Or.inr ?_)
  · exact ⟨Nat.le_succ _, ⟨_, le_rfl, rfl⟩, rfl⟩
  · intro mark hmark
    rw [PlanNode.marked_of_joined (hb.joined _ _),
      hw.unmarked mark hmark _ (List.mem_map_of_mem hl),
      hw.unmarked mark hmark _ (List.mem_map_of_mem hr)]
    rfl
  · intro x hx
    rw [fits_merged_of_unlinked hb hw.tidy hl hr hne hclear hlpad hrpad hlr hrl, hlocal x hx]

end QueryPlan
