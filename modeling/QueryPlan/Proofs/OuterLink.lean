import QueryPlan.Proofs.Chains
import QueryPlan.Proofs.Validated

/-!
# Filters over one outer join

- `joinRows`: the rows of a join of two plans.
- `TablePlan.linkedBy`, `link_ok`: what recording a join does.
- `oneType_of_link`: one recorded join is in order for planning.
- `planQuery_rows_of_outer`: a filter over base tables with one outer join is planned as a
  tree of the rows of the join, with all other tables, of which it is true.
-/

namespace QueryPlan

universe u

variable {V : Type u} {db : Database V} {val : Valuation V} {uuids : Identifiers}
  {settings : Settings} {set : TableSet} {supply supply' : PlanId.Supply} {plan : TablePlan}

/-- The rows of a join of two plans. An outer one keeps all rows of one side or both, with nulls
for want of a match. -/
def joinRows (db : Database V) (val : Valuation V) (joinType : JoinType) (on : Option Expr)
    (l r : TablePlan) : Set (Row V) :=
  let ls := l.executable.rows db val
  let rs := r.executable.rows db val
  match joinType with
  | .inner => {x ∈ pairs ls rs | val.meets on x}
  | .left => outerPairs val.null r.columns (val.meets on) ls rs
  | .right => outerPairs val.null l.columns (val.meets on) rs ls
  | .full => outerPairs val.null r.columns (val.meets on) ls rs ∪
      outerPairs val.null l.columns (val.meets on) rs ls

/-! ## Recording a join -/

/-- The plan, with its end of a join between two handles. -/
def TablePlan.linkedBy (l r : PlanId) (joinType : JoinType) (on : Option Expr) (p : TablePlan) :
    TablePlan :=
  { p with
    left := if p.id = r then some ⟨l, joinType, on⟩ else p.left
    right := if p.id = l then some ⟨r, joinType, on⟩ else p.right }

section

variable {l r : PlanId} {joinType : JoinType} {on : Option Expr}

/-- To record a join changes the links of the two plans alone. -/
theorem link_ok {c : Context} {w : Workspace}
    (h : Planner.link l r joinType on ⟨set, c⟩ = .ok () w) :
    w.set.tables = set.tables.map (TablePlan.linkedBy l r joinType on) := by
  unfold Planner.link at h
  simp only [Planner.bind_ok, Planner.ask_ok, Planner.changePlan_ok] at h
  obtain ⟨_, _, ⟨-, rfl⟩, _, _, ⟨-, rfl⟩, -, rfl⟩ := h
  unfold TableSet.modify
  rw [List.map_map]
  refine List.map_congr_left fun p _ => ?_
  unfold TablePlan.linkedBy TablePlan.withLeft TablePlan.withRight
  by_cases hl : p.id = l
  · by_cases hr : p.id = r
    · simp only [Function.comp_apply, if_pos hl, if_pos hr]
    · simp only [Function.comp_apply, if_pos hl, if_neg hr]
  · by_cases hr : p.id = r
    · simp only [Function.comp_apply, if_neg hl, if_pos hr]
    · simp only [Function.comp_apply, if_neg hl, if_neg hr]

/-- The right plan gets a left link, and the left plan a right one. -/
theorem TablePlan.linkOn_linkedBy {p : TablePlan} (hnone : p.left = none ∧ p.right = none)
    {side : Side} {link : JoinLink} :
    (p.linkedBy l r joinType on).linkOn side = some link ↔
      side = .left ∧ p.id = r ∧ link = ⟨l, joinType, on⟩ ∨
        side = .right ∧ p.id = l ∧ link = ⟨r, joinType, on⟩ := by
  cases side with
  | left =>
    by_cases hid : p.id = r
    · simp [linkedBy, hid, eq_comm]
    · simp [linkedBy, hid, hnone.1]
  | right =>
    by_cases hid : p.id = l
    · simp [linkedBy, hid, eq_comm]
    · simp [linkedBy, hid, hnone.2]

/-- A base table stays one when a link is recorded. -/
theorem TablePlan.IsBase.linkedBy {p : TablePlan} (h : p.IsBase db) :
    (p.linkedBy l r joinType on).IsBase db := by
  obtain ⟨table, h⟩ := h
  rw [h]
  exact ⟨table, rfl⟩

/-- Base tables stay base tables when a link is recorded. -/
theorem BaseTables.linkedBy {tables : List TablePlan} (h : BaseTables db supply tables) :
    BaseTables db supply (tables.map (TablePlan.linkedBy l r joinType on)) := by
  refine ⟨?_, ?_, ?_, ?_, ?_⟩
  · rw [List.forall_mem_map]
    exact fun p hp => (h.base p hp).linkedBy
  · rw [List.flatMap_map]
    exact h.names
  · rw [List.forall_mem_map]
    exact h.columns
  · rw [List.map_map]
    exact h.ids
  · rw [List.forall_mem_map]
    exact h.given

/-- One recorded join between two base tables is in order for planning. -/
theorem oneType_of_link {tables : List TablePlan}
    (hnone : ∀ p ∈ tables, p.left = none ∧ p.right = none) (hl : ∃ p ∈ tables, p.id = l)
    (hr : ∃ p ∈ tables, p.id = r) (hne : l ≠ r)
    (hreads : ∀ e, on = some e → ReadsOnly tables [l, r] e) (hasJoins : Bool) :
    OneType val ⟨tables.map (TablePlan.linkedBy l r joinType on), hasJoins⟩ joinType := by
  -- There are two links, one for each plan.
  have hlink : ∀ {p side link}, p ∈ tables →
      (p.linkedBy l r joinType on).linkOn side = some link →
        side = .left ∧ p.id = r ∧ link = ⟨l, joinType, on⟩ ∨
          side = .right ∧ p.id = l ∧ link = ⟨r, joinType, on⟩ :=
    fun hp h => (TablePlan.linkOn_linkedBy (hnone _ hp)).mp h
  refine ⟨?_, ?_, ?_, fun id => if id = r then 1 else 0, ?_⟩
  · rw [List.forall_mem_map]
    intro p hp side link h
    rcases hlink hp h with ⟨-, -, rfl⟩ | ⟨-, -, rfl⟩ <;> rfl
  · rw [List.forall_mem_map]
    intro p hp side link h
    rcases hlink hp h with ⟨rfl, hid, rfl⟩ | ⟨rfl, hid, rfl⟩
    -- Each of the two answers the other one.
    · obtain ⟨q, hq, hql⟩ := hl
      refine ⟨_, List.mem_map_of_mem hq, hql, ⟨r, joinType, on⟩, ?_, hid.symm, fun _ => Iff.rfl⟩
      exact (TablePlan.linkOn_linkedBy (hnone q hq)).mpr (Or.inr ⟨rfl, hql, rfl⟩)
    · obtain ⟨q, hq, hqr⟩ := hr
      refine ⟨_, List.mem_map_of_mem hq, hqr, ⟨l, joinType, on⟩, ?_, hid.symm, fun _ => Iff.rfl⟩
      exact (TablePlan.linkOn_linkedBy (hnone q hq)).mpr (Or.inl ⟨rfl, hqr, rfl⟩)
  · rw [List.forall_mem_map]
    intro p hp side link h e he
    -- The condition reads the two plans, whichever of them the link is on.
    have hmem : ∀ {a b : PlanId}, (∀ i, i ∈ [a, b] ↔ i ∈ [l, r]) → on = some e →
        ReadsOnly (tables.map (TablePlan.linkedBy l r joinType on)) [a, b] e := by
      intro a b hab hon
      refine ⟨(hreads e hon).1, ?_⟩
      rw [List.forall_mem_map]
      exact fun q hq hid => (hreads e hon).2 q hq (mt (hab q.id).mpr hid)
    rcases hlink hp h with ⟨-, hid, rfl⟩ | ⟨-, hid, rfl⟩
    · exact hmem (fun i => by rw [List.mem_pair, List.mem_pair, or_comm, ← hid]; rfl) he
    · exact hmem (fun i => by rw [← hid]; rfl) he
  -- The left plan is at height zero, the right one at height one.
  · rw [List.forall_mem_map]
    intro p hp link h
    rcases @hlink p .right link hp h with ⟨hside, -⟩ | ⟨-, hid, rfl⟩
    · cases hside
    · have hpl : (p.linkedBy l r joinType on).id = l := hid
      simp only [hpl, if_neg hne]
      rfl

end

/-! ## Rows -/

/-- Plans of which one alone is padded stand for the rows of that join, with those of all others. -/
theorem rowsOf_outer {wiring : Wiring} {linked : Bool} {tables : List TablePlan} {k p : TablePlan}
    {link : JoinLink} (ht : Tidy db val wiring linked tables)
    (hinner : ∀ p ∈ tables, ∀ link, p.right = some link → link.joinType ≠ .inner)
    (hk : k ∈ tables) (hp : p ∈ tables) (hpad : p.padding? = some link)
    (htarget : link.target = k.id) (hothers : ∀ q ∈ tables, q.id ≠ p.id → q.padding? = none) :
    rowsOf db val tables =
      pairs (outerPairs val.null p.columns (val.meets link.on) (k.executable.rows db val)
          (p.executable.rows db val))
        (product ((tables.filter fun q => q.id ≠ k.id ∧ q.id ≠ p.id).map
          fun q => q.executable.rows db val)) := by
  have hne : k.id ≠ p.id := htarget ▸ ht.ne_of_padding hp hpad
  let others := tables.filter fun q => q.id ≠ k.id ∧ q.id ≠ p.id
  have hother : ∀ q, q ∈ others ↔ q ∈ tables ∧ q.id ≠ k.id ∧ q.id ≠ p.id := by
    intro q
    rw [List.mem_filter, decide_eq_true_eq]
  -- The padded plan and the one that pads it are a chain, and every other plan is one by itself.
  have hproduct : rowsOf db val tables =
      product (([k, p] :: others.map fun q => [q]).map (chainRows db val)) := by
    refine rowsOf_eq_product ht hinner ?_ ?_ ?_ ?_ ?_
    -- Every plan is on one chain,
    · intro q
      simp only [List.exists_mem_cons_iff, List.mem_pair, List.mem_map, exists_exists_and_eq_and,
        List.mem_singleton, exists_eq_right', hother]
      constructor
      · intro hq
        by_cases hqk : q.id = k.id
        · exact Or.inl (Or.inl (ht.eq_of_id hq hk hqk))
        · by_cases hqp : q.id = p.id
          · exact Or.inl (Or.inr (ht.eq_of_id hq hp hqp))
          · exact Or.inr ⟨hq, hqk, hqp⟩
      · rintro ((rfl | rfl) | ⟨hq, -⟩)
        · exact hk
        · exact hp
        · exact hq
    · rw [List.forall_mem_cons, List.forall_mem_map]
      -- no chain is empty,
      exact ⟨List.cons_ne_nil _ _, fun q _ => List.cons_ne_nil _ _⟩
    · rw [List.forall_mem_cons, List.forall_mem_map]
      -- the first plan of each chain is unpadded,
      constructor
      · rintro _ ⟨⟩
        exact hothers k hk hne
      · rintro q hq _ ⟨⟩
        obtain ⟨hq, -, hqp⟩ := (hother q).mp hq
        exact hothers q hq hqp
    · rw [List.forall_mem_cons, List.forall_mem_map]
      -- each plan is padded by the one before it,
      refine ⟨?_, fun q _ => List.isChain_singleton q⟩
      exact List.isChain_cons_cons.mpr ⟨⟨link, hpad, htarget⟩, List.isChain_singleton p⟩
    -- and no plan is on two chains.
    · have hnodup : (others.map TablePlan.id).Nodup :=
        ht.nodup_ids.sublist (List.filter_sublist.map _)
      have hnot : ∀ i, i = k.id ∨ i = p.id → i ∉ others.map TablePlan.id := by
        rintro i hi hmem
        obtain ⟨q, hq, rfl⟩ := List.mem_map.mp hmem
        obtain ⟨-, hqk, hqp⟩ := (hother q).mp hq
        exact hi.elim hqk hqp
      rw [List.flatten_cons, ← List.flatMap_def, List.flatMap_singleton']
      exact List.nodup_cons.mpr ⟨fun hmem => (List.mem_cons.mp hmem).elim hne (hnot _ (Or.inl rfl)),
        List.nodup_cons.mpr ⟨hnot _ (Or.inr rfl), hnodup⟩⟩
  rw [hproduct, List.map_cons, List.map_map]
  show pairs (outerPairs _ _ (val.meets (p.padding?.bind JoinLink.on)) _ _) _ = _
  rw [hpad]
  rfl

/-- A filter over base tables of which one alone is padded has the rows of that join, with those
of all others, of which it is true. -/
theorem rows_of_padded {joinType : JoinType} {k p : TablePlan} {link : JoinLink}
    {filter : Option Expr} (hbase : BaseTables db supply set.tables)
    (hone : OneType val set joinType) (houter : joinType = .left ∨ joinType = .right)
    (hk : k ∈ set.tables) (hp : p ∈ set.tables) (hpad : p.padding? = some link)
    (htarget : link.target = k.id) (hothers : ∀ q ∈ set.tables, q.id ≠ p.id → q.padding? = none)
    (hmarks : settings.markers.strategy = .sequential)
    (hsub : ∀ e, filter = some e → e.hasSubQuery = false)
    (h : planQuery uuids settings set filter supply = .ok plan supply') :
    plan.executable.rows db val =
      {x ∈ pairs (outerPairs val.null p.columns (val.meets link.on) (k.executable.rows db val)
            (p.executable.rows db val))
          (product ((set.tables.filter fun q => q.id ≠ k.id ∧ q.id ≠ p.id).map
            fun q => q.executable.rows db val)) |
        val.meets filter x} := by
  have hfull : joinType ≠ .full := by
    rcases houter with rfl | rfl <;> decide
  have hinner : ∀ q ∈ set.tables, ∀ l, q.right = some l → l.joinType ≠ .inner := by
    intro q hq l hl
    rw [hone.typed q hq .right l hl]
    rcases houter with rfl | rfl <;> decide
  have hlinked : Linked val (set.wiring joinType True) set.tables := by
    refine hone.linked hfull hbase.ids (fun q hq => (hbase.base q hq).sources_ne_nil) ?_
    intro _ q hq l hl s hs hid hspad
    -- The plan that keeps its rows is not the padded one.
    obtain ⟨side, hside, -⟩ := TablePlan.exists_side_of_padding hl
    have hsid : s.id = p.id := by
      by_contra hne
      exact hspad (hothers s hs hne)
    have hqid : q.id = p.id := by
      by_contra hne
      rw [hothers q hq hne] at hl
      cases hl
    exact absurd (hid.symm.trans (hsid.trans hqid.symm)) (hone.target_ne hq hside)
  have hready : Ready db val (set.wiring joinType True) true ⟨set, .start uuids settings supply⟩ :=
    hbase.ready (nonempty_of_planQuery h) hlinked (by rintro ⟨⟩) fun _ =>
      MarkerGenerator.nameAt_injective hmarks
  rcases planQuery_rows hready hsub h with hflaw | hrows
  · refine absurd hflaw (PlanNode.not_has_flaw ?_ ?_ _)
    · rcases houter with rfl | rfl <;> rfl
    · cases joinType <;> trivial
  · rw [hrows]
    unfold TableSet.rows
    rw [rowsOf_outer hready.tidy hinner hk hp hpad htarget hothers]

/-- A filter over base tables with one outer join between two of them has the rows of that join,
with those of all other tables, of which it is true. -/
theorem planQuery_rows_of_outer {l r : TablePlan} {joinType : JoinType} {on filter : Option Expr}
    {c : Context} {w : Workspace} (hbase : BaseTables db supply set.tables)
    (hnone : ∀ p ∈ set.tables, p.left = none ∧ p.right = none) (hl : l ∈ set.tables)
    (hr : r ∈ set.tables) (hne : l.id ≠ r.id) (houter : joinType = .left ∨ joinType = .right)
    (hreads : ∀ e, on = some e → ReadsOnly set.tables [l.id, r.id] e)
    (hlink : Planner.link l.id r.id joinType on ⟨set, c⟩ = .ok () w)
    (hmarks : settings.markers.strategy = .sequential)
    (hsub : ∀ e, filter = some e → e.hasSubQuery = false)
    (h : planQuery uuids settings w.set filter supply = .ok plan supply') :
    plan.executable.rows db val =
      {x ∈ pairs (joinRows db val joinType on l r)
          (product ((set.tables.filter fun q => q.id ≠ l.id ∧ q.id ≠ r.id).map
            fun q => q.executable.rows db val)) |
        val.meets filter x} := by
  have htables := link_ok hlink
  have hbase' : BaseTables db supply w.set.tables := htables ▸ hbase.linkedBy
  have hone : OneType val ⟨w.set.tables, w.set.hasJoins⟩ joinType := by
    rw [htables]
    exact oneType_of_link hnone ⟨l, hl, rfl⟩ ⟨r, hr, rfl⟩ hne hreads _
  have hfull : joinType ≠ .full := by
    rcases houter with rfl | rfl <;> decide
  have hmem : ∀ {q}, q ∈ set.tables → q.linkedBy l.id r.id joinType on ∈ w.set.tables :=
    fun hq => htables ▸ List.mem_map_of_mem hq
  -- The join keeps the rows of one of the two, so its link pads the other one and no third plan.
  have hpadding : ∀ q ∈ set.tables, ∀ link,
      (q.linkedBy l.id r.id joinType on).padding? = some link ↔
        joinType = .left ∧ q.id = r.id ∧ link = ⟨l.id, joinType, on⟩ ∨
          joinType = .right ∧ q.id = l.id ∧ link = ⟨r.id, joinType, on⟩ := by
    intro q hq link
    rw [hone.padding_eq_some_iff (hmem hq) hfull, ← TablePlan.linkOn_left, ← TablePlan.linkOn_right,
      TablePlan.linkOn_linkedBy (hnone q hq), TablePlan.linkOn_linkedBy (hnone q hq)]
    simp only [reduceCtorEq, true_and, false_and, or_false, false_or]
  have hunpadded : ∀ p : TablePlan, (∀ q ∈ set.tables, ∀ link,
      (q.linkedBy l.id r.id joinType on).padding? = some link → q.id = p.id) →
      ∀ q ∈ w.set.tables, q.id ≠ p.id → q.padding? = none := by
    intro p hp
    rw [htables, List.forall_mem_map]
    intro q hq hid
    cases hpad : (q.linkedBy l.id r.id joinType on).padding? with
    | none => rfl
    | some link => exact absurd (hp q hq link hpad) hid
  have hothers : ∀ k p : TablePlan,
      ((w.set.tables.filter fun q => q.id ≠ k.id ∧ q.id ≠ p.id).map
        fun q => q.executable.rows db val) =
      (set.tables.filter fun q => q.id ≠ k.id ∧ q.id ≠ p.id).map
        fun q => q.executable.rows db val := by
    intro k p
    rw [htables, List.filter_map, List.map_map]
    rfl
  -- A left join pads the right plan, a right join the left one.
  rcases houter with rfl | rfl
  · have hpad := (hpadding r hr _).mpr (Or.inl ⟨rfl, rfl, rfl⟩)
    rw [rows_of_padded hbase' hone (Or.inl rfl) (hmem hl) (hmem hr) hpad rfl
      (hunpadded _ fun q hq link hq' => ?_) hmarks hsub h, hothers]
    · rfl
    · rcases (hpadding q hq link).mp hq' with ⟨-, hid, -⟩ | ⟨htype, -⟩
      · exact hid
      · cases htype
  · have hpad := (hpadding l hl _).mpr (Or.inr ⟨rfl, rfl, rfl⟩)
    have hswap : (fun q : TablePlan => decide (q.id ≠ l.id ∧ q.id ≠ r.id)) =
        fun q => decide (q.id ≠ r.id ∧ q.id ≠ l.id) :=
      funext fun q => decide_eq_decide.mpr and_comm
    rw [rows_of_padded hbase' hone (Or.inr rfl) (hmem hr) (hmem hl) hpad rfl
      (hunpadded _ fun q hq link hq' => ?_) hmarks hsub h, hothers, hswap]
    · rfl
    · rcases (hpadding q hq link).mp hq' with ⟨htype, -⟩ | ⟨-, hid, -⟩
      · cases htype
      · exact hid

/-- Rows of `a` without a match among those of `b`, beside a third table. -/
theorem planQuery_rows_of_outer_ones :
    let a := TablePlan.one 1 "a"
    let b := TablePlan.one 2 "b"
    let tables := [a, .one 3 "c", b]
    let on := Expr.binary (columnOf "a") .lt (columnOf "b")
    let filter := Expr.binary (.unary .isNull (columnOf "b")) .or
      (.binary (columnOf "b") .eq (columnOf "c"))
    ∃ w plan supply', Planner.link a.id b.id .left (some on)
        ⟨⟨tables, false⟩, .start .blank default ⟨4⟩⟩ = .ok () w ∧
      planQuery .blank default w.set (some filter) ⟨4⟩ = .ok plan supply' ∧
      plan.executable.rows ones literals =
        {x ∈ pairs (joinRows ones literals .left (some on) a b)
            (product ((tables.filter fun q => q.id ≠ a.id ∧ q.id ≠ b.id).map
              fun q => q.executable.rows ones literals)) |
          literals.meets (some filter) x} := by
  intro a b tables on filter
  have hbase : BaseTables ones ⟨4⟩ tables := by
    refine ⟨?_, by decide, by decide, by decide, by decide⟩
    simp only [tables, List.forall_mem_cons]
    exact ⟨⟨"a", rfl⟩, ⟨"c", rfl⟩, ⟨"b", rfl⟩, List.forall_mem_nil _⟩
  have hreads : ReadsOnly tables [a.id, b.id] on := ⟨rfl, by decide⟩
  have hok : resultWith (fun _ w => resultWith (fun _ _ => true)
      (planQuery .blank default w.set (some filter) ⟨4⟩))
        (Planner.link a.id b.id .left (some on) ⟨⟨tables, false⟩, .start .blank default ⟨4⟩⟩) =
          some (some true) := by
    decide +kernel
  obtain ⟨_, w, hlink, hok⟩ := exists_of_resultWith hok
  obtain ⟨plan, supply', h, -⟩ := exists_of_resultWith hok
  refine ⟨w, plan, supply', hlink, h, ?_⟩
  exact planQuery_rows_of_outer hbase (by decide) (by simp [tables]) (by simp [tables]) (by decide)
    (Or.inl rfl) (by rintro e ⟨⟩; exact hreads) hlink rfl (by rintro e ⟨⟩; rfl) h

end QueryPlan
