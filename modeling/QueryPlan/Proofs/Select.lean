import QueryPlan.Predicate.Apply
import QueryPlan.Proofs.Leads
import QueryPlan.Proofs.Outcome

/-!
# Selects

- `TablePlan.Dresses`: the same plan with further nodes on its tree.
- `selectOn_leads`: a select on an unpadded plan keeps the rows of which its
  predicate is true, if the predicate reads that plan alone.
- `selectConstant_leads`: so does a predicate without columns, put on every plan.
-/

namespace QueryPlan

universe u

variable {V : Type u} {db : Database V} {val : Valuation V} {wiring : Wiring} {linked : Bool}

/-! ## Plans with further nodes -/

/-- `q` is `p` with further nodes on its tree. -/
structure TablePlan.Dresses (db : Database V) (p q : TablePlan) : Prop where
  id_eq : q.id = p.id
  columns : q.columns = p.columns
  left : q.left = p.left
  right : q.right = p.right
  wraps : p.executable.Wraps q.executable
  tree : q.executable.columns db = p.executable.columns db

namespace TablePlan.Dresses

variable {p q : TablePlan}

theorem refl (p : TablePlan) : p.Dresses db p := ⟨rfl, rfl, rfl, rfl, .refl _, rfl⟩

/-- A dressed plan has the links of the plan. -/
theorem linkOn (h : p.Dresses db q) (side : Side) : q.linkOn side = p.linkOn side := by
  cases side
  · exact h.left
  · exact h.right

/-- A dressed plan stands for the plan, under the same handle. -/
theorem mirrors (h : p.Dresses db q) : p.Mirrors (fun i => i) q := by
  refine ⟨h.id_eq, h.columns, h.wraps.sources, ?_⟩
  intro side
  rw [h.linkOn]
  cases p.linkOn side <;> rfl

/-- A dressed plan demands what the plan demands. -/
theorem alike (h : p.Dresses db q) : p.Alike q :=
  ⟨h.columns, h.wraps.sources, fun side => by rw [h.linkOn]⟩

/-- The plan is proper if it has rows over its columns. -/
theorem proper (h : p.Dresses db q) (hp : p.Proper db val)
    (hover : ∀ r ∈ q.executable.rows db val, r.Over p.columns) : q.Proper db val := by
  refine ⟨h.columns ▸ hp.nodup, ?_, h.columns ▸ hover⟩
  intro c
  rw [h.tree, h.columns]
  exact hp.columns c

end TablePlan.Dresses

section

variable {w : Workspace} {tables : List TablePlan} {hasJoins : Bool}

/-- The workspace stays ready when nodes are put on the trees of its plans. -/
theorem Ready.dress (h : Ready db val wiring linked w)
    (hd : List.Forall₂ (TablePlan.Dresses db) w.set.tables tables)
    (hover : ∀ q ∈ tables, ∀ r ∈ q.executable.rows db val, r.Over q.columns) :
    Ready db val wiring linked { w with set := ⟨tables, hasJoins⟩ } := by
  have hm : MirrorsAll id w.set.tables tables := hd.imp fun _ _ h => h.mirrors
  refine ⟨hm.tidy h.tidy (Set.injOn_id _) ?_, ?_, ?_, h.distinct⟩
  · intro q hq
    obtain ⟨p, hp, hpq⟩ := exists_left_of_forall₂ hd hq
    exact hpq.proper (h.tidy.proper p hp) fun r hr => hpq.columns ▸ hover q hq r hr
  · intro q hq
    obtain ⟨p, hp, hpq⟩ := exists_left_of_forall₂ hd hq
    rw [hpq.id_eq]
    exact h.fresh p hp
  · intro mark hmark t ht
    obtain ⟨q, hq, rfl⟩ := List.mem_map.mp ht
    obtain ⟨p, hp, hpq⟩ := exists_left_of_forall₂ hd hq
    have hnone := h.unmarked mark hmark p.executable (List.mem_map_of_mem hp)
    rw [List.eq_nil_iff_forall_not_mem] at hnone ⊢
    exact fun tree htree => hnone tree ((hpq.wraps.marked mark tree).mp htree)

/-- Trees that further nodes are put on grow. -/
theorem grows_of_dresses (fresh : Set String) {set : TableSet}
    (hd : List.Forall₂ (TablePlan.Dresses db) set.tables tables) :
    Grows fresh set.trees (TableSet.trees ⟨tables, hasJoins⟩) := by
  refine Grows.of_wraps fresh ?_
  unfold TableSet.trees
  rw [List.forall₂_map_left_iff, List.forall₂_map_right_iff]
  exact hd.imp fun _ _ h => h.wraps

end

/-! ## Selects on one plan -/

/-- A node on top of a tree that keeps the rows of which `e` is true. -/
structure Selects (db : Database V) (val : Valuation V) (e : Expr) (select : PlanNode → PlanNode) :
    Prop where
  wraps : ∀ tree : PlanNode, tree.Wraps (select tree)
  columns : ∀ tree, (select tree).columns db = tree.columns db
  rows : ∀ tree, (select tree).rows db val = {r ∈ tree.rows db val | val.holds e r}

namespace Selects

theorem constant (db : Database V) (val : Valuation V) (e : Expr) :
    Selects db val e (.constantSelect · e) :=
  ⟨fun tree => .constantSelect tree e, fun _ => rfl, fun _ => rfl⟩

theorem simple (db : Database V) (val : Valuation V) (column : ColumnName) (op : BinaryOp)
    (value : Expr) :
    Selects db val (.binary (.reference column) op value) (.simpleSelect · column op value) :=
  ⟨fun tree => .simpleSelect tree column op value, fun _ => rfl, fun _ => rfl⟩

theorem pattern (db : Database V) (val : Valuation V) (column : ColumnName) (op : MatchOp)
    (pattern : Expr) (escape : Option Expr) :
    Selects db val (.pattern op (.reference column) pattern escape)
      (.patternSelect · column op pattern escape) :=
  ⟨fun tree => .patternSelect tree column op pattern escape, fun _ => rfl, fun _ => rfl⟩

theorem exhaustive (db : Database V) (val : Valuation V) (e : Expr) :
    Selects db val e (.exhaustiveSelect · e) :=
  ⟨fun tree => .exhaustiveSelect tree e, fun _ => rfl, fun _ => rfl⟩

variable {e : Expr} {select : PlanNode → PlanNode} {p : TablePlan}

/-- A plan that a select is put on is dressed. -/
theorem dresses (h : Selects db val e select) (p : TablePlan) : p.Dresses db (p.update select) :=
  ⟨rfl, rfl, rfl, rfl, h.wraps p.executable, h.columns p.executable⟩

/-- A select gives rows over the columns of its plan. -/
theorem rows_over (h : Selects db val e select) (hp : p.Proper db val) :
    ∀ r ∈ (p.update select).executable.rows db val, r.Over p.columns := by
  intro r hr
  rw [show (p.update select).executable = select p.executable from rfl, h.rows] at hr
  exact hp.rows_over r hr.1

/-- A row fits an unpadded plan with a select if it fits the plan, and the predicate is true in
its part on the plan. -/
theorem fits (h : Selects db val e select) (hpad : p.padding? = none) {r : Row V} :
    (p.update select).Fits db val r ↔ p.Fits db val r ∧ val.holds e (r.only p.columns) := by
  have hpad' : (p.update select).padding? = none := hpad
  have hpresent : (p.update select).Present db val r ↔
      p.Present db val r ∧ val.holds e (r.only p.columns) := by
    unfold TablePlan.Present
    rw [show (p.update select).executable = select p.executable from rfl, h.rows]
    rfl
  rw [TablePlan.fits_iff_of_unpadded hpad, TablePlan.fits_iff_of_unpadded hpad', hpresent]
  show (_ ∧ _) ∧ _ ↔ _
  rw [and_assoc, and_assoc]
  exact and_congr_right fun _ => and_comm

/-- A plan is dressed whether or not it is the one that the select is put on. -/
theorem dresses_at (h : Selects db val e select) (id : PlanId) (p : TablePlan) :
    p.Dresses db (if p.id = id then p.update select else p) := by
  split
  · exact h.dresses p
  · exact .refl p

/-- A select on one plan dresses all plans of a set. -/
theorem dresses_modify (h : Selects db val e select) (set : TableSet) (id : PlanId) :
    List.Forall₂ (TablePlan.Dresses db) set.tables
      (set.modify id (TablePlan.update select)).tables := by
  unfold TableSet.modify
  rw [List.forall₂_map_right_iff, List.forall₂_same]
  exact fun p _ => h.dresses_at id p

section

variable {set : TableSet} (ht : Tidy db val wiring linked set.tables) (hp : p ∈ set.tables)
  (hpad : p.padding? = none)

include ht hp hpad

/-- Of the plans of a set, only the one with the select demands more than before. -/
theorem forall_fits_modify (h : Selects db val e select) {r : Row V} :
    (∀ q ∈ (set.modify p.id (TablePlan.update select)).tables, q.Fits db val r) ↔
      (∀ q ∈ set.tables, q.Fits db val r) ∧ val.holds e (r.only p.columns) := by
  simp only [TableSet.modify, List.forall_mem_map]
  constructor
  · intro hall
    have hhere := hall p hp
    rw [if_pos rfl] at hhere
    refine ⟨fun q hq => ?_, ((h.fits hpad).mp hhere).2⟩
    by_cases hqp : q.id = p.id
    · obtain rfl := ht.eq_of_id hq hp hqp
      exact ((h.fits hpad).mp hhere).1
    · have hfits := hall q hq
      rwa [if_neg hqp] at hfits
  · rintro ⟨hall, hholds⟩ q hq
    by_cases hqp : q.id = p.id
    · obtain rfl := ht.eq_of_id hq hp hqp
      rw [if_pos rfl]
      exact (h.fits hpad).mpr ⟨hall q hq, hholds⟩
    · rw [if_neg hqp]
      exact hall q hq

/-- A select on an unpadded plan keeps the rows of which its predicate is true, if that reads no
other plan. -/
theorem rows_modify (h : Selects db val e select) (hreads : ReadsOnly set.tables [p.id] e) :
    (set.modify p.id (TablePlan.update select)).rows db val =
      {r ∈ set.rows db val | val.holds e r} := by
  ext r
  have hcovered : (∀ x ∈ r, ∃ q ∈ (set.modify p.id (TablePlan.update select)).tables,
      x.1 ∈ q.columns) ↔ ∀ x ∈ r, ∃ q ∈ set.tables, x.1 ∈ q.columns := by
    simp only [TableSet.modify, List.mem_map, exists_exists_and_eq_and,
      (h.dresses_at p.id _).columns]
  simp only [TableSet.rows, mem_rowsOf, hcovered, Set.mem_ofPred_eq, and_assoc,
    h.forall_fits_modify ht hp hpad]
  refine and_congr_right fun hcov => and_congr_right fun _ => ?_
  refine hreads.holds_iff (fun x hx => hcov x hx.1) hcov ?_
  intro q hq hin c hc v
  obtain rfl := ht.eq_of_id hq hp (List.mem_singleton.mp hin)
  rw [Row.mem_only, and_iff_left hc]

end

end Selects

/-! ## Selects as steps -/

section

variable {w w' : Workspace} {u : Unit} {e : Expr} {select : PlanNode → PlanNode} {id : PlanId}

/-- A select on an unpadded plan, by a predicate that reads only that plan. -/
theorem selectOn_leads (hr : Ready db val wiring linked w) (hs : Selects db val e select)
    (h : Planner.selectOn id select w = .ok u w')
    (hpad : ∀ p ∈ w.set.tables, p.id = id → p.padding? = none)
    (hreads : ReadsOnly w.set.tables [id] e) :
    Leads db val wiring linked (val.holds e) w w' := by
  unfold Planner.selectOn at h
  rw [Planner.changePlan_ok] at h
  obtain ⟨⟨m, hm⟩, rfl⟩ := h
  obtain ⟨hmem, rfl⟩ := hr.tidy.get?_eq_some_iff.mp hm
  have hall := hs.dresses_modify w.set m.id
  refine ⟨⟨hr.dress hall ?_, .refl _, grows_of_dresses _ hall,
    exposed_of_forall₂ (hall.imp fun _ _ h => h.columns),
    Or.inr (hs.rows_modify hr.tidy hmem (hpad m hmem rfl) hreads)⟩, ?_, fun hj => hj⟩
  -- The rows of the changed plan are still over its columns.
  · intro q hq
    obtain ⟨p, hp, rfl⟩ := List.mem_map.mp hq
    by_cases hid : p.id = m.id
    · rw [if_pos hid]
      exact hs.rows_over (hr.tidy.proper p hp)
    · rw [if_neg hid]
      exact (hr.tidy.proper p hp).rows_over
  -- The plan that is touched is unpadded, and the others stay as they are.
  · intro start hframe
    refine hframe.change rfl ?_ (Or.inl ?_)
    · show List.Forall₂ _ _ (w.set.tables.map _)
      rw [List.forall₂_map_right_iff, List.forall₂_same]
      intro p _
      refine ⟨(hs.dresses_at m.id p).alike, ?_⟩
      by_cases hid : p.id = m.id
      · rw [if_pos hid]
        exact ⟨fun _ => rfl, by rintro ⟨⟩⟩
      · rw [if_neg hid]
        exact ⟨fun h => h, fun _ => rfl⟩
    · intro q hq htouched
      obtain ⟨p, hp, rfl⟩ := List.mem_map.mp hq
      by_cases hid : p.id = m.id
      · rw [if_pos hid]
        exact Or.inl (hpad p hp hid)
      · rw [if_neg hid] at htouched ⊢
        exact Or.inr ⟨p, hp, .refl p, htouched⟩

/-- A predicate that reads no column, put on every plan. -/
theorem selectConstant_leads (hr : Ready db val wiring linked w)
    (h : Planner.selectConstant e w = .ok u w') (hsub : e.hasSubQuery = false)
    (hrefs : e.references = []) : Leads db val wiring linked (val.holds e) w w' := by
  unfold Planner.selectConstant at h
  rw [Planner.change_ok] at h
  subst h
  have hs := Selects.constant db val e
  -- A predicate without columns is true of all rows or of none.
  have hconst : ∀ r s : Row V, val.holds e r ↔ val.holds e s := by
    intro r s
    refine val.holds_congr hsub fun ref href => ?_
    rw [hrefs] at href
    cases href
  have hall : List.Forall₂ (TablePlan.Dresses db) w.set.tables
      (w.set.tables.map (TablePlan.update (.constantSelect · e))) := by
    rw [List.forall₂_map_right_iff, List.forall₂_same]
    exact fun p _ => hs.dresses p
  refine ⟨⟨hr.dress hall ?_, .refl _, grows_of_dresses _ hall,
    exposed_of_forall₂ (hall.imp fun _ _ h => h.columns), Or.inr ?_⟩, ?_, fun hj => hj⟩
  · intro q hq
    obtain ⟨p, hp, rfl⟩ := List.mem_map.mp hq
    exact hs.rows_over (hr.tidy.proper p hp)
  · ext r
    show r ∈ rowsOf db val (w.set.tables.map (TablePlan.update (.constantSelect · e))) ↔ _
    by_cases he : val.holds e r
    · -- The predicate is true everywhere, so that no plan loses a row.
      have hrows : ∀ p : TablePlan, (p.update (.constantSelect · e)).executable.rows db val =
          p.executable.rows db val := by
        intro p
        rw [show (p.update (.constantSelect · e)).executable = .constantSelect p.executable e
          from rfl, hs.rows]
        ext s
        exact and_iff_left ((hconst s r).mpr he)
      have hsame : rowsOf db val (w.set.tables.map (TablePlan.update (.constantSelect · e))) =
          rowsOf db val w.set.tables := by
        refine rowsOf_eq_of_mirrors (g := id) ?_
        rw [List.forall₂_map_right_iff, List.forall₂_same]
        exact fun p _ => ⟨(hs.dresses p).mirrors, hrows p⟩
      rw [hsame]
      exact (and_iff_left he).symm
    · -- An unpadded plan has no rows any more.
      obtain ⟨p, hp, hpad⟩ := hr.tidy.links.exists_unpadded hr.tidy.nonempty
      constructor
      · rintro ⟨-, hfits⟩
        have := (hs.fits hpad).mp (hfits _ (List.mem_map_of_mem hp))
        exact absurd ((hconst _ r).mp this.2) he
      · exact fun h => absurd h.2 he
  -- Every plan is touched.
  · intro start hframe
    refine hframe.change rfl ?_ (Or.inr ?_)
    · show List.Forall₂ _ _ (w.set.tables.map _)
      rw [List.forall₂_map_right_iff, List.forall₂_same]
      exact fun p _ => ⟨(hs.dresses p).alike, fun _ => rfl, by rintro ⟨⟩⟩
    · intro q hq
      obtain ⟨p, -, rfl⟩ := List.mem_map.mp hq
      rfl

end

end QueryPlan
