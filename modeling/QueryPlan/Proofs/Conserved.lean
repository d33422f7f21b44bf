import QueryPlan.Proofs.Evaluation
import QueryPlan.Proofs.Moving

/-!
# Nothing is lost or doubled

Over any set, whatever its links are, a filter is planned as a plan with the
columns and keys of all plans of the set, and with all of their tables in its
tree. Only an OR can repeat a table.

- `Conserves`: some plans have the columns, keys and tables of others.
- `Moves.conserves`: so they do after any moves.
- `plan_conserves`: so does the plan of a filter.
-/

namespace QueryPlan

/-- The tables of the trees, with those that occur several times as often as they do. -/
def tablesOf (tables : List TablePlan) : List String :=
  tables.flatMap fun p => p.executable.sources

/-- Other plans have the columns and keys of the plans, in some order, and at least their tables;
the same ones if `exact`. -/
structure Conserves (exact : Prop) (tables tables' : List TablePlan) : Prop where
  columns : (tables'.flatMap TablePlan.columns).Perm (tables.flatMap TablePlan.columns)
  keys : (tables'.flatMap TablePlan.uniqueKeys).Perm (tables.flatMap TablePlan.uniqueKeys)
  sources : (tablesOf tables).Subperm (tablesOf tables')
  same : exact → (tablesOf tables').Perm (tablesOf tables)

/-- `q` has the columns and keys of `p`, and at least its tables; the same ones if `exact`. -/
structure TablePlan.Enlarges (exact : Prop) (p q : TablePlan) : Prop where
  columns : q.columns = p.columns
  keys : q.uniqueKeys = p.uniqueKeys
  sources : p.executable.sources.Sublist q.executable.sources
  same : exact → q.executable.sources = p.executable.sources

variable {exact : Prop} {Q : PlanNode → Prop} {or : Prop} {P : Option Expr → Prop}
  {w w' : Workspace} {tables tables' tables'' : List TablePlan}

namespace TablePlan

variable {p q : TablePlan}

theorem Enlarges.of_eq (hcolumns : q.columns = p.columns) (hkeys : q.uniqueKeys = p.uniqueKeys)
    (hsources : q.executable.sources = p.executable.sources) : p.Enlarges exact q :=
  ⟨hcolumns, hkeys, hsources ▸ List.Sublist.refl _, fun _ => hsources⟩

theorem Filtered.enlarges (h : p.Filtered Q q) : p.Enlarges exact q := by
  rcases h with rfl | ⟨tree, htree, rfl⟩
  · exact .of_eq rfl rfl rfl
  · exact .of_eq rfl rfl (PlanNode.sources_of_covered htree.covered)

theorem Sheltered.enlarges {cached : Bool} (h : p.Sheltered cached q) : p.Enlarges exact q := by
  unfold Sheltered at h
  cases cached with
  | true =>
    obtain ⟨k, rfl⟩ := h
    exact .of_eq rfl rfl rfl
  | false =>
    obtain rfl := h
    exact .of_eq rfl rfl rfl

theorem IsCopy.enlarges (h : p.IsCopy q) : p.Enlarges exact q := by
  unfold IsCopy at h
  rw [h]
  exact .of_eq rfl rfl rfl

theorem enlarges_unitePair (hor : ¬ exact) (l r : TablePlan) :
    l.Enlarges exact (unitePair l r) := by
  unfold unitePair
  split
  · exact ⟨rfl, rfl, List.sublist_append_left _ _, fun h => absurd h hor⟩
  · exact .of_eq rfl rfl rfl

theorem enlarges_unitePosition (hor : ¬ exact) (cached : Bool) (before l r : TablePlan) :
    l.Enlarges exact (unitePosition cached before l r) := by
  unfold unitePosition
  split
  · exact enlarges_unitePair hor l r
  · refine .of_eq rfl rfl ?_
    cases cached with
    | true => exact PlanNode.sources_withoutCache _
    | false => rfl

end TablePlan

theorem enlarges_unitePositions (hor : ¬ exact) {before : List (Bool × TablePlan)}
    {ls rs : List TablePlan} (hl : ls.length = before.length) (hr : rs.length = before.length) :
    List.Forall₂ (TablePlan.Enlarges exact) ls (unitePositions before ls rs) := by
  induction before generalizing ls rs with
  | nil =>
    obtain rfl := List.eq_nil_of_length_eq_zero hl
    exact .nil
  | cons x rest ih =>
    obtain ⟨l, ls, rfl⟩ := List.exists_cons_of_length_eq_add_one hl
    obtain ⟨r, rs, rfl⟩ := List.exists_cons_of_length_eq_add_one hr
    exact .cons (TablePlan.enlarges_unitePosition hor _ _ _ _)
      (ih (Nat.succ.inj hl) (Nat.succ.inj hr))

namespace Conserves

theorem refl (exact : Prop) (tables : List TablePlan) : Conserves exact tables tables :=
  ⟨.refl _, .refl _, .refl _, fun _ => .refl _⟩

theorem trans (h : Conserves exact tables tables') (h' : Conserves exact tables' tables'') :
    Conserves exact tables tables'' :=
  ⟨h'.columns.trans h.columns, h'.keys.trans h.keys, h.sources.trans h'.sources,
    fun he => (h'.same he).trans (h.same he)⟩

/-- Plans that are enlarged position by position. -/
theorem of_enlarges (h : List.Forall₂ (TablePlan.Enlarges exact) tables tables') :
    Conserves exact tables tables' := by
  induction h with
  | nil => exact .refl exact []
  | @cons p q tables tables' hpq _ ih =>
    refine ⟨?_, ?_, hpq.sources.subperm.append ih.sources, fun he => ?_⟩
    · rw [List.flatMap_cons, List.flatMap_cons, hpq.columns]
      exact ih.columns.append_left _
    · rw [List.flatMap_cons, List.flatMap_cons, hpq.keys]
      exact ih.keys.append_left _
    · rw [tablesOf, tablesOf, List.flatMap_cons, List.flatMap_cons, hpq.same he]
      exact (ih.same he).append_left _

/-- Two plans became one that has what both have. -/
theorem merged {l r : TablePlan} {m : PlanId} {tree : PlanNode}
    (hnodup : (tables.map TablePlan.id).Nodup) (hl : l ∈ tables) (hr : r ∈ tables)
    (hne : l.id ≠ r.id)
    (hsources : (l.executable.sources ++ r.executable.sources).Subperm tree.sources)
    (hsame : exact → tree.sources.Perm (l.executable.sources ++ r.executable.sources)) :
    Conserves exact tables (mergedTables tables l r m tree) := by
  have hpair := perm_pair_cons hnodup hl hr hne
  -- A merge moves the plans that it leaves alone before the merged one.
  have hbefore : ∀ {γ : Type} (f : TablePlan → List γ), (tables.flatMap f).Perm
      ((tables.filter fun p => p.id ≠ l.id ∧ p.id ≠ r.id).flatMap f ++ (f l ++ f r)) := by
    intro γ f
    refine (hpair.flatMap_right f).trans ?_
    rw [List.flatMap_cons, List.flatMap_cons, ← List.append_assoc]
    exact List.perm_append_comm
  refine ⟨?_, ?_, ?_, fun he => ?_⟩
  · refine .trans (.of_eq ?_) (hbefore TablePlan.columns).symm
    rw [mergedTables, List.flatMap_append, List.flatMap_map, List.flatMap_singleton]
    rfl
  · refine .trans (.of_eq ?_) (hbefore TablePlan.uniqueKeys).symm
    rw [mergedTables, List.flatMap_append, List.flatMap_map, List.flatMap_singleton]
    rfl
  · refine (hbefore fun p => p.executable.sources).subperm.trans ?_
    rw [tablesOf, mergedTables, List.flatMap_append, List.flatMap_map, List.flatMap_singleton]
    exact (List.Subperm.refl _).append hsources
  · refine .trans ?_ (hbefore fun p => p.executable.sources).symm
    rw [tablesOf, mergedTables, List.flatMap_append, List.flatMap_map, List.flatMap_singleton]
    exact (hsame he).append_left _

end Conserves

theorem Sides.conserves_cached {w₁ : Workspace} {cached : List Bool} {left right : TableSet}
    {c : Context} (h : Sides w w₁ cached left right c) :
    Conserves exact w.set.tables w₁.set.tables :=
  .of_enlarges (h.forall₂_cached fun _ _ _ => TablePlan.Sheltered.enlarges)

/-- The left side of an OR starts with everything. -/
theorem Sides.conserves {w₁ : Workspace} {cached : List Bool} {left right : TableSet}
    {c : Context} (h : Sides w w₁ cached left right c) :
    Conserves exact w.set.tables left.tables :=
  h.conserves_cached.trans (.of_enlarges (h.copiesLeft.imp fun _ _ => TablePlan.IsCopy.enlarges))

/-- A plan that has everything does so with its columns in another order. -/
theorem Conserves.reordered {x : TablePlan} {order : List ColumnName}
    (h : Conserves exact tables [x])
    (horder : order.Perm (tables.flatMap TablePlan.columns)) :
    Conserves exact tables [x.reordered order] := by
  obtain ⟨hkeys, hsources⟩ : (x.reordered order).uniqueKeys = x.uniqueKeys ∧
      (x.reordered order).executable.sources = x.executable.sources := by
    unfold TablePlan.reordered
    split <;> exact ⟨rfl, rfl⟩
  obtain ⟨-, hkeys', hsources', hsame⟩ := h
  simp only [tablesOf, List.flatMap_singleton] at hkeys' hsources' hsame
  refine ⟨?_, ?_, ?_, ?_⟩ <;> simp only [tablesOf, List.flatMap_singleton]
  · rwa [TablePlan.reordered_columns]
  · rwa [hkeys]
  · rwa [hsources]
  · rwa [hsources]

theorem PlanNode.sources_addBack (marked : Option (PlanId × String)) (tree : PlanNode) :
    (Planner.addBack marked tree).sources = tree.sources := by
  cases marked <;> rfl

/-- Moves keep everything, and repeat no table without an OR. -/
theorem Moves.conserves (h : Moves Q or w w') (hw : Handled P w) :
    Conserves (¬ or) w.set.tables w'.set.tables := by
  induction h generalizing P with
  | refl => exact .refl _ _
  | trans first _ ih ih' => exact (ih hw).trans (ih' (first.handled hw))
  | filter filtered => exact .of_enlarges (filtered.imp fun _ _ => TablePlan.Filtered.enlarges)
  | join left right ne joined =>
    have hsources := PlanNode.sources_of_joined joined
    exact .merged hw.nodup left right ne (hsources ▸ .refl _) fun _ => .of_eq hsources
  | @joinLinked w w₁ l r x joinType marked c left right ne marks pair single ih =>
    -- The tree has the tables of the pair that it was planned over.
    have hpair := ih (P := P) Handled.pair
    have htables : ∀ i j,
        tablesOf [(l.withMark marked).detached i, (r.withMark marked).detached j] =
        l.executable.sources ++ r.executable.sources := by
      intro i j
      simp [tablesOf, TablePlan.detached, TablePlan.create]
    have htree : tablesOf w₁.set.tables = (Planner.addBack marked x.executable).sources := by
      rw [single, PlanNode.sources_addBack]
      simp [tablesOf]
    refine .merged hw.nodup left right ne ?_ fun hor => ?_
    · rw [← htree]
      exact htables _ _ ▸ hpair.sources
    · rw [← htree]
      exact htables _ _ ▸ hpair.same hor
  | unite allowed opened planLeft planRight fits ih =>
    have hs := opened.sides hw
    have hl := opened.handledLeft hw
    obtain ⟨hlenl, hlenr⟩ := opened.lengths hw planLeft planRight fits
    have hunited := enlarges_unitePositions (not_not.mpr allowed) hlenl hlenr
    exact hs.conserves.trans ((ih hl).trans (.of_enlarges hunited))
  | @uniteJoined w w₁ l r l' r' cached left right c x y allowed opened planLeft planRight _ joinLeft
      single _ _ ih _ ihJoin _ =>
    have hs := opened.sides hw
    have hl := opened.handledLeft hw
    have hside := hs.conserves.trans ((ih hl).trans
      (ihJoin ((planLeft.handled hl).extend planRight.extends)))
    have hunited := TablePlan.enlarges_unitePair (not_not.mpr allowed)
      (x.reordered (w₁.set.tables.flatMap TablePlan.columns))
      (y.reordered (w₁.set.tables.flatMap TablePlan.columns))
    have hcached : Conserves (¬ or) w.set.tables w₁.set.tables := hs.conserves_cached
    rw [single] at hside
    exact (hside.reordered hcached.columns).trans (.of_enlarges (.cons hunited .nil))

/-! ## Whole queries -/

/-- Whether none of the parts that AND joins is an OR. -/
def WithoutOr (on : Option Expr) : Prop :=
  ∀ e, on = some e → ∀ part ∈ e.conjuncts, part.isOr = false

/-- A plan has the columns and the keys of all plans that it was planned from, and their tables;
without ORs to plan, it has each of them just as often. -/
theorem plan_conserves {set : TableSet} {context : Context} {filter : Option Expr}
    {plan : TablePlan} (hids : (set.tables.map TablePlan.id).Nodup)
    (hgiven : ∀ p ∈ set.tables, p.id.number < context.supply.next)
    (h : Planner.plan filter ⟨set, context⟩ = .ok plan w') :
    plan.columns.Perm (set.tables.flatMap TablePlan.columns) ∧
    plan.uniqueKeys.Perm (set.tables.flatMap TablePlan.uniqueKeys) ∧
    (set.tables.flatMap fun p => p.executable.sources).Subperm plan.executable.sources ∧
    (WithoutOr filter →
      (∀ p ∈ set.tables, ∀ side link, p.linkOn side = some link → WithoutOr link.on) →
      plan.executable.sources.Perm (set.tables.flatMap fun p => p.executable.sources)) := by
  -- What is kept by all moves, with and without ORs among them.
  have hconserves : ∀ or, Admits (fun _ => True) or filter →
      (∀ side, ∀ p ∈ set.tables, ∀ link, p.linkOn side = some link →
        Admits (fun _ => True) or link.on) → Conserves (¬ or) set.tables [plan] := by
    intro or hfilter hlinks
    obtain ⟨w₁, hmoves, hsingle, -⟩ := plan_moves hids hgiven hfilter hlinks h
    exact hsingle ▸ hmoves.conserves (P := fun _ => True) ⟨hids, hgiven, fun _ _ _ _ _ => trivial⟩
  have hall : ∀ on, Admits (fun _ => True) True on :=
    fun on e _ => ⟨fun _ _ => trivial, fun hnot => absurd trivial hnot⟩
  obtain ⟨hcolumns, hkeys, hsources, -⟩ := hconserves True (hall _) fun _ _ _ _ _ => hall _
  rw [List.flatMap_singleton] at hcolumns hkeys
  rw [tablesOf, tablesOf, List.flatMap_singleton] at hsources
  refine ⟨hcolumns, hkeys, hsources, fun hfilter hlinks => ?_⟩
  have hnone : ∀ {on}, WithoutOr on → Admits (fun _ => True) False on :=
    fun hon e he => ⟨fun _ _ => trivial, fun _ => hon e he⟩
  have hsame := (hconserves False (hnone hfilter)
    fun side p hp link hlink => hnone (hlinks p hp side link hlink)).same id
  rwa [tablesOf, tablesOf, List.flatMap_singleton] at hsame

/-- A chain of left joins with a filter that reads its ends. -/
theorem plan_conserves_chain :
    let set : TableSet := ⟨chainOfOnes .left (.binary (columnOf "a") .eq (columnOf "b"))
      (.binary (columnOf "b") .lt (columnOf "c")), false⟩
    let filter := Expr.binary (columnOf "a") .eq (columnOf "c")
    ∃ plan w, Planner.plan (some filter) ⟨set, .start .blank default ⟨4⟩⟩ = .ok plan w ∧
      plan.columns.Perm (set.tables.flatMap TablePlan.columns) ∧
      plan.uniqueKeys.Perm (set.tables.flatMap TablePlan.uniqueKeys) ∧
      plan.executable.sources.Perm ["a", "b", "c"] := by
  intro set filter
  have hset : CheckedTables ones literals ⟨4⟩ set .left :=
    chainOfOnes_checked (.refl _) rfl ⟨rfl, by decide⟩ ⟨rfl, by decide⟩
  have hok : resultWith (fun _ _ => ())
      (Planner.plan (some filter) ⟨set, .start .blank default ⟨4⟩⟩) = some () := by
    decide +kernel
  obtain ⟨plan, w, h, -⟩ := exists_of_resultWith hok
  obtain ⟨hcolumns, hkeys, -, hsources⟩ := plan_conserves hset.base.ids hset.base.given h
  refine ⟨plan, w, h, hcolumns, hkeys, hsources (by rintro e ⟨⟩; decide) ?_⟩
  simp only [set, chainOfOnes, List.forall_mem_cons]
  refine ⟨?_, ?_, ?_, List.forall_mem_nil _⟩
  all_goals rintro (_ | _) link hlink e he <;> cases hlink <;> cases he <;> decide

end QueryPlan
