import QueryPlan.Proofs.LinkEnds
import QueryPlan.Proofs.SoundFilters

/-!
# The columns that plans report

- `PlanNode.reverses`: whether the tree has its columns from a join with the right
  plan of a link on the left.
- `TablePlan.Faithful`: a plan reports the columns of its tree, in their order
  unless the tree reverses a link.
- `Steps.faithful`: steps keep all plans faithful.
- `Reached`: the states that planning comes through.
- `columns_of_reached`: every plan in them, and the plan that is returned, is
  faithful.
- `not_columns_of_reached`: one that reverses a link reports the columns in
  another order than its tree has them.

Two linked plans are merged with the columns of the left one first. Their tree is
that of the condition, planned over copies of both, and there the plan that the
condition reads first comes first.
-/

namespace QueryPlan

universe u

variable {V : Type u} {db : Database V} {pairs : List (String × String)} {plain : Prop}
  {P : Option Expr → Prop} {w w' : Workspace}

/-! ## Trees -/

namespace PlanNode

/-- Whether the second table of a pair is in the left tree and its first one in the right tree. -/
def swapped (pairs : List (String × String)) (l r : PlanNode) : Bool :=
  pairs.any fun e => l.sources.contains e.2 && r.sources.contains e.1

/-- Whether a join that the tree has its columns from swaps the tables of a pair. -/
def reverses (pairs : List (String × String)) : PlanNode → Bool
  | .source _ => false
  | .naturalJoin l r => swapped pairs l r || l.reverses pairs || r.reverses pairs
  | .join l r _ _ _ => swapped pairs l r || l.reverses pairs || r.reverses pairs
  | .outerJoin input _ => input.reverses pairs
  | .union l _ => l.reverses pairs
  | .project _ _ => false
  | .cache input _ => input.reverses pairs
  | .cacheMark input _ => input.reverses pairs
  | .constantSelect input _ => input.reverses pairs
  | .simpleSelect input _ _ _ => input.reverses pairs
  | .patternSelect input _ _ _ _ => input.reverses pairs
  | .exhaustiveSelect input _ => input.reverses pairs
  | .anyAllSelect input _ _ _ _ => input.reverses pairs

/-- The input that a node has all its columns from. -/
def passed? : PlanNode → Option PlanNode
  | .source _ => none
  | .naturalJoin _ _ => none
  | .join _ _ _ _ _ => none
  | .outerJoin input _ => some input
  | .union l _ => some l
  | .project _ _ => none
  | .cache input _ => some input
  | .cacheMark input _ => some input
  | .constantSelect input _ => some input
  | .simpleSelect input _ _ _ => some input
  | .patternSelect input _ _ _ _ => some input
  | .exhaustiveSelect input _ => some input
  | .anyAllSelect input _ _ _ _ => some input

variable {node input l r : PlanNode}

/-- A node that passes its input on has the columns of the input. -/
theorem columns_of_passed (h : node.passed? = some input) : node.columns db = input.columns db := by
  cases node <;> cases h <;> rfl

/-- A node that passes its input on reverses the links that the input reverses. -/
theorem reverses_of_passed (h : node.passed? = some input) :
    node.reverses pairs = input.reverses pairs := by
  cases node <;> cases h <;> rfl

/-- A node that passes its input on reads the tables of the input. -/
theorem mem_sources_of_passed (h : node.passed? = some input) {table : String}
    (ht : table ∈ input.sources) : table ∈ node.sources := by
  cases node with
  | union l r =>
    cases h
    exact List.mem_append_left _ ht
  | _ =>
    cases h
    try exact ht

/-- A node that is put on one input passes it on. -/
theorem passed_of_covered (h : node.covered? = some input) : node.passed? = some input := by
  cases node <;> cases h <;> rfl

/-- A join with the right plan of a link on its left swaps the two. -/
theorem swapped_of_mem {e : String × String} (he : e ∈ pairs) (hl : e.2 ∈ l.sources)
    (hr : e.1 ∈ r.sources) : swapped pairs l r = true := by
  refine List.any_eq_true.mpr ⟨e, he, ?_⟩
  rw [List.contains_iff_mem.mpr hl, List.contains_iff_mem.mpr hr]
  rfl

/-- A join reverses a link if it swaps the two plans, or an input of it reverses one. -/
theorem reverses_of_joined (h : node.joined? = some (l, r)) :
    node.reverses pairs = (swapped pairs l r || l.reverses pairs || r.reverses pairs) := by
  rcases joined?_eq h with rfl | ⟨_, _, _, rfl⟩ <;> rfl

end PlanNode

/-! ## Plans -/

/-- `q` reports the columns that `p` does, and its tree has those of the tree of `p`: it is the
same, perhaps with another node on it or without a cache. -/
structure TablePlan.SameColumns (p q : TablePlan) : Prop where
  reported : q.columns = p.columns
  tree : q.executable = p.executable ∨ q.executable.passed? = some p.executable ∨
    ∃ id, p.executable = .cache q.executable id

/-- The plan reports the columns of its tree, and in their order unless the tree reverses a
link. -/
structure TablePlan.Faithful (db : Database V) (pairs : List (String × String)) (p : TablePlan) :
    Prop where
  perm : p.columns.Perm (p.executable.columns db)
  same : p.executable.reverses pairs = false → p.columns = p.executable.columns db

namespace TablePlan

variable {p q x : TablePlan}

namespace SameColumns

/-- The columns of the tree stay. -/
theorem actual (h : p.SameColumns q) : q.executable.columns db = p.executable.columns db := by
  rcases h.tree with htree | htree | ⟨id, htree⟩
  · rw [htree]
  · exact PlanNode.columns_of_passed htree
  · rw [htree]
    rfl

/-- The links that the tree reverses stay. -/
theorem reverses (h : p.SameColumns q) :
    q.executable.reverses pairs = p.executable.reverses pairs := by
  rcases h.tree with htree | htree | ⟨id, htree⟩
  · rw [htree]
  · exact PlanNode.reverses_of_passed htree
  · rw [htree]
    rfl

/-- The tables that the tree reads stay. -/
theorem sources (h : p.SameColumns q) {table : String} (ht : table ∈ p.executable.sources) :
    table ∈ q.executable.sources := by
  rcases h.tree with htree | htree | ⟨id, htree⟩
  · rwa [htree]
  · exact PlanNode.mem_sources_of_passed htree ht
  · rw [htree] at ht
    exact ht

end SameColumns

/-- A plan with the columns of a faithful one is faithful. -/
theorem Faithful.of_same (h : p.Faithful db pairs) (hpq : p.SameColumns q) :
    q.Faithful db pairs := by
  refine ⟨?_, fun hrev => ?_⟩
  · rw [hpq.reported, hpq.actual]
    exact h.perm
  · rw [hpq.reported, hpq.actual]
    exact h.same (hpq.reverses ▸ hrev)

/-- A plan with further nodes on its tree reports the same columns. -/
theorem Covers.same (h : p.Covers plain q) : p.SameColumns q :=
  ⟨h.columns, h.tree.imp_right fun htree => Or.inl (PlanNode.passed_of_covered htree.1)⟩

/-- A plan that unites both sides of an OR reports the columns of the left one. -/
theorem Unites.same (h : p.Unites q) : p.SameColumns q := by
  refine ⟨h.columns, ?_⟩
  rcases h.tree with htree | htree | ⟨other, htree⟩
  · exact Or.inl htree
  · rw [htree]
    cases p.executable with
    | cache input id => exact Or.inr (Or.inr ⟨id, rfl⟩)
    | _ => exact Or.inl rfl
  · rw [htree]
    exact Or.inr (Or.inl rfl)

/-- A copy reports the same columns. -/
theorem Copies.same (h : p.Copies q) : p.SameColumns q :=
  ⟨h.alike.columns, Or.inl h.executable⟩

/-- A marked plan reports the same columns. -/
theorem same_withMark (marked : Option (PlanId × String)) (p : TablePlan) :
    p.SameColumns (p.withMark marked) := by
  rcases p.withMark_eq marked with h | ⟨mark, h⟩
  · rw [h]
    exact ⟨rfl, Or.inl rfl⟩
  · rw [h]
    exact ⟨rfl, Or.inr (Or.inl rfl)⟩

/-- A plan without its links reports the same columns. -/
theorem same_detached (p : TablePlan) (id : PlanId) : p.SameColumns (p.detached id) :=
  ⟨rfl, Or.inl rfl⟩

/-- A projection brings the tree to the columns that the plan reports. -/
theorem Faithful.reordered (h : x.Faithful db pairs) (order : List ColumnName) :
    (x.reordered order).Faithful db pairs := by
  unfold TablePlan.reordered
  by_cases hcols : x.columns = order
  · rw [if_pos hcols]
    exact h
  · rw [if_neg hcols]
    exact ⟨.refl _, fun _ => rfl⟩

/-- A base table is faithful. -/
theorem IsBase.faithful (h : p.IsBase db) : p.Faithful db pairs := by
  obtain ⟨table, htree, hcols⟩ := h.source
  have hsame : p.columns = p.executable.columns db := by
    rw [htree, hcols]
    rfl
  exact ⟨.of_eq hsame, fun _ => hsame⟩

end TablePlan

/-- An outer join has the columns of its input. -/
theorem columns_addBack (marked : Option (PlanId × String)) (tree : PlanNode) :
    (Planner.addBack marked tree).columns db = tree.columns db := by
  rcases marked with _ | ⟨_, _⟩ <;> rfl

/-- An outer join reverses the links that its input does. -/
theorem reverses_addBack (marked : Option (PlanId × String)) (tree : PlanNode) :
    (Planner.addBack marked tree).reverses pairs = tree.reverses pairs := by
  rcases marked with _ | ⟨_, _⟩ <;> rfl

section

variable {tables tables' : List TablePlan} {l r x : TablePlan} {m : PlanId} {tree : PlanNode}

/-- Plans with the columns of faithful ones are faithful. -/
theorem faithful_of_forall₂ (hall : List.Forall₂ TablePlan.SameColumns tables tables')
    (hf : ∀ p ∈ tables, p.Faithful db pairs) : ∀ q ∈ tables', q.Faithful db pairs := by
  intro q hq
  obtain ⟨p, hp, hpq⟩ := exists_left_of_forall₂ hall hq
  exact (hf p hp).of_same hpq

/-- Other plans than those that are merged only have the targets of their links changed. -/
theorem faithful_mergedTables (hf : ∀ p ∈ tables, p.Faithful db pairs)
    (hm : (mergedPlan m l r fun _ _ => tree).Faithful db pairs) :
    ∀ q ∈ mergedTables tables l r m tree, q.Faithful db pairs := by
  intro q hq
  rcases mem_mergedTables.mp hq with ⟨p, hp, -, -, rfl⟩ | rfl
  · exact (hf p hp).of_same ⟨rfl, Or.inl rfl⟩
  · exact hm

/-- Two plans that a node joins have their columns in the order of its inputs. -/
theorem faithful_mergedPlan_of_joined (hl : l.Faithful db pairs) (hr : r.Faithful db pairs)
    (hjoined : tree.joined? = some (l.executable, r.executable)) :
    (mergedPlan m l r fun _ _ => tree).Faithful db pairs := by
  have hcols := PlanNode.columns_of_joined db hjoined
  refine ⟨?_, fun hrev => ?_⟩
  · show (l.columns ++ r.columns).Perm (tree.columns db)
    rw [hcols]
    exact hl.perm.append hr.perm
  · have hrev' : tree.reverses pairs = false := hrev
    rw [PlanNode.reverses_of_joined hjoined, Bool.or_eq_false_iff, Bool.or_eq_false_iff] at hrev'
    show l.columns ++ r.columns = tree.columns db
    rw [hcols, hl.same hrev'.1.2, hr.same hrev'.2]

/-- Two linked plans take over the tree of the plan that their copies became, which has their
columns in order or reverses a link. -/
theorem faithful_mergedPlan_addBack (marked : Option (PlanId × String)) (hx : x.Faithful db pairs)
    (hperm : x.columns.Perm (l.columns ++ r.columns))
    (horder : x.columns = l.columns ++ r.columns ∨ x.executable.reverses pairs = true) :
    (mergedPlan m l r fun _ _ => Planner.addBack marked x.executable).Faithful db pairs := by
  refine ⟨?_, fun hrev => ?_⟩
  · show (l.columns ++ r.columns).Perm ((Planner.addBack marked x.executable).columns db)
    rw [columns_addBack]
    exact hperm.symm.trans hx.perm
  · have hrev' : (Planner.addBack marked x.executable).reverses pairs = false := hrev
    rw [reverses_addBack] at hrev'
    show l.columns ++ r.columns = (Planner.addBack marked x.executable).columns db
    rw [columns_addBack, ← hx.same hrev']
    rcases horder with horder | horder
    · exact horder.symm
    · rw [hrev'] at horder
      cases horder

end

/-! ## Two linked plans -/

/-- Plans with columns `cl` and `cr`, of which one has the first table of a pair and the other one
the second. -/
structure InOrder (e : String × String) (cl cr : List ColumnName) (p q : TablePlan) : Prop where
  left : p.columns = cl
  right : q.columns = cr
  first : e.1 ∈ p.executable.sources
  second : e.2 ∈ q.executable.sources

/-- The plans that two such linked ones become on the way to one plan: the two still, or else one
that has their columns in order or reverses a link. -/
abbrev Ordered (pairs : List (String × String)) (e : String × String) (cl cr : List ColumnName)
    (tables : List TablePlan) : Prop :=
  Paired (InOrder e cl cr) (fun x => x.columns = cl ++ cr ∨ x.executable.reverses pairs = true)
    tables

/-- Plans with the same columns and tables, position by position, are in the same order. -/
theorem Ordered.of_same {e : String × String} {cl cr : List ColumnName}
    {tables tables' : List TablePlan} (h : Ordered pairs e cl cr tables)
    (hall : List.Forall₂ TablePlan.SameColumns tables tables') :
    Ordered pairs e cl cr tables' := by
  refine Paired.of_forall₂ h hall ?_ ?_
  · intro p p' q q' hp hq ⟨hl, hr, hone, hother⟩
    exact ⟨hp.reported.trans hl, hq.reported.trans hr, hp.sources hone, hq.sources hother⟩
  · intro x x' hx
    rw [hx.reported, hx.reverses]
    exact fun h => h

namespace Steps

/-- A single plan stays the only one, with the same columns. -/
theorem single_columns (h : Steps plain w w') {x : TablePlan} (hx : w.set.tables = [x]) :
    ∃ y, w'.set.tables = [y] ∧ y.columns = x.columns := by
  -- Two different plans are not to be had from one.
  have hpair : ∀ {w : Workspace} {x l r : TablePlan}, w.set.tables = [x] → l ∈ w.set.tables →
      r ∈ w.set.tables → l.id = r.id := by
    intro w x l r hx hl hr
    rw [hx, List.mem_singleton] at hl hr
    rw [hl, hr]
  -- Plans that keep their columns, position by position, are a single one as before.
  have hkeep : ∀ {x : TablePlan} {tables tables' : List TablePlan},
      List.Forall₂ (fun p q => q.columns = p.columns) tables tables' → tables = [x] →
      ∃ y, tables' = [y] ∧ y.columns = x.columns := by
    rintro x _ tables' hall rfl
    obtain ⟨y, _, hy, hnil, rfl⟩ := List.forall₂_cons_left_iff.mp hall
    exact ⟨y, by rw [List.forall₂_nil_left_iff.mp hnil], hy⟩
  induction h generalizing x with
  | refl => exact ⟨x, hx, rfl⟩
  | trans _ _ ih ih' =>
    obtain ⟨y, hy, hcols⟩ := ih hx
    obtain ⟨z, hz, hcols'⟩ := ih' hy
    exact ⟨z, hz, hcols'.trans hcols⟩
  | spend => exact ⟨x, hx, rfl⟩
  | cover covers => exact hkeep (covers.imp fun _ _ h => h.columns) hx
  | join left right ne => exact absurd (hpair hx left right) ne
  | joinLinked left right ne => exact absurd (hpair hx left right) ne
  | unite _ _ copied _ _ united _ ih =>
    obtain ⟨y, hy, hcols⟩ := hkeep (copied.copies.imp fun _ _ h => h.alike.columns) hx
    obtain ⟨z, hz, hcols'⟩ := ih hy
    obtain ⟨t, ht, hcols''⟩ := hkeep (united.imp fun _ _ h => h.columns) hz
    exact ⟨t, ht, hcols''.trans (hcols'.trans hcols)⟩
  | uniteJoined _ _ _ _ _ united =>
    refine ⟨_, rfl, ?_⟩
    rw [united.columns, TablePlan.reordered_columns, hx, List.flatMap_singleton]

/-- Two linked plans become one with their columns in order, or one that reverses a link. -/
theorem ordered {e : String × String} {cl cr : List ColumnName} (h : Steps plain w w')
    (hw : Unlinked w) (he : e ∈ pairs) (ho : Ordered pairs e cl cr w.set.tables) :
    Ordered pairs e cl cr w'.set.tables := by
  -- The induction is on the steps, over a pair of unlinked copies. They stay in their order until
  -- they are joined; the tree either keeps that order or reverses the link.
  induction h with
  | refl => exact ho
  | trans first _ ih ih' => exact ih' (first.sound hw) (ih hw ho)
  | spend => exact ho
  | cover covers => exact ho.of_same (covers.imp fun _ _ => TablePlan.Covers.same)
  | @join _ l r tree left right ne _ _ _ joined =>
    refine ho.merged left right ne ?_
    rintro (⟨hl, hr, -, -⟩ | ⟨-, -, hone, hother⟩)
    · exact Or.inl (congrArg₂ _ hl hr)
    · refine Or.inr ?_
      show tree.reverses pairs = true
      rw [PlanNode.reverses_of_joined joined, PlanNode.swapped_of_mem he hother hone]
      rfl
  | joinLinked left right ne linked =>
    have hnone := hw.linkOn_eq_none left .right
    rw [TablePlan.linkOn_right, linked] at hnone
    cases hnone
  | unite _ _ copied _ _ united _ ih =>
    have hcopy := ho.of_same (copied.copies.imp fun _ _ => TablePlan.Copies.same)
    exact (ih (hw.copied copied) hcopy).of_same (united.imp fun _ _ => TablePlan.Unites.same)
  | @uniteJoined w side copy c c' x y _ _ _ copied planned single united _ _ ih =>
    refine Or.inr ⟨y, rfl, ?_⟩
    show y.columns = cl ++ cr ∨ y.executable.reverses pairs = true
    rw [united.columns, TablePlan.reordered_columns, united.same.reverses]
    have hcopies := copied.copies.imp fun _ _ => TablePlan.Copies.same
    have hside := ih (hw.copied copied) (ho.of_same hcopies)
    rcases ho with ⟨p, q, hpq, hcols⟩ | ⟨z, hz, -⟩
    · rw [hpq, ← hcols.left, ← hcols.right]
      exact Or.inl (by simp)
    · -- A single plan has kept its columns, so they are in the order before the OR.
      rw [hz] at hcopies
      obtain ⟨z', _, hz', hnil, hcopy⟩ := List.forall₂_cons_left_iff.mp hcopies
      rw [List.forall₂_nil_left_iff.mp hnil] at hcopy
      obtain ⟨x', hx', hcols⟩ := planned.single_columns hcopy
      obtain rfl := List.singleton_inj.mp (single.symm.trans hx')
      have horder : w.set.tables.flatMap TablePlan.columns = x.columns := by
        rw [hz, List.flatMap_singleton, hcols, hz'.reported]
      rw [horder, TablePlan.reordered, if_pos rfl]
      exact hside.of_single single

/-- Steps keep all plans faithful. -/
theorem faithful (h : Steps plain w w') (hw : Sound P w) (hwired : Wired pairs w.set.tables)
    (hf : ∀ p ∈ w.set.tables, p.Faithful db pairs) : ∀ p ∈ w'.set.tables, p.Faithful db pairs := by
  induction h generalizing P with
  | refl => exact hf
  | trans first _ ih ih' => exact ih' (first.sound hw) (first.wired hw hwired) (ih hw hwired hf)
  | spend => exact hf
  | cover covers => exact faithful_of_forall₂ (covers.imp fun _ _ => TablePlan.Covers.same) hf
  | @join w l r tree left right _ _ _ _ joined =>
    exact faithful_mergedTables hf
      (faithful_mergedPlan_of_joined (hf l left) (hf r right) joined)
  | @joinLinked w w₁ l r x link marked c left right ne linked target marks pair single ih =>
    have hsound : Unlinked ⟨⟨[(l.withMark marked).detached ⟨c.supply.next⟩,
        (r.withMark marked).detached ⟨c.supply.next + 1⟩], true⟩,
        { c with supply := ⟨c.supply.next + 2⟩ }⟩ := Sound.pair
    obtain ⟨q, hq, hid, -⟩ := hw.answered.back .right l left link linked
    obtain rfl := hw.answered.eq_of_id hq right (hid.trans target)
    obtain ⟨e, he, hone, hother⟩ := hwired.exists_ends left linked hq hid
    -- The plan that the two become reports the columns of its tree, and in the order of the merge.
    have hx : x.Faithful db pairs := by
      refine ih hsound (.of_unlinked hsound) ?_ x (single ▸ List.mem_singleton_self x)
      simp only [List.forall_mem_cons]
      refine ⟨?_, ?_, List.forall_mem_nil _⟩
      · exact ((hf l left).of_same (l.same_withMark marked)).of_same (TablePlan.same_detached _ _)
      · exact ((hf q right).of_same (q.same_withMark marked)).of_same (TablePlan.same_detached _ _)
    have horder : x.columns = l.columns ++ q.columns ∨ x.executable.reverses pairs = true := by
      refine (pair.ordered hsound he (Or.inl ⟨_, _, rfl, ?_⟩)).of_single single
      exact ⟨l.withMark_columns marked, q.withMark_columns marked,
        (l.same_withMark marked).sources hone, (q.same_withMark marked).sources hother⟩
    have hperm : x.columns.Perm (l.columns ++ q.columns) := by
      have := pair.columns_perm hsound
      rw [single, List.flatMap_singleton] at this
      simp only [List.flatMap_cons, List.flatMap_nil, List.append_nil] at this
      exact (l.withMark_columns marked) ▸ (q.withMark_columns marked) ▸ this
    exact faithful_mergedTables hf (faithful_mergedPlan_addBack marked hx hperm horder)
  | unite _ _ copied planned _ united _ ih =>
    have hcopies := copied.copies.imp fun _ _ => TablePlan.Copies.same
    have hside := ih (hw.copied copied) (hwired.copied hw.answered copied)
      (faithful_of_forall₂ hcopies hf)
    exact faithful_of_forall₂ (united.imp fun _ _ => TablePlan.Unites.same) hside
  | uniteJoined _ _ copied _ single united _ _ ih =>
    have hcopies := copied.copies.imp fun _ _ => TablePlan.Copies.same
    have hx := ih (hw.copied copied) (hwired.copied hw.answered copied)
      (faithful_of_forall₂ hcopies hf)
    rw [single, List.forall_mem_singleton] at hx
    rw [List.forall_mem_singleton]
    exact (hx.reordered _).of_same united.same

end Steps

/-! ## Planning -/

/-- The states that planning comes through: those of the set that it starts with, and of the copies
that it plans other sets over. -/
inductive Reached (start : Workspace) : Workspace → Prop where
  | start : Reached start start
  | steps {w w' : Workspace} (before : Reached start w) (steps : Steps False w w') :
    Reached start w'
  /-- A plan whose rows an outer join keeps is marked. -/
  | mark {w : Workspace} (before : Reached start w) (marked : Option (PlanId × String))
    {c : Context} (used : w.context.Extends c) :
    Reached start ⟨⟨w.set.tables.map (TablePlan.withMark marked), w.set.hasJoins⟩, c⟩
  /-- Linked plans are copied for the condition of their link to be planned over. -/
  | pair {w : Workspace} {l r : TablePlan} {link : JoinLink} (before : Reached start w)
    (left : l ∈ w.set.tables) (right : r ∈ w.set.tables) (linked : l.right = some link)
    (target : link.target = r.id) :
    Reached start ⟨⟨[l.detached ⟨w.context.supply.next⟩, r.detached ⟨w.context.supply.next + 1⟩],
      true⟩, { w.context with supply := ⟨w.context.supply.next + 2⟩ }⟩
  /-- The set is copied for one side of an OR. -/
  | copy {w : Workspace} {copy : TableSet} {c : Context} (before : Reached start w)
    (used : w.context.Extends c) (copied : w.set.Copied copy c) : Reached start ⟨copy, c⟩
  /-- The side of an OR that was joined gets its columns in the order before the OR. -/
  | reorder {w : Workspace} {x : TablePlan} (before : Reached start w)
    (single : w.set.tables = [x]) (order : List ColumnName) {hasJoins : Bool} {c : Context}
    (used : w.context.Extends c) : Reached start ⟨⟨[x.reordered order], hasJoins⟩, c⟩

/-- Nothing comes of no plans. -/
theorem Steps.eq_nil (h : Steps plain w w') (hw : w.set.tables = []) : w'.set.tables = [] := by
  induction h with
  | refl => exact hw
  | trans _ _ ih ih' => exact ih' (ih hw)
  | spend => exact hw
  | cover covers =>
    rw [hw] at covers
    exact List.forall₂_nil_left_iff.mp covers
  | join left =>
    rw [hw] at left
    exact absurd left List.not_mem_nil
  | joinLinked left =>
    rw [hw] at left
    exact absurd left List.not_mem_nil
  | unite _ _ copied _ _ united _ ih =>
    have hcopy := copied.copies
    rw [hw, List.forall₂_nil_left_iff] at hcopy
    rw [ih hcopy] at united
    exact List.forall₂_nil_left_iff.mp united
  | uniteJoined _ _ copied _ single _ _ _ ih =>
    have hcopy := copied.copies
    rw [hw, List.forall₂_nil_left_iff] at hcopy
    rw [ih hcopy] at single
    cases single

/-- Where there are no plans, none are reached. -/
theorem Reached.eq_nil {start : Workspace} (h : Reached start w) (hstart : start.set.tables = []) :
    w.set.tables = [] := by
  induction h with
  | start => exact hstart
  | steps _ steps ih => exact steps.eq_nil ih
  | mark _ marked _ ih => exact List.map_eq_nil_iff.mpr ih
  | pair _ left _ _ _ ih =>
    rw [ih] at left
    exact absurd left List.not_mem_nil
  | copy _ _ copied ih =>
    have hcopy := copied.copies
    rwa [ih, List.forall₂_nil_left_iff] at hcopy
  | reorder _ single _ _ ih =>
    rw [ih] at single
    cases single

/-- Planning from a sound set comes through sound sets only. -/
theorem Reached.sound {start : Workspace} (h : Reached start w)
    (hstart : Sound (fun _ => True) start) : Sound (fun _ => True) w := by
  induction h with
  | start => exact hstart
  | steps _ steps ih => exact steps.sound ih
  | mark _ marked used ih => exact ih.stay (TablePlan.followsAll_withMark marked _) used
  | @pair w l r _ _ _ _ _ _ _ =>
    have hpair : Unlinked ⟨⟨[l.detached ⟨w.context.supply.next⟩,
        r.detached ⟨w.context.supply.next + 1⟩], true⟩,
        { w.context with supply := ⟨w.context.supply.next + 2⟩ }⟩ := Sound.pair
    exact hpair.of_unlinked
  | copy _ _ copied ih => exact ih.copied copied
  | reorder _ single order used ih =>
    refine ih.stay ?_ used
    rw [single]
    exact .cons (TablePlan.follows_reordered _ _) .nil

/-- The plans of a sound set are faithful, and its links wired. -/
structure Reporting (db : Database V) (pairs : List (String × String)) (w : Workspace) : Prop where
  sound : Sound (fun _ => True) w
  wired : Wired pairs w.set.tables
  faithful : ∀ p ∈ w.set.tables, p.Faithful db pairs

namespace Reporting

/-- Steps keep all plans faithful. -/
theorem steps (h : Reporting db pairs w) (hsteps : Steps plain w w') : Reporting db pairs w' :=
  ⟨hsteps.sound h.sound, hsteps.wired h.sound h.wired,
    hsteps.faithful h.sound h.wired h.faithful⟩

/-- Plans under the same handles, with their links and columns. -/
theorem stay {tables : List TablePlan} {hasJoins : Bool} {c : Context} (h : Reporting db pairs w)
    (hf : FollowsAll (fun i => i) w.set.tables tables) (hc : w.context.Extends c)
    (hfaithful : ∀ q ∈ tables, q.Faithful db pairs) :
    Reporting db pairs ⟨⟨tables, hasJoins⟩, c⟩ :=
  ⟨h.sound.stay hf hc, h.wired.stay h.sound.answered hf, hfaithful⟩

/-- Planning comes only through states where all plans are faithful. -/
theorem of_reached {start : Workspace} (h : Reporting db pairs start) (hw : Reached start w) :
    Reporting db pairs w := by
  -- The induction is on how the state is reached. Within a join by a link, the pair is planned on
  -- its own, without links.
  induction hw with
  | start => exact h
  | steps _ steps ih => exact ih.steps steps
  | @mark w _ marked c used ih =>
    refine ih.stay (TablePlan.followsAll_withMark marked _) used fun q hq => ?_
    obtain ⟨p, hp, rfl⟩ := List.mem_map.mp hq
    exact (ih.faithful p hp).of_same (p.same_withMark marked)
  | @pair w l r _ _ left right _ _ ih =>
    have hpair : Unlinked ⟨⟨[l.detached ⟨w.context.supply.next⟩,
        r.detached ⟨w.context.supply.next + 1⟩], true⟩,
        { w.context with supply := ⟨w.context.supply.next + 2⟩ }⟩ := Sound.pair
    refine ⟨hpair.of_unlinked, .of_unlinked hpair, ?_⟩
    simp only [List.forall_mem_cons]
    exact ⟨(ih.faithful l left).of_same (l.same_detached _),
      (ih.faithful r right).of_same (r.same_detached _), List.forall_mem_nil _⟩
  | copy _ _ copied ih =>
    exact ⟨ih.sound.copied copied, ih.wired.copied ih.sound.answered copied,
      faithful_of_forall₂ (copied.copies.imp fun _ _ => TablePlan.Copies.same) ih.faithful⟩
  | @reorder w x _ single order _ _ used ih =>
    refine ih.stay ?_ used ?_
    · rw [single]
      exact .cons (TablePlan.follows_reordered _ _) .nil
    · rw [List.forall_mem_singleton]
      refine TablePlan.Faithful.reordered (ih.faithful x ?_) order
      rw [single]
      exact List.mem_singleton_self x

end Reporting

/-- A plan that is returned is the last one of a state that planning comes through. -/
theorem exists_reached {uuids : Identifiers} {settings : Settings} {set : TableSet}
    {filter : Option Expr} {supply supply' : PlanId.Supply} {plan : TablePlan}
    (hw : Sound (fun _ => True) ⟨set, .start uuids settings supply⟩)
    (h : planQuery uuids settings set filter supply = .ok plan supply') :
    ∃ w, Reached ⟨set, .start uuids settings supply⟩ w ∧ w.set.tables = [plan] := by
  obtain ⟨w, hplan⟩ := planQuery_ok h
  obtain ⟨w₁, hsteps, hsingle, -⟩ :=
    (Planner.meets_planWholeWith conditionLaw_any (fun _ _ h => h.elim) hw).ok hplan
  exact ⟨w₁, .steps .start hsteps, hsingle⟩

/-- Over base tables with links that pass their check, every plan that planning comes through, and
the one that it returns, reports the columns of its tree, in another order only if the tree reverses
a link. -/
theorem columns_of_reached {uuids : Identifiers} {settings : Settings} {set : TableSet}
    {supply : PlanId.Supply} (hbase : ∀ p ∈ set.tables, p.IsBase db)
    (hids : (set.tables.map TablePlan.id).Nodup)
    (hgiven : ∀ p ∈ set.tables, p.id.number < supply.next) (hvalid : set.validateLinks = .ok ()) :
    (∀ w, Reached ⟨set, .start uuids settings supply⟩ w →
      ∀ p ∈ w.set.tables, p.Faithful db set.linkEnds) ∧
    ∀ filter plan supply', planQuery uuids settings set filter supply = .ok plan supply' →
      plan.Faithful db set.linkEnds := by
  by_cases hne : set.tables = []
  · refine ⟨fun w hw p hp => ?_, fun filter plan supply' h => ?_⟩
    · rw [hw.eq_nil hne] at hp
      exact absurd hp List.not_mem_nil
    · exact absurd hne (nonempty_of_planQuery h)
  have hsound : Sound (fun _ => True) ⟨set, .start uuids settings supply⟩ :=
    sound_of_validateLinks hne hids hgiven hvalid fun _ _ _ _ _ => trivial
  have hreporting : Reporting db set.linkEnds ⟨set, .start uuids settings supply⟩ :=
    ⟨hsound, .of_base (fun p hp => (hbase p hp).source.imp fun _ => And.left) hsound.answered,
      fun p hp => (hbase p hp).faithful⟩
  refine ⟨fun w hw => (hreporting.of_reached hw).faithful, fun filter plan supply' h => ?_⟩
  obtain ⟨w, hw, hsingle⟩ := exists_reached hsound h
  refine (hreporting.of_reached hw).faithful plan ?_
  rw [hsingle]
  exact List.mem_singleton_self plan

/-- A chain of outer joins with an OR as a filter reverses no link. -/
theorem columns_of_reached_chain :
    let set : TableSet := ⟨chainOfOnes .left (.binary (columnOf "a") .eq (columnOf "b"))
      (.binary (columnOf "b") .lt (columnOf "c")), false⟩
    let filter := Expr.binary (.binary (columnOf "a") .eq (columnOf "c")) .or
      (.unary .isNull (columnOf "b"))
    ∃ plan supply', planQuery .blank default set (some filter) ⟨4⟩ = .ok plan supply' ∧
      plan.executable.reverses set.linkEnds = false ∧
      plan.columns = plan.executable.columns ones := by
  intro set filter
  have hset : CheckedTables ones literals ⟨4⟩ set .left :=
    chainOfOnes_checked (.refl _) rfl ⟨rfl, by decide⟩ ⟨rfl, by decide⟩
  have hok : resultWith (fun plan _ => plan.executable.reverses set.linkEnds)
      (planQuery .blank default set (some filter) ⟨4⟩) = some false := by
    decide +kernel
  obtain ⟨plan, supply', h, hrev⟩ := exists_of_resultWith hok
  refine ⟨plan, supply', h, hrev, TablePlan.Faithful.same ?_ hrev⟩
  exact (columns_of_reached hset.base.base hset.base.ids hset.base.given hset.valid).2 _ _ _ h

/-- A condition that reads the right table of its link first brings the tables into an order that
the plan does not report. -/
theorem not_columns_of_reached :
    let on := Expr.binary (columnOf "b") .eq (columnOf "a")
    let set : TableSet := ⟨[(TablePlan.one 1 "a").withRight ⟨⟨2⟩, .inner, some on⟩,
      (TablePlan.one 2 "b").withLeft ⟨⟨1⟩, .inner, some on⟩], false⟩
    BaseTables ones ⟨3⟩ set.tables ∧ set.validateLinks = .ok () ∧
      ∃ plan supply', planQuery .blank default set none ⟨3⟩ = .ok plan supply' ∧
        plan.columns = [.qualified "a" "x", .qualified "b" "x"] ∧
        plan.executable.columns ones = [.qualified "b" "x", .qualified "a" "x"] := by
  intro on set
  have hones : List.Forall₂ TablePlan.IsOne set.tables [(1, "a"), (2, "b")] :=
    .cons rfl (.cons rfl .nil)
  have hbase : BaseTables ones ⟨3⟩ set.tables :=
    .of_ones hones (by decide) (by decide) (by decide)
  have hrun : resultWith (fun plan _ => (plan.columns, plan.executable))
      (planQuery .blank default set none ⟨3⟩) =
        some ([.qualified "a" "x", .qualified "b" "x"],
          .join (.source "b") (.source "a") (.qualified "b" "x") .eq (columnOf "a")) := by
    rfl
  obtain ⟨plan, supply', h, hplan⟩ := exists_of_resultWith hrun
  rw [Prod.mk.injEq] at hplan
  refine ⟨hbase, rfl, plan, supply', h, hplan.1, ?_⟩
  rw [hplan.2]
  rfl

end QueryPlan
