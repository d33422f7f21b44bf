import QueryPlan.Proofs.Evaluation
import QueryPlan.Proofs.Validated

/-!
# Filters over inner joins

- `PlanNode.joinsTwice`: whether a join of a tree is across two links at once.
- `OneType.rows_of_inner`: the rows that base tables with inner links stand for.
- `planQuery_rows_of_inner`: a filter over them is planned as a tree of the rows that meet
  the condition of every link, if no join of the tree is across two links.
- `not_planQuery_rows_of_inner`: one that is loses a condition.

Tables that are not linked with each other are merged as all pairs of their rows
if they have no links on the same side. The merged plan then has two links with
a table that both were linked to, and the join with it plans the condition of
only one.
-/

namespace QueryPlan

universe u

variable {V : Type u} {db : Database V} {val : Valuation V} {uuids : Identifiers}
  {settings : Settings} {set : TableSet} {supply supply' : PlanId.Supply} {plan : TablePlan}

/-! ## Joins across links -/

namespace PlanNode

/-- Whether the node joins the two tables of a pair. -/
def joins (ends : String × String) (node : PlanNode) : Bool :=
  match node.joined? with
  | some (l, r) =>
    (l.sources.contains ends.1 && r.sources.contains ends.2) ||
      (l.sources.contains ends.2 && r.sources.contains ends.1)
  | none => false

/-- Whether some node of the tree joins two tables of two pairs at once. -/
def joinsTwice (pairs : List (String × String)) (tree : PlanNode) : Bool :=
  tree.walk.any fun node => pairs.any fun e => pairs.any fun e' =>
    e != e' && node.joins e && node.joins e'

theorem joins_of_crosses {node : PlanNode} {e : String × String}
    (h : node.Crosses {e.1} {e.2}) : node.joins e = true := by
  obtain ⟨l, r, hjoined, hsides⟩ := h
  unfold joins
  rw [hjoined]
  simp only [Bool.or_eq_true, Bool.and_eq_true, List.contains_iff_mem]
  rcases hsides with ⟨hl, hr⟩ | ⟨hl, hr⟩
  · exact Or.inl ⟨hl _ rfl, hr _ rfl⟩
  · exact Or.inr ⟨hl _ rfl, hr _ rfl⟩

theorem joinsTwice_of_flaw {tree : PlanNode} {inner outer : List (String × String)}
    (h : tree.Has (Wiring.Flaw ⟨inner, outer, True⟩)) : tree.joinsTwice inner = true := by
  obtain ⟨node, hnode, ⟨e, he, e', he', hne, hcross, hcross'⟩ | ⟨hnot, -⟩⟩ := h
  · refine List.any_eq_true.mpr ⟨node, hnode, List.any_eq_true.mpr ⟨e, he, ?_⟩⟩
    refine List.any_eq_true.mpr ⟨e', he', ?_⟩
    rw [joins_of_crosses hcross, joins_of_crosses hcross', bne_iff_ne.mpr hne]
    rfl
  · exact absurd trivial hnot

end PlanNode

/-! ## Rows -/

/-- Base tables with inner links stand for the rows of their product that meet the condition of
every link. -/
theorem OneType.rows_of_inner (h : OneType val set .inner)
    (hbase : BaseTables db supply set.tables) :
    set.rows db val = {r ∈ product (set.tables.map fun p => p.executable.rows db val) |
      ∀ p ∈ set.tables, ∀ link, p.right = some link → val.meets link.on r} := by
  ext r
  rw [Set.mem_ofPred_eq, hbase.mem_product_iff, TableSet.rows, mem_rowsOf, and_assoc, ← forall₂_and]
  refine and_congr_right fun _ => forall₂_congr fun p hp => ?_
  have hpad : p.padding? = none := by
    cases hpad : p.padding? with
    | none => rfl
    | some link =>
      rcases (h.padding_eq_some_iff hp (by decide)).mp hpad with ⟨htype, -⟩ | ⟨htype, -⟩
      · cases htype
      · cases htype
  rw [TablePlan.fits_iff_of_unpadded hpad]
  refine and_congr_right fun _ => forall₂_congr fun link hlink => ?_
  exact ⟨fun hmeets => hmeets (h.typed p hp .right link hlink), fun hmeets _ => hmeets⟩

/-- A filter over base tables with inner links has the rows of their product of which it is true
and that meet the condition of every link, if no join of the tree is across two links. -/
theorem planQuery_rows_of_inner {filter : Option Expr}
    (hset : CheckedTables db val supply set .inner)
    (hsub : ∀ e, filter = some e → e.hasSubQuery = false)
    (h : planQuery uuids settings set filter supply = .ok plan supply')
    (honce : plan.executable.joinsTwice set.linkEnds = false) :
    plan.executable.rows db val =
      {r ∈ product (set.tables.map fun p => p.executable.rows db val) |
        val.meets filter r ∧ ∀ p ∈ set.tables, ∀ link, p.right = some link →
          val.meets link.on r} := by
  have hlinked : Linked val (set.wiring .inner True) set.tables := by
    refine hset.oneType.linked (by decide) hset.base.ids
      (fun p hp => (hset.base.base p hp).sources_ne_nil) ?_
    intro _ p hp link hpad
    rcases (hset.oneType.padding_eq_some_iff hp (by decide)).mp hpad with ⟨htype, -⟩ | ⟨htype, -⟩
    · cases htype
    · cases htype
  have hready : Ready db val (set.wiring .inner True) true ⟨set, .start uuids settings supply⟩ :=
    hset.base.ready (nonempty_of_planQuery h) hlinked (by rintro ⟨⟩) fun houter => absurd rfl houter
  rcases planQuery_rows hready hsub h with hflaw | hrows
  · rw [PlanNode.joinsTwice_of_flaw hflaw] at honce
    cases honce
  · rw [hrows, hset.oneType.rows_of_inner hset.base]
    ext r
    simp only [Set.mem_ofPred_eq]
    tauto

/-- A chain that is listed in its order. -/
theorem planQuery_rows_of_inner_in_order :
    let set : TableSet := ⟨chainOfOnes .inner (.binary (columnOf "a") .eq (columnOf "b"))
      (.binary (columnOf "b") .lt (columnOf "c")), false⟩
    let filter := Expr.binary (columnOf "c") .eq (.constant (.int 1))
    ∃ plan supply', planQuery .blank default set (some filter) ⟨4⟩ = .ok plan supply' ∧
      plan.executable.joinsTwice set.linkEnds = false ∧
      plan.executable.rows ones literals =
        {r ∈ product (set.tables.map fun p => p.executable.rows ones literals) |
          literals.meets (some filter) r ∧ ∀ p ∈ set.tables, ∀ link, p.right = some link →
            literals.meets link.on r} := by
  intro set filter
  have hset : CheckedTables ones literals ⟨4⟩ set .inner :=
    chainOfOnes_checked (.refl _) rfl ⟨rfl, by decide⟩ ⟨rfl, by decide⟩
  have hok : resultWith (fun plan _ => plan.executable.joinsTwice set.linkEnds)
      (planQuery .blank default set (some filter) ⟨4⟩) = some false := by
    decide +kernel
  obtain ⟨plan, supply', h, honce⟩ := exists_of_resultWith hok
  exact ⟨plan, supply', h, honce, planQuery_rows_of_inner hset (by rintro e ⟨⟩; rfl) h honce⟩

/-- If the ends of the chain are listed before its middle, they are merged first, and its second
condition is lost. -/
theorem not_planQuery_rows_of_inner :
    let chain := chainOfOnes .inner (.binary (columnOf "a") .eq (columnOf "b"))
      (.binary (columnOf "b") .lt (columnOf "c"))
    let set : TableSet := ⟨[chain[0], chain[2], chain[1]], false⟩
    CheckedTables ones literals ⟨4⟩ set .inner ∧
      ∃ plan supply', planQuery .blank default set none ⟨4⟩ = .ok plan supply' ∧
        plan.executable.rows ones literals ≠
          {r ∈ product (set.tables.map fun p => p.executable.rows ones literals) |
            literals.meets none r ∧ ∀ p ∈ set.tables, ∀ link, p.right = some link →
              literals.meets link.on r} := by
  intro chain set
  have hset : CheckedTables ones literals ⟨4⟩ set .inner :=
    chainOfOnes_checked (.cons _ (.swap _ _ _)) rfl ⟨rfl, by decide⟩ ⟨rfl, by decide⟩
  have htree : resultWith (fun plan _ => plan.executable) (planQuery .blank default set none ⟨4⟩) =
      some (.join (.naturalJoin (.source "a") (.source "c")) (.source "b") (.qualified "a" "x") .eq
        (columnOf "b")) := by
    rfl
  obtain ⟨plan, supply', h, htree⟩ := exists_of_resultWith htree
  refine ⟨hset, plan, supply', h, fun heq => ?_⟩
  rw [htree] at heq
  -- The tree has the row of all three tables, in which `b.x < c.x` is false.
  let r : Row Literal := (oneRow "a" ∪ oneRow "c") ∪ oneRow "b"
  have ha : oneRow "a" ⊆ r := fun _ h => Or.inl (Or.inl h)
  have hb : oneRow "b" ⊆ r := fun _ h => Or.inr h
  have hones : ∀ y ∈ r, y.2 = .int 1 := by
    rintro y ((rfl | rfl) | rfl) <;> rfl
  have hrow : r ∈ PlanNode.rows ones literals
      (.join (.naturalJoin (.source "a") (.source "c")) (.source "b") (.qualified "a" "x") .eq
        (columnOf "b")) :=
    ⟨⟨_, ⟨_, oneRow_mem_rows "a", _, oneRow_mem_rows "c", rfl⟩, _, oneRow_mem_rows "b", rfl⟩,
      (holdsIn_columns_iff rfl ha hb hones).mpr rfl⟩
  have hmeets := (heq.subset hrow).2.2 chain[1] (by simp [set]) _ rfl _ rfl
  exact not_holdsIn_lt (fun y hy => Or.inl (hones y hy)) hmeets

end QueryPlan
