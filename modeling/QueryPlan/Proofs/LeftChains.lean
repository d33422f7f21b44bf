import Mathlib
import QueryPlan.Proofs.Chains
import QueryPlan.Proofs.LinkedChains

/-!
# Chains of left joins

- `OneType.rows_of_left`: plans in chains of left joins stand for the product
  of the rows of the chains.
- `PlanNode.addsBackEarly`: whether a tree adds rows back to which a further
  outer join may still add.
- `planQuery_rows_of_left`: a filter over such tables is planned as a tree of the rows of
  the chains of which it is true, if the tree adds no rows back early, or no
  condition is true of padded rows.
- `not_planQuery_rows_of_left`: one that adds rows back early has others.

A table is resolved from its own end of the chain, where it is joined with the
table before it, although that may still be padded by the one before.
-/

namespace QueryPlan

universe u

variable {V : Type u} {db : Database V} {val : Valuation V} {uuids : Identifiers}
  {settings : Settings} {set : TableSet} {supply supply' : PlanId.Supply} {plan : TablePlan}

/-! ## Chains of left joins -/

namespace OneType

variable {p q k : TablePlan}

section

variable (h : OneType val set .left) (hids : (set.tables.map TablePlan.id).Nodup)

include h hids

/-- The links are answered by links of their type. -/
theorem answered_links : Answered set.tables := by
  refine ⟨hids, fun side p hp link hlink => ?_⟩
  obtain ⟨q, hq, hid, back, hback, hto, -⟩ := h.answered p hp side link hlink
  refine ⟨q, hq, hid, hid ▸ h.target_ne hp hlink, back, hback, hto, ?_⟩
  rw [h.typed q hq _ back hback, h.typed p hp side link hlink]

omit hids in
theorem padding_eq_none (hp : p ∈ set.tables) (hleft : p.left = none) : p.padding? = none := by
  cases hpad : p.padding? with
  | none => rfl
  | some link =>
    rcases (h.padding_eq_some_iff hp (by decide)).mp hpad with ⟨-, hlink⟩ | ⟨htype, -⟩
    · rw [hleft] at hlink
      cases hlink
    · cases htype

/-- The plan on the right of a plan is the one that it pads. -/
theorem next?_eq_some_iff (hp : p ∈ set.tables) :
    set.next? p = some q ↔ q ∈ set.tables ∧ p.Pads q := by
  rw [(h.answered_links hids).next?_eq_some_iff hp]
  refine and_congr_right fun hq => exists_congr fun link => and_congr_left fun _ => ?_
  rw [h.padding_eq_some_iff hq (by decide)]
  constructor
  · exact fun hleft => Or.inl ⟨rfl, hleft⟩
  · rintro (⟨-, hleft⟩ | ⟨htype, -⟩)
    · exact hleft
    · cases htype

theorem isChain_chainFrom {n : Nat} (hp : p ∈ set.tables) :
    (set.chainFrom n p).IsChain TablePlan.Pads := by
  refine (set.isChain_chainFrom n p).imp_of_mem_imp fun q s hq _ hnext => ?_
  exact ((h.next?_eq_some_iff hids (TableSet.mem_of_mem_chainFrom hp hq)).mp hnext).2

/-- Tables in chains of left joins stand for the product of the rows of the chains. -/
theorem rows_of_left {wiring : Wiring} {linked : Bool}
    (ht : Tidy db val wiring linked set.tables) :
    set.rows db val = product (set.chains.map (chainRows db val)) := by
  have ht' := h.answered_links hids
  obtain ⟨height, hlevel⟩ : ∃ height, Leveled height set.tables := h.height
  have hroot : ∀ k ∈ set.tables.filter (fun p => p.left.isNone),
      k ∈ set.tables ∧ k.left = none := by
    intro k hk
    rwa [List.mem_filter, Option.isNone_iff_eq_none] at hk
  refine rowsOf_eq_product ht ?_ (fun p => (hlevel.mem_chains ht').symm) ?_ ?_ ?_
    (hlevel.nodup_chains ht')
  · intro p hp link hlink htype
    rw [h.typed p hp .right link hlink] at htype
    cases htype
  · unfold TableSet.chains
    rw [List.forall_mem_map]
    exact fun k _ => List.ne_nil_of_mem (TableSet.mem_chainFrom_self set _ k)
  · unfold TableSet.chains
    rw [List.forall_mem_map]
    intro k hk p hp
    rw [TableSet.head?_chainFrom] at hp
    obtain rfl := Option.some.inj hp
    obtain ⟨hk, hleft⟩ := hroot k hk
    exact h.padding_eq_none hk hleft
  · unfold TableSet.chains
    rw [List.forall_mem_map]
    exact fun k hk => h.isChain_chainFrom hids (hroot k hk).1

end

end OneType

/-! ## Rows added back early -/

namespace PlanNode

/-- Whether some node of the tree adds back rows of the second table of a pair without its
first. -/
def addsBackEarly (pairs : List (String × String)) (tree : PlanNode) : Bool :=
  tree.walk.any fun node =>
    match node with
    | .outerJoin input mark => (input.marked mark).any fun kept => pairs.any fun e =>
        kept.sources.contains e.2 && !kept.sources.contains e.1
    | _ => false

theorem addsBackEarly_of_flaw {tree : PlanNode} {outer : List (String × String)}
    {rejecting : Prop} (h : tree.Has (Wiring.Flaw ⟨[], outer, rejecting⟩)) :
    ¬ rejecting ∧ tree.addsBackEarly outer = true := by
  obtain ⟨node, hnode, ⟨e, he, -⟩ | ⟨hnot, input, mark, rfl, kept, hkept, e, he, hin, hout⟩⟩ := h
  · cases he
  · refine ⟨hnot, List.any_eq_true.mpr ⟨_, hnode, List.any_eq_true.mpr ⟨kept, hkept, ?_⟩⟩⟩
    refine List.any_eq_true.mpr ⟨e, he, ?_⟩
    simp only [Bool.and_eq_true, Bool.not_eq_true', List.contains_iff_mem, hin, true_and,
      Bool.eq_false_iff, ne_eq, hout, not_false_eq_true]

end PlanNode

/-- A filter over base tables in chains of left joins has the rows of the product of the chains of
which it is true, if the tree adds no rows back early, or if no condition between two tables is
true in nulls of the first where that is padded, too. -/
theorem planQuery_rows_of_left {filter : Option Expr} (hset : CheckedTables db val supply set .left)
    (hmarks : Function.Injective (Context.start uuids settings supply).markers.nameAt)
    (hsub : ∀ e, filter = some e → e.hasSubQuery = false)
    (h : planQuery uuids settings set filter supply = .ok plan supply')
    (hearly : plan.executable.addsBackEarly set.linkEnds = false ∨
      ∀ p ∈ set.tables, ∀ link, p.left = some link → ∀ k ∈ set.tables, k.id = link.target →
        k.left ≠ none → RejectsNulls val k.columns link.on) :
    plan.executable.rows db val =
      {r ∈ product (set.chains.map (chainRows db val)) | val.meets filter r} := by
  have hone := hset.oneType
  let rejecting := ∀ p ∈ set.tables, ∀ link, p.left = some link → ∀ k ∈ set.tables,
    k.id = link.target → k.left ≠ none → RejectsNulls val k.columns link.on
  have hlinked : Linked val (set.wiring .left rejecting) set.tables := by
    refine hone.linked (by decide) hset.base.ids
      (fun p hp => (hset.base.base p hp).sources_ne_nil) ?_
    intro hrejecting p hp link hpad k hk hid hkpad
    rcases (hone.padding_eq_some_iff hp (by decide)).mp hpad with ⟨-, hlink⟩ | ⟨htype, -⟩
    · exact hrejecting p hp link hlink k hk hid (mt (hone.padding_eq_none hk) hkpad)
    · cases htype
  have hready :
      Ready db val (set.wiring .left rejecting) true ⟨set, .start uuids settings supply⟩ :=
    hset.base.ready (nonempty_of_planQuery h) hlinked (by rintro ⟨⟩) fun _ => hmarks
  rcases planQuery_rows hready hsub h with hflaw | hrows
  · obtain ⟨hnot, hadds⟩ := PlanNode.addsBackEarly_of_flaw hflaw
    rcases hearly with hearly | hrejecting
    · rw [hearly] at hadds
      cases hadds
    · exact absurd hrejecting hnot
  · rw [hrows, hone.rows_of_left hset.base.ids hready.tidy]

/-- A chain whose filter reads its second table. -/
theorem planQuery_rows_of_left_in_order :
    let set : TableSet := ⟨chainOfOnes .left (.binary (columnOf "a") .lt (columnOf "b"))
      (.unary .isNotNull (columnOf "c")), false⟩
    let filter := Expr.unary .isNull (columnOf "b")
    ∃ plan supply', planQuery .blank default set (some filter) ⟨4⟩ = .ok plan supply' ∧
      plan.executable.addsBackEarly set.linkEnds = false ∧
      plan.executable.rows ones literals =
        {r ∈ product (set.chains.map (chainRows ones literals)) |
          literals.meets (some filter) r} := by
  intro set filter
  have hset : CheckedTables ones literals ⟨4⟩ set .left :=
    chainOfOnes_checked (.refl _) rfl ⟨rfl, by decide⟩ ⟨rfl, by decide⟩
  have hmarks : Function.Injective (Context.start .blank default ⟨4⟩).markers.nameAt :=
    MarkerGenerator.nameAt_injective rfl
  have hok : resultWith (fun plan _ => plan.executable.addsBackEarly set.linkEnds)
      (planQuery .blank default set (some filter) ⟨4⟩) = some false := by
    decide +kernel
  obtain ⟨plan, supply', h, hearly⟩ := exists_of_resultWith hok
  exact ⟨plan, supply', h, hearly,
    planQuery_rows_of_left hset hmarks (by rintro e ⟨⟩; rfl) h (Or.inl hearly)⟩

/-- If the filter reads the third table, that is joined with the second before the second is padded.
A row that it would match is then padded. -/
theorem not_planQuery_rows_of_left :
    let set : TableSet := ⟨chainOfOnes .left (.binary (columnOf "a") .lt (columnOf "b"))
      (.unary .isNotNull (columnOf "c")), false⟩
    let filter := Expr.unary .isNull (columnOf "c")
    CheckedTables ones literals ⟨4⟩ set .left ∧
      ∃ plan supply', planQuery .blank default set (some filter) ⟨4⟩ = .ok plan supply' ∧
        plan.executable.rows ones literals ≠
          {r ∈ product (set.chains.map (chainRows ones literals)) |
            literals.meets (some filter) r} := by
  intro set filter
  have hset : CheckedTables ones literals ⟨4⟩ set .left :=
    chainOfOnes_checked (.refl _) rfl ⟨rfl, by decide⟩ ⟨rfl, by decide⟩
  let second : PlanNode := .outerJoin (.naturalJoin (.cacheMark (.source "b") "OUTER_JOIN_1")
    (.exhaustiveSelect (.source "c") (.unary .isNotNull (columnOf "c")))) "OUTER_JOIN_1"
  let joined : PlanNode := .join (.cacheMark (.source "a") "OUTER_JOIN_2") second
    (.qualified "a" "x") .lt (columnOf "b")
  have htree : resultWith (fun plan _ => plan.executable)
      (planQuery .blank default set (some filter) ⟨4⟩) =
        some (.exhaustiveSelect (.outerJoin joined "OUTER_JOIN_2") filter) := by
    cbv
  obtain ⟨plan, supply', h, htree⟩ := exists_of_resultWith htree
  refine ⟨hset, plan, supply', h, fun heq => ?_⟩
  rw [htree] at heq
  have hsource : ∀ {table x}, x ∈ PlanNode.rows ones literals (.source table) →
      ∀ y ∈ x, y.2 = .int 1 ∨ y.2 = .null := by
    intro table x hx y hy
    have hx : x ∈ ones.rowsOf table := hx
    rw [ones_rowsOf, Set.mem_singleton_iff] at hx
    rw [hx] at hy
    exact Or.inl (congrArg Prod.snd hy)
  -- Nothing is joined on `a.x < b.x`, so that the row of `a` is added back with nulls.
  have hempty : ∀ x, x ∉ joined.rows ones literals := by
    rintro _ ⟨⟨x, hx, z, hz, rfl⟩, hless⟩
    refine not_holdsIn_lt ?_ hless
    rintro y (hy | hy)
    · exact hsource hx y hy
    · rcases hz with ⟨b, hb, c, hc, rfl⟩ | ⟨m, hm, -, rfl⟩
      · rcases hy with hy | hy
        · exact hsource hb y hy
        · exact hsource hc.1 y hy
      · have hm : m ∈ PlanNode.rows ones literals (.source "b") := by
          rcases hm with (⟨hm, -⟩ | hm) | hm
          · exact hm
          · exact absurd hm (Set.notMem_empty m)
          · exact absurd hm (Set.notMem_empty m)
        rcases hy with hy | ⟨-, -, hy⟩
        · exact hsource hm y hy
        · exact Or.inr hy
  let r : Row Literal := (oneRow "a").padded .null (joined.columns ones)
  have hr : r ∈ PlanNode.rows ones literals
      (.exhaustiveSelect (.outerJoin joined "OUTER_JOIN_2") filter) := by
    refine ⟨Or.inr ⟨_, Or.inl (Or.inl ⟨oneRow_mem_rows "a", rfl⟩), fun x hx => absurd hx (hempty x),
      rfl⟩, ?_⟩
    refine mem_valuesIn_columnOf (Or.inr ⟨by decide, ?_, rfl⟩)
    rintro ⟨v, hv⟩
    have hcol : ColumnName.qualified "c" "x" = .qualified "a" "x" := congrArg Prod.fst hv
    exact absurd hcol (by decide)
  -- The chain joins that row with the one of `c`.
  have hchains : set.chains = [set.tables] := by rfl
  have hprod := (heq.subset hr).1
  rw [hchains] at hprod
  obtain ⟨x, hx, _, rfl, hxr⟩ := hprod
  have hc : (.qualified "c" "x", .int 1) ∈ x := by
    obtain ⟨y, -, ⟨z, hz, -, rfl⟩ | ⟨hnone, -⟩⟩ := hx
    · have hz : z ∈ ones.rowsOf "c" := hz
      rw [ones_rowsOf, Set.mem_singleton_iff] at hz
      exact Or.inr (hz ▸ rfl)
    · refine absurd ?_ (hnone _ (oneRow_mem_rows "c"))
      rintro e ⟨⟩
      exact ⟨.int 1, mem_valuesIn_columnOf (Or.inr rfl), by decide⟩
  have hcr : (.qualified "c" "x", .int 1) ∈ r := hxr ▸ Or.inl hc
  rcases hcr with hcr | ⟨-, -, hcr⟩
  · have hcol : ColumnName.qualified "c" "x" = .qualified "a" "x" := congrArg Prod.fst hcr
    exact absurd hcol (by decide)
  · cases hcr

end QueryPlan
