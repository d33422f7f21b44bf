import Mathlib.Data.List.Chain
import QueryPlan.Proofs.Start

/-!
# Chains of outer joins

- `TablePlan.Pads`: a plan keeps its rows in an outer join that pads another.
- `chainRows`: the rows of a chain of outer joins, evaluated from its first plan.
- `only_mem_chainRows`: a row has one of them in its columns if all plans of the
  chain agree to it.
- `rowsOf_eq_product`: plans in groups stand for the product of what these do.
-/

namespace QueryPlan

universe u

variable {V : Type u} {db : Database V} {val : Valuation V} {wiring : Wiring} {linked : Bool}
  {tables : List TablePlan}

/-- An outer join of the plans `k` and `p` keeps the rows of `k` and pads those of `p`. -/
def TablePlan.Pads (k p : TablePlan) : Prop :=
  ∃ link, p.padding? = some link ∧ link.target = k.id

/-! ## Rows of a chain -/

section

variable (db : Database V) (val : Valuation V)

/-- Some rows, kept in an outer join with those of one more plan. -/
def chainStep (A : Set (Row V)) (p : TablePlan) : Set (Row V) :=
  outerPairs val.null p.columns (val.meets (p.padding?.bind JoinLink.on)) A
    (p.executable.rows db val)

/-- The rows of a chain of outer joins, where each plan is joined to all before it. -/
def chainRows : List TablePlan → Set (Row V)
  | [] => {∅}
  | k :: rest => rest.foldl (chainStep db val) (k.executable.rows db val)

end

/-- The rows of a chain are over the columns of its plans. -/
theorem foldl_chainStep_over {rest : List TablePlan} {A : Set (Row V)} {cols : List ColumnName}
    (hrest : ∀ p ∈ rest, p.Proper db val) (hA : ∀ a ∈ A, a.Over cols) :
    ∀ a ∈ rest.foldl (chainStep db val) A, a.Over (cols ++ rest.flatMap TablePlan.columns) := by
  induction rest generalizing A cols with
  | nil =>
    rw [List.flatMap_nil, List.append_nil]
    exact hA
  | cons p rest ih =>
    rw [List.forall_mem_cons] at hrest
    rw [List.flatMap_cons, ← List.append_assoc]
    exact ih hrest.2 (outerPairs_over hA hrest.1.rows_over)

/-- The rows of a chain have the columns of its plans. -/
theorem chainRows_over {chain : List TablePlan} (h : ∀ p ∈ chain, p.Proper db val) :
    ∀ a ∈ chainRows db val chain, a.Over (chain.flatMap TablePlan.columns) := by
  cases chain with
  | nil =>
    rintro a rfl c
    constructor
    · rintro ⟨v, hv⟩
      exact absurd hv (Set.notMem_empty _)
    · rintro ⟨⟩
  | cons k rest =>
    rw [List.forall_mem_cons] at h
    exact foldl_chainStep_over h.2 h.1.rows_over

section

variable (ht : Tidy db val wiring linked tables)
  (hinner : ∀ p ∈ tables, ∀ link, p.right = some link → link.joinType ≠ .inner)
  {x : Row V} (hx : ∀ y ∈ x, ∃ t ∈ tables, y.1 ∈ t.columns)

include ht hinner hx

/-- A row has a row of a chain in its columns if it has one of the rows that the chain starts with,
and the plans joined to them agree to it. -/
theorem only_mem_foldl_chainStep {rest : List TablePlan} {k : TablePlan} {A : Set (Row V)}
    {cols : List ColumnName} (hk : k ∈ tables) (hrest : ∀ p ∈ rest, p ∈ tables)
    (hchain : (k :: rest).IsChain TablePlan.Pads) (hA : ∀ a ∈ A, a.Over cols)
    (hkcols : ∀ c ∈ k.columns, c ∈ cols) (hdisj : ∀ p ∈ rest, ∀ c ∈ cols, c ∉ p.columns)
    (hapart : rest.Pairwise fun p q => ∀ c ∈ p.columns, c ∉ q.columns) :
    x.only (cols ++ rest.flatMap TablePlan.columns) ∈ rest.foldl (chainStep db val) A ↔
      x.only cols ∈ A ∧ ∀ p ∈ rest, p.Fits db val x := by
  -- The induction is on the chain. What it has been evaluated to stands for the plans before, of
  -- which the last one pads the next.
  induction rest generalizing k A cols with
  | nil =>
    rw [List.flatMap_nil, List.append_nil]
    exact (and_iff_left (List.forall_mem_nil _)).symm
  | cons p rest ih =>
    rw [List.forall_mem_cons] at hrest hdisj
    rw [List.pairwise_cons] at hapart
    rw [List.isChain_cons_cons] at hchain
    obtain ⟨⟨link, hpad, htarget⟩, hchain⟩ := hchain
    have hover : ∀ a ∈ chainStep db val A p, a.Over (cols ++ p.columns) :=
      outerPairs_over hA (ht.proper p hrest.1).rows_over
    have hlater : ∀ q ∈ rest, ∀ c ∈ cols ++ p.columns, c ∉ q.columns := by
      intro q hq c hc
      rcases List.mem_append.mp hc with hc | hc
      · exact hdisj.2 q hq c hc
      · exact hapart.1 q hq c hc
    have hstep := only_mem_outerPairs ht hk hrest.1 hpad htarget hA hkcols hdisj.1 hx
    have hfits : p.Fits db val x ↔
        p.Present db val x ∧ val.meets link.on x ∨ p.Absent db val link.on x :=
      TablePlan.fits_iff_of_padded hpad (hinner p hrest.1)
    rw [List.flatMap_cons, ← List.append_assoc, List.forall_mem_cons, List.foldl_cons,
      ih hrest.1 hrest.2 hchain hover (fun c hc => List.mem_append.mpr (Or.inr hc)) hlater hapart.2,
      ← and_assoc]
    refine and_congr_left' ?_
    unfold chainStep
    rw [hpad, Option.bind_some, hstep, hfits]

/-- A row has a row of a chain in its columns if the plans of the chain agree to it. -/
theorem only_mem_chainRows {chain : List TablePlan} (hne : chain ≠ [])
    (hmem : ∀ p ∈ chain, p ∈ tables) (hfirst : ∀ k ∈ chain.head?, k.padding? = none)
    (hchain : chain.IsChain TablePlan.Pads) (hids : (chain.map TablePlan.id).Nodup) :
    x.only (chain.flatMap TablePlan.columns) ∈ chainRows db val chain ↔
      ∀ p ∈ chain, p.Fits db val x := by
  cases chain with
  | nil => exact absurd rfl hne
  | cons k rest =>
    rw [List.forall_mem_cons] at hmem
    have hpair : (k :: rest).Pairwise fun p q => ∀ c ∈ p.columns, c ∉ q.columns := by
      refine (List.pairwise_map.mp hids).imp_of_mem fun hp hq hne => ?_
      refine ht.disjoint _ ?_ _ ?_ hne
      · exact (List.forall_mem_cons.mpr hmem) _ hp
      · exact (List.forall_mem_cons.mpr hmem) _ hq
    rw [List.pairwise_cons] at hpair
    have hkfits : k.Fits db val x ↔ k.Present db val x := by
      rw [TablePlan.fits_iff_of_unpadded (hfirst k rfl)]
      refine and_iff_left fun link hlink htype => ?_
      exact absurd htype (hinner k hmem.1 link hlink)
    rw [List.flatMap_cons, List.forall_mem_cons, hkfits]
    exact only_mem_foldl_chainStep ht hinner hx hmem.1 hmem.2 hchain (ht.proper k hmem.1).rows_over
      (fun _ h => h) hpair.1 hpair.2

end

/-! ## Groups of plans -/

/-- Plans in chains stand for the product of the rows of the chains. -/
theorem rowsOf_eq_product (ht : Tidy db val wiring linked tables)
    (hinner : ∀ p ∈ tables, ∀ link, p.right = some link → link.joinType ≠ .inner)
    {chains : List (List TablePlan)} (hmem : ∀ p, p ∈ tables ↔ ∃ chain ∈ chains, p ∈ chain)
    (hne : ∀ chain ∈ chains, chain ≠ [])
    (hfirst : ∀ chain ∈ chains, ∀ k ∈ chain.head?, k.padding? = none)
    (hpads : ∀ chain ∈ chains, chain.IsChain TablePlan.Pads)
    (hids : (chains.flatten.map TablePlan.id).Nodup) :
    rowsOf db val tables = product (chains.map (chainRows db val)) := by
  have hin : ∀ chain ∈ chains, ∀ p ∈ chain, p ∈ tables :=
    fun chain hchain p hp => (hmem p).mpr ⟨chain, hchain, hp⟩
  rw [List.map_flatten, List.nodup_flatten] at hids
  have hnodup : ∀ chain ∈ chains, (chain.map TablePlan.id).Nodup :=
    fun chain hchain => hids.1 _ (List.mem_map_of_mem hchain)
  have hover : ∀ chain ∈ chains, ∀ a ∈ chainRows db val chain,
      a.Over (chain.flatMap TablePlan.columns) :=
    fun chain hchain => chainRows_over fun p hp => ht.proper p (hin chain hchain p hp)
  -- Different chains share no column,
  have hapart : chains.Pairwise fun chain other => ∀ c ∈ chain.flatMap TablePlan.columns,
      c ∉ other.flatMap TablePlan.columns := by
    refine (List.pairwise_map.mp hids.2).imp_of_mem fun hchain hother hdisj c hc hc' => ?_
    obtain ⟨p, hp, hcp⟩ := List.mem_flatMap.mp hc
    obtain ⟨q, hq, hcq⟩ := List.mem_flatMap.mp hc'
    refine ht.disjoint p (hin _ hchain p hp) q (hin _ hother q hq) ?_ c hcp hcq
    intro hid
    exact hdisj (List.mem_map_of_mem hp) (hid ▸ List.mem_map_of_mem hq)
  ext x
  rw [mem_product_iff hover hapart, mem_rowsOf]
  -- and together they have the columns of all plans.
  have hcover : (∀ y ∈ x, ∃ p ∈ tables, y.1 ∈ p.columns) ↔
      ∀ y ∈ x, ∃ chain ∈ chains, y.1 ∈ chain.flatMap TablePlan.columns := by
    refine forall₂_congr fun y _ => ?_
    constructor
    · rintro ⟨p, hp, hc⟩
      obtain ⟨chain, hchain, hpc⟩ := (hmem p).mp hp
      exact ⟨chain, hchain, List.mem_flatMap.mpr ⟨p, hpc, hc⟩⟩
    · rintro ⟨chain, hchain, hc⟩
      obtain ⟨p, hp, hc⟩ := List.mem_flatMap.mp hc
      exact ⟨p, hin chain hchain p hp, hc⟩
  rw [← hcover]
  refine and_congr_right fun hx => ?_
  -- A row has one of a chain in its columns just if it fits all plans of that chain.
  have hfits : ∀ chain ∈ chains, x.only (chain.flatMap TablePlan.columns) ∈ chainRows db val chain ↔
      ∀ p ∈ chain, p.Fits db val x :=
    fun chain hchain => only_mem_chainRows ht hinner hx (hne chain hchain) (hin chain hchain)
      (hfirst chain hchain) (hpads chain hchain) (hnodup chain hchain)
  rw [forall₂_congr hfits]
  constructor
  · exact fun h chain hchain p hp => h p (hin chain hchain p hp)
  · intro h p hp
    obtain ⟨chain, hchain, hpc⟩ := (hmem p).mp hp
    exact h chain hchain p hpc

end QueryPlan
