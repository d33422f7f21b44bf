import QueryPlan.Proofs.Copies

/-!
# Uniting the two sides of an OR

- `Position`: a plan of each side and the plan that unites them.
- `Position.Sound`: the united plan has what both plans have, and the rows of both.
- `unite_yields`: where at most one position differs, the united plans stand for
  the rows of either side.
-/

namespace QueryPlan

universe u

variable {V : Type u} {db : Database V} {val : Valuation V} {wiring : Wiring} {linked : Bool}

/-- The plans of both sides at one position, the plan that unites them, and whether the two may
differ. -/
structure Position where
  left : TablePlan
  right : TablePlan
  united : TablePlan
  differs : Bool

/-- The united plan takes the place of the left one. Its tree has what both trees have, and the
rows of both. -/
structure Position.Sound (db : Database V) (val : Valuation V) (p : Position) : Prop where
  alike : p.left.Alike p.right
  mirrors : p.left.Mirrors id p.united
  tree : p.united.executable.columns db = p.left.executable.columns db
  rows : p.united.executable.rows db val =
    p.left.executable.rows db val ∪ p.right.executable.rows db val
  nodes : ∀ P : PlanNode → Prop, (∀ input id, ¬ P (.cache input id)) →
    p.left.executable.Has P ∨ p.right.executable.Has P → p.united.executable.Has P
  marked : ∀ mark tree, tree ∈ p.united.executable.marked mark ↔
    tree ∈ p.left.executable.marked mark ∨ tree ∈ p.right.executable.marked mark
  split : ∀ one other, p.left.executable.SplitBy one other →
    p.right.executable.SplitBy one other → p.united.executable.SplitBy one other
  same : p.differs = false → p.right.executable.rows db val = p.left.executable.rows db val
  unpadded : p.differs = true → p.left.padding? = none

namespace Position.Sound

variable {p : Position}

/-- The united plan demands what the left one demands. -/
theorem alike_united (h : p.Sound db val) : p.left.Alike p.united := h.mirrors.alike

/-- A row fits the united plan of a position that does not differ if it fits both. -/
theorem fits_of_same (h : p.Sound db val) (hsame : p.differs = false) {r : Row V} :
    (p.united.Fits db val r ↔ p.left.Fits db val r) ∧
      (p.right.Fits db val r ↔ p.left.Fits db val r) := by
  have hrows := h.same hsame
  refine ⟨h.alike_united.fits ?_, h.alike.fits hrows⟩
  rw [h.rows, hrows, Set.union_self]

/-- A row fits the united plan of a position that differs if it fits one of the two. -/
theorem fits_of_differs (h : p.Sound db val) (hdiff : p.differs = true) {r : Row V} :
    p.united.Fits db val r ↔ p.left.Fits db val r ∨ p.right.Fits db val r := by
  have hpad := h.unpadded hdiff
  have hpresent : p.united.Present db val r ↔
      p.left.Present db val r ∨ p.right.Present db val r := by
    unfold TablePlan.Present
    rw [h.mirrors.columns, h.alike.columns, h.rows, Set.mem_union]
  rw [TablePlan.fits_iff_of_unpadded hpad,
    TablePlan.fits_iff_of_unpadded (h.alike.padding_eq_none hpad),
    TablePlan.fits_iff_of_unpadded (h.alike_united.padding_eq_none hpad), hpresent,
    h.alike_united.inner_iff, h.alike.inner_iff, or_and_right]

/-- The union of two proper plans is proper. -/
theorem proper (h : p.Sound db val) (hl : p.left.Proper db val) (hr : p.right.Proper db val) :
    p.united.Proper db val := by
  obtain ⟨hnodup, hcols, hover⟩ := hl
  have hover' := hr.rows_over
  rw [h.alike.columns] at hover'
  refine ⟨h.mirrors.columns ▸ hnodup, ?_, ?_⟩
  · rw [h.mirrors.columns, h.tree]
    exact hcols
  · rw [h.mirrors.columns, h.rows]
    rintro r (hr | hr)
    · exact hover r hr
    · exact hover' r hr

/-- A mark that neither plan has is not in their union. -/
theorem marked_eq_nil (h : p.Sound db val) {mark : String}
    (hl : p.left.executable.marked mark = []) (hr : p.right.executable.marked mark = []) :
    p.united.executable.marked mark = [] := by
  rw [List.eq_nil_iff_forall_not_mem]
  intro tree htree
  rcases (h.marked mark tree).mp htree with h | h
  · rw [hl] at h
    cases h
  · rw [hr] at h
    cases h

/-- What is wrong with one of the plans is wrong with their union. -/
theorem flawed (h : p.Sound db val)
    (hflaw : p.left.executable.Has wiring.Flaw ∨ p.right.executable.Has wiring.Flaw) :
    p.united.executable.Has wiring.Flaw :=
  h.nodes _ wiring.not_flaw_cache hflaw

end Position.Sound

/-! ## All positions -/

section

variable {ps : List Position}

/-- Where no position differs, the rows of both sides and of the union are the same. -/
theorem fits_united_of_same (hs : ∀ p ∈ ps, p.Sound db val) (hsame : ∀ p ∈ ps, p.differs = false)
    {r : Row V} :
    ((∀ p ∈ ps, p.united.Fits db val r) ↔ ∀ p ∈ ps, p.left.Fits db val r) ∧
      ((∀ p ∈ ps, p.right.Fits db val r) ↔ ∀ p ∈ ps, p.left.Fits db val r) :=
  ⟨forall₂_congr fun p hp => ((hs p hp).fits_of_same (hsame p hp)).1,
    forall₂_congr fun p hp => ((hs p hp).fits_of_same (hsame p hp)).2⟩

/-- Where at most one position differs, a row fits all united plans if it fits all plans of one
side. -/
theorem fits_united (hs : ∀ p ∈ ps, p.Sound db val) (hone : ps.countP Position.differs ≤ 1)
    {r : Row V} :
    (∀ p ∈ ps, p.united.Fits db val r) ↔
      (∀ p ∈ ps, p.left.Fits db val r) ∨ ∀ p ∈ ps, p.right.Fits db val r := by
  induction ps with
  | nil => simp
  | cons p rest ih =>
    have hrest : ∀ p ∈ rest, p.Sound db val := fun q hq => hs q (List.mem_cons_of_mem _ hq)
    have hp := hs p List.mem_cons_self
    rw [List.forall_mem_cons, List.forall_mem_cons, List.forall_mem_cons]
    cases hdiff : p.differs with
    | true =>
      -- No further position differs.
      have hzero : rest.countP Position.differs = 0 := by
        rw [List.countP_cons_of_pos hdiff] at hone
        omega
      obtain ⟨hunited, hright⟩ := fits_united_of_same (r := r) hrest fun q hq =>
        Bool.eq_false_iff.mpr (List.countP_eq_zero.mp hzero q hq)
      rw [hp.fits_of_differs hdiff, hunited, hright, or_and_right]
    | false =>
      rw [List.countP_cons_of_neg (by rw [hdiff]; exact Bool.false_ne_true)] at hone
      obtain ⟨hunited, hright⟩ := hp.fits_of_same (r := r) hdiff
      rw [hunited, hright, ih hrest hone, and_or_left]

/-- Where at most one position differs, the united plans stand for the rows of either side. -/
theorem rowsOf_united (hs : ∀ p ∈ ps, p.Sound db val) (hone : ps.countP Position.differs ≤ 1) :
    rowsOf db val (ps.map Position.united) =
      rowsOf db val (ps.map Position.left) ∪ rowsOf db val (ps.map Position.right) := by
  ext r
  have hcov : ∀ f : Position → TablePlan, (∀ p ∈ ps, (f p).columns = p.left.columns) →
      ((∀ x ∈ r, ∃ q ∈ ps.map f, x.1 ∈ q.columns) ↔ ∀ x ∈ r, ∃ p ∈ ps, x.1 ∈ p.left.columns) := by
    intro f hf
    refine forall₂_congr fun x _ => ?_
    simp only [List.mem_map, exists_exists_and_eq_and]
    refine exists_congr fun p => and_congr_right fun hp => ?_
    rw [hf p hp]
  rw [Set.mem_union, mem_rowsOf, mem_rowsOf, mem_rowsOf,
    hcov _ fun p hp => (hs p hp).mirrors.columns, hcov _ fun _ _ => rfl,
    hcov _ fun p hp => (hs p hp).alike.columns, ← and_or_left]
  simp only [List.forall_mem_map]
  rw [fits_united hs hone]

theorem grows_united {fresh : Set String} {trees : List PlanNode}
    (hs : ∀ p ∈ ps, p.Sound db val)
    (hl : Grows fresh trees (ps.map fun p => p.left.executable))
    (hr : Grows fresh trees (ps.map fun p => p.right.executable)) :
    Grows fresh trees (ps.map fun p => p.united.executable) := by
  have hex : ∀ (f : Position → PlanNode) (Q : PlanNode → Prop),
      (∃ t ∈ ps.map f, Q t) ↔ ∃ p ∈ ps, Q (f p) := by
    intro f Q
    simp only [List.mem_map, exists_exists_and_eq_and]
  constructor
  -- A node of a tree is on the left side, so it is in the united one.
  · intro P hP ht
    obtain ⟨p, hp, h⟩ := (hex _ _).mp (hl.nodes P hP ht)
    exact (hex _ _).mpr ⟨p, hp, (hs p hp).nodes P hP (Or.inl h)⟩
  -- A mark is on one of the sides exactly if it is in the united tree.
  · intro mark hmark tree
    rw [hex]
    constructor
    · rintro ⟨p, hp, h⟩
      rcases ((hs p hp).marked mark tree).mp h with h | h
      · exact (hl.marked mark hmark tree).mp ((hex _ _).mpr ⟨p, hp, h⟩)
      · exact (hr.marked mark hmark tree).mp ((hex _ _).mpr ⟨p, hp, h⟩)
    · intro ht
      obtain ⟨p, hp, h⟩ := (hex _ _).mp ((hl.marked mark hmark tree).mpr ht)
      exact ⟨p, hp, ((hs p hp).marked mark tree).mpr (Or.inl h)⟩
  · intro table
    rw [← hl.sources table, hex, hex]
    exact exists_congr fun p => and_congr_right fun hp => (hs p hp).mirrors.sources table
  -- Groups of tables are split on both sides, hence in what unites them.
  · intro one other hsplit t ht
    obtain ⟨p, hp, rfl⟩ := List.mem_map.mp ht
    exact (hs p hp).split one other (hl.split one other hsplit _ (List.mem_map.mpr ⟨p, hp, rfl⟩))
      (hr.split one other hsplit _ (List.mem_map.mpr ⟨p, hp, rfl⟩))

theorem trees_map (f : Position → TablePlan) (j : Bool) :
    TableSet.trees ⟨ps.map f, j⟩ = ps.map fun p => (f p).executable := by
  unfold TableSet.trees
  rw [List.map_map]
  rfl

/-- The union of two workspaces of the same context is ready. -/
theorem ready_united {c : Context} {jl jr j : Bool} (hs : ∀ p ∈ ps, p.Sound db val)
    (hl : Ready db val wiring linked ⟨⟨ps.map Position.left, jl⟩, c⟩)
    (hr : Ready db val wiring linked ⟨⟨ps.map Position.right, jr⟩, c⟩) :
    Ready db val wiring linked ⟨⟨ps.map Position.united, j⟩, c⟩ := by
  have hm : MirrorsAll id (ps.map Position.left) (ps.map Position.united) := by
    rw [MirrorsAll, List.forall₂_map_left_iff, List.forall₂_map_right_iff, List.forall₂_same]
    exact fun p hp => (hs p hp).mirrors
  refine ⟨hm.tidy hl.tidy (Set.injOn_id _) ?_, ?_, ?_, hl.distinct⟩
  · intro q hq
    obtain ⟨p, hp, rfl⟩ := List.mem_map.mp hq
    exact (hs p hp).proper (hl.tidy.proper _ (List.mem_map_of_mem hp))
      (hr.tidy.proper _ (List.mem_map_of_mem hp))
  · intro q hq
    obtain ⟨p, hp, rfl⟩ := List.mem_map.mp hq
    rw [(hs p hp).mirrors.id_eq]
    exact hl.fresh _ (List.mem_map_of_mem hp)
  · intro mark hmark t ht
    rw [trees_map] at ht
    obtain ⟨p, hp, rfl⟩ := List.mem_map.mp ht
    refine (hs p hp).marked_eq_nil (hl.unmarked mark hmark _ ?_) (hr.unmarked mark hmark _ ?_)
    · exact trees_map Position.left jl ▸ List.mem_map_of_mem hp
    · exact trees_map Position.right jr ▸ List.mem_map_of_mem hp

/-- Two sides with the rows that satisfy `e` and `e'`, united, have the rows that satisfy one of
them. -/
theorem unite_yields {e e' : Row V → Prop} {w : Workspace} {c : Context} {jl jr j : Bool}
    (hs : ∀ p ∈ ps, p.Sound db val) (hone : ps.countP Position.differs ≤ 1)
    (hl : Yields db val wiring linked e w ⟨⟨ps.map Position.left, jl⟩, c⟩)
    (hr : Yields db val wiring linked e' w ⟨⟨ps.map Position.right, jr⟩, c⟩) :
    Yields db val wiring linked (fun r => e r ∨ e' r) w ⟨⟨ps.map Position.united, j⟩, c⟩ := by
  have hgl := hl.grows
  have hgr := hr.grows
  have hlrows := hl.rows
  have hrrows := hr.rows
  rw [trees_map] at hgl hgr hlrows hrrows
  have hcolumns : List.Forall₂ (fun p q => q.columns = p.columns) (ps.map Position.left)
      (ps.map Position.united) := by
    rw [List.forall₂_map_left_iff, List.forall₂_map_right_iff, List.forall₂_same]
    exact fun p hp => (hs p hp).mirrors.columns
  refine ⟨ready_united hs hl.ready hr.ready, hl.context, ?_,
    fun c => (exposed_of_forall₂ hcolumns c).trans (hl.columns c), ?_⟩
  · rw [trees_map]
    exact grows_united hs hgl hgr
  · rw [trees_map]
    -- A flaw of one of the sides is one of the united trees. Without one, the rows are those of
    -- both sides.
    rcases hlrows with ⟨t, ht, hflaw⟩ | hlrows
    · obtain ⟨p, hp, rfl⟩ := List.mem_map.mp ht
      exact Or.inl ⟨_, List.mem_map_of_mem hp, (hs p hp).flawed (Or.inl hflaw)⟩
    · rcases hrrows with ⟨t, ht, hflaw⟩ | hrrows
      · obtain ⟨p, hp, rfl⟩ := List.mem_map.mp ht
        exact Or.inl ⟨_, List.mem_map_of_mem hp, (hs p hp).flawed (Or.inr hflaw)⟩
      · refine Or.inr ?_
        unfold TableSet.rows at hlrows hrrows ⊢
        rw [rowsOf_united hs hone, hlrows, hrrows]
        ext r
        simp only [Set.mem_union, Set.mem_ofPred_eq, and_or_left]

end

end QueryPlan
