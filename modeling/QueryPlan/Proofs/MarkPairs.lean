import Mathlib.Order.CompletePartialOrder
import QueryPlan.Proofs.Moving
import QueryPlan.Proofs.Validated

/-!
# Outer joins and their marks

An outer join and the node that remembers the rows which it keeps share a mark.
Marks come from one counter, but the subtrees that they are in are copied for the
sides of an OR, united, and joined further.

- `PlanNode.tag?`: the kind and the mark of such a node.
- `PlanNode.looseMarks`: the marks that no outer join adds back.
- `Tracked`: new marks are each put on one tree, and no node with a mark is lost.
- `Tracked.linked`, `Tracked.united`: so it is where two linked plans become one,
  and where the sides of an OR are united.
- `MarksTracked`: the new marks of a run are the names that were made meanwhile.
- `Moves.tracked`, `Moves.loose`: so it is for all moves, which leave no mark loose.
- `planQuery_marksPaired`: in the tree of a filter, outer joins and marks pair up.
-/

namespace QueryPlan

/-! ## Nodes with a mark -/

/-- What is known of a node with a mark: whether it adds back the rows that an outer join keeps or
remembers them, and the mark. -/
inductive MarkTag where
  | addsBack (mark : String)
  | remembers (mark : String)
deriving DecidableEq

/-- The mark. -/
def MarkTag.mark : MarkTag → String
  | .addsBack mark => mark
  | .remembers mark => mark

namespace PlanNode

/-- The kind and the mark of a node with a mark. -/
def tag? : PlanNode → Option MarkTag
  | .outerJoin _ mark => some (.addsBack mark)
  | .cacheMark _ mark => some (.remembers mark)
  | _ => none

/-- The marks of the nodes that remember rows in the input of no outer join with that mark. -/
def looseMarks : PlanNode → List String
  | .source _ => []
  | .naturalJoin l r => l.looseMarks ++ r.looseMarks
  | .join l r _ _ _ => l.looseMarks ++ r.looseMarks
  | .outerJoin input mark => input.looseMarks.filter (· ≠ mark)
  | .union l r => l.looseMarks ++ r.looseMarks
  | .project input _ => input.looseMarks
  | .cache input _ => input.looseMarks
  | .cacheMark input mark => mark :: input.looseMarks
  | .constantSelect input _ => input.looseMarks
  | .simpleSelect input _ _ _ => input.looseMarks
  | .patternSelect input _ _ _ _ => input.looseMarks
  | .exhaustiveSelect input _ => input.looseMarks
  | .anyAllSelect input subQuery _ _ _ => input.looseMarks ++ subQuery.looseMarks

/-- The nodes of the tree that have a mark, those of nested queries included. -/
def tagged (tree : PlanNode) : Set PlanNode := {node | node ∈ tree.walk ∧ node.tag? ≠ none}

/-- A tree without a node that has a mark. -/
def Unmarked (tree : PlanNode) : Prop := ∀ node ∈ tree.walk, node.tag? = none

/-- Whether the mark of a node is one of `marks`. -/
def MarkedIn (marks : Set String) (node : PlanNode) : Prop :=
  ∃ tag, node.tag? = some tag ∧ tag.mark ∈ marks

variable {node input l r : PlanNode} {Q : PlanNode → Prop}

/-- The nodes with a mark of a tree: itself, if it has one, and those of its inputs. -/
theorem mem_tagged_iff {tree : PlanNode} :
    node ∈ tree.tagged ↔
      (node = tree ∧ node.tag? ≠ none) ∨ ∃ child ∈ tree.children, node ∈ child.tagged := by
  unfold tagged
  simp only [Set.mem_ofPred_eq]
  rw [walk_eq, List.mem_cons, List.mem_flatMap]
  constructor
  · rintro ⟨h | ⟨child, hchild, h⟩, htag⟩
    · exact Or.inl ⟨h, htag⟩
    · exact Or.inr ⟨child, hchild, h, htag⟩
  · rintro (⟨h, htag⟩ | ⟨child, hchild, h, htag⟩)
    · exact ⟨Or.inl h, htag⟩
    · exact ⟨Or.inr ⟨child, hchild, h⟩, htag⟩

/-- A tree without a mark of its own has those of its inputs. -/
theorem tagged_of_untagged {tree : PlanNode} (htag : tree.tag? = none) :
    node ∈ tree.tagged ↔ ∃ child ∈ tree.children, node ∈ child.tagged := by
  rw [mem_tagged_iff]
  refine or_iff_right ?_
  rintro ⟨rfl, hnot⟩
  exact hnot htag

/-- One input, no mark of its own: the nodes with a mark stay the same. -/
theorem tagged_of_only {tree : PlanNode} (htag : tree.tag? = none)
    (hchildren : tree.children = [input]) : tree.tagged = input.tagged := by
  ext node
  rw [tagged_of_untagged htag, hchildren]
  simp only [List.mem_singleton, exists_eq_left]

/-- Two inputs, no mark of its own: the nodes with a mark of both. -/
theorem tagged_of_both {tree : PlanNode} (htag : tree.tag? = none)
    (hchildren : tree.children = [l, r]) : tree.tagged = l.tagged ∪ r.tagged := by
  ext node
  rw [tagged_of_untagged htag, hchildren]
  simp only [List.mem_cons, List.not_mem_nil, or_false, exists_eq_or_imp, exists_eq_left,
    Set.mem_union]

/-- A node that is put on a tree and has a mark adds itself. -/
theorem tagged_of_tag {tree : PlanNode} {tag : MarkTag} (htag : tree.tag? = some tag)
    (hchildren : tree.children = [input]) : tree.tagged = insert tree input.tagged := by
  ext node
  rw [mem_tagged_iff, hchildren, Set.mem_insert_iff]
  simp only [List.mem_singleton, exists_eq_left]
  refine or_congr_left (and_iff_left_of_imp ?_)
  rintro rfl
  rw [htag]
  exact Option.some_ne_none tag

theorem Unmarked.tagged_eq (h : input.Unmarked) : input.tagged = ∅ :=
  Set.eq_empty_iff_forall_notMem.mpr fun node ⟨hmem, htag⟩ => htag (h node hmem)

/-- What holds of a tree if it holds of its inputs holds of every tree. -/
theorem induction_children {motive : PlanNode → Prop}
    (step : ∀ node, (∀ child ∈ node.children, motive child) → motive node) :
    ∀ node, motive node
  | .source _ => step _ (List.forall_mem_nil _)
  | .naturalJoin l r => step _ (List.forall_mem_cons.mpr
      ⟨induction_children step l, List.forall_mem_singleton.mpr (induction_children step r)⟩)
  | .join l r _ _ _ => step _ (List.forall_mem_cons.mpr
      ⟨induction_children step l, List.forall_mem_singleton.mpr (induction_children step r)⟩)
  | .outerJoin input _ => step _ (List.forall_mem_singleton.mpr (induction_children step input))
  | .union l r => step _ (List.forall_mem_cons.mpr
      ⟨induction_children step l, List.forall_mem_singleton.mpr (induction_children step r)⟩)
  | .project input _ => step _ (List.forall_mem_singleton.mpr (induction_children step input))
  | .cache input _ => step _ (List.forall_mem_singleton.mpr (induction_children step input))
  | .cacheMark input _ => step _ (List.forall_mem_singleton.mpr (induction_children step input))
  | .constantSelect input _ =>
    step _ (List.forall_mem_singleton.mpr (induction_children step input))
  | .simpleSelect input _ _ _ =>
    step _ (List.forall_mem_singleton.mpr (induction_children step input))
  | .patternSelect input _ _ _ _ =>
    step _ (List.forall_mem_singleton.mpr (induction_children step input))
  | .exhaustiveSelect input _ =>
    step _ (List.forall_mem_singleton.mpr (induction_children step input))
  | .anyAllSelect input subQuery _ _ _ => step _ (List.forall_mem_cons.mpr
      ⟨induction_children step input, List.forall_mem_singleton.mpr
        (induction_children step subQuery)⟩)

/-- A loose mark is one of the node itself or of one of its inputs. -/
theorem looseMarks_cases {tree : PlanNode} {mark : String} (h : mark ∈ tree.looseMarks) :
    (∃ input, tree = .cacheMark input mark) ∨ ∃ child ∈ tree.children, mark ∈ child.looseMarks := by
  cases tree with
  | source name => cases h
  | outerJoin input mark' =>
    exact Or.inr ⟨input, List.mem_singleton_self _, List.mem_of_mem_filter h⟩
  | cacheMark input mark' =>
    rcases List.mem_cons.mp h with rfl | h
    · exact Or.inl ⟨input, rfl⟩
    · exact Or.inr ⟨input, List.mem_singleton_self _, h⟩
  | naturalJoin l r => exact Or.inr (by simpa [children] using List.mem_append.mp h)
  | join l r => exact Or.inr (by simpa [children] using List.mem_append.mp h)
  | union l r => exact Or.inr (by simpa [children] using List.mem_append.mp h)
  | anyAllSelect input subQuery => exact Or.inr (by simpa [children] using List.mem_append.mp h)
  | _ => exact Or.inr ⟨_, List.mem_singleton_self _, h⟩

/-- Without a node that has a mark, no mark is loose. -/
theorem Unmarked.looseMarks_eq {tree : PlanNode} (h : tree.Unmarked) : tree.looseMarks = [] := by
  induction tree using induction_children with
  | step tree ih =>
    rw [List.eq_nil_iff_forall_not_mem]
    intro mark hmark
    -- Had the tree a loose mark, it would be its own, which it has not, or one of an input.
    rcases looseMarks_cases hmark with ⟨input, rfl⟩ | ⟨child, hchild, hmem⟩
    · have := h _ (walk_eq _ ▸ List.mem_cons_self)
      cases this
    · have hnone := ih child hchild fun node hnode => h node (by
        rw [walk_eq]
        exact List.mem_cons_of_mem _ (List.mem_flatMap.mpr ⟨child, hchild, hnode⟩))
      rw [hnone] at hmem
      cases hmem

/-! ### Nodes that are put on trees -/

/-- A selection over nested queries without marks leaves the nodes with a mark as they are. -/
theorem Filters.tagged_eq (h : input.Filters Unmarked node) : node.tagged = input.tagged := by
  cases h with
  | anyAll query columns op quantifier =>
    rw [tagged_of_both rfl rfl, query.tagged_eq, Set.union_empty]
  | _ => exact tagged_of_only rfl rfl

/-- Such a selection leaves the loose marks as they are. -/
theorem Filters.looseMarks_eq (h : input.Filters Unmarked node) :
    node.looseMarks = input.looseMarks := by
  cases h with
  | anyAll query columns op quantifier =>
    rw [looseMarks, query.looseMarks_eq, List.append_nil]
  | _ => rfl

/-- A join has the nodes with a mark of both its inputs. -/
theorem tagged_of_joined (h : node.joined? = some (l, r)) : node.tagged = l.tagged ∪ r.tagged := by
  cases node <;> cases h <;> exact tagged_of_both rfl rfl

/-- A join has the loose marks of both its inputs. -/
theorem looseMarks_of_joined (h : node.joined? = some (l, r)) :
    node.looseMarks = l.looseMarks ++ r.looseMarks := by
  cases node <;> cases h <;> rfl

/-- To take a cache off a tree loses no node with a mark. -/
theorem tagged_withoutCache (node : PlanNode) : node.withoutCache.tagged = node.tagged := by
  cases node with
  | cache input id => exact (tagged_of_only rfl rfl).symm
  | _ => rfl

theorem looseMarks_withoutCache (node : PlanNode) :
    node.withoutCache.looseMarks = node.looseMarks := by
  cases node <;> rfl

end PlanNode

/-! ## New marks -/

/-- None of the nodes has one of the marks. -/
def FreeOf (marks : Set String) (nodes : Set PlanNode) : Prop := ∀ a ∈ nodes, ¬ a.MarkedIn marks

/-- The nodes with a mark became others, for which `marks` are new: none was lost, all nodes that
are new have one of the new marks, two of one kind and with one new mark are the same, and an outer
join that is new has its mark in its input. -/
structure Tracked (marks : Set String) (nodes nodes' : Set PlanNode) : Prop where
  kept : nodes ⊆ nodes'
  origin : ∀ a ∈ nodes', a ∈ nodes ∨ a.MarkedIn marks
  unique : ∀ a ∈ nodes', ∀ b ∈ nodes', a.MarkedIn marks → a.tag? = b.tag? → a = b
  paired : ∀ input mark, .outerJoin input mark ∈ nodes' →
    .outerJoin input mark ∈ nodes ∨ ∃ inner, .cacheMark inner mark ∈ input.walk

section

variable {I J M : Set String} {S S' S'' : Set PlanNode} {a b : PlanNode}

theorem PlanNode.MarkedIn.mono (h : a.MarkedIn I) (hsub : I ⊆ J) : a.MarkedIn J := by
  obtain ⟨tag, htag, hmark⟩ := h
  exact ⟨tag, htag, hsub hmark⟩

/-- A mark is in one of two sets of marks. -/
theorem PlanNode.markedIn_union : a.MarkedIn (I ∪ J) ↔ a.MarkedIn I ∨ a.MarkedIn J := by
  unfold MarkedIn
  simp only [Set.mem_union, and_or_left, exists_or]

/-- Nodes of one kind and mark are in the same sets of marks. -/
theorem PlanNode.MarkedIn.of_tag (h : a.MarkedIn I) (htag : a.tag? = b.tag?) : b.MarkedIn I := by
  obtain ⟨tag, ha, hmark⟩ := h
  exact ⟨tag, htag ▸ ha, hmark⟩

/-- A node has one mark, so it is in one of two disjoint sets of marks. -/
theorem PlanNode.not_markedIn_of_disjoint (h : a.MarkedIn I) (hdisj : Disjoint I J) :
    ¬ a.MarkedIn J := by
  rintro ⟨tag, htag, hmark⟩
  obtain ⟨tag', htag', hmark'⟩ := h
  obtain rfl := Option.some.inj (htag.symm.trans htag')
  exact Set.disjoint_left.mp hdisj hmark' hmark

/-- What is free of all marks of a set is free of those of a part of it. -/
theorem FreeOf.mono (h : FreeOf J S) (hsub : I ⊆ J) : FreeOf I S :=
  fun a ha hmarked => h a ha (hmarked.mono hsub)

namespace Tracked

/-- Nodes that stay the same are tracked, without a new mark. -/
theorem refl (S : Set PlanNode) : Tracked ∅ S S := by
  refine ⟨subset_rfl, fun a ha => Or.inl ha, fun a _ b _ hmarked => ?_, fun _ _ h => Or.inl h⟩
  -- No mark is new, so there is no node with a new one to compare.
  obtain ⟨tag, -, hmark⟩ := hmarked
  exact hmark.elim

/-- The nodes have other marks than those that are still to come. -/
theorem free (h : Tracked I S S') (hfree : FreeOf J S) (hdisj : Disjoint I J) : FreeOf J S' := by
  intro a ha hmarked
  rcases h.origin a ha with ha | hnew
  · exact hfree a ha hmarked
  · exact PlanNode.not_markedIn_of_disjoint hnew hdisj hmarked

/-- Two changes with different new marks are tracked as one. -/
theorem trans (h : Tracked I S S') (h' : Tracked J S' S'') (hdisj : Disjoint I J) :
    Tracked (I ∪ J) S S'' := by
  -- A node with one of the first marks was there in between.
  have hback : ∀ a ∈ S'', a.MarkedIn I → a ∈ S' := fun a ha hmarked =>
    (h'.origin a ha).resolve_right (PlanNode.not_markedIn_of_disjoint hmarked hdisj)
  refine ⟨h.kept.trans h'.kept, fun a ha => ?_, fun a ha b hb hmarked htag => ?_,
    fun input mark houter => ?_⟩
  · rw [PlanNode.markedIn_union]
    rcases h'.origin a ha with ha | hnew
    · exact (h.origin a ha).imp_right Or.inl
    · exact Or.inr (Or.inr hnew)
  · rcases PlanNode.markedIn_union.mp hmarked with hmarked | hmarked
    · exact h.unique a (hback a ha hmarked) b (hback b hb (hmarked.of_tag htag)) hmarked htag
    · exact h'.unique a ha b hb hmarked htag
  · rcases h'.paired input mark houter with houter | hinner
    · exact h.paired input mark houter
    · exact Or.inr hinner

/-- Two linked plans with the nodes `A` become one beside plans with the nodes `R`: new marks `M`
are put on the pair by the nodes `C`, the pair becomes one plan with the nodes `X`, and the rows of
these marks are added back by the nodes `O`. -/
theorem linked {R A C X O : Set PlanNode} (hfree : FreeOf (M ∪ J) (R ∪ A)) (hdisj : Disjoint M J)
    (hpair : Tracked J (A ∪ C) X) (hnew : ∀ a ∈ C ∪ O, a.MarkedIn M)
    (hone : ∀ a ∈ C ∪ O, ∀ b ∈ C ∪ O, a.tag? = b.tag? → a = b)
    (hmarks : ∀ input mark, .outerJoin input mark ∉ C)
    (hback : ∀ input mark, .outerJoin input mark ∈ O →
      ∃ inner, .cacheMark inner mark ∈ input.walk) :
    Tracked (M ∪ J) (R ∪ A) (R ∪ (X ∪ O)) := by
  -- The nodes that are there have neither a mark of the pair nor one made while it is planned.
  have hold : ∀ a ∈ R ∪ A, ¬ a.MarkedIn M ∧ ¬ a.MarkedIn J := fun a ha => by
    have := hfree a ha
    rwa [PlanNode.markedIn_union, not_or] at this
  refine ⟨?_, ?_, ?_, ?_⟩
  · -- kept
    rintro a (ha | ha)
    · exact Or.inl ha
    · exact Or.inr (Or.inl (hpair.kept (Or.inl ha)))
  · -- origin
    rintro a (ha | ha | ha)
    · exact Or.inl (Or.inl ha)
    · rw [PlanNode.markedIn_union]
      rcases hpair.origin a ha with (ha | ha) | hmarked
      · exact Or.inl (Or.inr ha)
      · exact Or.inr (Or.inl (hnew a (Or.inl ha)))
      · exact Or.inr (Or.inr hmarked)
    · exact Or.inr (PlanNode.markedIn_union.mpr (Or.inl (hnew a (Or.inr ha))))
  · -- unique: a new node is one of the marks and outer joins, or it was put on the pair
    have hM : ∀ a ∈ R ∪ (X ∪ O), a.MarkedIn M → a ∈ C ∪ O := by
      rintro a (ha | ha | ha) hmarked
      · exact absurd hmarked (hold a (Or.inl ha)).1
      · rcases hpair.origin a ha with (ha | ha) | hmarked'
        · exact absurd hmarked (hold a (Or.inr ha)).1
        · exact Or.inl ha
        · exact absurd hmarked' (PlanNode.not_markedIn_of_disjoint hmarked hdisj)
      · exact Or.inr ha
    have hJ : ∀ a ∈ R ∪ (X ∪ O), a.MarkedIn J → a ∈ X := by
      rintro a (ha | ha | ha) hmarked
      · exact absurd hmarked (hold a (Or.inl ha)).2
      · exact ha
      · exact absurd hmarked (PlanNode.not_markedIn_of_disjoint (hnew a (Or.inr ha)) hdisj)
    intro a ha b hb hmarked htag
    rcases PlanNode.markedIn_union.mp hmarked with hmarked | hmarked
    · exact hone a (hM a ha hmarked) b (hM b hb (hmarked.of_tag htag)) htag
    · exact hpair.unique a (hJ a ha hmarked) b (hJ b hb (hmarked.of_tag htag)) hmarked htag
  · -- paired
    rintro input mark (houter | houter | houter)
    · exact Or.inl (Or.inl houter)
    · rcases hpair.paired input mark houter with (houter | houter) | hinner
      · exact Or.inl (Or.inr houter)
      · exact absurd houter (hmarks input mark)
      · exact Or.inr hinner
    · exact Or.inr (hback input mark houter)

/-- The sides of an OR start with the same nodes, and all nodes of the left one are kept. -/
theorem united {L R T : Set PlanNode} (hfree : FreeOf (I ∪ J) S) (hdisj : Disjoint I J)
    (hl : Tracked I S L) (hr : Tracked J S R) (hleft : L ⊆ T) (hsides : T ⊆ L ∪ R) :
    Tracked (I ∪ J) S T := by
  have hold : ∀ a ∈ S, ¬ a.MarkedIn I ∧ ¬ a.MarkedIn J := fun a ha => by
    have := hfree a ha
    rwa [PlanNode.markedIn_union, not_or] at this
  -- A node with a new mark is on the side that the mark was made for.
  have hI : ∀ a ∈ T, a.MarkedIn I → a ∈ L := by
    intro a ha hmarked
    rcases hsides ha with ha | ha
    · exact ha
    · rcases hr.origin a ha with ha | hmarked'
      · exact absurd hmarked (hold a ha).1
      · exact absurd hmarked' (PlanNode.not_markedIn_of_disjoint hmarked hdisj)
  have hJ : ∀ a ∈ T, a.MarkedIn J → a ∈ R := by
    intro a ha hmarked
    rcases hsides ha with ha | ha
    · rcases hl.origin a ha with ha | hmarked'
      · exact absurd hmarked (hold a ha).2
      · exact absurd hmarked (PlanNode.not_markedIn_of_disjoint hmarked' hdisj)
    · exact ha
  refine ⟨hl.kept.trans hleft, fun a ha => ?_, fun a ha b hb hmarked htag => ?_,
    fun input mark houter => ?_⟩
  · rw [PlanNode.markedIn_union]
    rcases hsides ha with ha | ha
    · exact (hl.origin a ha).imp_right Or.inl
    · exact (hr.origin a ha).imp_right Or.inr
  · rcases PlanNode.markedIn_union.mp hmarked with hmarked | hmarked
    · exact hl.unique a (hI a ha hmarked) b (hI b hb (hmarked.of_tag htag)) hmarked htag
    · exact hr.unique a (hJ a ha hmarked) b (hJ b hb (hmarked.of_tag htag)) hmarked htag
  · rcases hsides houter with houter | houter
    · exact hl.paired input mark houter
    · exact hr.paired input mark houter

/-- The sides of an OR are planned one after the other and then joined one after the other, with
the new marks of the names that are used up in between. -/
theorem interleaved {F₀ F₁ F₂ F₃ F₄ : Set String} {L L' R R' T : Set PlanNode} (h₁ : F₁ ⊆ F₀)
    (h₂ : F₂ ⊆ F₁) (h₃ : F₃ ⊆ F₂) (h₄ : F₄ ⊆ F₃) (hfree : FreeOf F₀ S)
    (hl : Tracked (F₀ \ F₁) S L) (hr : Tracked (F₁ \ F₂) S R) (hl' : Tracked (F₂ \ F₃) L L')
    (hr' : Tracked (F₃ \ F₄) R R') (hleft : L' ⊆ T) (hsides : T ⊆ L' ∪ R') :
    Tracked (F₀ \ F₄) S T := by
  -- Names that are made in stretches of time that do not overlap are different.
  have hlater : ∀ {a b c d : Set String}, c ⊆ b → Disjoint (a \ b) (c \ d) := fun hsub =>
    disjoint_sdiff_self_left.mono_right (Set.sdiff_subset.trans hsub)
  -- The left side has the first and the third stretch, the right side the second and the fourth.
  have heq : F₀ \ F₄ = F₀ \ F₁ ∪ F₂ \ F₃ ∪ (F₁ \ F₂ ∪ F₃ \ F₄) := by
    rw [Set.union_union_union_comm, Set.sdiff_union_sdiff_cancel h₁ h₂,
      Set.sdiff_union_sdiff_cancel h₃ h₄, Set.sdiff_union_sdiff_cancel (h₂.trans h₁) (h₄.trans h₃)]
  have hapart : Disjoint (F₀ \ F₁ ∪ F₂ \ F₃) (F₁ \ F₂ ∪ F₃ \ F₄) := by
    rw [Set.disjoint_union_left, Set.disjoint_union_right, Set.disjoint_union_right]
    exact ⟨⟨hlater subset_rfl, hlater (h₃.trans h₂)⟩, (hlater subset_rfl).symm, hlater subset_rfl⟩
  rw [heq]
  refine united ?_ hapart (hl.trans hl' (hlater h₂)) (hr.trans hr' (hlater h₃)) hleft hsides
  rw [← heq]
  exact hfree.mono Set.sdiff_subset

end Tracked

end

/-! ## Plans -/

/-- The nodes with a mark of the trees of the plans. -/
def taggedIn (tables : List TablePlan) : Set PlanNode :=
  {node | ∃ p ∈ tables, node ∈ p.executable.tagged}

/-- The loose marks of the trees of the plans. -/
def looseIn (tables : List TablePlan) : Set String :=
  {mark | ∃ p ∈ tables, mark ∈ p.executable.looseMarks}

section

variable {or : Prop} {P : Option Expr → Prop} {w w' : Workspace} {tables tables' : List TablePlan}
  {p q l r : TablePlan} {m : PlanId} {tree : PlanNode}

@[simp] theorem taggedIn_nil : taggedIn [] = ∅ := by simp [taggedIn]

@[simp] theorem taggedIn_cons : taggedIn (p :: tables) = p.executable.tagged ∪ taggedIn tables := by
  ext node
  simp [taggedIn]

@[simp] theorem taggedIn_append :
    taggedIn (tables ++ tables') = taggedIn tables ∪ taggedIn tables' := by
  ext node
  simp [taggedIn, or_and_right, exists_or]

@[simp] theorem looseIn_nil : looseIn [] = ∅ := by simp [looseIn]

@[simp] theorem looseIn_cons :
    looseIn (p :: tables) = {mark | mark ∈ p.executable.looseMarks} ∪ looseIn tables := by
  ext mark
  simp [looseIn]

@[simp] theorem looseIn_append :
    looseIn (tables ++ tables') = looseIn tables ∪ looseIn tables' := by
  ext mark
  simp [looseIn, or_and_right, exists_or]

/-- `q` has the nodes with a mark and the loose marks of `p`. -/
def TablePlan.KeepsMarks (p q : TablePlan) : Prop :=
  q.executable.tagged = p.executable.tagged ∧ q.executable.looseMarks = p.executable.looseMarks

/-- Plans whose trees keep their nodes with a mark keep them as a set. -/
theorem taggedIn_eq_of_forall₂ (h : List.Forall₂ TablePlan.KeepsMarks tables tables') :
    taggedIn tables' = taggedIn tables := by
  induction h with
  | nil => rfl
  | cons hpq _ ih => rw [taggedIn_cons, taggedIn_cons, hpq.1, ih]

/-- Plans whose trees keep their loose marks keep them as a set. -/
theorem looseIn_eq_of_forall₂ (h : List.Forall₂ TablePlan.KeepsMarks tables tables') :
    looseIn tables' = looseIn tables := by
  induction h with
  | nil => rfl
  | cons hpq _ ih => rw [looseIn_cons, looseIn_cons, hpq.2, ih]

/-- A plan that a filter over nested queries without marks was put on. -/
theorem TablePlan.Filtered.keepsMarks (h : p.Filtered PlanNode.Unmarked q) : p.KeepsMarks q := by
  rcases h with rfl | ⟨tree, htree, rfl⟩
  · exact ⟨rfl, rfl⟩
  · exact ⟨htree.tagged_eq, htree.looseMarks_eq⟩

/-- A plan that a cache may have been put on for the sides of an OR. -/
theorem TablePlan.Sheltered.keepsMarks {cached : Bool} (h : p.Sheltered cached q) :
    p.KeepsMarks q := by
  unfold Sheltered at h
  cases cached with
  | true =>
    obtain ⟨k, rfl⟩ := h
    exact ⟨PlanNode.tagged_of_only rfl rfl, rfl⟩
  | false =>
    obtain rfl := h
    exact ⟨rfl, rfl⟩

/-- A copy under another handle. -/
theorem TablePlan.IsCopy.keepsMarks (h : p.IsCopy q) : p.KeepsMarks q := by
  unfold IsCopy at h
  rw [h]
  exact ⟨rfl, rfl⟩

/-- A plan whose columns were put in another order. -/
theorem TablePlan.keepsMarks_reordered (order : List ColumnName) (p : TablePlan) :
    p.KeepsMarks (p.reordered order) := by
  unfold reordered
  split
  · exact ⟨rfl, rfl⟩
  · exact ⟨PlanNode.tagged_of_only rfl rfl, rfl⟩

/-! ### Merges -/

/-- The plans that a merge of `l` and `r` leaves alone. -/
def bystanders (tables : List TablePlan) (l r : TablePlan) : List TablePlan :=
  tables.filter fun p => p.id ≠ l.id ∧ p.id ≠ r.id

/-- After a merge there are the plans that it leaves alone, with links that point to its result, and
the result with its tree. -/
theorem mergedTables_keepsMarks : List.Forall₂ TablePlan.KeepsMarks
    (bystanders tables l r ++ [mergedPlan m l r fun _ _ => tree])
    (mergedTables tables l r m tree) := by
  unfold mergedTables bystanders
  refine List.rel_append ?_ (.cons ⟨rfl, rfl⟩ .nil)
  rw [List.forall₂_map_right_iff, List.forall₂_same]
  exact fun _ _ => ⟨rfl, rfl⟩

/-- The nodes with a mark after a merge. -/
theorem taggedIn_mergedTables : taggedIn (mergedTables tables l r m tree) =
    taggedIn (bystanders tables l r) ∪ tree.tagged := by
  rw [taggedIn_eq_of_forall₂ mergedTables_keepsMarks, taggedIn_append, taggedIn_cons, taggedIn_nil,
    Set.union_empty]
  rfl

/-- The loose marks after a merge. -/
theorem looseIn_mergedTables : looseIn (mergedTables tables l r m tree) =
    looseIn (bystanders tables l r) ∪ {mark | mark ∈ tree.looseMarks} := by
  rw [looseIn_eq_of_forall₂ mergedTables_keepsMarks, looseIn_append, looseIn_cons, looseIn_nil,
    Set.union_empty]
  rfl

section

variable (hnodup : (tables.map TablePlan.id).Nodup) (hl : l ∈ tables) (hr : r ∈ tables)
  (hne : l.id ≠ r.id)

include hnodup hl hr hne

/-- A plan is one of the pair, or the merge leaves it alone. -/
theorem mem_pair_or_bystanders : p ∈ tables ↔ p ∈ bystanders tables l r ++ [l, r] := by
  rw [(perm_pair_cons hnodup hl hr hne).mem_iff, List.mem_append]
  simp only [bystanders, List.mem_cons, List.not_mem_nil, or_false]
  tauto

/-- The nodes with a mark of all plans, those of the pair apart. -/
theorem taggedIn_split : taggedIn tables =
    taggedIn (bystanders tables l r) ∪ taggedIn [l, r] := by
  rw [← taggedIn_append]
  ext node
  simp only [taggedIn, mem_pair_or_bystanders hnodup hl hr hne]

/-- The loose marks of all plans, those of the pair apart. -/
theorem looseIn_split : looseIn tables = looseIn (bystanders tables l r) ∪ looseIn [l, r] := by
  rw [← looseIn_append]
  ext node
  simp only [looseIn, mem_pair_or_bystanders hnodup hl hr hne]

end

/-! ### Both sides of an OR -/

/-- The tree is that of the left plan, perhaps without its cache, or unites both. -/
def TablePlan.UnitedFrom (l r q : TablePlan) : Prop :=
  q.executable = l.executable ∨ q.executable = l.executable.withoutCache ∨
    q.executable = .union l.executable r.executable

/-- Two sides that were joined to one plan each are united so. -/
theorem unitedFrom_unitePair (l r : TablePlan) : l.UnitedFrom r (unitePair l r) := by
  unfold unitePair
  split
  · exact Or.inr (Or.inr rfl)
  · exact Or.inl rfl

/-- The plans at one position of the two sides are united so. -/
theorem unitedFrom_unitePosition (cached : Bool) (before l r : TablePlan) :
    l.UnitedFrom r (unitePosition cached before l r) := by
  unfold unitePosition
  split
  · exact unitedFrom_unitePair l r
  · cases cached with
    | true => exact Or.inr (Or.inl rfl)
    | false => exact Or.inl rfl

/-- A united plan has the nodes with a mark of the left side, and others only from the right one. -/
theorem TablePlan.UnitedFrom.tagged (h : l.UnitedFrom r q) :
    l.executable.tagged ⊆ q.executable.tagged ∧
      q.executable.tagged ⊆ l.executable.tagged ∪ r.executable.tagged := by
  rcases h with h | h | h
  · rw [h]
    exact ⟨subset_rfl, Set.subset_union_left⟩
  · rw [h, PlanNode.tagged_withoutCache]
    exact ⟨subset_rfl, Set.subset_union_left⟩
  · have hboth : (PlanNode.union l.executable r.executable).tagged =
        l.executable.tagged ∪ r.executable.tagged := PlanNode.tagged_of_both rfl rfl
    rw [h, hboth]
    exact ⟨Set.subset_union_left, subset_rfl⟩

/-- What is loose in a united plan was loose on one of the sides. -/
theorem TablePlan.UnitedFrom.looseMarks (h : l.UnitedFrom r q) :
    ∀ mark ∈ q.executable.looseMarks,
      mark ∈ l.executable.looseMarks ∨ mark ∈ r.executable.looseMarks := by
  intro mark hmark
  rcases h with h | h | h
  · exact Or.inl (h ▸ hmark)
  · rw [h, PlanNode.looseMarks_withoutCache] at hmark
    exact Or.inl hmark
  · rw [h] at hmark
    exact List.mem_append.mp hmark

/-- As many plans of both sides as before are united position by position. -/
theorem taggedIn_unitePositions {before : List (Bool × TablePlan)} {ls rs : List TablePlan}
    (hl : ls.length = before.length) (hr : rs.length = before.length) :
    taggedIn ls ⊆ taggedIn (unitePositions before ls rs) ∧
      taggedIn (unitePositions before ls rs) ⊆ taggedIn ls ∪ taggedIn rs := by
  induction before generalizing ls rs with
  | nil =>
    obtain rfl := List.eq_nil_of_length_eq_zero hl
    exact ⟨subset_rfl, Set.subset_union_left⟩
  | cons x rest ih =>
    obtain ⟨l, ls, rfl⟩ := List.exists_cons_of_length_eq_add_one hl
    obtain ⟨r, rs, rfl⟩ := List.exists_cons_of_length_eq_add_one hr
    obtain ⟨ihl, ihr⟩ := ih (Nat.succ.inj hl) (Nat.succ.inj hr)
    obtain ⟨hleft, hsides⟩ := (unitedFrom_unitePosition x.1 x.2 l r).tagged
    simp only [unitePositions, taggedIn_cons]
    refine ⟨Set.union_subset_union hleft ihl, ?_⟩
    rintro a (ha | ha)
    · exact (hsides ha).imp Or.inl Or.inl
    · exact (ihr ha).imp Or.inr Or.inr

/-- What is loose in plans that are united position by position was loose on one of the sides. -/
theorem looseIn_unitePositions (before : List (Bool × TablePlan)) (ls rs : List TablePlan) :
    looseIn (unitePositions before ls rs) ⊆ looseIn ls ∪ looseIn rs := by
  induction before generalizing ls rs with
  | nil => simp [unitePositions]
  | cons x rest ih =>
    rcases ls with _ | ⟨l, ls⟩
    · simp [unitePositions]
    rcases rs with _ | ⟨r, rs⟩
    · simp [unitePositions]
    simp only [unitePositions, looseIn_cons]
    rintro mark (hmark | hmark)
    · exact ((unitedFrom_unitePosition x.1 x.2 l r).looseMarks mark hmark).imp Or.inl Or.inl
    · exact (ih ls rs hmark).imp Or.inr Or.inr

/-! ## Moves -/

/-- The left side of an OR starts with the nodes and marks of the set, and so does the right one. -/
theorem Sides.keepsMarks {w₁ : Workspace} {cached : List Bool} {left right : TableSet}
    {c : Context} (h : Sides w w₁ cached left right c) :
    (taggedIn left.tables = taggedIn w.set.tables ∧ looseIn left.tables = looseIn w.set.tables) ∧
      taggedIn right.tables = taggedIn w.set.tables ∧
      looseIn right.tables = looseIn w.set.tables := by
  have hcached : List.Forall₂ TablePlan.KeepsMarks w.set.tables w₁.set.tables :=
    h.forall₂_cached fun _ _ _ => TablePlan.Sheltered.keepsMarks
  have hleft := h.copiesLeft.imp fun _ _ => TablePlan.IsCopy.keepsMarks
  have hright := h.copiesRight.imp fun _ _ => TablePlan.IsCopy.keepsMarks
  rw [taggedIn_eq_of_forall₂ hleft, taggedIn_eq_of_forall₂ hright, looseIn_eq_of_forall₂ hleft,
    looseIn_eq_of_forall₂ hright, taggedIn_eq_of_forall₂ hcached, looseIn_eq_of_forall₂ hcached]
  exact ⟨⟨rfl, rfl⟩, rfl, rfl⟩

/-- What is loose in a plan that may be marked was loose before, or is the new mark. -/
theorem mem_looseMarks_of_withMark {marked : Option (PlanId × String)} {mark : String}
    (h : mark ∈ (p.withMark marked).executable.looseMarks)
    (hne : ∀ kept name, marked = some (kept, name) → mark ≠ name) :
    mark ∈ p.executable.looseMarks := by
  rcases marked with _ | ⟨kept, name⟩
  · exact h
  · unfold TablePlan.withMark at h
    simp only at h
    split at h
    · exact (List.mem_cons.mp h).resolve_left (hne kept name rfl)
    · exact h

/-- The mark of an outer join is added back. -/
theorem mem_looseMarks_of_addBack {marked : Option (PlanId × String)} {mark : String}
    (h : mark ∈ (Planner.addBack marked tree).looseMarks) : mark ∈ tree.looseMarks ∧
      ∀ kept name, marked = some (kept, name) → mark ≠ name := by
  rcases marked with _ | ⟨kept, name⟩
  · exact ⟨h, by rintro _ _ ⟨⟩⟩
  · obtain ⟨htree, hname⟩ := List.mem_filter.mp h
    refine ⟨htree, ?_⟩
    rintro _ _ ⟨⟩
    exact of_decide_eq_true hname

/-- Moves leave no mark loose that was not so before. -/
theorem Moves.loose (h : Moves PlanNode.Unmarked or w w') (hw : Handled P w) :
    looseIn w'.set.tables ⊆ looseIn w.set.tables := by
  -- The induction is on the moves. Only a join by a link makes a mark, and the outer join that it
  -- puts on its result adds the mark back.
  induction h generalizing P with
  | refl => exact subset_rfl
  | trans first _ ih ih' => exact (ih' (first.handled hw)).trans (ih hw)
  | filter filtered =>
    rw [looseIn_eq_of_forall₂ (filtered.imp fun _ _ => TablePlan.Filtered.keepsMarks)]
  | join left right ne joined =>
    rw [looseIn_mergedTables, looseIn_split hw.nodup left right ne,
      PlanNode.looseMarks_of_joined joined]
    refine Set.union_subset_union_right _ fun mark hmark => ?_
    simpa using hmark
  | joinLinked left right ne marks pair single ih =>
    -- The pair is planned on its own, with the mark on the plan whose rows are kept.
    have hpair := ih (P := P) Handled.pair
    rw [single] at hpair
    rw [looseIn_mergedTables, looseIn_split hw.nodup left right ne]
    refine Set.union_subset_union_right _ fun mark hmark => ?_
    obtain ⟨htree, hne⟩ := mem_looseMarks_of_addBack hmark
    have hloose := @hpair mark (by simpa using htree)
    simp only [looseIn_cons, looseIn_nil, Set.union_empty, Set.mem_union,
      Set.mem_ofPred_eq] at hloose ⊢
    exact hloose.imp (mem_looseMarks_of_withMark · hne) (mem_looseMarks_of_withMark · hne)
  | unite _ opened planLeft _ _ ih ih' =>
    have hs := opened.sides hw
    obtain ⟨⟨-, hleft⟩, -, hright⟩ := hs.keepsMarks
    refine (looseIn_unitePositions _ _ _).trans (Set.union_subset ?_ ?_)
    · exact hleft ▸ ih (opened.handledLeft hw)
    · exact hright ▸ ih' (opened.handledRight hw planLeft.extends)
  | @uniteJoined w w₁ l r l' r' cached left right c x y allowed opened planLeft planRight _ joinLeft
      single joinRight single' ih ih' ihJoin ihJoin' =>
    have hs := opened.sides hw
    obtain ⟨⟨-, hleft⟩, -, hright⟩ := hs.keepsMarks
    have hl := opened.handledLeft hw
    have hr := opened.handledRight hw planLeft.extends
    have hx := (ihJoin ((planLeft.handled hl).extend planRight.extends)).trans (hleft ▸ ih hl)
    have hy := (ihJoin' ((planRight.handled hr).extend joinLeft.extends)).trans (hright ▸ ih' hr)
    rw [single] at hx
    rw [single'] at hy
    intro mark hmark
    simp only [looseIn_cons, looseIn_nil, Set.union_empty, Set.mem_ofPred_eq] at hmark
    -- Both joined sides are put in the order of the columns before they are united.
    have horder : ∀ q : TablePlan,
        mark ∈ (q.reordered (w₁.set.tables.flatMap TablePlan.columns)).executable.looseMarks →
        mark ∈ looseIn [q] := by
      intro q hq
      rw [(q.keepsMarks_reordered _).2] at hq
      simpa using hq
    rcases (unitedFrom_unitePair _ _).looseMarks mark hmark with h | h
    · exact hx (horder x h)
    · exact hy (horder y h)

/-- Names that are made one after another are new ones. -/
theorem MarkerGenerator.future_next {markers : MarkerGenerator}
    (hinj : Function.Injective markers.nameAt) :
    markers.future \ markers.next.2.future = {markers.next.1} := by
  ext name
  rw [Set.mem_sdiff, Set.mem_singleton_iff]
  constructor
  · rintro ⟨⟨n, hn, rfl⟩, hnot⟩
    have hle : ¬ markers.issued + 1 < n := fun hlt => hnot ⟨n, hlt, rfl⟩
    rw [show n = markers.issued + 1 by omega]
    rfl
  · rintro rfl
    refine ⟨⟨_, Nat.lt_succ_self _, rfl⟩, ?_⟩
    rintro ⟨n, hn, hname⟩
    have : markers.issued + 1 = n := hinj hname
    exact absurd hn (this ▸ lt_irrefl _)

/-- The nodes of the pair that the condition of a link is planned over: those of both plans, and
the new mark if there is one. -/
theorem taggedIn_pair {joinType : JoinType} {marked : Option (PlanId × String)} {c : Context}
    (hinj : Function.Injective w.context.markers.nameAt) (hne : l.id ≠ r.id) (i j : PlanId)
    (h : Planner.newMark joinType l.id r.id w = .ok marked { w with context := c }) :
    (marked = none ∧ w.context.markers.future \ c.markers.future = ∅ ∧
      taggedIn [(l.withMark marked).detached i, (r.withMark marked).detached j] =
        taggedIn [l, r] ∪ ∅) ∨
    ∃ kept mark inner, marked = some (kept, mark) ∧
      w.context.markers.future \ c.markers.future = {mark} ∧
      taggedIn [(l.withMark marked).detached i, (r.withMark marked).detached j] =
        taggedIn [l, r] ∪ {.cacheMark inner mark} := by
  -- To take the links off a plan leaves its tree as it is.
  have hdetached : ∀ (p : TablePlan) (id : PlanId), (p.detached id).executable = p.executable :=
    fun _ _ => rfl
  simp only [taggedIn_cons, taggedIn_nil, Set.union_empty, hdetached]
  rcases Planner.newMark_ok h with ⟨-, rfl, heq⟩ | ⟨kept, hkept, rfl, heq⟩
  · obtain rfl : c = w.context := congrArg Workspace.context heq
    exact Or.inl ⟨rfl, Set.sdiff_self, rfl⟩
  · obtain rfl : c = { w.context with markers := w.context.markers.next.2 } :=
      congrArg Workspace.context heq
    have hmark : ∀ p : TablePlan,
        (p.update (.cacheMark · w.context.markers.next.1)).executable.tagged =
          insert (.cacheMark p.executable w.context.markers.next.1) p.executable.tagged :=
      fun p => PlanNode.tagged_of_tag rfl rfl
    -- The plan that is marked is the left or the right one of the pair; the other keeps its tree.
    rcases hkept with ⟨-, rfl⟩ | ⟨-, rfl⟩
    · refine Or.inr ⟨_, _, l.executable, rfl, MarkerGenerator.future_next hinj, ?_⟩
      rw [TablePlan.withMark_of_eq rfl, TablePlan.withMark_of_ne hne.symm, hmark, Set.insert_union,
        ← Set.singleton_union, Set.union_comm]
    · refine Or.inr ⟨_, _, r.executable, rfl, MarkerGenerator.future_next hinj, ?_⟩
      rw [TablePlan.withMark_of_eq rfl, TablePlan.withMark_of_ne hne, hmark, Set.union_insert,
        ← Set.singleton_union, Set.union_comm]

/-- The names made between two workspaces are the new marks of the nodes. -/
def MarksTracked (w w' : Workspace) : Prop :=
  Function.Injective w.context.markers.nameAt →
    FreeOf w.context.markers.future (taggedIn w.set.tables) →
      Tracked (w.context.markers.future \ w'.context.markers.future) (taggedIn w.set.tables)
        (taggedIn w'.set.tables)

/-- Names that are made earlier and later are different. -/
theorem disjoint_earlier_later {a b c : Set String} : Disjoint (a \ b) (b \ c) :=
  disjoint_sdiff_self_left.mono_right Set.sdiff_subset

/-- Two runs one after another track the nodes with a mark. -/
theorem MarksTracked.trans {w₁ : Workspace} (h : MarksTracked w w₁) (h' : MarksTracked w₁ w')
    (hfirst : w.context.Extends w₁.context) (hrest : w₁.context.Extends w'.context) :
    MarksTracked w w' := by
  intro hinj hfree
  have htracked := h hinj hfree
  -- The names that the second run makes are free after the first one, since names do not repeat.
  have hfree₁ : FreeOf w₁.context.markers.future (taggedIn w₁.set.tables) :=
    htracked.free (hfree.mono hfirst.future) disjoint_sdiff_self_left
  rw [← Set.sdiff_union_sdiff_cancel hfirst.future hrest.future]
  exact htracked.trans (h' (hfirst.nameAt ▸ hinj) hfree₁) disjoint_earlier_later

/-- A join by a link tracks the nodes with a mark, if the tree over the pair of its plans does. -/
theorem MarksTracked.joinLinked {w₁ : Workspace} {x : TablePlan} {joinType : JoinType}
    {marked : Option (PlanId × String)} {c : Context} {supply : PlanId.Supply} {hasJoins : Bool}
    (hnodup : (w.set.tables.map TablePlan.id).Nodup) (hl : l ∈ w.set.tables)
    (hr : r ∈ w.set.tables) (hne : l.id ≠ r.id)
    (hmarks : Planner.newMark joinType l.id r.id w = .ok marked { w with context := c })
    (hpair : MarksTracked ⟨⟨[(l.withMark marked).detached ⟨c.supply.next⟩,
      (r.withMark marked).detached ⟨c.supply.next + 1⟩], true⟩,
      { c with supply := ⟨c.supply.next + 2⟩ }⟩ w₁)
    (hextends : ({ c with supply := ⟨c.supply.next + 2⟩ } : Context).Extends w₁.context)
    (hsingle : w₁.set.tables = [x]) :
    MarksTracked w ⟨⟨mergedTables w.set.tables l r m (Planner.addBack marked x.executable),
      hasJoins⟩, { w₁.context with supply }⟩ := by
  intro hinj hfree
  have hfuture : c.markers.future ⊆ w.context.markers.future := (newMark_extends hmarks).future
  have hfuture₁ : w₁.context.markers.future ⊆ c.markers.future := hextends.future
  have hinj' : Function.Injective c.markers.nameAt := (newMark_extends hmarks).nameAt ▸ hinj
  -- The plans are the pair and those that the join leaves alone. New names are those of the mark
  -- and those that are made while the pair is planned.
  rw [taggedIn_split hnodup hl hr hne] at hfree ⊢
  rw [taggedIn_mergedTables, ← Set.sdiff_union_sdiff_cancel hfuture hfuture₁]
  have hfree' := hfree.mono (Set.union_subset Set.sdiff_subset (Set.sdiff_subset.trans hfuture) :
    (w.context.markers.future \ c.markers.future) ∪
      (c.markers.future \ w₁.context.markers.future) ⊆ w.context.markers.future)
  have hx : taggedIn w₁.set.tables = x.executable.tagged := by
    rw [hsingle, taggedIn_cons, taggedIn_nil, Set.union_empty]
  have hpairFree : FreeOf c.markers.future (taggedIn [l, r]) := fun a ha hmarked =>
    hfree a (Or.inr ha) (hmarked.mono hfuture)
  rcases taggedIn_pair hinj hne ⟨c.supply.next⟩ ⟨c.supply.next + 1⟩ hmarks with
    ⟨rfl, hnames, htagged⟩ | ⟨kept, mark, inner, rfl, hnames, htagged⟩
  -- An inner join makes no mark.
  · have htracked := hpair hinj' (by
      show FreeOf c.markers.future (taggedIn _)
      rw [htagged, Set.union_empty]
      exact hpairFree)
    simp only [htagged, hx] at htracked
    have := Tracked.linked (O := ∅) hfree' disjoint_earlier_later htracked (by simp) (by simp)
      (by simp) (by simp)
    rwa [Set.union_empty] at this
  -- An outer join makes one mark, with one node that remembers it and one that adds back.
  · have hmark : mark ∈ w.context.markers.future \ c.markers.future := by
      rw [hnames]
      exact Set.mem_singleton mark
    have hmarked : ∀ a ∈ ({.cacheMark inner mark} ∪ {.outerJoin x.executable mark} :
        Set PlanNode), a.MarkedIn (w.context.markers.future \ c.markers.future) := by
      rintro a (rfl | rfl)
      · exact ⟨_, rfl, hmark⟩
      · exact ⟨_, rfl, hmark⟩
    have htracked := hpair hinj' (by
      show FreeOf c.markers.future (taggedIn _)
      rw [htagged]
      rintro a (ha | ha)
      · exact hpairFree a ha
      · exact PlanNode.not_markedIn_of_disjoint (hmarked a (Or.inl ha)) disjoint_sdiff_self_left)
    simp only [htagged, hx] at htracked
    -- The outer join stands on top of the tree that the pair became.
    have htree : (Planner.addBack (some (kept, mark)) x.executable).tagged =
        x.executable.tagged ∪ {.outerJoin x.executable mark} := by
      rw [Set.union_comm, Set.singleton_union]
      exact PlanNode.tagged_of_tag rfl rfl
    rw [htree]
    refine Tracked.linked hfree' disjoint_earlier_later htracked hmarked ?_ ?_ ?_
    · rintro a (rfl | rfl) b (rfl | rfl) htag
      · rfl
      · cases htag
      · cases htag
      · rfl
    · rintro input mark' ⟨⟩
    · -- The mark that was put on the pair is still there.
      rintro input mark' ⟨⟩
      exact ⟨inner, (htracked.kept (Or.inr rfl)).1⟩

/-- An OR tracks the nodes with a mark, if the two joined sides do. -/
theorem MarksTracked.uniteJoined {w₁ v₁ v₂ v₃ v₄ : Workspace} {cached : List Bool}
    {left right : TableSet} {c : Context} {x y : TablePlan} {order : List ColumnName}
    {hasJoins : Bool} (hsides : Sides w w₁ cached left right c)
    (hleft : MarksTracked ⟨left, c⟩ v₁) (hleft' : c.Extends v₁.context)
    (hright : MarksTracked ⟨right, v₁.context⟩ v₂) (hright' : v₁.context.Extends v₂.context)
    (hx : MarksTracked ⟨v₁.set, v₂.context⟩ v₃) (hx' : v₂.context.Extends v₃.context)
    (hy : MarksTracked ⟨v₂.set, v₃.context⟩ v₄) (hy' : v₃.context.Extends v₄.context)
    (hsingle : v₃.set.tables = [x]) (hsingle' : v₄.set.tables = [y]) :
    MarksTracked w
      ⟨⟨[unitePair (x.reordered order) (y.reordered order)], hasJoins⟩, v₄.context⟩ := by
  intro hinj hfree
  obtain ⟨⟨hkeptLeft, -⟩, hkeptRight, -⟩ := hsides.keepsMarks
  rw [← hsides.markers] at hinj hfree ⊢
  have hinj₁ := hleft'.nameAt ▸ hinj
  have hinj₂ := hright'.nameAt ▸ hinj₁
  have hinj₃ := hx'.nameAt ▸ hinj₂
  have hfree₁ := hfree.mono hleft'.future
  -- Each side is planned and then joined, and the other one is planned in between.
  have hl := hleft hinj (hkeptLeft ▸ hfree)
  have hr := hright hinj₁ (hkeptRight ▸ hfree₁)
  have hl' := hx hinj₂ (hl.free (hkeptLeft ▸ hfree.mono (hright'.future.trans hleft'.future))
    (disjoint_sdiff_self_left.mono_right hright'.future))
  have hr' := hy hinj₃ (hr.free (hkeptRight ▸ hfree₁.mono (hx'.future.trans hright'.future))
    (disjoint_sdiff_self_left.mono_right hx'.future))
  rw [hkeptLeft] at hl
  rw [hkeptRight] at hr
  rw [hsingle] at hl'
  rw [hsingle'] at hr'
  obtain ⟨hfirst, hboth⟩ :=
    (unitedFrom_unitePair (x.reordered order) (y.reordered order)).tagged
  rw [(x.keepsMarks_reordered _).1] at hfirst hboth
  rw [(y.keepsMarks_reordered _).1] at hboth
  simp only [taggedIn_cons, taggedIn_nil, Set.union_empty] at hl' hr' ⊢
  exact .interleaved hleft'.future hright'.future hx'.future hy'.future hfree hl hr hl' hr' hfirst
    hboth

/-- Moves track the nodes with a mark. -/
theorem Moves.tracked (h : Moves PlanNode.Unmarked or w w') (hw : Handled P w) :
    MarksTracked w w' := by
  -- The induction is on the moves. Filters and plain joins make no mark; a join by a link and an OR
  -- compose what their runs track.
  induction h generalizing P with
  | refl w =>
    intro _ _
    rw [Set.sdiff_self]
    exact .refl _
  | trans first rest ih ih' =>
    exact (ih hw).trans (ih' (first.handled hw)) first.extends rest.extends
  | filter filtered =>
    intro _ _
    rw [Set.sdiff_self,
      taggedIn_eq_of_forall₂ (filtered.imp fun _ _ => TablePlan.Filtered.keepsMarks)]
    exact .refl _
  | join left right ne joined =>
    intro _ _
    rw [Set.sdiff_self, taggedIn_mergedTables, taggedIn_split hw.nodup left right ne,
      PlanNode.tagged_of_joined joined, taggedIn_cons, taggedIn_cons, taggedIn_nil, Set.union_empty]
    exact .refl _
  | joinLinked left right ne marks pair single ih =>
    exact .joinLinked hw.nodup left right ne marks (ih (P := P) Handled.pair) pair.extends single
  | unite _ opened planLeft planRight fits ih ih' =>
    intro hinj hfree
    have hs := opened.sides hw
    obtain ⟨⟨hleft, -⟩, hright, -⟩ := hs.keepsMarks
    obtain ⟨hlenl, hlenr⟩ := opened.lengths hw planLeft planRight fits
    obtain ⟨hfirst, hsides⟩ := taggedIn_unitePositions hlenl hlenr
    rw [← hs.markers] at hinj hfree ⊢
    -- The right side is planned after the left one, so the names that it makes are later ones.
    have hl := ih (opened.handledLeft hw) hinj (hleft ▸ hfree)
    have hr := ih' (opened.handledRight hw planLeft.extends)
      (planLeft.extends.nameAt ▸ hinj) (hright ▸ hfree.mono planLeft.extends.future)
    rw [hleft] at hl
    rw [hright] at hr
    rw [← Set.sdiff_union_sdiff_cancel planLeft.extends.future planRight.extends.future]
    refine Tracked.united (hfree.mono ?_) disjoint_earlier_later hl hr hfirst hsides
    exact Set.union_subset Set.sdiff_subset (Set.sdiff_subset.trans planLeft.extends.future)
  | uniteJoined _ opened planLeft planRight _ joinLeft single joinRight single' ih ih' ihJoin
      ihJoin' =>
    have hs := opened.sides hw
    have hwl := opened.handledLeft hw
    have hwr := opened.handledRight hw planLeft.extends
    exact .uniteJoined hs (ih hwl) planLeft.extends (ih' hwr) planRight.extends
      (ihJoin ((planLeft.handled hwl).extend planRight.extends)) joinLeft.extends
      (ihJoin' ((planRight.handled hwr).extend joinLeft.extends)) joinRight.extends single single'

end

/-! ## Whole queries -/

namespace PlanNode

/-- The outer joins of a tree and the nodes that remember rows for them pair up by their marks. -/
structure MarksPaired (tree : PlanNode) : Prop where
  /-- In the input of every outer join there is its mark. -/
  remembered : ∀ input mark, .outerJoin input mark ∈ tree.walk →
    ∃ inner, .cacheMark inner mark ∈ input.walk
  /-- Every mark is in the input of an outer join. -/
  addedBack : ∀ inner mark, .cacheMark inner mark ∈ tree.walk →
    ∃ input, .outerJoin input mark ∈ tree.walk ∧ .cacheMark inner mark ∈ input.walk
  /-- It is so wherever the mark occurs. -/
  nowhereLoose : tree.looseMarks = []
  /-- Outer joins with one mark are the same. -/
  outerJoin_unique : ∀ input input' mark, .outerJoin input mark ∈ tree.walk →
    .outerJoin input' mark ∈ tree.walk → input = input'
  /-- Nodes that remember rows under one mark are the same. -/
  cacheMark_unique : ∀ inner inner' mark, .cacheMark inner mark ∈ tree.walk →
    .cacheMark inner' mark ∈ tree.walk → inner = inner'

/-- A base table has no mark. -/
theorem unmarked_source (table : String) : (PlanNode.source table).Unmarked := by
  rintro node (_ | ⟨_, ⟨⟩⟩)
  rfl

/-- A mark that is loose in an input is loose in the tree, unless the tree is the outer join that
adds it back. -/
theorem mem_looseMarks_of_child {tree child : PlanNode} {mark : String}
    (hchild : child ∈ tree.children) (h : mark ∈ child.looseMarks) :
    mark ∈ tree.looseMarks ∨ tree = .outerJoin child mark := by
  cases tree with
  | source name => cases hchild
  | outerJoin input mark' =>
    obtain rfl := List.mem_singleton.mp hchild
    by_cases hmark : mark = mark'
    · exact Or.inr (hmark ▸ rfl)
    · exact Or.inl (List.mem_filter.mpr ⟨h, decide_eq_true hmark⟩)
  | cacheMark input mark' =>
    obtain rfl := List.mem_singleton.mp hchild
    exact Or.inl (List.mem_cons_of_mem _ h)
  | naturalJoin l r | join l r | union l r | anyAllSelect l r =>
    refine Or.inl (List.mem_append.mpr ?_)
    simp only [children, List.mem_cons, List.not_mem_nil, or_false] at hchild
    rcases hchild with rfl | rfl
    · exact Or.inl h
    · exact Or.inr h
  | _ =>
    obtain rfl := List.mem_singleton.mp hchild
    exact Or.inl h

/-- A node that remembers rows is in the input of an outer join with its mark, unless the mark is
loose. -/
theorem mem_looseMarks_or_addedBack {tree inner : PlanNode} {mark : String}
    (h : .cacheMark inner mark ∈ tree.walk) : mark ∈ tree.looseMarks ∨
      ∃ input, .outerJoin input mark ∈ tree.walk ∧ .cacheMark inner mark ∈ input.walk := by
  induction tree using induction_children with
  | step tree ih =>
    rw [walk_eq, List.mem_cons, List.mem_flatMap] at h
    rcases h with rfl | ⟨child, hchild, h⟩
    · exact Or.inl List.mem_cons_self
    have hwalk : ∀ node ∈ child.walk, node ∈ tree.walk := fun node hnode => by
      rw [walk_eq]
      exact List.mem_cons_of_mem _ (List.mem_flatMap.mpr ⟨child, hchild, hnode⟩)
    -- The node is in an input. If its mark is loose there, the tree adds it back or it stays loose.
    rcases ih child hchild h with hloose | ⟨input, houter, hinner⟩
    · rcases mem_looseMarks_of_child hchild hloose with hloose | rfl
      · exact Or.inl hloose
      · exact Or.inr ⟨child, walk_eq _ ▸ List.mem_cons_self, h⟩
    · exact Or.inr ⟨input, hwalk _ houter, hinner⟩

end PlanNode

/-- With numbered marks, the outer joins and marks of a plan over base tables pair up, if the nested
queries of the filter and of the conditions have neither. -/
theorem planQuery_marksPaired {uuids : Identifiers} {settings : Settings} {set : TableSet}
    {supply supply' : PlanId.Supply} {filter : Option Expr} {plan : TablePlan}
    (hmarks : settings.markers.strategy = .sequential)
    (hbase : ∀ p ∈ set.tables, ∃ table, p.executable = .source table)
    (hids : (set.tables.map TablePlan.id).Nodup)
    (hgiven : ∀ p ∈ set.tables, p.id.number < supply.next)
    (hfilter : ∀ e, filter = some e → ∀ query ∈ e.queries, query.Unmarked)
    (hlinks : ∀ p ∈ set.tables, ∀ side link, p.linkOn side = some link →
      ∀ e, link.on = some e → ∀ query ∈ e.queries, query.Unmarked)
    (h : planQuery uuids settings set filter supply = .ok plan supply') :
    plan.executable.MarksPaired := by
  obtain ⟨w', hplan⟩ := planQuery_ok h
  obtain ⟨w₁, hmoves, hsingle, -⟩ := plan_moves (Q := PlanNode.Unmarked) hids hgiven
    (fun e he => ⟨hfilter e he, absurd trivial⟩)
    (fun side p hp link hlink e he => ⟨hlinks p hp side link hlink e he, absurd trivial⟩) hplan
  have hw : Handled (fun _ => True) ⟨set, .start uuids settings supply⟩ :=
    ⟨hids, hgiven, fun _ _ _ _ _ => trivial⟩
  -- Base tables have no marks.
  have hempty : taggedIn set.tables = ∅ := by
    rw [Set.eq_empty_iff_forall_notMem]
    rintro node ⟨p, hp, hnode⟩
    obtain ⟨table, htree⟩ := hbase p hp
    rw [htree, (PlanNode.unmarked_source table).tagged_eq] at hnode
    exact hnode
  have hnoLoose : looseIn set.tables = ∅ := by
    rw [Set.eq_empty_iff_forall_notMem]
    rintro mark ⟨p, hp, hmark⟩
    obtain ⟨table, htree⟩ := hbase p hp
    rw [htree, (PlanNode.unmarked_source table).looseMarks_eq] at hmark
    cases hmark
  -- All that the tree has is new, and nothing in it is loose.
  have htracked := hmoves.tracked hw (MarkerGenerator.nameAt_injective hmarks) (by
    rw [hempty]
    rintro a ⟨⟩)
  have hloose := hmoves.loose hw
  simp only [hempty, hnoLoose, hsingle, taggedIn_cons, taggedIn_nil, looseIn_cons, looseIn_nil,
    Set.union_empty] at htracked hloose
  have hnowhere : plan.executable.looseMarks = [] := List.eq_nil_iff_forall_not_mem.mpr hloose
  -- Every node with a mark is new, so that its kind and mark tell which one it is.
  have hunique : ∀ a ∈ plan.executable.walk, ∀ b ∈ plan.executable.walk, a.tag? ≠ none →
      a.tag? = b.tag? → a = b := by
    intro a ha b hb hnone htag
    have ha : a ∈ plan.executable.tagged := ⟨ha, hnone⟩
    have hb : b ∈ plan.executable.tagged := ⟨hb, htag ▸ hnone⟩
    exact htracked.unique a ha b hb ((htracked.origin a ha).resolve_left id) htag
  refine ⟨fun input mark houter => ?_, fun inner mark hinner => ?_, hnowhere,
    fun input input' mark hl hr => ?_, fun inner inner' mark hl hr => ?_⟩
  · exact (htracked.paired input mark ⟨houter, Option.some_ne_none _⟩).resolve_left id
  · refine (PlanNode.mem_looseMarks_or_addedBack hinner).resolve_left ?_
    rw [hnowhere]
    exact List.not_mem_nil
  · exact (PlanNode.outerJoin.inj (hunique _ hl _ hr (Option.some_ne_none _) rfl)).1
  · exact (PlanNode.cacheMark.inj (hunique _ hl _ hr (Option.some_ne_none _) rfl)).1

/-- An outer join that is planned before an OR is on both sides of it. -/
theorem planQuery_marksPaired_chain :
    let set : TableSet := ⟨chainOfOnes .left (.binary (columnOf "a") .eq (columnOf "b"))
      (.binary (columnOf "b") .lt (columnOf "c")), false⟩
    let filter := Expr.binary (.binary (columnOf "a") .lte (columnOf "b")) .and
      (.binary (.binary (columnOf "a") .eq (columnOf "c")) .or (.unary .isNull (columnOf "b")))
    ∃ plan supply', planQuery .blank default set (some filter) ⟨4⟩ = .ok plan supply' ∧
      plan.executable.walk.countP (·.tag? = some (.addsBack "OUTER_JOIN_1")) = 2 ∧
      plan.executable.MarksPaired := by
  intro set filter
  have hset : CheckedTables ones literals ⟨4⟩ set .left :=
    chainOfOnes_checked (.refl _) rfl ⟨rfl, by decide⟩ ⟨rfl, by decide⟩
  have hok : resultWith
      (fun plan _ => plan.executable.walk.countP (·.tag? = some (.addsBack "OUTER_JOIN_1")))
      (planQuery .blank default set (some filter) ⟨4⟩) = some 2 := by
    decide +kernel
  obtain ⟨plan, supply', h, htwice⟩ := exists_of_resultWith hok
  have hqueries : ∀ s t op, ∀ query ∈ (Expr.binary (columnOf s) op (columnOf t)).queries,
      query.Unmarked := by
    rintro _ _ _ _ ⟨⟩
  refine ⟨plan, supply', h, htwice, planQuery_marksPaired rfl
    (fun p hp => (hset.base.base p hp).source.imp fun _ => And.left) hset.base.ids hset.base.given
    (by rintro e ⟨⟩ _ ⟨⟩) ?_ h⟩
  simp only [set, chainOfOnes, List.forall_mem_cons]
  refine ⟨?_, ?_, ?_, List.forall_mem_nil _⟩
  all_goals rintro (_ | _) link hlink e he <;> cases hlink <;> cases he <;> exact hqueries _ _ _

end QueryPlan
