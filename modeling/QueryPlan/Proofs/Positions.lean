import QueryPlan.Proofs.Untouched

/-!
# Positions that keep their plans

Until plans are joined, moves leave every plan at its position, with its columns,
keys and links. Only its tree, its handle and whether it was touched may change.

- `TablePlan.Remains`: a plan with the fields of another, but for its tree.
- `unitePosition_remains`: uniting two sides keeps the fields of the left one.
- `Moves.remains`: so do moves without joins, position by position.
-/

namespace QueryPlan

variable {Q : PlanNode → Prop} {or : Prop} {P : Option Expr → Prop} {w w₁ w' : Workspace}
  {cached : List Bool} {left right : TableSet} {c : Context} {f g : PlanId → PlanId}

/-! ## Plans but for their trees -/

/-- `q` has the columns and the keys of `p`, and under the names `g` its handle and its links. -/
structure TablePlan.Remains (g : PlanId → PlanId) (p q : TablePlan) : Prop where
  id_eq : q.id = g p.id
  columns : q.columns = p.columns
  uniqueKeys : q.uniqueKeys = p.uniqueKeys
  links : ∀ side, q.linkOn side = (p.linkOn side).map (JoinLink.rename g)

namespace TablePlan.Remains

variable {p q r : TablePlan}

/-- Plans that have the same handle need no names. -/
theorem of_eq (hid : q.id = p.id) (hcolumns : q.columns = p.columns)
    (hkeys : q.uniqueKeys = p.uniqueKeys) (hleft : q.left = p.left) (hright : q.right = p.right) :
    p.Remains (fun i => i) q := by
  refine ⟨hid, hcolumns, hkeys, fun side => ?_⟩
  have hsame : q.linkOn side = p.linkOn side := by
    cases side
    · exact hleft
    · exact hright
  rw [hsame]
  cases p.linkOn side <;> rfl

theorem refl (p : TablePlan) : p.Remains (fun i => i) p := of_eq rfl rfl rfl rfl rfl

theorem trans (h : p.Remains g q) (h' : q.Remains f r) : p.Remains (f ∘ g) r := by
  refine ⟨?_, h'.columns.trans h.columns, h'.uniqueKeys.trans h.uniqueKeys, fun side => ?_⟩
  · rw [h'.id_eq, h.id_eq]
    rfl
  · rw [h'.links, h.links, Option.map_map]
    rfl

/-- An untouched copy under another handle has the fields of the plan. -/
theorem of_copy (h : p.Mirrors g q) (hcopy : p.IsCopy q) : p.Remains g q := by
  refine ⟨h.id_eq, h.columns, ?_, h.links⟩
  rw [hcopy]
  rfl

end TablePlan.Remains

namespace TablePlan

variable {p q : TablePlan}

theorem Filtered.remains (h : p.Filtered Q q) : p.Remains (fun i => i) q := by
  rcases h with rfl | ⟨tree, -, rfl⟩
  · exact .refl q
  · exact .of_eq rfl rfl rfl rfl rfl

theorem Wraps.remains {last newLast : Nat} {x : Bool × TablePlan} (h : p.Wraps last newLast x) :
    p.Remains (fun i => i) x.2 := by
  cases h with
  | bare => exact .refl p
  | cached => exact .of_eq rfl rfl rfl rfl rfl

end TablePlan

/-- Where the sides of an OR are united, all but the tree comes from the left side. -/
theorem unitePosition_remains (cached : Bool) (before left right : TablePlan) :
    left.Remains (fun i => i) (unitePosition cached before left right) := by
  unfold unitePosition unitePair
  split <;> exact .of_eq rfl rfl rfl rfl rfl

/-! ## Moves without joins -/

theorem TableSet.Copied.remains {set copy : TableSet} (h : set.Copied copy c)
    (hcopies : List.Forall₂ TablePlan.IsCopy set.tables copy.tables) :
    ∃ g, List.Forall₂ (TablePlan.Remains g) set.tables copy.tables := by
  obtain ⟨g, -, hall⟩ := h.renamed
  exact ⟨g, (forall₂_and hall hcopies).imp fun _ _ hpq => .of_copy hpq.1.1 hpq.2⟩

theorem forall₂_remains_trans {before mid after : List TablePlan}
    (h : List.Forall₂ (TablePlan.Remains g) before mid)
    (h' : List.Forall₂ (TablePlan.Remains f) mid after) :
    List.Forall₂ (TablePlan.Remains (f ∘ g)) before after :=
  forall₂_trans (fun _ _ _ hpq hqr => hpq.trans hqr) h h'

/-- If the plans of both sides of an OR have the fields of the plans that these are copies of, then
so do the plans that they are united to. -/
theorem Opened.remains {l r : Workspace} (h : Opened w cached w₁ left right c) (hw : Handled P w)
    (hl : List.Forall₂ (TablePlan.Remains f) left.tables l.set.tables)
    (hr : List.Forall₂ (TablePlan.Remains g) right.tables r.set.tables) :
    ∃ k, List.Forall₂ (TablePlan.Remains k) w.set.tables
      (unitePositions (cached.zip w₁.set.tables) l.set.tables r.set.tables) := by
  have hs := h.sides hw
  have hsnd : (cached.zip w₁.set.tables).map Prod.snd = w₁.set.tables :=
    List.map_snd_zip (le_of_eq hs.length_cached.symm)
  obtain ⟨f', hleft⟩ := hs.copiedLeft.remains hs.copiesLeft
  obtain ⟨g', hright⟩ := hs.copiedRight.remains hs.copiesRight
  refine ⟨f ∘ f', forall₂_unitePositions_of_wraps h.wraps.2
    (hsnd.symm ▸ forall₂_remains_trans hleft hl) (hsnd.symm ▸ forall₂_remains_trans hright hr) ?_⟩
  intro p x y z hpx hy _
  exact (hpx.remains.trans hy).trans (unitePosition_remains x.1 x.2 y z)

/-- Until plans are joined, each has its columns, keys and links at its position. -/
theorem Moves.remains (h : Moves Q or w w') (hw : Handled P w) (hjoins : w'.set.hasJoins = false) :
    ∃ g, List.Forall₂ (TablePlan.Remains g) w.set.tables w'.set.tables := by
  induction h generalizing P with
  | refl => exact ⟨fun i => i, List.forall₂_same.mpr fun p _ => .refl p⟩
  | trans first rest ih ih' =>
    have hw₁ := first.handled hw
    obtain ⟨g, hg⟩ := ih hw ((rest.keeps hw₁).2 hjoins).1
    obtain ⟨f, hf⟩ := ih' hw₁ hjoins
    exact ⟨f ∘ g, forall₂_remains_trans hg hf⟩
  | filter filtered => exact ⟨fun i => i, filtered.imp fun _ _ => TablePlan.Filtered.remains⟩
  | join => cases hjoins
  | joinLinked => cases hjoins
  | unite _ opened planLeft planRight fits ih ih' =>
    obtain ⟨hnone, hnone'⟩ := hasJoins_of_not_mustReshape fits
    obtain ⟨f, hl⟩ := ih (opened.handledLeft hw) hnone
    obtain ⟨g, hr⟩ := ih' (opened.handledRight hw planLeft.extends) hnone'
    exact opened.remains hw hl hr
  | uniteJoined _ opened planLeft planRight reshaped joinLeft single joinRight single' =>
    have htold := opened.hasJoins_of_reshaped hw planLeft planRight reshaped joinLeft single
      joinRight single'
    cases htold.symm.trans hjoins

end QueryPlan
