import QueryPlan.Proofs.Moving

/-!
# Plans that no move touches

The plans of a set get caches for the sides of an OR, and lose them again at the
positions that neither side touched. That this gives the plans back as they were
needs all moves to tell which plans they touch.

- `TablePlan.Wraps`: a plan for the sides of an OR, with a new cache or as it was.
- `Moves.cacheIds_le`: ids of caches are only used up.
- `Opened.forall₂_united`: what holds of each position where the sides are united.
- `Moves.rests`: until plans are joined, an untouched plan has the tree that it had.
- `Moves.touches`: what is touched stays so, and joins touch a plan.
- `Opened.unitePair_of_reshaped`: two sides that become one plan each are united.
-/

namespace QueryPlan

variable {Q : PlanNode → Prop} {or : Prop} {P : Option Expr → Prop} {w w₁ w' : Workspace}
  {cached : List Bool} {left right : TableSet} {c : Context}

/-! ## Caches for the sides of an OR -/

/-- What a plan becomes for the sides of an OR, and whether it got a cache: one that has none may
get one, with an id that comes after `last` and not after `newLast`. -/
inductive TablePlan.Wraps (last newLast : Nat) (p : TablePlan) : Bool × TablePlan → Prop where
  | bare : Wraps last newLast p (false, p)
  | cached {id : Nat} (uncached : p.executable.isCache = false) (lower : last < id)
    (upper : id ≤ newLast) : Wraps last newLast p (true, p.updateQuietly (.cache · id))

/-- A cache does not touch the plan. -/
theorem TablePlan.Wraps.touched {last newLast : Nat} {p : TablePlan} {x : Bool × TablePlan}
    (h : p.Wraps last newLast x) : x.2.touched = p.touched := by
  cases h <;> rfl

/-- The caches for the sides of an OR are put on plans so, with later and later ids. -/
theorem wraps_cachePlans (last : Nat) (tables : List TablePlan) :
    last ≤ (cachePlans last tables).2 ∧
      List.Forall₂ (TablePlan.Wraps last (cachePlans last tables).2) tables
        (cachePlans last tables).1 := by
  induction tables generalizing last with
  | nil => exact ⟨le_rfl, .nil⟩
  | cons p rest ih =>
    unfold cachePlans
    by_cases hcache : p.executable.isCache = true
    · rw [if_pos hcache]
      exact ⟨(ih last).1, .cons .bare (ih last).2⟩
    · rw [if_neg hcache]
      obtain ⟨hle, hrest⟩ := ih (last + 1)
      refine ⟨(Nat.le_succ last).trans hle,
        .cons (.cached (Bool.eq_false_iff.mpr hcache) (Nat.lt_succ_self last) hle) ?_⟩
      refine hrest.imp fun q x hqx => ?_
      cases hqx with
      | bare => exact .bare
      | cached uncached lower upper => exact .cached uncached (by omega) upper

/-- What the plans for the sides of an OR are, and which ids of caches are used up. -/
theorem cacheForSides_cases (h : Planner.cacheForSides w = .ok cached w') :
    (w'.context.cacheIds = (cachePlans w.context.cacheIds w.set.tables).2 ∧
      cached.zip w'.set.tables = (cachePlans w.context.cacheIds w.set.tables).1) ∨
    (w'.context.cacheIds = w.context.cacheIds ∧
      cached.zip w'.set.tables = w.set.tables.map fun p => (false, p)) := by
  rw [Planner.cacheForSides_eq] at h
  split at h <;> cases h
  · exact Or.inl ⟨rfl, by rw [List.zip_map', List.map_id']⟩
  · exact Or.inr ⟨rfl, List.map_prod_right_eq_zip.symm⟩

/-- For the sides of an OR, plans may get caches with ids that are used up. -/
theorem cacheForSides_wraps (h : Planner.cacheForSides w = .ok cached w') :
    w.context.cacheIds ≤ w'.context.cacheIds ∧
      List.Forall₂ (TablePlan.Wraps w.context.cacheIds w'.context.cacheIds) w.set.tables
        (cached.zip w'.set.tables) := by
  rcases cacheForSides_cases h with ⟨hids, hplans⟩ | ⟨hids, hplans⟩ <;> rw [hids, hplans]
  · exact wraps_cachePlans w.context.cacheIds w.set.tables
  · refine ⟨le_rfl, ?_⟩
    rw [List.forall₂_map_right_iff, List.forall₂_same]
    exact fun _ _ => .bare

namespace Opened

/-- Only handles and ids of caches are used up before the sides are planned. -/
theorem context_eq (h : Opened w cached w₁ left right c) :
    ∃ supply, c = { w₁.context with supply } := by
  have hcopy : ∀ {w w' : Workspace} {set : TableSet}, Planner.copy w = .ok set w' →
      ∃ supply, w'.context = { w.context with supply } := by
    intro w w' set h
    obtain ⟨-, rfl⟩ := Planner.copy_ok.mp h
    exact ⟨_, rfl⟩
  obtain ⟨w₂, w₃, hleft, hright, rfl⟩ := h.copies
  obtain ⟨supply, h₂⟩ := hcopy hleft
  obtain ⟨supply', h₃⟩ := hcopy hright
  exact ⟨supply', by rw [h₃, h₂]⟩

/-- Where the sides of an OR are opened, the plans get caches with later ids. -/
theorem wraps (h : Opened w cached w₁ left right c) :
    w.context.cacheIds ≤ c.cacheIds ∧
      List.Forall₂ (TablePlan.Wraps w.context.cacheIds c.cacheIds) w.set.tables
        (cached.zip w₁.set.tables) := by
  obtain ⟨supply, rfl⟩ := h.context_eq
  exact cacheForSides_wraps h.caches

end Opened

/-- A new mark uses up no id of a cache. -/
theorem newMark_cacheIds {joinType : JoinType} {l r : PlanId} {marked : Option (PlanId × String)}
    (h : Planner.newMark joinType l r w = .ok marked w') :
    w'.context.cacheIds = w.context.cacheIds := by
  rcases Planner.newMark_ok h with ⟨-, -, rfl⟩ | ⟨kept, -, -, rfl⟩ <;> rfl

/-- Ids of caches are only used up. -/
theorem Moves.cacheIds_le (h : Moves Q or w w') : w.context.cacheIds ≤ w'.context.cacheIds := by
  induction h with
  | refl => exact le_rfl
  | trans _ _ ih ih' => exact ih.trans ih'
  | filter => exact le_rfl
  | join => exact le_rfl
  | joinLinked _ _ _ marks _ _ ih => exact (newMark_cacheIds marks).symm.le.trans ih
  | unite _ opened _ _ _ ih ih' => exact opened.wraps.1.trans (ih.trans ih')
  | uniteJoined _ opened _ _ _ _ _ _ _ ih₁ ih₂ ih₃ ih₄ =>
    exact opened.wraps.1.trans (ih₁.trans (ih₂.trans (ih₃.trans ih₄)))

/-! ## Positions -/

/-- What holds of all positions and what else does hold of them together. -/
theorem forall₂_and {α β : Type} {R S : α → β → Prop} {as : List α} {bs : List β}
    (h : List.Forall₂ R as bs) (h' : List.Forall₂ S as bs) :
    List.Forall₂ (fun a b => R a b ∧ S a b) as bs := by
  obtain ⟨hlen, hall⟩ := List.forall₂_iff_zip.mp h
  obtain ⟨-, hall'⟩ := List.forall₂_iff_zip.mp h'
  exact List.forall₂_iff_zip.mpr ⟨hlen, fun hmem => ⟨hall hmem, hall' hmem⟩⟩

theorem forall₂_unitePositions_of_wraps {R S T : TablePlan → TablePlan → Prop} {last newLast : Nat}
    {before ls rs : List TablePlan} {xs : List (Bool × TablePlan)}
    (hb : List.Forall₂ (TablePlan.Wraps last newLast) before xs)
    (hl : List.Forall₂ S (xs.map Prod.snd) ls) (hr : List.Forall₂ T (xs.map Prod.snd) rs)
    (hR : ∀ p x l r, p.Wraps last newLast x → S x.2 l → T x.2 r →
      R p (unitePosition x.1 x.2 l r)) : List.Forall₂ R before (unitePositions xs ls rs) := by
  induction hb generalizing ls rs with
  | nil => exact .nil
  | cons hpx _ ih =>
    cases hl with
    | cons hxl hl =>
      cases hr with
      | cons hxr hr => exact .cons (hR _ _ _ _ hpx hxl hxr) (ih hl hr)

/-- What holds of each position where the sides of an OR are united, if the sides stand to copies
of its plan as `S` and `T` say. -/
theorem Opened.forall₂_united {R S T : TablePlan → TablePlan → Prop} {l r : Workspace}
    (h : Opened w cached w₁ left right c) (hw : Handled P w)
    (hl : List.Forall₂ S left.tables l.set.tables) (hr : List.Forall₂ T right.tables r.set.tables)
    (hR : ∀ p x q s y z, p.Wraps w.context.cacheIds c.cacheIds x → x.2.IsCopy q → S q y →
      x.2.IsCopy s → T s z → R p (unitePosition x.1 x.2 y z)) :
    List.Forall₂ R w.set.tables
      (unitePositions (cached.zip w₁.set.tables) l.set.tables r.set.tables) := by
  have hs := h.sides hw
  have hsnd : (cached.zip w₁.set.tables).map Prod.snd = w₁.set.tables :=
    List.map_snd_zip (le_of_eq hs.length_cached.symm)
  have hside : ∀ {S : TablePlan → TablePlan → Prop} {copy side : List TablePlan},
      List.Forall₂ TablePlan.IsCopy w₁.set.tables copy → List.Forall₂ S copy side →
      List.Forall₂ (fun p y => ∃ q, p.IsCopy q ∧ S q y) ((cached.zip w₁.set.tables).map Prod.snd)
        side := fun hcopy hside => by
    rw [hsnd]
    exact forall₂_trans (fun p q y hpq hqy => ⟨q, hpq, hqy⟩) hcopy hside
  refine forall₂_unitePositions_of_wraps h.wraps.2 (hside hs.copiesLeft hl)
    (hside hs.copiesRight hr) fun p x y z hpx ⟨q, hq, hqy⟩ ⟨s, hs, hsz⟩ =>
      hR p x q s y z hpx hq hqy hs hsz

namespace TablePlan

variable {p q x y : TablePlan}

/-- A copy has the tree of the plan. -/
theorem IsCopy.executable (h : p.IsCopy q) : q.executable = p.executable := by
  unfold IsCopy at h
  rw [h]
  rfl

/-- A filter leaves a plan as it is, or touches it. -/
theorem Filtered.touched (h : p.Filtered Q q) : q = p ∨ q.touched = true := by
  rcases h with rfl | ⟨tree, -, rfl⟩
  · exact Or.inl rfl
  · exact Or.inr rfl

/-- Another order of the columns leaves the plan touched. -/
theorem touched_reordered (order : List ColumnName) (h : p.touched = true) :
    (p.reordered order).touched = true := by
  unfold reordered
  split
  · exact h
  · rfl

end TablePlan

/-- Two plans of which one is touched are united. -/
theorem unitePair_of_touched {l r : TablePlan} (h : l.touched = true ∨ r.touched = true) :
    unitePair l r = l.update (.union · r.executable) := by
  unfold unitePair
  rw [if_pos (by rwa [Bool.or_eq_true])]

/-! ## Untouched plans -/

/-- If `q` is not touched, it has the tree of `p`, which was not touched either. -/
def TablePlan.Rests (p q : TablePlan) : Prop :=
  q.touched = false → p.touched = false ∧ q.executable = p.executable

/-- A plan that rests twice rests. -/
theorem TablePlan.Rests.trans {p q s : TablePlan} (h : p.Rests q) (h' : q.Rests s) : p.Rests s := by
  intro hs
  obtain ⟨hq, htree'⟩ := h' hs
  obtain ⟨hp, htree⟩ := h hq
  exact ⟨hp, htree'.trans htree⟩

/-- A filtered plan rests unless it is touched. -/
theorem TablePlan.Filtered.rests {p q : TablePlan} (h : p.Filtered Q q) : p.Rests q := by
  intro hq
  rcases h.touched with rfl | htouched
  · exact ⟨hq, rfl⟩
  · rw [htouched] at hq
    cases hq

/-- A position that one side touched is united, and at any other the plan is as it was before it
got a cache. -/
theorem TablePlan.Wraps.united {last newLast : Nat} {p q l r : TablePlan} {x : Bool × TablePlan}
    (h : p.Wraps last newLast x) (hcopy : x.2.IsCopy q) (hl : q.Rests l) :
    unitePosition x.1 x.2 l r = l.update (.union · r.executable) ∨
      (unitePosition x.1 x.2 l r).executable = p.executable ∧
      (unitePosition x.1 x.2 l r).touched = p.touched := by
  unfold unitePosition
  by_cases htouched : (l.touched || r.touched) = true
  · rw [if_pos htouched]
    exact Or.inl (unitePair_of_touched (Bool.or_eq_true .. ▸ htouched))
  · rw [if_neg htouched]
    simp only [Bool.or_eq_true, not_or, Bool.not_eq_true] at htouched
    refine Or.inr ⟨?_, h.touched⟩
    rw [TablePlan.updateQuietly, (hl htouched.1).2, hcopy.executable]
    cases h <;> rfl

/-- Where plans rest on both sides of an OR, they rest in what the sides are united into. -/
theorem Opened.rests {l r : Workspace} (h : Opened w cached w₁ left right c) (hw : Handled P w)
    (hl : List.Forall₂ TablePlan.Rests left.tables l.set.tables)
    (hr : List.Forall₂ TablePlan.Rests right.tables r.set.tables) :
    List.Forall₂ TablePlan.Rests w.set.tables
      (unitePositions (cached.zip w₁.set.tables) l.set.tables r.set.tables) :=
  h.forall₂_united hw hl hr fun p x q s y z hpx hcopy hqy _ _ hquiet => by
    rcases hpx.united (r := z) hcopy hqy with heq | ⟨htree, htouched⟩
    · rw [heq] at hquiet
      cases hquiet
    · exact ⟨htouched ▸ hquiet, htree⟩

/-- Sides that are reshaped are joined before they are united, which the set then tells. -/
theorem Opened.hasJoins_of_reshaped {l r l' r' : Workspace} {x y : TablePlan}
    (h : Opened w cached w₁ left right c) (hw : Handled P w) (planLeft : Moves Q or ⟨left, c⟩ l)
    (planRight : Moves Q or ⟨right, l.context⟩ r) (reshaped : mustReshape l.set r.set = true)
    (joinLeft : Moves Q or ⟨l.set, r.context⟩ l') (single : l'.set.tables = [x])
    (joinRight : Moves Q or ⟨r.set, l'.context⟩ r') (single' : r'.set.tables = [y]) :
    (w₁.set.hasJoins || l'.set.hasJoins || r'.set.hasJoins) = true := by
  by_contra hnone
  simp only [Bool.not_eq_true, Bool.or_eq_false_iff] at hnone
  have hl := planLeft.handled (h.handledLeft hw)
  have hr := planRight.handled (h.handledRight hw planLeft.extends)
  obtain ⟨hleft, hlen⟩ := (joinLeft.keeps (hl.extend planRight.extends)).2 hnone.1.2
  obtain ⟨hright, hlen'⟩ := (joinRight.keeps (hr.extend joinLeft.extends)).2 hnone.2
  rw [single] at hlen
  rw [single'] at hlen'
  rw [not_mustReshape_of_single hleft hright hlen.symm hlen'.symm] at reshaped
  cases reshaped

/-- Until plans are joined, plans stand position by position, and those that are not touched have
the trees that they had. -/
theorem Moves.rests (h : Moves Q or w w') (hw : Handled P w) (hjoins : w'.set.hasJoins = false) :
    List.Forall₂ TablePlan.Rests w.set.tables w'.set.tables := by
  induction h generalizing P with
  | refl => exact List.forall₂_same.mpr fun p _ hp => ⟨hp, rfl⟩
  | trans first rest ih ih' =>
    have hmid := ((rest.keeps (first.handled hw)).2 hjoins).1
    exact forall₂_trans (fun _ _ _ hpq => hpq.trans) (ih hw hmid) (ih' (first.handled hw) hjoins)
  | filter filtered => exact filtered.imp fun _ _ => TablePlan.Filtered.rests
  | join => cases hjoins
  | joinLinked => cases hjoins
  | unite _ opened planLeft planRight fits ih ih' =>
    obtain ⟨hnone, hnone'⟩ := hasJoins_of_not_mustReshape fits
    exact opened.rests hw (ih (opened.handledLeft hw) hnone)
      (ih' (opened.handledRight hw planLeft.extends) hnone')
  | uniteJoined _ opened planLeft planRight reshaped joinLeft single joinRight single' =>
    have htold := opened.hasJoins_of_reshaped hw planLeft planRight reshaped joinLeft single
      joinRight single'
    cases htold.symm.trans hjoins

/-! ## Touched plans -/

/-- A side of an OR that is reshaped has a touched plan. -/
theorem exists_touched_of_mustReshape {l r : TableSet} (h : mustReshape l r = true)
    (hl : l.hasJoins = true → ∃ p ∈ l.tables, p.touched = true)
    (hr : r.hasJoins = true → ∃ p ∈ r.tables, p.touched = true)
    (hlen : l.hasJoins = false → r.hasJoins = false → l.tables.length = r.tables.length) :
    (∃ p ∈ l.tables, p.touched = true) ∨ ∃ p ∈ r.tables, p.touched = true := by
  by_cases hjoins : l.hasJoins = true
  · exact Or.inl (hl hjoins)
  by_cases hjoins' : r.hasJoins = true
  · exact Or.inr (hr hjoins')
  rw [Bool.not_eq_true] at hjoins hjoins'
  -- There are as many positions on both sides, of which several were touched.
  have hcount : 1 < (l.tables.zip r.tables).countP fun x => x.1.touched || x.2.touched := by
    by_contra hfew
    rw [mustReshape_eq_false_iff.mpr ⟨not_lt.mp hfew, hlen hjoins hjoins', hjoins, hjoins'⟩] at h
    cases h
  obtain ⟨⟨p, q⟩, hmem, htouched⟩ := List.countP_pos_iff.mp (lt_trans Nat.zero_lt_one hcount)
  obtain ⟨hp, hq⟩ := List.of_mem_zip hmem
  rw [Bool.or_eq_true] at htouched
  exact htouched.imp (fun htouched => ⟨p, hp, htouched⟩) fun htouched => ⟨q, hq, htouched⟩

/-- What is touched stays so, and where plans are joined, one is touched. -/
structure Touches (w w' : Workspace) : Prop where
  stays : (∃ p ∈ w.set.tables, p.touched = true) → ∃ q ∈ w'.set.tables, q.touched = true
  joined : w'.set.hasJoins = true →
    w.set.hasJoins = true ∨ ∃ q ∈ w'.set.tables, q.touched = true

/-- Of two sides of an OR that became one plan each, one is touched. -/
theorem Opened.touched_of_touches {l r l' r' : Workspace} {x y : TablePlan}
    (h : Opened w cached w₁ left right c) (hw : Handled P w) (planLeft : Moves Q or ⟨left, c⟩ l)
    (planRight : Moves Q or ⟨right, l.context⟩ r) (reshaped : mustReshape l.set r.set = true)
    (hl : Touches ⟨left, c⟩ l) (hr : Touches ⟨right, l.context⟩ r)
    (hx : Touches ⟨l.set, r.context⟩ l') (hy : Touches ⟨r.set, l'.context⟩ r')
    (single : l'.set.tables = [x]) (single' : r'.set.tables = [y]) :
    x.touched = true ∨ y.touched = true := by
  have hs := h.sides hw
  have hwl := h.handledLeft hw
  have hwr := h.handledRight hw planLeft.extends
  have hone : ∀ {z : TablePlan}, (∃ p ∈ [z], p.touched = true) → z.touched = true := by
    rintro z ⟨p, hp, htouched⟩
    rwa [List.mem_singleton.mp hp] at htouched
  -- The sides start without joins.
  have htouched := exists_touched_of_mustReshape reshaped
    (fun h => (hl.joined h).resolve_left (by simp [hs.copiedLeft.hasJoins]))
    (fun h => (hr.joined h).resolve_left (by simp [hs.copiedRight.hasJoins]))
    fun hnone hnone' => by
      rw [planLeft.length_eq hwl hnone, planRight.length_eq hwr hnone', hs.copiedLeft.length_eq,
        hs.copiedRight.length_eq]
  exact htouched.imp (fun h => hone (single ▸ hx.stays h)) fun h => hone (single' ▸ hy.stays h)

/-- Moves leave touched plans touched, and joins touch a plan. -/
theorem Moves.touches (h : Moves Q or w w') (hw : Handled P w) : Touches w w' := by
  -- A merge is touched.
  have hmerged : ∀ {tables : List TablePlan} {l r : TablePlan} {m : PlanId} {tree : PlanNode},
      ∃ q ∈ mergedTables tables l r m tree, q.touched = true :=
    ⟨_, mergedPlan_mem, rfl⟩
  -- The induction is on the moves. Where the sides of an OR are united, a position that neither
  -- side touched rests.
  induction h generalizing P with
  | refl => exact ⟨id, Or.inl⟩
  | trans first _ ih ih' =>
    have hfirst := ih hw
    have hrest := ih' (first.handled hw)
    refine ⟨fun h => hrest.stays (hfirst.stays h), fun h => ?_⟩
    rcases hrest.joined h with h | h
    · exact (hfirst.joined h).imp_right hrest.stays
    · exact Or.inr h
  | filter filtered =>
    refine ⟨fun ⟨p, hp, htouched⟩ => ?_, Or.inl⟩
    obtain ⟨q, hq, hpq⟩ := exists_right_of_forall₂ filtered hp
    rcases hpq.touched with rfl | htouched'
    · exact ⟨q, hq, htouched⟩
    · exact ⟨q, hq, htouched'⟩
  | join => exact ⟨fun _ => hmerged, fun _ => Or.inr hmerged⟩
  | joinLinked => exact ⟨fun _ => hmerged, fun _ => Or.inr hmerged⟩
  | unite _ opened planLeft planRight fits =>
    have hs := opened.sides hw
    obtain ⟨hnone, hnone'⟩ := hasJoins_of_not_mustReshape fits
    have hall := opened.rests hw (planLeft.rests (opened.handledLeft hw) hnone)
      (planRight.rests (opened.handledRight hw planLeft.extends) hnone')
    refine ⟨fun ⟨p, hp, htouched⟩ => ?_, fun h => Or.inl (hs.hasJoins ▸ h)⟩
    obtain ⟨q, hq, hpq⟩ := exists_right_of_forall₂ hall hp
    refine ⟨q, hq, ?_⟩
    by_contra hquiet
    rw [(hpq (Bool.not_eq_true _ ▸ hquiet)).1] at htouched
    cases htouched
  | @uniteJoined w w₁ l r l' r' _ _ _ _ x y _ opened planLeft planRight reshaped joinLeft single
      joinRight single' ih ih' ihJoin ihJoin' =>
    have hwl := opened.handledLeft hw
    have hwr := opened.handledRight hw planLeft.extends
    have hxy := opened.touched_of_touches hw planLeft planRight reshaped (ih hwl) (ih' hwr)
      (ihJoin ((planLeft.handled hwl).extend planRight.extends))
      (ihJoin' ((planRight.handled hwr).extend joinLeft.extends)) single single'
    have hunited : ∀ order, ∃ q ∈ [unitePair (x.reordered order) (y.reordered order)],
        q.touched = true := fun order => by
      rw [unitePair_of_touched (hxy.imp (TablePlan.touched_reordered order)
        (TablePlan.touched_reordered order))]
      exact ⟨_, List.mem_singleton_self _, rfl⟩
    exact ⟨fun _ => hunited _, fun _ => Or.inr (hunited _)⟩

/-- Two sides of an OR that became one plan each are united, with their columns in order. -/
theorem Opened.unitePair_of_reshaped {l r l' r' : Workspace} {x y : TablePlan}
    (h : Opened w cached w₁ left right c) (hw : Handled P w) (planLeft : Moves Q or ⟨left, c⟩ l)
    (planRight : Moves Q or ⟨right, l.context⟩ r) (reshaped : mustReshape l.set r.set = true)
    (joinLeft : Moves Q or ⟨l.set, r.context⟩ l') (single : l'.set.tables = [x])
    (joinRight : Moves Q or ⟨r.set, l'.context⟩ r') (single' : r'.set.tables = [y])
    (order : List ColumnName) :
    unitePair (x.reordered order) (y.reordered order) =
      (x.reordered order).update (.union · (y.reordered order).executable) := by
  have hwl := h.handledLeft hw
  have hwr := h.handledRight hw planLeft.extends
  refine unitePair_of_touched ((h.touched_of_touches hw planLeft planRight reshaped
    (planLeft.touches hwl) (planRight.touches hwr) ?_ ?_ single single').imp
      (TablePlan.touched_reordered order) (TablePlan.touched_reordered order))
  · exact joinLeft.touches ((planLeft.handled hwl).extend planRight.extends)
  · exact joinRight.touches ((planRight.handled hwr).extend joinLeft.extends)

end QueryPlan
