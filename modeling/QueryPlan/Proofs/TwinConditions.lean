import QueryPlan.Proofs.TwinFilters

/-!
# Conditions over twin sets

- `TwinSets.mustReshape_eq`, `twinSets_unitePair`, `twinSets_unitePositions`: the
  sides of an OR are reshaped and united alike over twin sets.
- `parallel_planOrWith`, `parallel_planExpressionWith`: ORs and filters are planned
  in step.
- `resolvable_of_planCondition`: a condition that is planned over copies of two
  plans can be planned over all that expose the same of its columns.
-/

namespace QueryPlan

variable {read : List ColumnName} {w v w' v' : Workspace} {condition : ConditionPlanner}

/-! ## Sides of an OR -/

theorem Twins.extend {s t : TableSet} {c d c' d' : Context} (h : Twins read ⟨s, c⟩ ⟨t, d⟩)
    (hc : c.Extends c') (hd : d.Extends d') : Twins read ⟨s, c'⟩ ⟨t, d'⟩ :=
  ⟨h.sets, h.left.extend hc, h.right.extend hd⟩

namespace TwinSets

variable {s t s' t' : TableSet} {R : TablePlan → TablePlan → Prop}

/-- What twins become in the same way is twins. -/
theorem forall₂_map {ps qs : List TablePlan} (h : TwinSets read s t)
    (hs : List.Forall₂ R s.tables ps) (ht : List.Forall₂ R t.tables qs)
    (hR : ∀ p p' q q', p.Twin read q → R p p' → R q q' → p'.Twin read q') :
    List.Forall₂ (TablePlan.Twin read) ps qs :=
  forall₂_trans (R := fun p' q => ∃ p, R p p' ∧ p.Twin read q)
    (fun p' q q' ⟨p, hp, hpq⟩ hq => hR p p' q q' hpq hp hq)
    (forall₂_trans (fun _ p _ hp hpq => ⟨p, hp, hpq⟩) hs.flip h.tables) ht

/-- Twins expose the same together. -/
theorem any_exposes (h : TwinSets read s t) {c : ColumnName} (hc : c ∈ read) :
    (t.tables.any fun q => q.exposes c) = s.tables.any fun p => p.exposes c := by
  have hmap := map_eq_of_forall₂ h.tables fun _ _ hpq => hpq.exposes c hc
  have hany := congrArg (List.any · id) hmap
  simpa only [List.any_map, Function.comp_def, id] using hany

theorem map_touched (h : TwinSets read s t) :
    t.tables.map TablePlan.touched = s.tables.map TablePlan.touched :=
  map_eq_of_forall₂ h.tables fun _ _ hpq => hpq.touched

/-- The sides of an OR have to be reshaped over both sets or neither. -/
theorem mustReshape_eq {l l' r r' : TableSet} (hl : TwinSets read l l')
    (hr : TwinSets read r r') : mustReshape l' r' = mustReshape l r := by
  have hcount : ∀ s t : TableSet,
      ((s.tables.zip t.tables).countP fun x => x.1.touched || x.2.touched) =
        ((s.tables.map TablePlan.touched).zip (t.tables.map TablePlan.touched)).countP
          fun x => x.1 || x.2 := by
    intro s t
    rw [List.zip_map, List.countP_map]
    rfl
  rw [Bool.eq_iff_iff, ← not_iff_not, Bool.not_eq_true, Bool.not_eq_true, mustReshape_eq_false_iff,
    mustReshape_eq_false_iff, hcount, hcount, hl.map_touched, hr.map_touched, hl.hasJoins,
    hr.hasJoins, hl.tables.length_eq, hr.tables.length_eq]

end TwinSets

theorem TablePlan.Twin.unitePair {l l' r r' : TablePlan} (hl : l.Twin read l')
    (hr : r.Twin read r') : (unitePair l r).Twin read (unitePair l' r') := by
  unfold QueryPlan.unitePair
  rw [hl.touched, hr.touched]
  split
  · exact hl.update _ _
  · exact hl

theorem TablePlan.Twin.unitePosition {cached cached' : Bool} {p p' l l' r r' : TablePlan}
    (hp : p.Twin read p') (hl : l.Twin read l') (hr : r.Twin read r') :
    (unitePosition cached p l r).Twin read (unitePosition cached' p' l' r') := by
  unfold QueryPlan.unitePosition
  rw [hl.touched, hr.touched]
  split
  · exact hl.unitePair hr
  · exact ⟨hl.exposes, hp.touched⟩

theorem forall₂_unitePositions {before before' : List (Bool × TablePlan)}
    {ls ls' rs rs' : List TablePlan}
    (hbefore : List.Forall₂ (fun x x' => x.2.Twin read x'.2) before before')
    (hl : List.Forall₂ (TablePlan.Twin read) ls ls')
    (hr : List.Forall₂ (TablePlan.Twin read) rs rs') :
    List.Forall₂ (TablePlan.Twin read) (unitePositions before ls rs)
      (unitePositions before' ls' rs') := by
  induction hbefore generalizing ls ls' rs rs' with
  | nil => exact .nil
  | @cons x x' _ _ hx _ ih =>
    cases hl with
    | nil => exact .nil
    | cons hlone hl =>
      cases hr with
      | nil => exact .nil
      | cons hrone hr => exact .cons (hx.unitePosition hlone hrone) (ih hl hr)

theorem touched_unitePair {l r : TablePlan} (h : (l.touched || r.touched) = true) :
    (unitePair l r).touched = true := by
  unfold unitePair
  rw [if_pos h]
  rfl

/-- What was touched before stays touched. -/
theorem touched_unitePosition {cached : Bool} {p l r : TablePlan} (h : p.touched = true) :
    (unitePosition cached p l r).touched = true := by
  unfold unitePosition
  split
  · exact touched_unitePair ‹_›
  · exact h

namespace Planner

/-- The plans are cached, or nothing is done. -/
theorem inStep_cacheForSides (h : Twins read w v) :
    InStep cacheForSides cacheForSides w v fun cached w' cached' v' => Twins read w' v' ∧
      cached.length = w'.set.tables.length ∧ cached'.length = v'.set.tables.length := by
  intro cached w' hw
  refine ⟨spares_cacheForSides, fun cached' v' hv => ?_⟩
  have hsame : ∀ cached (p q : TablePlan), p.Sheltered cached q →
      q.columns = p.columns ∧ q.touched = p.touched := by
    intro cached p q hpq
    unfold TablePlan.Sheltered at hpq
    cases cached with
    | true =>
      obtain ⟨k, rfl⟩ := hpq
      exact ⟨rfl, rfl⟩
    | false =>
      obtain rfl := hpq
      exact ⟨rfl, rfl⟩
  obtain ⟨-, hjoins, hlen, hall⟩ := cacheForSides_ok hw
  obtain ⟨-, hjoins', hlen', hall'⟩ := cacheForSides_ok hv
  have hws := forall₂_of_sheltered hlen hall hsame
  have hvs := forall₂_of_sheltered hlen' hall' hsame
  refine ⟨⟨⟨?_, ?_, hws.length_eq ▸ h.sets.few, fun hj x hx => ?_⟩, ?_, ?_⟩, hlen, hlen'⟩
  · refine h.sets.forall₂_map hws hvs fun p p' q q' hpq hp hq => ⟨fun c hc => ?_, ?_⟩
    · unfold TablePlan.exposes
      rw [hp.1, hq.1]
      exact hpq.exposes c hc
    · rw [hp.2, hq.2, hpq.touched]
  · rw [hjoins', hjoins, h.sets.hasJoins]
  · rw [hx] at hws
    obtain ⟨p, _, hp, hnil, hps⟩ := List.forall₂_cons_right_iff.mp hws
    rw [List.forall₂_nil_right_iff.mp hnil] at hps
    rw [hp.2]
    exact h.sets.joined (hjoins ▸ hj) p hps
  · exact ((meets_cacheForSides not_false).ok hw).1.sound h.left
  · exact ((meets_cacheForSides not_false).ok hv).1.sound h.right

/-- Copies of twins are twins. -/
theorem inStep_copy (h : Twins read w v) :
    InStep copy copy w v fun s w' t v' => Twins read ⟨s, w'.context⟩ ⟨t, v'.context⟩ ∧
      (w'.set = w.set ∧ w.context.Extends w'.context) ∧
        v'.set = v.set ∧ v.context.Extends v'.context := by
  intro s w' hw
  refine ⟨spares_copy h.right, fun t v' hv => ?_⟩
  obtain ⟨hset, hext, hcopied⟩ := (meets_copy h.left).ok hw
  obtain ⟨hset', hext', hcopied'⟩ := (meets_copy h.right).ok hv
  obtain ⟨-, -, hcopies⟩ := (Handled.of_sound h.left).copy_ok hw
  obtain ⟨-, -, hcopies'⟩ := (Handled.of_sound h.right).copy_ok hv
  refine ⟨⟨⟨?_, ?_, hcopies.length_eq ▸ h.sets.few, fun hj => ?_⟩, ?_, ?_⟩, ⟨hset, hext⟩, hset',
    hext'⟩
  · refine h.sets.forall₂_map hcopies hcopies' fun p p' q q' hpq hp hq => ?_
    rw [hp, hq]
    exact ⟨hpq.exposes, rfl⟩
  · rw [hcopied.hasJoins, hcopied'.hasJoins]
  · rw [hcopied.hasJoins] at hj
    cases hj
  · exact h.left.copied hcopied
  · exact h.right.copied hcopied'

/-- Both sides of an OR are planned in step. -/
theorem inStep_planSides {planLeft planRight planLeft' planRight' : Planner Unit}
    (h : Twins read w v) (hl : Plannable False (fun _ => False) planLeft)
    (hl' : Plannable False (fun _ => False) planLeft')
    (hr : Plannable False (fun _ => False) planRight)
    (hr' : Plannable False (fun _ => False) planRight')
    (hparallel : Parallel read planLeft planLeft')
    (hparallel' : Parallel read planRight planRight') :
    InStep (planSides planLeft planRight) (planSides planLeft' planRight') w v
      fun s w' t v' => Twins read ⟨s.1, w'.context⟩ ⟨t.1, v'.context⟩ ∧
        Twins read ⟨s.2, w'.context⟩ ⟨t.2, v'.context⟩ := by
  unfold planSides
  refine (inStep_copy h).bind ?_
  rintro left w₁ left' v₁ ⟨hleft, ⟨hset, hext⟩, hset', hext'⟩
  have h₁ : Twins read w₁ v₁ := by
    have := h.extend hext hext'
    rwa [← hset, ← hset'] at this
  refine (inStep_copy h₁).bind ?_
  rintro right w₂ right' v₂ ⟨hright, ⟨-, hext₂⟩, -, hext₂'⟩
  have hleft₂ := hleft.extend hext₂ hext₂'
  refine (InStep.within ((hparallel _ _ hleft₂).and (fun _ _ => (hl _ hleft₂.left).ok)
    fun _ _ => (hl' _ hleft₂.right).ok)).bind ?_
  rintro ⟨_, l⟩ w₃ ⟨_, l'⟩ v₃ ⟨hset₃, hset₃', hdone₃, hsteps₃, hsteps₃'⟩
  have hright₃ := hright.extend hsteps₃.extends hsteps₃'.extends
  refine (InStep.within ((hparallel' ⟨right, w₃.context⟩ ⟨right', v₃.context⟩ hright₃).and
    (fun _ _ => (hr _ hright₃.left).ok) fun _ _ => (hr' _ hright₃.right).ok)).bind ?_
  rintro ⟨_, r⟩ w₄ ⟨_, r'⟩ v₄ ⟨-, -, hdone₄, hsteps₄, hsteps₄'⟩
  exact .pure ⟨hdone₃.extend hsteps₄.extends hsteps₄'.extends, hdone₄⟩

theorem inStep_reorderColumns {order order' : List ColumnName} {x y : TablePlan}
    (hx : w.set.tables = [x]) (hy : v.set.tables = [y]) :
    InStep (reorderColumns order) (reorderColumns order') w v fun _ w' _ v' =>
      w' = { w with set := ⟨[x.reordered order], w.set.hasJoins⟩ } ∧
        v' = { v with set := ⟨[y.reordered order'], v.set.hasJoins⟩ } :=
  fun _ _ hw => ⟨spares_reorderColumns _,
    fun _ _ hv => ⟨reorderColumns_ok hx hw, reorderColumns_ok hy hv⟩⟩

/-- If the sides of an OR have to be reshaped, plans of one of them are joined. -/
theorem hasJoins_of_mustReshape {left right l r : Workspace} {x y : TablePlan}
    (h : mustReshape left.set right.set = true) (hl : Steps False left l)
    (hx : l.set.tables = [x]) (hr : Steps False right r) (hy : r.set.tables = [y]) :
    (l.set.hasJoins || r.set.hasJoins) = true := by
  by_contra hnot
  rw [Bool.not_eq_true, Bool.or_eq_false_iff] at hnot
  obtain ⟨hleft, hall⟩ := hl.positions hnot.1
  obtain ⟨hright, hall'⟩ := hr.positions hnot.2
  -- Without joins each side is the one plan that it was.
  have hone : left.set.tables.length = 1 := by rw [hall.length_eq, hx]; rfl
  have hone' : right.set.tables.length = 1 := by rw [hall'.length_eq, hy]; rfl
  rw [not_mustReshape_of_single hleft hright hone hone'] at h
  cases h

/-- Both sides of an OR are one plan. That on the left has the columns `order`, and plans of one of
the sides were joined. -/
structure OneEach (order : List ColumnName) (sides : TableSet × TableSet) : Prop where
  plans : ∃ x y, sides.1.tables = [x] ∧ sides.2.tables = [y] ∧ x.columns = order ∧
    (x.touched || y.touched) = true
  joined : (sides.1.hasJoins || sides.2.hasJoins) = true

theorem touched_reordered {order : List ColumnName} {x : TablePlan} (h : x.touched = true) :
    (x.reordered order).touched = true := by
  unfold TablePlan.reordered
  split
  · exact h
  · rfl

theorem OneEach.of_reordered {order : List ColumnName} {x y : TablePlan}
    {joinsLeft joinsRight : Bool}
    (htouched : (x.touched || y.touched) = true) (hjoined : (joinsLeft || joinsRight) = true) :
    OneEach order (⟨[x.reordered order], joinsLeft⟩, ⟨[y.reordered order], joinsRight⟩) := by
  refine ⟨⟨_, _, rfl, rfl, TablePlan.reordered_columns _ _, ?_⟩, hjoined⟩
  rw [Bool.or_eq_true] at htouched ⊢
  exact htouched.imp touched_reordered touched_reordered

/-- Both sides of an OR are joined in step, each into one plan. -/
theorem inStep_joinSidesWith {order order' : List ColumnName} {left left' right right' : TableSet}
    (hl : Twins read ⟨left, w.context⟩ ⟨left', v.context⟩)
    (hr : Twins read ⟨right, w.context⟩ ⟨right', v.context⟩)
    (hshape : mustReshape left right = true) :
    InStep (joinSidesWith condition order left right) (joinSidesWith condition order' left' right')
      w v fun s _ t _ => OneEach order s ∧ OneEach order' t := by
  have hlaw := conditionLaw_unlinked False condition
  unfold joinSidesWith
  refine (InStep.within ((inStep_joinEverythingWith hl).and
    (fun _ _ => (meets_joinEverythingWith hlaw hl.left).ok)
    fun _ _ => (meets_joinEverythingWith hlaw hl.right).ok)).bind ?_
  rintro ⟨_, l⟩ w₁ ⟨_, l'⟩ v₁ ⟨-, -, ⟨hdone, -⟩, ⟨hsteps, x, hx, -⟩, hsteps', x', hx', -⟩
  have hr₁ : Twins read ⟨right, w₁.context⟩ ⟨right', v₁.context⟩ :=
    hr.extend hsteps.extends hsteps'.extends
  refine (InStep.within ((inStep_joinEverythingWith hr₁).and
    (fun _ _ => (meets_joinEverythingWith hlaw hr₁.left).ok)
    fun _ _ => (meets_joinEverythingWith hlaw hr₁.right).ok)).bind ?_
  rintro ⟨_, r⟩ w₂ ⟨_, r'⟩ v₂ ⟨-, -, ⟨hdone₂, -⟩, ⟨hsteps₂, y, hy, -⟩, -, y', hy', -⟩
  -- Some side was changed by joins or before them, so one of the two plans is touched.
  have hjoined : (l.hasJoins || r.hasJoins) = true :=
    hasJoins_of_mustReshape hshape hsteps hx hsteps₂ hy
  have htouched : (x.touched || y.touched) = true := by
    rw [Bool.or_eq_true] at hjoined ⊢
    exact hjoined.imp (hdone.sets.joined · x hx) (hdone₂.sets.joined · y hy)
  refine (InStep.within (inStep_reorderColumns (by exact hx) (by exact hx'))).bind ?_
  rintro ⟨_, l₃⟩ w₃ ⟨_, l₃'⟩ v₃ ⟨-, -, heq, heq'⟩
  refine (InStep.within (inStep_reorderColumns (by exact hy) (by exact hy'))).bind ?_
  rintro ⟨_, r₃⟩ w₄ ⟨_, r₃'⟩ v₄ ⟨-, -, heq₂, heq₂'⟩
  -- Only the order of the columns changed since then.
  obtain ⟨rfl, -⟩ := Workspace.mk.inj heq
  obtain ⟨rfl, -⟩ := Workspace.mk.inj heq'
  obtain ⟨rfl, -⟩ := Workspace.mk.inj heq₂
  obtain ⟨rfl, -⟩ := Workspace.mk.inj heq₂'
  refine .pure ⟨.of_reordered htouched hjoined, .of_reordered ?_ ?_⟩
  · have hone := hdone.tables
    have hother := hdone₂.tables
    rw [hx, hx'] at hone
    rw [hy, hy'] at hother
    rwa [(List.forall₂_cons.mp hone).1.touched, (List.forall₂_cons.mp hother).1.touched]
  · rwa [hdone.sets.hasJoins, hdone₂.sets.hasJoins]

/-- Sides that are one plan each are united alike. -/
theorem twinSets_unitePair {s t l r l' r' : TableSet} (h : TwinSets read s t)
    (hone : OneEach (s.tables.flatMap TablePlan.columns) (l, r))
    (hone' : OneEach (t.tables.flatMap TablePlan.columns) (l', r')) :
    TwinSets read
      ⟨l.tables.zipWith unitePair r.tables, s.hasJoins || l.hasJoins || r.hasJoins⟩
      ⟨l'.tables.zipWith unitePair r'.tables, t.hasJoins || l'.hasJoins || r'.hasJoins⟩ := by
  obtain ⟨⟨x, y, hx, hy, hcolumns, htouched⟩, hjoined⟩ := hone
  obtain ⟨⟨x', y', hx', hy', hcolumns', htouched'⟩, hjoined'⟩ := hone'
  have hexposes : ∀ {x y : TablePlan} {tables : List TablePlan} (c : ColumnName),
      x.columns = tables.flatMap TablePlan.columns →
        (unitePair x y).exposes c = tables.any fun p => p.exposes c := by
    intro x y tables c hx
    unfold TablePlan.exposes
    rw [(unites_unitePair x y).columns, hx, List.any_flatMap]
  dsimp only at hx hy hx' hy' hjoined hjoined'
  rw [hx, hy, hx', hy']
  refine ⟨.cons ⟨fun c hc => ?_, ?_⟩ .nil, ?_, Nat.le_succ 1, ?_⟩
  · rw [hexposes c hcolumns, hexposes c hcolumns']
    exact h.any_exposes hc
  · rw [touched_unitePair htouched, touched_unitePair htouched']
  · simp only [Bool.or_assoc, hjoined, hjoined', Bool.or_true]
  · rintro - _ ⟨⟩
    exact touched_unitePair htouched

/-- Sides that keep their plans in their places are united alike. -/
theorem twinSets_unitePositions {s t l r l' r' : TableSet} {cached cached' : List Bool}
    (h : TwinSets read s t) (hl : TwinSets read l l') (hr : TwinSets read r r')
    (hlen : cached.length = s.tables.length) (hlen' : cached'.length = t.tables.length)
    (hleft : l.tables.length = s.tables.length) (hright : r.tables.length = s.tables.length) :
    TwinSets read ⟨unitePositions (cached.zip s.tables) l.tables r.tables, s.hasJoins⟩
      ⟨unitePositions (cached'.zip t.tables) l'.tables r'.tables, t.hasJoins⟩ := by
  have hzip : (cached.zip s.tables).length = s.tables.length := by
    rw [List.length_zip, hlen, Nat.min_self]
  have hunites := unites_unitePositions (hleft.trans hzip.symm) (hright.trans hzip.symm)
  have hsize := hunites.length_eq.symm.trans hleft
  refine ⟨forall₂_unitePositions ?_ hl.tables hr.tables, h.hasJoins, hsize ▸ h.few,
    fun hjoins x hx => ?_⟩
  · refine List.forall₂_map_left_iff.mp (List.forall₂_map_right_iff.mp ?_)
    rw [List.map_snd_zip (le_of_eq hlen.symm), List.map_snd_zip (le_of_eq hlen'.symm)]
    exact h.tables
  · -- There is one plan in all of the sets.
    dsimp only at hx hjoins
    rw [hx] at hsize
    obtain ⟨p, hp⟩ := List.length_eq_one_iff.mp hsize.symm
    rw [hp] at hlen hleft hright
    obtain ⟨k, rfl⟩ := List.length_eq_one_iff.mp hlen
    obtain ⟨a, ha⟩ := List.length_eq_one_iff.mp hleft
    obtain ⟨b, hb⟩ := List.length_eq_one_iff.mp hright
    rw [hp, ha, hb] at hx
    obtain rfl : unitePosition k p a b = x := (List.cons.inj hx).1
    exact touched_unitePosition (h.joined hjoins p hp)

/-- An OR is planned in step, if both of its sides are. -/
theorem parallel_planOrWith {planLeft planRight planLeft' planRight' : Planner Unit}
    (hl : Plannable False (fun _ => False) planLeft)
    (hl' : Plannable False (fun _ => False) planLeft')
    (hr : Plannable False (fun _ => False) planRight)
    (hr' : Plannable False (fun _ => False) planRight')
    (hparallel : Parallel read planLeft planLeft')
    (hparallel' : Parallel read planRight planRight') :
    Parallel read (planOrWith condition planLeft planRight)
      (planOrWith condition planLeft' planRight') := by
  intro w v h
  have hlaw := conditionLaw_unlinked False condition
  refine InStep.imp (InStep.and ?_
    (fun _ _ hok => ((meets_planOrWith hlaw not_false hl hr w h.left).ok hok).sound h.left)
    fun _ _ hok => ((meets_planOrWith hlaw not_false hl' hr' v h.right).ok hok).sound h.right)
    fun _ _ _ _ ⟨hsets, hleft, hright⟩ => (⟨hsets, hleft, hright⟩ : Twins read _ _)
  unfold planOrWith
  refine (inStep_cacheForSides h).bind ?_
  rintro cached w₁ cached' v₁ ⟨h₁, hlen, hlen'⟩
  refine .bind_current ?_
  refine ((inStep_planSides h₁ hl hl' hr hr' hparallel hparallel').and
    (fun _ _ => (meets_planSides not_false h₁.left hl hr).ok) fun _ _ _ => trivial).bind ?_
  rintro ⟨left, right⟩ w₂ ⟨left', right'⟩ v₂ ⟨⟨hleft, hright⟩, ⟨-, hside, hside'⟩, -⟩
  -- Whether the sides are joined first is decided alike in both runs.
  have hsame := hleft.sets.mustReshape_eq hright.sets
  by_cases hshape : mustReshape left right = true
  · simp only [if_pos hshape, if_pos (hsame.trans hshape)]
    refine (inStep_joinSidesWith hleft hright hshape).bind ?_
    rintro ⟨l, r⟩ w₃ ⟨l', r'⟩ v₃ ⟨hone, hone'⟩
    exact .replaceSet (R := TwinSets read) (twinSets_unitePair h₁.sets hone hone')
  · simp only [if_neg hshape, if_neg (hsame ▸ hshape)]
    obtain ⟨hjoins, hjoins'⟩ := hasJoins_of_not_mustReshape (Bool.eq_false_iff.mpr hshape)
    exact .replaceSet (R := TwinSets read)
      (twinSets_unitePositions h₁.sets hleft.sets hright.sets hlen hlen'
        (hside.length_eq hjoins) (hside'.length_eq hjoins'))

/-! ## Filters -/

/-- The agendas of filters with one outline. -/
theorem forall₂_agendaWith {e e' : Expr} (houtline : e.outline = e'.outline)
    (hreads : ∀ c ∈ Predicate.readsWithOuter e, c ∈ read) :
    List.Forall₂ (AgendaTwin read) (agendaWith condition e) (agendaWith condition e') := by
  have hplannable : ∀ e, Plannable False (fun _ => False)
      (runAgendaWith condition (agendaWith condition e)) :=
    fun e => meets_planExpressionWith (conditionLaw_unlinked False condition) nofun
  fun_induction agendaWith condition e generalizing e' with
  | case1 left right ihLeft ihRight =>
    obtain ⟨left', right', rfl, hl, hr⟩ := Expr.exists_of_outline_binary houtline
    exact List.rel_append
      (ihLeft hl fun c hc => hreads c (Predicate.mem_readsWithOuter_binary.mpr (Or.inl hc)))
      (ihRight hr fun c hc => hreads c (Predicate.mem_readsWithOuter_binary.mpr (Or.inr hc)))
  | case2 left right ihLeft ihRight =>
    obtain ⟨left', right', rfl, hl, hr⟩ := Expr.exists_of_outline_binary houtline
    have hleft := ihLeft hl fun c hc =>
      hreads c (Predicate.mem_readsWithOuter_binary.mpr (Or.inl hc))
    have hright := ihRight hr fun c hc =>
      hreads c (Predicate.mem_readsWithOuter_binary.mpr (Or.inr hc))
    refine .cons ⟨houtline, hreads, ?_⟩ .nil
    exact parallel_planOrWith (hplannable left) (hplannable left') (hplannable right)
      (hplannable right') (parallel_runAgendaWith hleft) (parallel_runAgendaWith hright)
  | case3 e hand hor =>
    -- The other filter is no AND and no OR either.
    have hplain : agendaWith condition e' = [(e', return)] := by
      unfold agendaWith
      split
      · obtain ⟨l, r, rfl, -, -⟩ := Expr.exists_of_outline_binary houtline.symm
        exact (hand l r rfl).elim
      · obtain ⟨l, r, rfl, -, -⟩ := Expr.exists_of_outline_binary houtline.symm
        exact (hor l r rfl).elim
      · rfl
    rw [hplain]
    exact .cons ⟨houtline, hreads, fun w v h => .pure h⟩ .nil

/-- Filters with one outline are planned in step, where their columns are among `read`. -/
theorem parallel_planExpressionWith {e e' : Expr} (houtline : e.outline = e'.outline)
    (hreads : ∀ c ∈ Predicate.readsWithOuter e, c ∈ read) :
    Parallel read (planExpressionWith condition e) (planExpressionWith condition e') :=
  parallel_runAgendaWith (forall₂_agendaWith houtline hreads)

/-- Conditions with one outline are planned whole in step. -/
theorem inStep_planWholeWith {on on' : Option Expr} (h : Twins (readsOf on) w v)
    (houtline : outlineOfEscape on = outlineOfEscape on') :
    InStep (planWholeWith condition on) (planWholeWith condition on') w v
      fun _ _ _ _ => True := by
  have hempty : ∀ {w : Workspace}, Unlinked w → w.set.tables.isEmpty = false := fun hw => by
    rw [Bool.eq_false_iff, Ne, List.isEmpty_iff]
    exact hw.nonempty
  -- What is left after the filter is joined.
  have hrest : ∀ w v, Twins (readsOf on) w v → InStep (do
        let id ← joinEverythingWith condition
        let plan ← ask fun set => set.require id
        change fun set => set.erase id
        return plan) (do
        let id ← joinEverythingWith condition
        let plan ← ask fun set => set.require id
        change fun set => set.erase id
        return plan) w v fun _ _ _ _ => True := fun w v h =>
    (inStep_joinEverythingWith h).bind fun _ _ _ _ _ => .of_spares <|
      (Spares.require _).bind fun _ _ _ => (Spares.modify _).bind fun _ _ _ => .pure _
  unfold planWholeWith
  refine .bind_current ?_
  simp only [hempty h.left, hempty h.right, Bool.false_eq_true, if_false]
  cases on with
  | none =>
    cases on' with
    | none => exact hrest w v h
    | some _ => cases houtline
  | some e =>
    cases on' with
    | none => cases houtline
    | some e' =>
      exact (parallel_planExpressionWith (Option.some.inj houtline) (fun _ hc => hc) w v h).bind
        fun _ w₁ _ v₁ h₁ => hrest w₁ v₁ h₁

end Planner

/-- Copies of two plans, and of two that expose the same of the columns `read`, are twins. -/
theorem twins_pairOf {l r x y : TablePlan} (c d : Context)
    (hxl : ∀ column ∈ read, x.exposes column = l.exposes column)
    (hyr : ∀ column ∈ read, y.exposes column = r.exposes column) :
    Twins read (pairOf l r c) (pairOf x y d) := by
  refine ⟨⟨.cons ⟨hxl, rfl⟩ (.cons ⟨hyr, rfl⟩ .nil), rfl, le_rfl, ?_⟩, Sound.pair, Sound.pair⟩
  rintro - _ ⟨⟩

theorem readsOf_eq_of_outline {on on' : Option Expr}
    (houtline : outlineOfEscape on = outlineOfEscape on') : readsOf on' = readsOf on := by
  have hreads : ∀ on, readsOf (outlineOfEscape on) = readsOf on := by
    rintro (_ | e)
    · rfl
    · exact Predicate.readsWithOuter_outline e
  rw [← hreads on', ← houtline, hreads on]

/-- A condition is planned over copies of any two plans, if one with its outline was planned over
copies of two plans that expose the same of its columns. -/
theorem resolvable_of_planCondition {on on' : Option Expr} {l r x y : TablePlan} {c : Context}
    {tree : PlanNode} (houtline : outlineOfEscape on = outlineOfEscape on')
    (hxl : ∀ column ∈ readsOf on, x.exposes column = l.exposes column)
    (hyr : ∀ column ∈ readsOf on, y.exposes column = r.exposes column)
    (hok : planCondition on (pairOf x y c) = .ok tree w') : Resolvable planCondition on' l r := by
  intro x' y' d hxy
  rw [readsOf_eq_of_outline houtline] at hxy
  have htwins : Twins (readsOf on) (pairOf x y c) (pairOf x' y' d) :=
    twins_pairOf c d (fun column hc => (hxy column hc).1.trans (hxl column hc).symm)
      fun column hc => (hxy column hc).2.trans (hyr column hc).symm
  unfold planCondition at hok ⊢
  obtain ⟨plan, _, hplan, -⟩ := Planner.bind_ok.mp hok
  exact (Planner.inStep_planWholeWith htwins houtline plan _ hplan).1.bind fun _ _ _ => .pure _

end QueryPlan
