import QueryPlan.Proofs.Alone
import QueryPlan.Proofs.Sides

/-!
# Planning an OR

- `united_leads`: where at most one position was touched, the sides are united
  position by position.
- `joinSides_joined`: otherwise each side is joined into one plan before.
- `planOrWith_plans`: if each side is planned rightly, so is the OR.
-/

namespace QueryPlan

universe u

variable {V : Type u} {db : Database V} {val : Valuation V} {wiring : Wiring} {linked : Bool}
  {e e' : Row V → Prop} {w w₁ : Workspace}

/-! ## Position by position -/

/-- A united plan is touched where the sides differ, and else what was there before. -/
theorem Position.At.kept {before : TablePlan} {p : Position} (h : p.At before)
    (hs : p.Sound db val) :
    before.Alike p.united ∧ (before.touched = true → p.united.touched = true) ∧
      (p.united.touched = false → p.united.executable = before.executable) ∧
      (p.united.touched = true → p.differs = true ∨ before.touched = true) := by
  obtain ⟨cached, whole, hshelter, hl, -, hunited, hdiff⟩ := h
  have hdress : before.Dresses db whole := (@TablePlan.Sheltered.dresses V db val _ _ _ hshelter).1
  have halike : before.Alike p.united := (hdress.alike.trans hl.1).trans hs.alike_united
  refine ⟨halike, ?_⟩
  unfold unitePosition unitePair at hunited
  -- What a side touched is united and touched; what none did is the plan from before, without the
  -- cache that it got.
  by_cases htouched : (p.left.touched || p.right.touched) = true
  · rw [if_pos htouched, if_pos htouched] at hunited
    rw [hunited]
    exact ⟨fun _ => rfl, by rintro ⟨⟩, fun _ => Or.inl (hdiff.trans htouched)⟩
  · rw [if_neg htouched] at hunited
    obtain ⟨hlt, -⟩ := Bool.or_eq_false_iff.mp (Bool.eq_false_iff.mpr htouched)
    have hwhole : whole.touched = before.touched := by
      unfold TablePlan.Sheltered at hshelter
      cases cached with
      | true =>
        obtain ⟨k, rfl⟩ := hshelter
        rfl
      | false =>
        obtain rfl := hshelter
        rfl
    have htree : p.united.executable = before.executable := by
      rw [hunited]
      unfold TablePlan.Sheltered at hshelter
      cases cached with
      | true =>
        obtain ⟨k, rfl⟩ := hshelter
        show p.left.executable.withoutCache = _
        rw [hl.2 hlt]
        rfl
      | false =>
        obtain rfl := hshelter
        exact hl.2 hlt
    have hsame : p.united.touched = before.touched := by
      rw [hunited, ← hwhole]
    rw [hsame]
    exact ⟨fun h => h, fun _ => htree, Or.inr⟩

section

variable {c : Context} {left right : TableSet} {cached : List Bool}

/-- Where at most one position was touched, no padded plan differs there. -/
theorem unpadded_of_differs {ps : List Position} {before : List TablePlan} {jl jr : Bool}
    (hat : List.Forall₂ Position.At before ps) (hone : ps.countP Position.differs ≤ 1)
    (hl : Yields db val wiring linked e w ⟨⟨ps.map Position.left, jl⟩, c⟩)
    (hr : Yields db val wiring linked e' w ⟨⟨ps.map Position.right, jr⟩, c⟩)
    (hkl : (∀ q ∈ ps.map Position.left, q.touched = true → q.padding? = none) ∨
      ∀ q ∈ ps.map Position.left, q.touched = true)
    (hkr : (∀ q ∈ ps.map Position.right, q.touched = true → q.padding? = none) ∨
      ∀ q ∈ ps.map Position.right, q.touched = true)
    {p : Position} (hp : p ∈ ps) (hdiff : p.differs = true) : p.left.padding? = none := by
  have hfacts : ∀ x ∈ ps, x.left.Alike x.right ∧
      x.differs = (x.left.touched || x.right.touched) := by
    intro x hx
    obtain ⟨b, -, cached, whole, -, hxl, hxr, -, hxd⟩ := exists_left_of_forall₂ hat hx
    exact ⟨hxl.1.symm.trans hxr.1, hxd⟩
  -- If all plans of a side are touched, there is only one.
  have hsingle : ∀ f : Position → TablePlan, (∀ x ∈ ps, (f x).touched = true → x.differs = true) →
      (∀ q ∈ ps.map f, q.touched = true) → (∃ q ∈ ps.map f, q.padding? = none) →
      (f p).padding? = none := by
    intro f hf hall ⟨q, hq, hpad⟩
    obtain ⟨x, hx, rfl⟩ := List.mem_map.mp hq
    have hcount : ps.countP Position.differs = ps.length :=
      List.countP_eq_length.mpr fun y hy => hf y hy (hall _ (List.mem_map_of_mem hy))
    obtain ⟨y, hy⟩ := List.length_eq_one_iff.mp
      (le_antisymm (hcount ▸ hone) (List.length_pos_of_mem hp))
    rw [hy, List.mem_singleton] at hp hx
    rw [hp, ← hx]
    exact hpad
  have hexists : ∀ {tables : List TablePlan} {j : Bool} {e : Row V → Prop},
      Yields db val wiring linked e w ⟨⟨tables, j⟩, c⟩ → ∃ q ∈ tables, q.padding? = none :=
    fun h => h.ready.tidy.links.exists_unpadded h.ready.tidy.nonempty
  obtain ⟨halike, hd⟩ := hfacts p hp
  rw [hd, Bool.or_eq_true] at hdiff
  rcases hdiff with htouched | htouched
  · rcases hkl with hun | hall
    · exact hun _ (List.mem_map_of_mem hp) htouched
    · refine hsingle Position.left ?_ hall (hexists hl)
      intro x hx hxt
      rw [(hfacts x hx).2, hxt, Bool.true_or]
  · refine halike.symm.padding_eq_none ?_
    rcases hkr with hun | hall
    · exact hun _ (List.mem_map_of_mem hp) htouched
    · refine hsingle Position.right ?_ hall (hexists hr)
      intro x hx hxt
      rw [(hfacts x hx).2, hxt, Bool.or_true]

/-- The sides are united position by position. -/
theorem united_leads (hcache : Yields db val wiring linked (fun _ => True) w w₁)
    (hjoins : w₁.set.hasJoins = w.set.hasJoins) (hlen : cached.length = w₁.set.tables.length)
    (hshelter : List.Forall₂ (fun p x => p.Sheltered x.1 x.2) w.set.tables
      (cached.zip w₁.set.tables))
    (hl : Yields db val wiring linked e w₁ ⟨left, c⟩)
    (hr : Yields db val wiring linked e' w₁ ⟨right, c⟩)
    (hkl : KeptBy w₁.set left) (hkr : KeptBy w₁.set right)
    (hshape : mustReshape left right = false) :
    Leads db val wiring linked (fun r => e r ∨ e' r) w
      ⟨⟨unitePositions (cached.zip w₁.set.tables) left.tables right.tables, w₁.set.hasJoins⟩,
        c⟩ := by
  obtain ⟨left, jl⟩ := left
  obtain ⟨right, jr⟩ := right
  obtain ⟨hcount, -, hjl, hjr⟩ := mustReshape_eq_false_iff.mp hshape
  obtain rfl : jl = false := hjl
  obtain rfl : jr = false := hjr
  have hsnd : (cached.zip w₁.set.tables).map Prod.snd = w₁.set.tables :=
    List.map_snd_zip (le_of_eq hlen.symm)
  obtain ⟨ps, rfl, rfl, hunited, hdiffers, hat⟩ := exists_positions hshelter
    (hsnd.symm ▸ hkl.positions rfl) (hsnd.symm ▸ hkr.positions rfl)
  have hone : ps.countP Position.differs ≤ 1 := hdiffers ▸ hcount
  -- Where the sides differ, the plan is unpadded, so that its two trees can be united.
  have hsound : ∀ p ∈ ps, p.Sound db val := by
    intro p hp
    obtain ⟨b, -, hb⟩ := exists_left_of_forall₂ hat hp
    exact hb.sound (unpadded_of_differs hat hone hl hr (hkl.unpadded rfl) (hkr.unpadded rfl) hp)
  refine ⟨?_, ?_, fun hj => hjoins.trans hj⟩
  · rw [← hunited]
    exact hcache.after (unite_yields hsound hone hl hr)
  -- Position by position the frame is kept: what is touched is united, or was touched before.
  · intro start hframe
    rw [← hunited]
    refine hframe.change hjoins ?_ (Or.inl ?_)
    · rw [List.forall₂_map_right_iff]
      have hboth : List.Forall₂ (fun p b => p.Sound db val ∧ Position.At b p) ps w.set.tables :=
        (List.forall₂_and_left _ _).mpr ⟨hsound, hat.flip⟩
      refine List.Forall₂.flip (hboth.imp ?_)
      rintro p b ⟨hs, hbp⟩
      obtain ⟨halike, htouch, htree, -⟩ := hbp.kept hs
      exact ⟨halike, htouch, htree⟩
    · intro q hq htouched
      obtain ⟨p, hp, rfl⟩ := List.mem_map.mp hq
      obtain ⟨b, hb, hbp⟩ := exists_left_of_forall₂ hat hp
      obtain ⟨halike, -, -, hwhy⟩ := hbp.kept (hsound p hp)
      rcases hwhy htouched with hdiff | hbefore
      · exact Or.inl ((hsound p hp).alike_united.padding_eq_none ((hsound p hp).unpadded hdiff))
      · exact Or.inr ⟨b, hb, halike, hbefore⟩

/-! ## After joining each side -/

variable {condition : ConditionPlanner} {w' : Workspace}

/-- The columns of all plans are all different. -/
theorem Tidy.nodup_columns {tables : List TablePlan} (h : Tidy db val wiring linked tables) :
    (tables.flatMap TablePlan.columns).Nodup := by
  rw [List.nodup_flatMap]
  refine ⟨fun p hp => (h.proper p hp).nodup, ?_⟩
  have hids : tables.Pairwise fun p q => p.id ≠ q.id := List.pairwise_map.mp h.nodup_ids
  exact hids.imp_of_mem fun hp hq hne c hc hc' => h.disjoint _ hp _ hq hne c hc hc'

/-- A side that is one plan, with its columns in the order given. -/
structure Joined (db : Database V) (val : Valuation V) (wiring : Wiring) (linked : Bool)
    (e : Row V → Prop) (w : Workspace) (order : List ColumnName) (side : TableSet) (c : Context) :
    Prop where
  yields : Yields db val wiring linked e w ⟨side, c⟩
  one : ∃ q, side.tables = [q] ∧ q.columns = order ∧ (side.hasJoins = true → q.touched = true)

/-- A joined side stays one while more names are used up. -/
theorem Joined.extend {order : List ColumnName} {side : TableSet} {c' : Context}
    (h : Joined db val wiring linked e w order side c) (hc : c.Extends c') :
    Joined db val wiring linked e w order side c' := ⟨h.yields.extend hc, h.one⟩

/-- A side is joined into one plan. -/
theorem joinSide_yields {side : TableSet} {id : PlanId}
    (hlaw : JoinLaw db val wiring linked condition)
    (hy : Yields db val wiring linked e w₁ ⟨side, c⟩) (hk : KeptBy w₁.set side)
    (h : Planner.joinEverythingWith condition ⟨side, c⟩ = .ok id w') :
    Yields db val wiring linked e w₁ w' ∧ KeptBy w₁.set w'.set ∧ c.Extends w'.context ∧
      (side.hasJoins = true → w'.set.hasJoins = true) ∧ ∃ q, w'.set.tables = [q] := by
  obtain ⟨hlead, -, q, hq, -⟩ := joinEverythingWith_leads hlaw hy.ready h
  obtain ⟨copy, hjoins, hcopies, hframe⟩ := hk
  exact ⟨hy.before hlead.toYields, ⟨copy, hjoins, hcopies, hlead.frame copy hframe⟩, hlead.context,
    hlead.joins, q, hq⟩

/-- The only plan of a side gets its columns in the order given. -/
theorem reorderSide_joined {side : TableSet} {order : List ColumnName} {q : TablePlan} {u : Unit}
    (horder : order.Nodup) (hy : Yields db val wiring linked e w₁ ⟨side, c⟩)
    (hk : KeptBy w₁.set side) (hone : side.tables = [q])
    (h : Planner.reorderColumns order ⟨side, c⟩ = .ok u w') :
    Joined db val wiring linked e w₁ order w'.set w'.context ∧ c.Extends w'.context ∧
      w'.set.hasJoins = side.hasJoins := by
  obtain ⟨hyields, hjoins, s, hs, hcolumns, htouched⟩ :=
    reorderColumns_yields hy.ready hone horder h
  refine ⟨⟨hy.before hyields, s, hs, hcolumns, ?_⟩, hyields.context, hjoins⟩
  intro hj
  obtain ⟨p, hp, hpt⟩ := hk.joined (hjoins.symm.trans hj)
  rw [hone, List.mem_singleton] at hp
  exact htouched (hp ▸ hpt)

/-- A set is reshaped without a join only if it has more than one plan. -/
theorem not_mustReshape {set left right : TableSet} {q : TablePlan} (hone : set.tables = [q])
    (hkl : KeptBy set left) (hkr : KeptBy set right) (hjl : left.hasJoins = false)
    (hjr : right.hasJoins = false) : mustReshape left right = false := by
  have hlen : ∀ {side : TableSet}, KeptBy set side → side.hasJoins = false →
      side.tables.length = 1 := by
    intro side hk hj
    have := (hk.positions hj).length_eq
    rw [hone] at this
    exact this.symm
  exact not_mustReshape_of_single hjl hjr (hlen hkl hjl) (hlen hkr hjr)

/-- Each side becomes one plan. Plans are joined on the way if the sides need it. -/
theorem joinSides_joined {sides : TableSet × TableSet} {order : List ColumnName}
    (hlaw : JoinLaw db val wiring linked condition) (horder : order.Nodup)
    (hl : Yields db val wiring linked e w₁ ⟨left, w.context⟩)
    (hr : Yields db val wiring linked e' w₁ ⟨right, w.context⟩)
    (hkl : KeptBy w₁.set left) (hkr : KeptBy w₁.set right)
    (h : Planner.joinSidesWith condition order left right w = .ok sides w') :
    Joined db val wiring linked e w₁ order sides.1 w'.context ∧
      Joined db val wiring linked e' w₁ order sides.2 w'.context ∧
      (mustReshape left right = true → sides.1.hasJoins = true ∨ sides.2.hasJoins = true) := by
  unfold Planner.joinSidesWith at h
  simp only [Planner.bind_ok, Planner.within_ok, Planner.pure_ok] at h
  obtain ⟨⟨_, L⟩, _, ⟨w₃, hL, hLset, rfl⟩, ⟨_, R⟩, _, ⟨w₄, hR, hRset, rfl⟩,
    ⟨_, L'⟩, _, ⟨w₅, hL', hLset', rfl⟩, ⟨_, R'⟩, _, ⟨w₆, hR', hRset', rfl⟩, rfl, rfl⟩ := h
  simp only at hLset hRset hLset' hRset' hL hR hL' hR' ⊢
  subst hLset hRset hLset' hRset'
  obtain ⟨hyl, hkl', hcl, hjl, ql, hql⟩ := joinSide_yields hlaw hl hkl hL
  obtain ⟨hyr, hkr', hcr, hjr, qr, hqr⟩ := joinSide_yields hlaw (hr.extend hcl) hkr hR
  obtain ⟨hdonel, hcl', hjl'⟩ := reorderSide_joined horder (hyl.extend hcr) hkl' hql hL'
  obtain ⟨hdoner, hcr', hjr'⟩ := reorderSide_joined horder (hyr.extend hcl') hkr' hqr hR'
  refine ⟨hdonel.extend hcr', hdoner, ?_⟩
  intro hshape
  by_contra hnone
  rw [not_or, hjl', hjr', Bool.not_eq_true, Bool.not_eq_true] at hnone
  obtain ⟨hl₃, hr₄⟩ := hnone
  -- Without a join there is one plan now, so that there was one before.
  have hone : w₁.set.tables.length = 1 := by
    rw [(hkl'.positions hl₃).length_eq, hql]
    rfl
  obtain ⟨q, hq⟩ := List.length_eq_one_iff.mp hone
  have hleft : left.hasJoins = false :=
    Bool.eq_false_iff.mpr fun h => by rw [hjl h] at hl₃; cases hl₃
  have hright : right.hasJoins = false :=
    Bool.eq_false_iff.mpr fun h => by rw [hjr h] at hr₄; cases hr₄
  rw [not_mustReshape hq hkl hkr hleft hright] at hshape
  cases hshape

/-- Two sides of one plan each are united into one plan. -/
theorem unite_joined {order : List ColumnName}
    (hl : Joined db val wiring linked e w order left c)
    (hr : Joined db val wiring linked e' w order right c)
    (hjoins : left.hasJoins = true ∨ right.hasJoins = true) (j : Bool) :
    Yields db val wiring linked (fun r => e r ∨ e' r) w
        ⟨⟨left.tables.zipWith unitePair right.tables, j⟩, c⟩ ∧
      ∃ q ∈ left.tables.zipWith unitePair right.tables, q.touched = true := by
  obtain ⟨left, jl⟩ := left
  obtain ⟨right, jr⟩ := right
  obtain ⟨hyl, l, rfl, hcl, htl⟩ := hl
  obtain ⟨hyr, r, rfl, hcr, htr⟩ := hr
  -- One of the sides was joined, so its plan is touched and the two trees are united.
  have htouched : (l.touched || r.touched) = true := by
    rw [Bool.or_eq_true]
    exact hjoins.imp htl htr
  have hunite : unitePair l r = l.update (.union · r.executable) := by
    unfold unitePair
    rw [if_pos htouched]
  have hlinks := hyl.ready.tidy.linkOn_eq_none
  have halike : l.Alike r := by
    refine ⟨hcr.trans hcl.symm, fun t => ?_, fun side => ?_⟩
    · -- Both trees have the tables of the set that they were planned over.
      have hsame := (hyr.grows.sources t).trans (hyl.grows.sources t).symm
      simpa only [TableSet.trees, List.map_cons, List.map_nil, List.mem_singleton,
        exists_eq_left] using hsame
    · rw [hlinks, hyr.ready.tidy.linkOn_eq_none]
  have hsound : ∀ p ∈ [(⟨l, r, l.update (.union · r.executable), true⟩ : Position)],
      p.Sound db val := by
    rw [List.forall_mem_singleton]
    exact sound_union halike (TablePlan.padding?_eq_none hlinks)
  have hyields := unite_yields (j := j) hsound List.countP_le_length hyl hyr
  refine ⟨?_, unitePair l r, List.mem_singleton_self _, ?_⟩
  · show Yields db val wiring linked _ w ⟨⟨[unitePair l r], j⟩, c⟩
    rw [hunite]
    exact hyields
  · rw [hunite]
    rfl

/-! ## An OR -/

/-- An OR is planned rightly if each side of it is. -/
theorem planOrWith_plans {planLeft planRight : Planner Unit}
    (hlaw : JoinLaw db val wiring linked condition)
    (hpl : Plans db val wiring linked planLeft e)
    (hpr : Plans db val wiring linked planRight e') :
    Plans db val wiring linked (Planner.planOrWith condition planLeft planRight)
      (fun r => e r ∨ e' r) := by
  intro w w' u hw h
  unfold Planner.planOrWith at h
  simp only [Planner.bind_ok, Planner.current_ok] at h
  obtain ⟨cached, w₁, hcache, _, w₁, ⟨rfl, rfl⟩, ⟨left, right⟩, w₂, hsides, h⟩ := h
  obtain ⟨hyields, hjoins, hlen, hshelter⟩ := cacheForSides_yields hw hcache
  obtain ⟨hset, hl, hr, hkl, hkr⟩ := planSides_yields hyields.ready hpl hpr hsides
  simp only at h hl hr hkl hkr
  -- Either both sides are joined into one plan each before they are united, or they are united
  -- position by position.
  by_cases hshape : mustReshape left right = true
  · rw [if_pos hshape] at h
    simp only [Planner.bind_ok, Planner.replaceSet_ok] at h
    obtain ⟨⟨left', right'⟩, w₃, hjoin, rfl⟩ := h
    obtain ⟨hjl, hjr, hsome⟩ := joinSides_joined hlaw hyields.ready.tidy.nodup_columns hl hr hkl hkr
      hjoin
    have hsome := hsome hshape
    simp only at hjl hjr hsome ⊢
    have hj : (w₁.set.hasJoins || left'.hasJoins || right'.hasJoins) = true := by
      simp only [Bool.or_eq_true]
      tauto
    obtain ⟨hunited, htouched⟩ := unite_joined hjl hjr hsome
      (w₁.set.hasJoins || left'.hasJoins || right'.hasJoins)
    refine ⟨hyields.after hunited, fun start _ => ⟨?_, ?_, fun _ => Or.inr htouched⟩, fun _ => hj⟩
    · rw [hj]
      rintro ⟨⟩
    · rw [hj]
      rintro ⟨⟩
  · rw [if_neg hshape, Planner.replaceSet_ok] at h
    subst h
    exact united_leads hyields hjoins hlen hshelter hl hr hkl hkr (Bool.eq_false_iff.mpr hshape)

end

end QueryPlan
