import QueryPlan.Proofs.Pair

/-!
# Outer joins of two plans

- `rows_outerJoin`: what a tree yields that adds back the rows of a mark.
- `Unites`: a plan with the columns and the outside links of two others.
- `fits_outer`: the outer join of two plans demands of a row what both plans do.
-/

namespace QueryPlan

universe u

variable {V : Type u} {db : Database V} {val : Valuation V} {wiring : Wiring} {linked : Bool}

/-- A tree of the pairs that meet a condition, with the rows of the first side added back to
it. -/
theorem PlanNode.rows_outerJoin {tree : PlanNode} {mark : String} {A B : Set (Row V)}
    {cols cols' : List ColumnName} {on : Row V → Prop} (hA : ∀ a ∈ A, a.Over cols)
    (hB : ∀ b ∈ B, b.Over cols') (hdisj : ∀ c ∈ cols, c ∉ cols')
    (hrows : tree.rows db val = {x ∈ pairs A B | on x})
    (hcols : ∀ c, c ∈ tree.columns db ↔ c ∈ cols ∨ c ∈ cols')
    (hmark : tree.remembered db val mark = A) :
    (PlanNode.outerJoin tree mark).rows db val = outerPairs val.null cols' on A B := by
  have hagree : ∀ m ∈ A, ∀ a ∈ A, ∀ b ∈ B, m.AgreesWith (a ∪ b) ↔ m = a :=
    fun m hm a ha b hb => (hA m hm).agreesWith_union (hA a ha)
      fun x hx hc => hdisj _ hc ((hB b hb).mem hx)
  show tree.rows db val ∪ {x | ∃ m ∈ tree.remembered db val mark, _} = _
  rw [hrows, hmark]
  ext x
  constructor
  · rintro (⟨⟨a, ha, b, hb, rfl⟩, hon⟩ | ⟨m, hm, hnone, rfl⟩)
    · exact ⟨a, ha, Or.inl ⟨b, hb, hon, rfl⟩⟩
    · refine ⟨m, hm, Or.inr ⟨?_, (hA m hm).padded_eq hcols hdisj⟩⟩
      intro b hb hon
      exact hnone (m ∪ b) ⟨⟨m, hm, b, hb, rfl⟩, hon⟩ ((hagree m hm m hm b hb).mpr rfl)
  · rintro ⟨a, ha, ⟨b, hb, hon, rfl⟩ | ⟨hnone, rfl⟩⟩
    · exact Or.inl ⟨⟨a, ha, b, hb, rfl⟩, hon⟩
    · refine Or.inr ⟨a, ha, ?_, ((hA a ha).padded_eq hcols hdisj).symm⟩
      rintro r ⟨⟨a', ha', b, hb, rfl⟩, hon⟩ hagrees
      obtain rfl := (hagree a ha a' ha' b hb).mp hagrees
      exact hnone b hb hon

/-! ## A plan that takes over two others -/

/-- A plan with the columns of two others and those of their links that point outside the pair. -/
structure Unites (k p q : TablePlan) : Prop where
  columns : ∀ c, c ∈ q.columns ↔ c ∈ k.columns ∨ c ∈ p.columns
  links : ∀ side link, q.linkOn side = some link ↔
    (k.linkOn side = some link ∨ p.linkOn side = some link) ∧
      link.target ≠ k.id ∧ link.target ≠ p.id

/-- Whichever of the two plans comes first. -/
theorem Unites.symm {k p q : TablePlan} (h : Unites k p q) : Unites p k q :=
  ⟨fun c => (h.columns c).trans or_comm,
    fun side link => (h.links side link).trans (and_congr or_comm and_comm)⟩

/-- The merge of two plans whose links do not compete takes over both. -/
theorem unites_mergedPlan {l r : TablePlan} {m : PlanId} {tree : PlanNode} (hclear : Clear l r) :
    Unites l r (mergedPlan m l r fun _ _ => tree) := by
  refine ⟨fun c => List.mem_append, fun side link => ?_⟩
  rw [mergedPlan_linkOn hclear, List.mem_cons, List.mem_singleton, not_or]

section

variable {tables : List TablePlan} {k p q : TablePlan} {link : JoinLink}

/-- The condition of a link depends only on the columns of its two plans. -/
theorem Linked.meets_iff (h : Linked val wiring tables) (side : Side) (hp : p ∈ tables)
    (hlink : p.linkOn side = some link) {r s : Row V} (hr : ∀ x ∈ r, ∃ t ∈ tables, x.1 ∈ t.columns)
    (hs : ∀ x ∈ s, ∃ t ∈ tables, x.1 ∈ t.columns)
    (hagree : ∀ t ∈ tables, t.id = p.id ∨ t.id = link.target →
      ∀ c ∈ t.columns, ∀ v, (c, v) ∈ r ↔ (c, v) ∈ s) :
    val.meets link.on r ↔ val.meets link.on s := by
  refine forall₂_congr fun e he => ?_
  refine (h.reads side p hp link hlink e he).holds_iff hr hs ?_
  intro t ht hid c hc v
  rw [List.mem_cons, List.mem_singleton] at hid
  exact hagree t ht hid c hc v

/-- No plan is padded by itself. -/
theorem Tidy.ne_of_padding (ht : Tidy db val wiring linked tables) (hp : p ∈ tables)
    (hpad : p.padding? = some link) : link.target ≠ p.id := by
  obtain ⟨s, hs, hid, hne⟩ := ht.links.exists_keeper hp hpad
  exact hid ▸ hne

variable (ht : Tidy db val wiring linked tables) (hk : k ∈ tables) (hp : p ∈ tables)
  (hpad : p.padding? = some link) (htarget : link.target = k.id) (hq : Unites k p q)
  (hrows : q.executable.rows db val = outerPairs val.null p.columns (val.meets link.on)
    (k.executable.rows db val) (p.executable.rows db val))

include ht hk hp hpad htarget

/-- The condition of an outer join in a row of both plans. -/
theorem meets_on_pair {r s : Row V} (hr : ∀ x ∈ r, ∃ t ∈ tables, x.1 ∈ t.columns)
    (hs : ∀ x ∈ s, ∃ t ∈ tables, x.1 ∈ t.columns)
    (hkc : ∀ c ∈ k.columns, ∀ v, (c, v) ∈ r ↔ (c, v) ∈ s)
    (hpc : ∀ c ∈ p.columns, ∀ v, (c, v) ∈ r ↔ (c, v) ∈ s) :
    val.meets link.on r ↔ val.meets link.on s := by
  obtain ⟨side, hside, -⟩ := TablePlan.exists_side_of_padding hpad
  refine ht.links.meets_iff side hp hside hr hs ?_
  rintro t htm (hid | hid)
  · obtain rfl := ht.eq_of_id htm hp hid
    exact hpc
  · obtain rfl := ht.eq_of_id htm hk (hid.trans htarget)
    exact hkc

/-- A row has an outer join of some rows with those of the padded plan in its columns if it has
one of these rows, and with it what the padded plan demands. -/
theorem only_mem_outerPairs {A : Set (Row V)} {cols : List ColumnName} (hA : ∀ a ∈ A, a.Over cols)
    (hkcols : ∀ c ∈ k.columns, c ∈ cols) (hdisj : ∀ c ∈ cols, c ∉ p.columns) {x : Row V}
    (hx : ∀ y ∈ x, ∃ t ∈ tables, y.1 ∈ t.columns) :
    x.only (cols ++ p.columns) ∈ outerPairs val.null p.columns (val.meets link.on) A
        (p.executable.rows db val) ↔
      x.only cols ∈ A ∧
        (p.Present db val x ∧ val.meets link.on x ∨ p.Absent db val link.on x) := by
  have hover := (ht.proper p hp).rows_over
  -- The condition reads the two plans alone, so it may be asked of their part of the row,
  have hboth : val.meets link.on (x.only cols ∪ x.only p.columns) ↔ val.meets link.on x := by
    refine meets_on_pair ht hk hp hpad htarget ?_ hx ?_ ?_
    · rintro y (hy | hy)
      · exact hx y hy.1
      · exact hx y hy.1
    · intro c hc v
      have hcols := hkcols c hc
      simp only [Set.mem_union, Row.mem_only, hcols, hdisj c hcols, and_true, and_false, or_false]
    · intro c hc v
      simp only [Set.mem_union, Row.mem_only, hc, and_true]
      tauto
  -- and where a row of the padded plan is put in the place of the one that is there.
  have hother : ∀ b ∈ p.executable.rows db val,
      (val.meets link.on (x.only cols ∪ b) ↔ val.meets link.on (x.without p.columns ∪ b)) := by
    intro b hb
    refine meets_on_pair ht hk hp hpad htarget ?_ ?_ ?_ ?_
    · rintro y (hy | hy)
      · exact hx y hy.1
      · exact ⟨p, hp, (hover b hb).mem hy⟩
    · rintro y (hy | hy)
      · exact hx y hy.1
      · exact ⟨p, hp, (hover b hb).mem hy⟩
    · intro c hc v
      have hcols := hkcols c hc
      simp only [Set.mem_union, Row.mem_only, Row.mem_without, hcols, hdisj c hcols, and_true,
        not_false_eq_true]
    · intro c hc v
      have hcols : c ∉ cols := fun h => hdisj c h hc
      simp only [Set.mem_union, Row.mem_only, Row.mem_without, hc, hcols, and_false,
        not_true_eq_false]
  unfold TablePlan.Present TablePlan.Absent
  rw [only_mem_outerPairs_iff hA hover hdisj, hboth]
  refine and_congr_right fun _ => or_congr_right (and_congr_right fun _ => ?_)
  exact forall₂_congr fun b hb => not_congr (hother b hb)

include hq

/-- The outer join of two plans is padded as the one that keeps its rows. -/
theorem padding_outer : q.padding? = k.padding? := by
  -- What pads the join comes from outside the pair, and so not from the padded plan.
  have hback : ∀ z, q.padding? = some z → k.padding? = some z := by
    intro z hz
    obtain ⟨side, hside, hpads⟩ := TablePlan.exists_side_of_padding hz
    obtain ⟨hkz | hpz, hout⟩ := (hq.links side z).mp hside
    · exact ht.links.padding_eq hk hkz hpads
    · have := ht.links.padding_eq hp hpz hpads
      rw [hpad] at this
      rw [← Option.some.inj this] at hout
      exact absurd htarget hout.1
  cases hkpad : k.padding? with
  | none =>
    cases hz : q.padding? with
    | none => rfl
    | some z =>
      rw [hback z hz] at hkpad
      cases hkpad
  | some z =>
    obtain ⟨side, hside, hpads⟩ := TablePlan.exists_side_of_padding hkpad
    have hqz : q.linkOn side = some z := by
      refine (hq.links side z).mpr ⟨Or.inl hside, ht.ne_of_padding hk hkpad, ?_⟩
      exact ht.not_padding_back hp hk hpad htarget hkpad
    cases hz : q.padding? with
    | none => exact absurd hz (TablePlan.padding_ne_none hqz hpads)
    | some z' =>
      rw [hback z' hz] at hkpad
      exact hkpad

omit htarget in
/-- The outer join of two plans has the inner links of the one that keeps its rows. -/
theorem inner_outer {x : Row V} :
    (∀ l, q.right = some l → l.joinType = .inner → val.meets l.on x) ↔
      ∀ l, k.right = some l → l.joinType = .inner → val.meets l.on x := by
  have hnone : ∀ side l, p.linkOn side = some l → l.joinType ≠ .inner := by
    intro side l hl htype
    rw [ht.links.inner_unpadded side p hp l hl htype] at hpad
    cases hpad
  constructor
  · intro h l hl htype
    refine h l ((hq.links .right l).mpr ⟨Or.inl hl, ?_, ?_⟩) htype
    · obtain ⟨s, -, hid, hne, -⟩ := ht.links.answered .right k hk l hl
      exact hid ▸ hne
    · -- The answer to an inner link to the padded plan would be an inner link of it.
      intro hlp
      obtain ⟨s, hs, hid, -, back, hback, -, hbtype, -⟩ := ht.links.answered .right k hk l hl
      obtain rfl := ht.eq_of_id hs hp (hid.trans hlp)
      exact hnone _ back hback (hbtype.trans htype)
  · intro h l hl htype
    obtain ⟨hkl | hpl, -⟩ := (hq.links .right l).mp hl
    · exact h l hkl htype
    · exact absurd htype (hnone .right l hpl)

include hrows

/-- A row has a row of the outer join if it has one of the plan that keeps its rows, and with it
what the padded plan demands. -/
theorem present_outer {x : Row V} (hx : ∀ y ∈ x, ∃ t ∈ tables, y.1 ∈ t.columns) :
    q.Present db val x ↔ k.Present db val x ∧
      (p.Present db val x ∧ val.meets link.on x ∨ p.Absent db val link.on x) := by
  have hne : k.id ≠ p.id := htarget ▸ ht.ne_of_padding hp hpad
  have hcols : x.only q.columns = x.only (k.columns ++ p.columns) :=
    Row.only_congr (fun c => by rw [hq.columns, List.mem_append]) x
  have hiff := only_mem_outerPairs ht hk hp hpad htarget (ht.proper k hk).rows_over (fun _ h => h)
    (ht.disjoint k hk p hp hne) hx
  rw [← hrows, ← hcols] at hiff
  exact hiff

/-- Where the condition rejects nulls of the plan that keeps its rows, the outer join is absent if
both plans are. -/
theorem absent_outer {x : Row V} (hx : ∀ y ∈ x, ∃ t ∈ tables, y.1 ∈ t.columns) {z : JoinLink}
    (hkpad : k.padding? = some z) (hrejects : RejectsNulls val k.columns link.on) :
    q.Absent db val z.on x ↔ k.Absent db val z.on x ∧ p.Absent db val link.on x := by
  have hne : k.id ≠ p.id := htarget ▸ ht.ne_of_padding hp hpad
  have hdisj := ht.disjoint k hk p hp hne
  have hkover := (ht.proper k hk).rows_over
  have hpover := (ht.proper p hp).rows_over
  obtain ⟨side, hside, -⟩ := TablePlan.exists_side_of_padding hkpad
  have hkz := ht.ne_of_padding hk hkpad
  have hpz : z.target ≠ p.id := ht.not_padding_back hp hk hpad htarget hkpad
  -- The condition that the join waits for does not read the padded plan.
  have hreads : ∀ a ∈ k.executable.rows db val, ∀ s : Row V, s.Over p.columns →
      (val.meets z.on (x.without q.columns ∪ (a ∪ s)) ↔
        val.meets z.on (x.without k.columns ∪ a)) := by
    intro a ha s hs
    have hsp : ∀ c v, (c, v) ∈ s → c ∈ p.columns := fun c v h => hs.mem h
    have hak : ∀ c v, (c, v) ∈ a → c ∈ k.columns := fun c v h => (hkover a ha).mem h
    refine ht.links.meets_iff side hk hside ?_ ?_ ?_
    · rintro y (hy | hy | hy)
      · exact hx y hy.1
      · exact ⟨k, hk, (hkover a ha).mem hy⟩
      · exact ⟨p, hp, hs.mem hy⟩
    · rintro y (hy | hy)
      · exact hx y hy.1
      · exact ⟨k, hk, (hkover a ha).mem hy⟩
    · rintro t htm hid c hc v
      have hcp : c ∉ p.columns := by
        refine ht.disjoint t htm p hp ?_ c hc
        rcases hid with hid | hid
        · exact hid ▸ hne
        · exact hid ▸ hpz
      have hcs : (c, v) ∉ s := fun h => hcp (hsp c v h)
      simp only [Set.mem_union, Row.mem_without, hq.columns, hcp, hcs, or_false]
  unfold TablePlan.Absent
  rw [hrows, Row.only_eq_nulls_iff, Row.only_eq_nulls_iff, Row.only_eq_nulls_iff]
  constructor
  · rintro ⟨hnulls, hnone⟩
    have hknulls : ∀ c ∈ k.columns, ∀ v, (c, v) ∈ x ↔ v = val.null :=
      fun c hc => hnulls c ((hq.columns c).mpr (Or.inl hc))
    refine ⟨⟨hknulls, fun a ha hmeets => ?_⟩, fun c hc => hnulls c ((hq.columns c).mpr (Or.inr hc)),
      fun b hb => hrejects _ ?_⟩
    -- A row of the kept plan is in the outer join with a partner, or padded: either way it is no
    -- match.
    · by_cases hmatch : ∃ b ∈ p.executable.rows db val, val.meets link.on (a ∪ b)
      · obtain ⟨b, hb, hon⟩ := hmatch
        exact hnone _ ⟨a, ha, Or.inl ⟨b, hb, hon, rfl⟩⟩ ((hreads a ha b (hpover b hb)).mpr hmeets)
      · refine hnone _ ⟨a, ha, Or.inr ⟨fun b hb hon => hmatch ⟨b, hb, hon⟩, rfl⟩⟩ ?_
        exact (hreads a ha _ (Row.nulls_over _ _)).mpr hmeets
    · rintro y (hy | hy) hyk
      · exact (hknulls y.1 hyk y.2).mp hy.1
      · exact absurd ((hpover b hb).mem hy) (hdisj _ hyk)
  · rintro ⟨⟨hknulls, hknone⟩, hpnulls, -⟩
    refine ⟨fun c hc => ?_, ?_⟩
    · rcases (hq.columns c).mp hc with hc | hc
      · exact hknulls c hc
      · exact hpnulls c hc
    · rintro _ ⟨a, ha, ⟨b, hb, -, rfl⟩ | ⟨-, rfl⟩⟩ hmeets
      · exact hknone a ha ((hreads a ha b (hpover b hb)).mp hmeets)
      · exact hknone a ha ((hreads a ha _ (Row.nulls_over _ _)).mp hmeets)

/-- The outer join of two plans demands of a row what both plans do. If the plan that keeps its
rows is itself padded, that is so only where the condition rejects its nulls. -/
theorem fits_outer {x : Row V} (hx : ∀ y ∈ x, ∃ t ∈ tables, y.1 ∈ t.columns)
    (hrejects : k.padding? ≠ none → RejectsNulls val k.columns link.on) :
    q.Fits db val x ↔ k.Fits db val x ∧ p.Fits db val x := by
  have hnoinner : ∀ {t : TablePlan}, t ∈ tables → t.padding? ≠ none →
      ∀ l, t.right = some l → l.joinType ≠ .inner := by
    intro t htm htpad l hl htype
    exact htpad (ht.links.inner_unpadded .right t htm l hl htype)
  have hpinner := hnoinner hp (by rw [hpad]; exact Option.some_ne_none _)
  have hqpad := padding_outer ht hk hp hpad htarget hq
  rw [TablePlan.fits_iff_of_padded hpad hpinner]
  cases hkpad : k.padding? with
  | none =>
    rw [TablePlan.fits_iff_of_unpadded (hqpad.trans hkpad), TablePlan.fits_iff_of_unpadded hkpad,
      present_outer ht hk hp hpad htarget hq hrows hx, inner_outer ht hk hp hpad hq]
    tauto
  | some z =>
    have hkne : k.padding? ≠ none := by
      rw [hkpad]
      exact Option.some_ne_none _
    have hkinner := hnoinner hk hkne
    have hqinner : ∀ l, q.right = some l → l.joinType ≠ .inner := by
      intro l hl
      obtain ⟨hkl | hpl, -⟩ := (hq.links .right l).mp hl
      · exact hkinner l hkl
      · exact hpinner l hpl
    have hreject := hrejects hkne
    rw [TablePlan.fits_iff_of_padded (hqpad.trans hkpad) hqinner,
      TablePlan.fits_iff_of_padded hkpad hkinner,
      present_outer ht hk hp hpad htarget hq hrows hx,
      absent_outer ht hk hp hpad htarget hq hrows hx hkpad hreject]
    -- In a row without a row of the first plan the condition is false.
    have hfalse : k.Absent db val z.on x → ¬ val.meets link.on x := by
      rintro ⟨hnulls, -⟩
      rw [Row.only_eq_nulls_iff] at hnulls
      exact hreject x fun y hy hyk => (hnulls y.1 hyk y.2).mp hy
    tauto

end

end QueryPlan
