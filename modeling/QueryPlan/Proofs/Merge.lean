import QueryPlan.Join
import QueryPlan.Proofs.Leads
import QueryPlan.Proofs.Outcome

/-!
# Merging two plans

- `mergedTables`: a list after two of its plans were replaced by their merge.
- `Clear`: no two links of the plans compete for a side of the merge.
- `PadsInside`: a plan of the pair is padded by the other one or not at all.
- `contracts_merged`: the merge draws the two plans together.
- `leads_of_merged`: it is a step if the tree of the merge fits both plans.
-/

namespace QueryPlan

universe u

variable {V : Type u} {db : Database V} {val : Valuation V} {wiring : Wiring} {linked : Bool}

/-! ## The list after a merge -/

/-- The plans with `l` and `r` replaced by a merge with the tree `tree`, under the handle `m`. -/
def mergedTables (tables : List TablePlan) (l r : TablePlan) (m : PlanId) (tree : PlanNode) :
    List TablePlan :=
  (tables.filter fun p => p.id ≠ l.id ∧ p.id ≠ r.id).map (TablePlan.retarget [l.id, r.id] m) ++
    [mergedPlan m l r fun _ _ => tree]

/-- The handle of the plan that a plan is in after a merge. -/
def collapse (l r m : PlanId) (id : PlanId) : PlanId := if id ∈ [l, r] then m else id

/-- The left plan goes into the merge. -/
theorem collapse_left (l r m : PlanId) : collapse l r m l = m := if_pos (by simp)

/-- The right plan goes into the merge. -/
theorem collapse_right (l r m : PlanId) : collapse l r m r = m := if_pos (by simp)

/-- Every other plan keeps its handle. -/
theorem collapse_of_ne {l r m id : PlanId} (hl : id ≠ l) (hr : id ≠ r) : collapse l r m id = id :=
  if_neg (by simp [hl, hr])

/-- To take a plan out leaves the plans with other handles. -/
theorem erase_tables {set : TableSet} (h : (set.tables.map TablePlan.id).Nodup) (id : PlanId) :
    (set.erase id).tables = set.tables.filter fun p => p.id ≠ id := by
  unfold TableSet.erase
  generalize set.tables = tables at h ⊢
  show tables.eraseP (fun plan => plan.id = id) = _
  induction tables with
  | nil => rfl
  | cons p rest ih =>
    rw [List.map_cons, List.nodup_cons] at h
    by_cases hid : p.id = id
    · rw [List.eraseP_cons_of_pos (by simpa using hid),
        List.filter_cons_of_neg (by simpa using hid)]
      refine (List.filter_eq_self.mpr ?_).symm
      intro q hq
      simp only [decide_eq_true_eq]
      intro hqid
      exact h.1 (hid.trans hqid.symm ▸ List.mem_map_of_mem hq)
    · rw [List.eraseP_cons_of_neg (by simpa using hid),
        List.filter_cons_of_pos (by simpa using hid), ih h.2]

section

variable {tables : List TablePlan} {l r : TablePlan} {m : PlanId} {tree : PlanNode}

/-- After a merge there are the other plans, with links that point to the merge, and the merge. -/
theorem mem_mergedTables {q : TablePlan} :
    q ∈ mergedTables tables l r m tree ↔
      (∃ p ∈ tables, p.id ≠ l.id ∧ p.id ≠ r.id ∧ q = p.retarget [l.id, r.id] m) ∨
      q = mergedPlan m l r fun _ _ => tree := by
  simp only [mergedTables, List.mem_append, List.mem_map, List.mem_filter, List.mem_singleton,
    decide_eq_true_eq, and_assoc]
  refine or_congr_left (exists_congr fun p => and_congr_right fun _ => and_congr_right fun _ =>
    and_congr_right fun _ => eq_comm)

theorem mergedPlan_mem : (mergedPlan m l r fun _ _ => tree) ∈ mergedTables tables l r m tree :=
  mem_mergedTables.mpr (Or.inr rfl)

theorem retarget_mem {p : TablePlan} (hp : p ∈ tables) (hl : p.id ≠ l.id) (hr : p.id ≠ r.id) :
    p.retarget [l.id, r.id] m ∈ mergedTables tables l r m tree :=
  mem_mergedTables.mpr (Or.inl ⟨p, hp, hl, hr, rfl⟩)

/-- Each plan is one of the pair, or stays beside it. -/
theorem eq_or_eq_or_beside (h : (tables.map TablePlan.id).Nodup) (hl : l ∈ tables)
    (hr : r ∈ tables) {p : TablePlan} (hp : p ∈ tables) :
    p = l ∨ p = r ∨ p.id ≠ l.id ∧ p.id ≠ r.id := by
  by_cases hpl : p.id = l.id
  · exact Or.inl (eq_of_id_of_nodup h hp hl hpl)
  · by_cases hpr : p.id = r.id
    · exact Or.inr (Or.inl (eq_of_id_of_nodup h hp hr hpr))
    · exact Or.inr (Or.inr ⟨hpl, hpr⟩)

/-- Two plans of different handles that are one after a merge are the pair. -/
theorem collapse_eq_collapse {p q : TablePlan} (hp : p ∈ tables) (hq : q ∈ tables)
    (hfresh : ∀ p ∈ tables, p.id ≠ m)
    (h : collapse l.id r.id m p.id = collapse l.id r.id m q.id) :
    p.id = q.id ∨ p.id ∈ [l.id, r.id] ∧ q.id ∈ [l.id, r.id] := by
  by_cases hpin : p.id ∈ [l.id, r.id] <;> by_cases hqin : q.id ∈ [l.id, r.id]
  · exact Or.inr ⟨hpin, hqin⟩
  · rw [collapse, if_pos hpin, collapse, if_neg hqin] at h
    exact absurd h.symm (hfresh q hq)
  · rw [collapse, if_neg hpin, collapse, if_pos hqin] at h
    exact absurd h (hfresh p hp)
  · rw [collapse, if_neg hpin, collapse, if_neg hqin] at h
    exact Or.inl h

/-! ## Links of a merge -/

/-- On no side do both plans have a link that points outside the pair. -/
def Clear (l r : TablePlan) : Prop :=
  ∀ side a b, l.linkOn side = some a → r.linkOn side = some b →
    a.target = r.id ∨ b.target = l.id

/-- Either neither plan is padded, or one is padded by the other. -/
def PadsInside (l r : TablePlan) : Prop :=
  (l.padding? = none ∧ r.padding? = none) ∨
    (∃ link, r.padding? = some link ∧ link.target = l.id) ∨
    ∃ link, l.padding? = some link ∧ link.target = r.id

/-- The merge takes over a link of the pair that leads out of it. Where at most one leads out on a
side, none is lost. -/
theorem outsideLink_eq_some_iff {ids : List PlanId} {a b : Option JoinLink} {link : JoinLink}
    (hclear : ∀ x y, a = some x → b = some y → x.target ∈ ids ∨ y.target ∈ ids) :
    outsideLink ids a b = some link ↔ (a = some link ∨ b = some link) ∧ link.target ∉ ids := by
  have hfilter : ∀ (o : Option JoinLink) (x : JoinLink),
      o.filter (fun l => decide (l.target ∉ ids)) = some x ↔ o = some x ∧ x.target ∉ ids := by
    intro o x
    rw [Option.filter_eq_some_iff, decide_eq_true_eq]
  unfold outsideLink
  rw [Option.orElse_eq_orElse, Option.orElse_eq_or, Option.or_eq_some_iff, hfilter, hfilter]
  constructor
  · rintro (⟨ha, hout⟩ | ⟨-, hb, hout⟩)
    · exact ⟨Or.inl ha, hout⟩
    · exact ⟨Or.inr hb, hout⟩
  · rintro ⟨ha | hb, hout⟩
    · exact Or.inl ⟨ha, hout⟩
    · refine Or.inr ⟨?_, hb, hout⟩
      cases hfirst : a.filter fun l => decide (l.target ∉ ids) with
      | none => exact hfirst
      | some x =>
        obtain ⟨ha, hx⟩ := (hfilter a x).mp hfirst
        exact absurd hout (not_not.mpr ((hclear x link ha hb).resolve_left hx))

/-- The links of a merge are those of its two plans that point outside the pair. -/
theorem mergedPlan_linkOn (hclear : Clear l r) {side : Side} {link : JoinLink} :
    (mergedPlan m l r fun _ _ => tree).linkOn side = some link ↔
      (l.linkOn side = some link ∨ r.linkOn side = some link) ∧ link.target ∉ [l.id, r.id] := by
  have hinside : ∀ x y, l.linkOn side = some x → r.linkOn side = some y →
      x.target ∈ [l.id, r.id] ∨ y.target ∈ [l.id, r.id] := by
    intro x y hx hy
    rcases hclear side x y hx hy with h | h
    · exact Or.inl (by simp [h])
    · exact Or.inr (by simp [h])
  cases side
  · exact outsideLink_eq_some_iff hinside
  · exact outsideLink_eq_some_iff hinside

/-! ## The merge draws two plans together -/

/-- A plan beside the merge has its links, with the pair renamed in them. -/
theorem retarget_linkOn (p : TablePlan) (side : Side) :
    (p.retarget [l.id, r.id] m).linkOn side =
      (p.linkOn side).map (JoinLink.rename (collapse l.id r.id m)) := by
  have hfun : JoinLink.retarget [l.id, r.id] m = JoinLink.rename (collapse l.id r.id m) :=
    funext fun link => JoinLink.retarget_eq_rename _ _ link
  cases side
  · show p.left.map _ = _
    rw [hfun]
    rfl
  · show p.right.map _ = _
    rw [hfun]
    rfl

/-- A link that points outside the pair stays as it is. -/
theorem rename_of_outside {link : JoinLink} (h : link.target ∉ [l.id, r.id]) :
    link.rename (collapse l.id r.id m) = link := by
  unfold JoinLink.rename collapse
  rw [if_neg h]

/-- A link that does not lead from one plan of the pair to the other is kept. -/
theorem exists_link_merged (hnodup : (tables.map TablePlan.id).Nodup) (hl : l ∈ tables)
    (hr : r ∈ tables) (hclear : Clear l r) {p : TablePlan} (hp : p ∈ tables) {side : Side}
    {link : JoinLink} (hlink : p.linkOn side = some link)
    (hout : p.id ∈ [l.id, r.id] → link.target ∉ [l.id, r.id]) :
    ∃ q ∈ mergedTables tables l r m tree, q.id = collapse l.id r.id m p.id ∧
      q.linkOn side = some (link.rename (collapse l.id r.id m)) := by
  rcases eq_or_eq_or_beside hnodup hl hr hp with rfl | rfl | ⟨hpl, hpr⟩
  · have houtside := hout (by simp)
    refine ⟨_, mergedPlan_mem, (collapse_left _ _ _).symm, ?_⟩
    rw [rename_of_outside houtside]
    exact (mergedPlan_linkOn hclear).mpr ⟨Or.inl hlink, houtside⟩
  · have houtside := hout (by simp)
    refine ⟨_, mergedPlan_mem, (collapse_right _ _ _).symm, ?_⟩
    rw [rename_of_outside houtside]
    exact (mergedPlan_linkOn hclear).mpr ⟨Or.inr hlink, houtside⟩
  · refine ⟨_, retarget_mem hp hpl hpr, (collapse_of_ne hpl hpr).symm, ?_⟩
    rw [retarget_linkOn, hlink]
    rfl

/-- A link after a merge is one from before it that did not lead from one plan of the pair to the
other. -/
theorem exists_link_of_merged (hl : l ∈ tables) (hr : r ∈ tables) (hclear : Clear l r)
    {q : TablePlan} (hq : q ∈ mergedTables tables l r m tree) {side : Side} {link : JoinLink}
    (hlink : q.linkOn side = some link) :
    ∃ p ∈ tables, collapse l.id r.id m p.id = q.id ∧ ∃ link', p.linkOn side = some link' ∧
      link = link'.rename (collapse l.id r.id m) ∧
        (p.id ∈ [l.id, r.id] → link'.target ∉ [l.id, r.id]) := by
  rcases mem_mergedTables.mp hq with ⟨p, hp, hpl, hpr, rfl⟩ | rfl
  · rw [retarget_linkOn, Option.map_eq_some_iff] at hlink
    obtain ⟨link', hlink', rfl⟩ := hlink
    exact ⟨p, hp, collapse_of_ne hpl hpr, link', hlink', rfl, fun hin => by simp_all⟩
  · obtain ⟨hlink', hout⟩ := (mergedPlan_linkOn hclear).mp hlink
    have hrename : link = link.rename (collapse l.id r.id m) := (rename_of_outside hout).symm
    rcases hlink' with h | h
    · exact ⟨l, hl, collapse_left _ _ _, link, h, hrename, fun _ => hout⟩
    · exact ⟨r, hr, collapse_right _ _ _, link, h, hrename, fun _ => hout⟩

/-- A plan beside the merge stands for itself. -/
theorem mirrors_retarget {p : TablePlan} (hl : p.id ≠ l.id) (hr : p.id ≠ r.id) :
    p.Mirrors (collapse l.id r.id m) (p.retarget [l.id, r.id] m) :=
  ⟨(collapse_of_ne hl hr).symm, rfl, fun _ => Iff.rfl, retarget_linkOn p⟩

/-- If one plan of a pair is unpadded, then the other one is not padded from outside. -/
theorem PadsInside.of_unpadded (h : PadsInside l r) (hpad : l.padding? = none) {link : JoinLink}
    (hlink : r.padding? = some link) : link.target = l.id := by
  rcases h with ⟨-, hr⟩ | ⟨link', hr, htarget⟩ | ⟨link', hl, -⟩
  · rw [hlink] at hr
    cases hr
  · rw [hlink] at hr
    rw [Option.some.inj hr, htarget]
  · rw [hpad] at hl
    cases hl

/-- Whichever plan of the pair comes first. -/
theorem PadsInside.symm (h : PadsInside l r) : PadsInside r l := by
  rcases h with ⟨hl, hr⟩ | h | h
  · exact Or.inl ⟨hr, hl⟩
  · exact Or.inr (Or.inr h)
  · exact Or.inr (Or.inl h)

/-- Whichever plan of the pair comes first. -/
theorem Clear.symm (h : Clear l r) : Clear r l :=
  fun side a b ha hb => (h side b a hb ha).symm

section

variable (ht : Tidy db val wiring linked tables) (hl : l ∈ tables) (hr : r ∈ tables)
  (hfresh : ∀ p ∈ tables, p.id ≠ m) (hclear : Clear l r) (hpads : PadsInside l r)

include ht hl hr hclear hpads

/-- A merge with an unpadded plan is unpadded. -/
theorem mergedPlan_unpadded (hpad : l.padding? = none ∨ r.padding? = none) :
    (mergedPlan m l r fun _ _ => tree).padding? = none := by
  cases hmerged : (mergedPlan m l r fun _ _ => tree).padding? with
  | none => rfl
  | some link =>
    obtain ⟨side, hside, hon⟩ := TablePlan.exists_side_of_padding hmerged
    obtain ⟨hlink, hout⟩ := (mergedPlan_linkOn hclear).mp hside
    simp only [List.mem_cons, List.not_mem_nil, or_false, not_or] at hout
    exfalso
    rcases hlink with hlink | hlink
    · have hlpad := ht.links.padding_eq hl hlink hon
      rcases hpad with hpad | hpad
      · rw [hlpad] at hpad
        cases hpad
      · exact hout.2 (hpads.symm.of_unpadded hpad hlpad)
    · have hrpad := ht.links.padding_eq hr hlink hon
      rcases hpad with hpad | hpad
      · exact hout.1 (hpads.of_unpadded hpad hrpad)
      · rw [hrpad] at hpad
        cases hpad

/-- A merge has the columns and the tables of both plans. -/
theorem absorbs_merged
    (hsources : ∀ t, t ∈ tree.sources ↔ t ∈ l.executable.sources ∨ t ∈ r.executable.sources) :
    Absorbs (collapse l.id r.id m) tables (mergedTables tables l r m tree) where
  image p hp := by
    have hunpadded : l.padding? = none ∨ r.padding? = none →
        (mergedPlan m l r fun _ _ => tree).padding? = none :=
      mergedPlan_unpadded ht hl hr hclear hpads
    rcases eq_or_eq_or_beside ht.nodup_ids hl hr hp with rfl | rfl | ⟨hpl, hpr⟩
    -- The left plan goes into the merge, and so does the right one.
    · exact ⟨_, mergedPlan_mem, (collapse_left _ _ _).symm, fun _ => List.mem_append_left _,
        fun t ht => (hsources t).mpr (Or.inl ht), fun hpad => hunpadded (Or.inl hpad)⟩
    · exact ⟨_, mergedPlan_mem, (collapse_right _ _ _).symm, fun _ => List.mem_append_right _,
        fun t ht => (hsources t).mpr (Or.inr ht), fun hpad => hunpadded (Or.inr hpad)⟩
    -- Other plans stay.
    · refine ⟨_, retarget_mem hp hpl hpr, (collapse_of_ne hpl hpr).symm, fun _ hc => hc,
        fun _ ht => ht, fun hpad => ?_⟩
      rw [(mirrors_retarget hpl hpr).padding, hpad]
      rfl
  origin q hq := by
    rcases mem_mergedTables.mp hq with ⟨p, hp, hpl, hpr, rfl⟩ | rfl
    · exact ⟨p, hp, collapse_of_ne hpl hpr⟩
    · exact ⟨l, hl, collapse_left _ _ _⟩
  columns q hq c hc := by
    rcases mem_mergedTables.mp hq with ⟨p, hp, hpl, hpr, rfl⟩ | rfl
    · exact ⟨p, hp, collapse_of_ne hpl hpr, hc⟩
    · rcases List.mem_append.mp hc with hc | hc
      · exact ⟨l, hl, collapse_left _ _ _, hc⟩
      · exact ⟨r, hr, collapse_right _ _ _, hc⟩
  sources q hq t htq := by
    rcases mem_mergedTables.mp hq with ⟨p, hp, hpl, hpr, rfl⟩ | rfl
    · exact ⟨p, hp, collapse_of_ne hpl hpr, htq⟩
    · rcases (hsources t).mp htq with htl | htr
      · exact ⟨l, hl, collapse_left _ _ _, htl⟩
      · exact ⟨r, hr, collapse_right _ _ _, htr⟩

include hfresh

/-- The links after a merge are those that do not lead from one plan of the pair to the other. -/
theorem contracts_merged
    (hsources : ∀ t, t ∈ tree.sources ↔ t ∈ l.executable.sources ∨ t ∈ r.executable.sources) :
    Contracts (collapse l.id r.id m) tables (mergedTables tables l r m tree) where
  toAbsorbs := absorbs_merged ht hl hr hclear hpads hsources
  forth side p hp link hlink hout := by
    refine exists_link_merged ht.nodup_ids hl hr hclear hp hlink fun hpin htin => hout ?_
    rw [collapse, if_pos htin, collapse, if_pos hpin]
  back side q hq link hlink := by
    obtain ⟨p, hp, hpq, link', hlink', rfl, hout⟩ := exists_link_of_merged hl hr hclear hq hlink
    obtain ⟨s, hs, hst, hsne, -⟩ := ht.links.answered side p hp link' hlink'
    refine ⟨p, hp, hpq, link', hlink', rfl, ?_⟩
    -- Two plans that now are one were the pair, and this link does not join these.
    show collapse l.id r.id m link'.target ≠ q.id
    rw [← hpq, ← hst]
    intro heq
    rcases collapse_eq_collapse hs hp hfresh heq with hid | ⟨hsin, hpin⟩
    · exact hsne hid
    · exact hout hpin (hst ▸ hsin)

end

/-- The merge has a fresh handle, so handles stay distinct. -/
theorem nodup_mergedTables (hnodup : (tables.map TablePlan.id).Nodup)
    (hfresh : ∀ p ∈ tables, p.id ≠ m) :
    ((mergedTables tables l r m tree).map TablePlan.id).Nodup := by
  unfold mergedTables
  rw [List.map_append, List.map_map]
  refine List.nodup_append.mpr ⟨?_, List.nodup_singleton _, ?_⟩
  · exact hnodup.sublist (List.filter_sublist.map _)
  · intro a ha b hb heq
    obtain ⟨p, hp, rfl⟩ := List.mem_map.mp ha
    rw [List.mem_singleton.mp hb] at heq
    exact hfresh p (List.mem_of_mem_filter hp) heq

/-- Of two plans that a merge draws together, one is not padded from outside. -/
theorem singlyPadded_collapse (ht : Tidy db val wiring linked tables) (hl : l ∈ tables)
    (hr : r ∈ tables) (hfresh : ∀ p ∈ tables, p.id ≠ m) (hpads : PadsInside l r) :
    SinglyPadded (collapse l.id r.id m) tables := by
  -- Only the pair goes into the merge.
  have hin : ∀ s ∈ tables, collapse l.id r.id m s.id = m → s = l ∨ s = r := by
    intro s hs hsm
    rcases eq_or_eq_or_beside ht.nodup_ids hl hr hs with h | h | ⟨hsl, hsr⟩
    · exact Or.inl h
    · exact Or.inr h
    · rw [collapse_of_ne hsl hsr] at hsm
      exact absurd hsm (hfresh s hs)
  -- A link that leads out of the merge leads to neither of the pair.
  have houtside : ∀ {id : PlanId}, collapse l.id r.id m id ≠ m → id ≠ l.id ∧ id ≠ r.id := by
    intro id hid
    constructor
    · rintro rfl
      exact hid (collapse_left _ _ _)
    · rintro rfl
      exact hid (collapse_right _ _ _)
  -- Where one of the pair is padded from outside, the other one is padded by it, if at all.
  have hinside : ∀ a, l.padding? = some a → a.target ≠ r.id →
      ∀ b, r.padding? = some b → b.target = l.id := by
    intro a ha htarget b hb
    rcases hpads with ⟨hnone, -⟩ | ⟨x, hx, hxt⟩ | ⟨x, hx, hxt⟩
    · rw [ha] at hnone
      cases hnone
    · rw [hb] at hx
      rw [Option.some.inj hx, hxt]
    · rw [ha] at hx
      exact absurd (Option.some.inj hx ▸ hxt) htarget
  intro p hp q hq heq a b ha hb hpout hqout
  -- Suppose two plans that go into one are both padded from outside: they are the pair.
  by_contra hpq
  have hpair : collapse l.id r.id m p.id = m := by
    by_cases hmem : p.id ∈ [l.id, r.id]
    · exact if_pos hmem
    · by_cases hmem' : q.id ∈ [l.id, r.id]
      · rw [heq]
        exact if_pos hmem'
      · rw [collapse, if_neg hmem, collapse, if_neg hmem'] at heq
        exact absurd (ht.eq_of_id hp hq heq) hpq
  rw [hpair] at hpout
  rw [← heq, hpair] at hqout
  rcases hin p hp hpair with rfl | rfl
  · rcases hin q hq (heq ▸ hpair) with rfl | rfl
    · exact hpq rfl
    · exact (houtside hqout).1 (hinside a ha (houtside hpout).2 b hb)
  · rcases hin q hq (heq ▸ hpair) with rfl | rfl
    · exact (houtside hpout).1 (hinside b hb (houtside hqout).2 a ha)
    · exact hpq rfl

/-! ## Merges as steps -/

/-- What the tree of a merge has to have: the columns, tables and nodes of both trees. -/
structure Joins (db : Database V) (val : Valuation V) (fresh : Set String) (l r : TablePlan)
    (tree : PlanNode) : Prop where
  columns : ∀ c, c ∈ tree.columns db ↔ c ∈ l.columns ∨ c ∈ r.columns
  rows_over : ∀ x ∈ tree.rows db val, x.Over (l.columns ++ r.columns)
  grows : Grows fresh [l.executable, r.executable] [tree]

namespace Joins

variable {fresh : Set String}

/-- The tree of the merge reads the tables of the pair. -/
theorem sources (h : Joins db val fresh l r tree) :
    ∀ t, t ∈ tree.sources ↔ t ∈ l.executable.sources ∨ t ∈ r.executable.sources := by
  intro t
  have := h.grows.sources t
  simpa using this

/-- The merge of two plans with columns of their own is proper. -/
theorem proper (h : Joins db val fresh l r tree) (hl : l.Proper db val) (hr : r.Proper db val)
    (hdisj : ∀ c ∈ l.columns, c ∉ r.columns) :
    (mergedPlan m l r fun _ _ => tree).Proper db val := by
  refine ⟨?_, ?_, h.rows_over⟩
  · refine List.nodup_append.mpr ⟨hl.nodup, hr.nodup, ?_⟩
    rintro c hc d hd rfl
    exact hdisj c hc hd
  · intro c
    rw [show (mergedPlan m l r fun _ _ => tree).executable = tree from rfl, h.columns]
    exact List.mem_append.symm

end Joins

theorem rowsOf_mergedTables {e : Row V → Prop} (ht : Tidy db val wiring linked tables)
    (hl : l ∈ tables) (hr : r ∈ tables)
    (hfits : ∀ x : Row V, (∀ y ∈ x, ∃ p ∈ tables, y.1 ∈ p.columns) →
      ((mergedPlan m l r fun _ _ => tree).Fits db val x ↔
        (l.Fits db val x ∧ r.Fits db val x) ∧ e x)) :
    rowsOf db val (mergedTables tables l r m tree) = {x ∈ rowsOf db val tables | e x} := by
  ext x
  -- Plans beside the merge demand what they did,
  have hkept : ∀ {p : TablePlan}, p.id ≠ l.id → p.id ≠ r.id →
      ((p.retarget [l.id, r.id] m).Fits db val x ↔ p.Fits db val x) :=
    fun hpl hpr => (mirrors_retarget hpl hpr).alike.fits rfl
  -- and the same columns are exposed.
  have hcov : (∀ y ∈ x, ∃ q ∈ mergedTables tables l r m tree, y.1 ∈ q.columns) ↔
      ∀ y ∈ x, ∃ p ∈ tables, y.1 ∈ p.columns := by
    refine forall₂_congr fun y _ => ?_
    constructor
    · rintro ⟨q, hq, hc⟩
      rcases mem_mergedTables.mp hq with ⟨p, hp, -, -, rfl⟩ | rfl
      · exact ⟨p, hp, hc⟩
      · rcases List.mem_append.mp hc with hc | hc
        · exact ⟨l, hl, hc⟩
        · exact ⟨r, hr, hc⟩
    · rintro ⟨p, hp, hc⟩
      rcases eq_or_eq_or_beside ht.nodup_ids hl hr hp with rfl | rfl | ⟨hpl, hpr⟩
      · exact ⟨_, mergedPlan_mem, List.mem_append_left _ hc⟩
      · exact ⟨_, mergedPlan_mem, List.mem_append_right _ hc⟩
      · exact ⟨_, retarget_mem hp hpl hpr, hc⟩
  rw [mem_rowsOf, hcov, Set.mem_ofPred_eq, mem_rowsOf, and_assoc]
  refine and_congr_right fun hx => ?_
  constructor
  · intro hall
    obtain ⟨⟨hfl, hfr⟩, he⟩ := (hfits x hx).mp (hall _ mergedPlan_mem)
    refine ⟨fun p hp => ?_, he⟩
    rcases eq_or_eq_or_beside ht.nodup_ids hl hr hp with rfl | rfl | ⟨hpl, hpr⟩
    · exact hfl
    · exact hfr
    · exact (hkept hpl hpr).mp (hall _ (retarget_mem hp hpl hpr))
  · rintro ⟨hall, he⟩ q hq
    rcases mem_mergedTables.mp hq with ⟨p, hp, hpl, hpr, rfl⟩ | rfl
    · exact (hkept hpl hpr).mpr (hall p hp)
    · exact (hfits x hx).mpr ⟨⟨hall l hl, hall r hr⟩, he⟩

/-- The trees are those of the pair and of the plans beside it. -/
theorem mem_trees_iff_beside (h : (tables.map TablePlan.id).Nodup) (hl : l ∈ tables)
    (hr : r ∈ tables) (t : PlanNode) :
    t ∈ tables.map TablePlan.executable ↔
      t ∈ (tables.filter fun p => p.id ≠ l.id ∧ p.id ≠ r.id).map TablePlan.executable ∨
      t ∈ [l.executable, r.executable] := by
  simp only [List.mem_map, List.mem_filter, List.mem_cons, List.not_mem_nil, or_false,
    decide_eq_true_eq]
  constructor
  · rintro ⟨p, hp, rfl⟩
    rcases eq_or_eq_or_beside h hl hr hp with rfl | rfl | hbeside
    · exact Or.inr (Or.inl rfl)
    · exact Or.inr (Or.inr rfl)
    · exact Or.inl ⟨p, ⟨hp, hbeside⟩, rfl⟩
  · rintro (⟨p, ⟨hp, -⟩, rfl⟩ | rfl | rfl)
    · exact ⟨p, hp, rfl⟩
    · exact ⟨l, hl, rfl⟩
    · exact ⟨r, hr, rfl⟩

/-- The workspace is ready after a merge. -/
theorem Ready.merged {w : Workspace} {c : Context} (hw : Ready db val wiring linked w)
    (hl : l ∈ w.set.tables) (hr : r ∈ w.set.tables) (hne : l.id ≠ r.id)
    (hcontext : w.context.Extends c) (hused : m.number < c.supply.next)
    (hmarks : ∀ mark ∈ c.markers.future, tree.marked mark = [])
    (hjoins : Joins db val w.context.markers.future l r tree)
    (hfresh : ∀ p ∈ w.set.tables, p.id ≠ m) (hpads : PadsInside l r)
    (hc : Contracts (collapse l.id r.id m) w.set.tables (mergedTables w.set.tables l r m tree)) :
    Ready db val wiring linked ⟨⟨mergedTables w.set.tables l r m tree, true⟩, c⟩ where
  -- The pair is drawn together, and the merge is a proper plan.
  tidy := by
    refine hw.tidy.contract hc (nodup_mergedTables hw.tidy.nodup_ids hfresh)
      (singlyPadded_collapse hw.tidy hl hr hfresh hpads) fun q hq => ?_
    rcases mem_mergedTables.mp hq with ⟨p, hp, -, -, rfl⟩ | rfl
    · obtain ⟨hnodup, hcolumns, hover⟩ := hw.tidy.proper p hp
      exact ⟨hnodup, hcolumns, hover⟩
    · exact hjoins.proper (hw.tidy.proper l hl) (hw.tidy.proper r hr)
        (hw.tidy.disjoint l hl r hr hne)
  fresh q hq := by
    rcases mem_mergedTables.mp hq with ⟨p, hp, -, -, rfl⟩ | rfl
    · exact lt_of_lt_of_le (hw.fresh p hp) hcontext.supply
    · exact hused
  -- Names that are still to come are on no tree, that of the merge included.
  unmarked mark hmark t ht := by
    obtain ⟨q, hq, rfl⟩ := List.mem_map.mp ht
    rcases mem_mergedTables.mp hq with ⟨p, hp, -, -, rfl⟩ | rfl
    · exact hw.unmarked mark (hcontext.future hmark) _ (List.mem_map.mpr ⟨p, hp, rfl⟩)
    · exact hmarks mark hmark
  distinct := by
    rw [hcontext.nameAt]
    exact hw.distinct

/-- A merge is a step if its tree has what both trees have, and the rows that fit both plans and
satisfy `e`, unless it has a flaw. -/
theorem leads_of_merged {w w' : Workspace} {e : Row V → Prop} (hw : Ready db val wiring linked w)
    (hl : l ∈ w.set.tables) (hr : r ∈ w.set.tables) (hne : l.id ≠ r.id) (hclear : Clear l r)
    (hpads : PadsInside l r)
    (hset : w'.set = ⟨mergedTables w.set.tables l r m tree, true⟩)
    (hcontext : w.context.Extends w'.context)
    (hnew : w.context.supply.next ≤ m.number) (hused : m.number < w'.context.supply.next)
    (hmarks : ∀ mark ∈ w'.context.markers.future, tree.marked mark = [])
    (hjoins : Joins db val w.context.markers.future l r tree)
    (hrows : Flawed wiring [tree] ∨ ∀ x : Row V, (∀ y ∈ x, ∃ p ∈ w.set.tables, y.1 ∈ p.columns) →
      ((mergedPlan m l r fun _ _ => tree).Fits db val x ↔
        (l.Fits db val x ∧ r.Fits db val x) ∧ e x)) :
    Leads db val wiring linked e w w' ∧
      Absorbs (collapse l.id r.id m) w.set.tables w'.set.tables := by
  obtain ⟨_, c⟩ := w'
  obtain rfl := hset
  -- The merge has a handle that no plan has.
  have hfresh : ∀ p ∈ w.set.tables, p.id ≠ m := by
    rintro p hp rfl
    exact absurd (hw.fresh p hp) (not_lt.mpr hnew)
  have hc := contracts_merged hw.tidy hl hr hfresh hclear hpads hjoins.sources
  have hgrows : Grows w.context.markers.future w.set.trees
      ((mergedTables w.set.tables l r m tree).map TablePlan.executable) := by
    refine hjoins.grows.beside (mem_trees_iff_beside hw.tidy.nodup_ids hl hr) fun t => ?_
    simp only [mergedTables, List.map_append, List.map_map, List.mem_append]
    rfl
  refine ⟨⟨⟨?_, hcontext, hgrows, hc.exposed, ?_⟩, fun start _ => ⟨?_, ?_, ?_⟩, fun _ => rfl⟩,
    hc.toAbsorbs⟩
  -- The workspace after the merge is ready.
  · exact hw.merged hl hr hne hcontext hused hmarks hjoins hfresh hpads hc
  -- A flaw of the new tree is one of the set; otherwise the rows are those of which the predicate
  -- is true.
  · refine hrows.imp ?_ fun hfits => rowsOf_mergedTables hw.tidy hl hr hfits
    rintro ⟨t, ht, hflaw⟩
    obtain rfl := List.mem_singleton.mp ht
    exact ⟨t, List.mem_map.mpr ⟨_, mergedPlan_mem, rfl⟩, hflaw⟩
  · rintro ⟨⟩
  · rintro ⟨⟩
  · exact fun _ => Or.inr ⟨_, mergedPlan_mem, rfl⟩

end

end QueryPlan
