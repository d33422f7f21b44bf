import QueryPlan.Proofs.Clashes
import QueryPlan.Proofs.Merge

/-!
# Answered links

A link leads from one plan of a set to another one, and is answered there by a
link of the same type on the other side. Nothing else about links is needed for
planning to find every plan that it looks for.

- `Answered`: the plans have handles of their own and all links are answered.
- `isLinkedTo_symm`: of two plans, both have a link to the other or neither has.
- `clear_of_safe`: plans that do not clash have no links that compete.
- `Answered.follow`: links are answered under other handles.
- `Answered.merged`: and after a merge.
-/

namespace QueryPlan

universe u

variable {V : Type u} {db : Database V} {val : Valuation V} {wiring : Wiring} {linked : Bool}

/-- The plans have handles of their own, and each link leads to another plan, which has a link of
the same type back on its other side. -/
structure Answered (tables : List TablePlan) : Prop where
  nodup : (tables.map TablePlan.id).Nodup
  back : ∀ side, ∀ p ∈ tables, ∀ link, p.linkOn side = some link →
    ∃ q ∈ tables, q.id = link.target ∧ q.id ≠ p.id ∧
      ∃ back, q.linkOn side.other = some back ∧ back.target = p.id ∧
        back.joinType = link.joinType

theorem Tidy.answered {tables : List TablePlan} (h : Tidy db val wiring linked tables) :
    Answered tables := by
  refine ⟨h.nodup_ids, fun side p hp link hlink => ?_⟩
  obtain ⟨q, hq, hid, hne, back, hback, htarget, htype, -⟩ := h.links.answered side p hp link hlink
  exact ⟨q, hq, hid, hne, back, hback, htarget, htype⟩

namespace Answered

variable {tables : List TablePlan} {p q : TablePlan}

theorem eq_of_id (h : Answered tables) (hp : p ∈ tables) (hq : q ∈ tables) (hid : p.id = q.id) :
    p = q :=
  eq_of_id_of_nodup h.nodup hp hq hid

/-- No link leads back to its own plan. -/
theorem target_ne (h : Answered tables) (hp : p ∈ tables) {side : Side} {link : JoinLink}
    (hlink : p.linkOn side = some link) : link.target ≠ p.id := by
  obtain ⟨q, -, hid, hne, -⟩ := h.back side p hp link hlink
  exact hid ▸ hne

/-- Plans without links. -/
theorem of_no_links (hnodup : (tables.map TablePlan.id).Nodup)
    (h : ∀ p ∈ tables, ∀ side, p.linkOn side = none) : Answered tables := by
  refine ⟨hnodup, fun side p hp link hlink => ?_⟩
  rw [h p hp side] at hlink
  cases hlink

/-- A plan that is alone has no links. -/
theorem linkOn_of_single (h : Answered [p]) (side : Side) : p.linkOn side = none := by
  cases hlink : p.linkOn side with
  | none => rfl
  | some link =>
    obtain ⟨q, hq, -, hne, -⟩ := h.back side p (List.mem_singleton_self p) link hlink
    exact absurd (congrArg TablePlan.id (List.mem_singleton.mp hq)) hne

end Answered

/-! ## Links between two plans -/

section

variable {tables : List TablePlan} {l r : TablePlan}

/-- A link of one plan to another answers a link of the other. -/
theorem isLinkedTo_symm (ht : Answered tables) (hl : l ∈ tables) (hr : r ∈ tables)
    (h : l.isLinkedTo r.id = true) : r.isLinkedTo l.id = true := by
  obtain ⟨side, link, hlink, htarget⟩ := isLinkedTo_iff.mp h
  obtain ⟨q, hq, hid, -, back, hback, hbt, -⟩ := ht.back side l hl link hlink
  obtain rfl := ht.eq_of_id hq hr (hid.trans htarget)
  exact isLinkedTo_iff.mpr ⟨_, back, hback, hbt⟩

/-- Different plans have different partners on one side: the one partner would answer both. -/
theorem Answered.rivals_iff (ht : Answered tables) (hl : l ∈ tables) (hr : r ∈ tables)
    (hne : l.id ≠ r.id) (side : Side) :
    Rivals side l r ↔ (l.linkOn side).isSome ∧ (r.linkOn side).isSome := by
  simp only [Option.isSome_iff_exists]
  constructor
  · rintro ⟨x, y, hx, hy, -⟩
    exact ⟨⟨x, hx⟩, y, hy⟩
  · rintro ⟨⟨x, hx⟩, y, hy⟩
    refine ⟨x, y, hx, hy, fun heq => hne ?_⟩
    obtain ⟨q, hq, hqid, -, back, hback, hto, -⟩ := ht.back side l hl x hx
    obtain ⟨s, hs, hsid, -, back', hback', hto', -⟩ := ht.back side r hr y hy
    obtain rfl := ht.eq_of_id hq hs (hqid.trans (heq.trans hsid.symm))
    rw [← hto, ← hto', Option.some.inj (hback.symm.trans hback')]

/-- Two plans that do not clash have no links that compete for a side of their merge. -/
theorem clear_of_safe (ht : Answered tables) (hl : l ∈ tables) (hr : r ∈ tables)
    (hne : l.id ≠ r.id) (hsafe : clash l r = .safe) : Clear l r := by
  -- A link between the two leaves no side on which both could point elsewhere.
  have hlinked : ∀ {p q : TablePlan}, p ∈ tables → q ∈ tables → p.isLinkedTo q.id = true →
      Clear p q := by
    intro p q hp hq h side a b ha hb
    obtain ⟨s, link, hlink, htarget⟩ := isLinkedTo_iff.mp h
    obtain ⟨q', hq', hid, -, back, hback, hbt, -⟩ := ht.back s p hp link hlink
    obtain rfl := ht.eq_of_id hq' hq (hid.trans htarget)
    rcases side.eq_or_eq_other s with rfl | rfl
    · rw [hlink] at ha
      exact Or.inl (Option.some.inj ha ▸ htarget)
    · rw [side.other_other, hb] at hback
      exact Or.inr (Option.some.inj hback ▸ hbt)
  rcases clash_eq_safe_iff.mp hsafe with (h | h) | hnone
  · exact hlinked hl hr h
  · exact (hlinked hr hl h).symm
  · intro side a b ha hb
    refine absurd ((ht.rivals_iff hl hr hne side).mpr ⟨?_, ?_⟩) (hnone side)
    · rw [ha]
      rfl
    · rw [hb]
      rfl

end

/-! ## Plans that follow others -/

/-- `q` stands where `p` stood: under the renamed handle, with links to the renamed plans, and over
the tables of `p` at least. -/
structure TablePlan.Follows (g : PlanId → PlanId) (p q : TablePlan) : Prop where
  id_eq : q.id = g p.id
  links : ∀ side, q.linkOn side = (p.linkOn side).map (JoinLink.rename g)
  sources : ∀ t ∈ p.executable.sources, t ∈ q.executable.sources

namespace TablePlan.Follows

variable {p q : TablePlan}

/-- A plan with the handle, the links and the tables of another. -/
theorem of_eq (hid : q.id = p.id) (hleft : q.left = p.left) (hright : q.right = p.right)
    (hsources : ∀ t ∈ p.executable.sources, t ∈ q.executable.sources) :
    p.Follows (fun i => i) q := by
  refine ⟨hid, ?_, hsources⟩
  have hsame : ∀ o : Option JoinLink, o = o.map (JoinLink.rename fun i => i) := by
    rintro (_ | link) <;> rfl
  rintro (_ | _)
  · exact hleft.trans (hsame _)
  · exact hright.trans (hsame _)

theorem of_mirrors {g : PlanId → PlanId} (h : p.Mirrors g q) : p.Follows g q :=
  ⟨h.id_eq, h.links, fun t ht => (h.sources t).mpr ht⟩

end TablePlan.Follows

/-- The plans of one list follow those of another, position by position. -/
abbrev FollowsAll (g : PlanId → PlanId) (tables tables' : List TablePlan) : Prop :=
  List.Forall₂ (TablePlan.Follows g) tables tables'

section

variable {g : PlanId → PlanId} {tables tables' : List TablePlan}

theorem FollowsAll.map_id (h : FollowsAll g tables tables') :
    tables'.map TablePlan.id = (tables.map TablePlan.id).map g := by
  induction h with
  | nil => rfl
  | cons hpq _ ih => rw [List.map_cons, List.map_cons, List.map_cons, ih, hpq.id_eq]

theorem Answered.follow (h : Answered tables) (hf : FollowsAll g tables tables')
    (hinj : Set.InjOn g {id | id ∈ tables.map TablePlan.id}) : Answered tables' := by
  have hid : ∀ p ∈ tables, p.id ∈ {id | id ∈ tables.map TablePlan.id} :=
    fun p hp => List.mem_map_of_mem hp
  constructor
  · rw [hf.map_id]
    exact h.nodup.map_on fun a ha b hb => hinj ha hb
  · intro side q hq link hlink
    obtain ⟨p, hp, hpq⟩ := exists_left_of_forall₂ hf hq
    rw [hpq.links, Option.map_eq_some_iff] at hlink
    obtain ⟨link', hlink', rfl⟩ := hlink
    obtain ⟨s, hs, hsid, hne, back, hback, htarget, htype⟩ := h.back side p hp link' hlink'
    obtain ⟨t, ht, hst⟩ := exists_right_of_forall₂ hf hs
    refine ⟨t, ht, by rw [hst.id_eq, hsid]; rfl, ?_, back.rename g, ?_, ?_, htype⟩
    · rw [hst.id_eq, hpq.id_eq]
      exact fun heq => hne (hinj (hid s hs) (hid p hp) heq)
    · rw [hst.links, hback]
      rfl
    · rw [hpq.id_eq, ← htarget]
      rfl

end

/-! ## Merges -/

section

variable {tables : List TablePlan} {l r : TablePlan} {m : PlanId} {tree : PlanNode}

/-- A list of plans has two of them in front of the others. -/
theorem perm_pair_cons (hnodup : (tables.map TablePlan.id).Nodup) (hl : l ∈ tables)
    (hr : r ∈ tables) (hne : l.id ≠ r.id) :
    tables.Perm (l :: r :: tables.filter fun p => p.id ≠ l.id ∧ p.id ≠ r.id) := by
  have hpair : (tables.filter fun p => !decide (p.id ≠ l.id ∧ p.id ≠ r.id)).Perm [l, r] := by
    have hlr : ([l, r] : List TablePlan).Nodup := by
      rw [List.nodup_cons, List.mem_singleton]
      exact ⟨fun heq => hne (congrArg TablePlan.id heq), List.nodup_singleton r⟩
    refine (List.perm_ext_iff_of_nodup ((hnodup.of_map _).filter _) hlr).mpr fun p => ?_
    simp only [List.mem_filter, Bool.not_eq_true', decide_eq_false_iff_not, List.mem_pair,
      not_and_or, not_not]
    constructor
    · rintro ⟨hp, hid | hid⟩
      · exact Or.inl (eq_of_id_of_nodup hnodup hp hl hid)
      · exact Or.inr (eq_of_id_of_nodup hnodup hp hr hid)
    · rintro (rfl | rfl)
      · exact ⟨hl, Or.inl rfl⟩
      · exact ⟨hr, Or.inr rfl⟩
  have hsplit := List.filter_append_perm (fun p => decide (p.id ≠ l.id ∧ p.id ≠ r.id)) tables
  exact hsplit.symm.trans (List.perm_append_comm.trans (hpair.append_right _))

/-- Links that were answered before a merge of two plans without competing links are so after it. -/
theorem Answered.merged (h : Answered tables) (hl : l ∈ tables) (hr : r ∈ tables)
    (hclear : Clear l r) (hfresh : ∀ p ∈ tables, p.id ≠ m) :
    Answered (mergedTables tables l r m tree) := by
  refine ⟨nodup_mergedTables h.nodup hfresh, ?_⟩
  intro side q hq link hlink
  obtain ⟨p, hp, hpq, link', hlink', rfl, hout⟩ := exists_link_of_merged hl hr hclear hq hlink
  obtain ⟨s, hs, hsid, hne, back, hback, htarget, htype⟩ := h.back side p hp link' hlink'
  -- The answer does not lead from one plan of the pair to the other either.
  have hbackout : s.id ∈ [l.id, r.id] → back.target ∉ [l.id, r.id] := by
    rw [htarget, hsid]
    exact fun hsin hpin => hout hpin hsin
  obtain ⟨t, ht, htid, hlinkt⟩ := exists_link_merged h.nodup hl hr hclear hs hback hbackout
  refine ⟨t, ht, ?_, ?_, _, hlinkt, ?_, htype⟩
  · rw [htid, hsid]
    rfl
  · rw [htid, ← hpq]
    intro heq
    rcases collapse_eq_collapse hs hp hfresh heq with hid | ⟨hsin, hpin⟩
    · exact hne hid
    · exact hout hpin (hsid ▸ hsin)
  · show collapse l.id r.id m back.target = q.id
    rw [htarget, hpq]

end

end QueryPlan
