import QueryPlan.Proofs.LinkConsistency
import QueryPlan.Proofs.Padded

/-!
# Joins and the forest of links

Links that pass their check are answered, agree with each other and close no cycle.
A join keeps the first two. It closes a cycle where it merges plans that are not
linked, but connected through other plans.

- `TableSet.Connected`: plans that a chain of links leads between.
- `Leveled`: heights of the plans in which every link to the right goes one step up.
- `closesCycle_linkEdges_iff`: links close a cycle if one of them joins two plans that
  those before it connect.
- `Leveled.closesCycle_eq_false`: links with such heights close no cycle.
- `validateLinks_iff`: answered links that agree pass their check just if there are
  such heights.
- `Leveled.merged`, `Leveled.before_merge`: heights of a merge, and of its two plans.
- `validateLinks_joinPair`: when the links of a set pass their check after a join.
- `not_validateLinks_joinPair`: a chain whose ends are joined.
-/

namespace QueryPlan

variable {w w' : Workspace} {tables : List TablePlan} {l r x y : TablePlan} {height : PlanId → Int}
  {set : TableSet}

/-! ## Links as edges -/

/-- An edge leads from a plan to the target of its right link. -/
theorem mem_linkEdges {a b : PlanId} :
    (a, b) ∈ set.linkEdges ↔
      ∃ p ∈ set.tables, p.id = a ∧ ∃ link, p.right = some link ∧ link.target = b := by
  unfold TableSet.linkEdges TablePlan.rightTarget?
  simp only [List.mem_filterMap, Option.map_map, Option.map_eq_some_iff, Function.comp_apply,
    Prod.mk.injEq]
  constructor
  · rintro ⟨p, hp, link, hlink, rfl, rfl⟩
    exact ⟨p, hp, rfl, link, hlink, rfl⟩
  · rintro ⟨p, hp, rfl, link, hlink, rfl⟩
    exact ⟨p, hp, link, hlink, rfl, rfl⟩

/-- A chain of links leads from one plan to the other, whatever the sides of the links. -/
def TableSet.Connected (set : TableSet) : PlanId → PlanId → Prop :=
  Relation.EqvGen fun a b => (a, b) ∈ set.linkEdges

/-- Every link to the right goes one step up. -/
def Leveled (height : PlanId → Int) (tables : List TablePlan) : Prop :=
  ∀ p ∈ tables, ∀ link, p.right = some link → height link.target = height p.id + 1

/-- Every edge goes one step up. -/
theorem Leveled.up (h : Leveled height set.tables) {a b : PlanId} (hab : (a, b) ∈ set.linkEdges) :
    height b = height a + 1 := by
  obtain ⟨p, hp, rfl, link, hlink, rfl⟩ := mem_linkEdges.mp hab
  exact h p hp link hlink

/-- A plan has one link to the right. -/
theorem rightUnique_linkEdges (h : Answered set.tables) :
    Relator.RightUnique fun a b => (a, b) ∈ set.linkEdges := by
  intro a b c hab hac
  obtain ⟨p, hp, rfl, link, hlink, rfl⟩ := mem_linkEdges.mp hab
  obtain ⟨q, hq, hqp, link', hlink', rfl⟩ := mem_linkEdges.mp hac
  obtain rfl := h.eq_of_id hq hp hqp
  rw [Option.some.inj (hlink.symm.trans hlink')]

/-- A plan has one link to the left, which answers the links that lead to it. -/
theorem leftUnique_linkEdges (h : Answered set.tables) :
    Relator.LeftUnique fun a b => (a, b) ∈ set.linkEdges := by
  intro a b c hac hbc
  obtain ⟨p, hp, rfl, link, hlink, rfl⟩ := mem_linkEdges.mp hac
  obtain ⟨q, hq, rfl, link', hlink', htarget⟩ := mem_linkEdges.mp hbc
  obtain ⟨s, hs, hsid, -, back, hback, hbackp, -⟩ := h.back .right p hp link hlink
  obtain ⟨t, ht, htid, -, back', hback', hbackq, -⟩ := h.back .right q hq link' hlink'
  obtain rfl := h.eq_of_id ht hs (htid.trans (htarget.trans hsid.symm))
  rw [← hbackp, ← hbackq, Option.some.inj (hback.symm.trans hback')]

/-- From every plan there is one edge at most. -/
theorem nodup_linkEdges (h : (set.tables.map TablePlan.id).Nodup) :
    (set.linkEdges.map Prod.fst).Nodup := by
  have hsub : (set.linkEdges.map Prod.fst).Sublist set.ids := by
    unfold TableSet.linkEdges TableSet.ids
    induction set.tables with
    | nil => exact .refl _
    | cons p rest ih =>
      rw [List.filterMap_cons]
      cases p.rightTarget? with
      | none => exact ih.cons _
      | some target => exact ih.cons_cons _
  exact h.sublist hsub

/-! ## Chains -/

section

variable {R : PlanId → PlanId → Prop} {a b : PlanId}

/-- Where each point has one successor and one predecessor, one of two connected points comes
after the other. -/
theorem total_of_eqvGen (hright : Relator.RightUnique R) (hleft : Relator.LeftUnique R)
    (h : Relation.EqvGen R a b) :
    Relation.ReflTransGen R a b ∨ Relation.ReflTransGen R b a := by
  induction h with
  | rel a b hab => exact Or.inl (.single hab)
  | refl a => exact Or.inl .refl
  | symm a b _ ih => exact ih.symm
  | trans a b c _ _ ih ih' =>
    rcases ih with hab | hba
    · rcases ih' with hbc | hcb
      · exact Or.inl (hab.trans hbc)
      · have hswap : Relator.RightUnique (Function.swap R) := fun _ _ _ h h' => hleft h h'
        have htotal := (Relation.reflTransGen_swap.mpr hab).total_of_right_unique hswap
          (Relation.reflTransGen_swap.mpr hcb)
        exact htotal.symm.imp Relation.reflTransGen_swap.mp Relation.reflTransGen_swap.mp
    · rcases ih' with hbc | hcb
      · exact hba.total_of_right_unique hright hbc
      · exact Or.inr (hcb.trans hba)

/-- A chain of steps goes up. -/
theorem lt_of_reflTransGen (hup : ∀ a b, R a b → height b = height a + 1)
    (h : Relation.ReflTransGen R a b) : a = b ∨ height a < height b := by
  induction h with
  | refl => exact Or.inl rfl
  | tail _ hbc ih =>
    have := hup _ _ hbc
    rcases ih with rfl | hlt
    · exact Or.inr (by omega)
    · exact Or.inr (by omega)

end

/-! ## Labels and cycles -/

section

variable {edges labels : List (PlanId × PlanId)} {seen : PlanId → PlanId → Prop} {a b : PlanId}

/-- If points have one label just where edges connect them, then after a further edge they have one
label just where this and those before it do. -/
theorem labelOf_relabel (ha : a ∈ labels.map Prod.fst) (hb : b ∈ labels.map Prod.fst)
    (hseen : ∀ c d, seen c d → c ∈ labels.map Prod.fst ∧ d ∈ labels.map Prod.fst)
    (hlabels : ∀ c ∈ labels.map Prod.fst, ∀ d ∈ labels.map Prod.fst,
      labelOf labels c = labelOf labels d ↔ Relation.EqvGen seen c d) :
    let relabel : PlanId → PlanId := fun l => if l = labelOf labels b then labelOf labels a else l
    ∀ c ∈ labels.map Prod.fst, ∀ d ∈ labels.map Prod.fst,
      relabel (labelOf labels c) = relabel (labelOf labels d) ↔
        Relation.EqvGen (fun c d => seen c d ∨ c = a ∧ d = b) c d := by
  intro relabel c hc d hd
  let seen' : PlanId → PlanId → Prop := fun c d => seen c d ∨ c = a ∧ d = b
  have hold : ∀ {c d}, c ∈ labels.map Prod.fst → d ∈ labels.map Prod.fst →
      labelOf labels c = labelOf labels d → Relation.EqvGen seen' c d :=
    fun hc hd heq => ((hlabels _ hc _ hd).mp heq).mono (fun _ _ => Or.inl) _ _
  have hedge : Relation.EqvGen seen' a b := .rel _ _ (Or.inr ⟨rfl, rfl⟩)
  constructor
  · intro hcd
    by_cases hcb : labelOf labels c = labelOf labels b
    · by_cases hdb : labelOf labels d = labelOf labels b
      · exact (hold hc hb hcb).trans _ _ _ (hold hd hb hdb).symm
      · simp only [relabel, if_pos hcb, if_neg hdb] at hcd
        exact (hold hc hb hcb).trans _ _ _ (hedge.symm.trans _ _ _ (hold ha hd hcd))
    · by_cases hdb : labelOf labels d = labelOf labels b
      · simp only [relabel, if_neg hcb, if_pos hdb] at hcd
        exact (hold hc ha hcd).trans _ _ _ (hedge.trans _ _ _ (hold hd hb hdb).symm)
      · simp only [relabel, if_neg hcb, if_neg hdb] at hcd
        exact hold hc hd hcd
  · intro hconn
    -- Connected points are points with labels, or one point.
    suffices hsame : relabel (labelOf labels c) = relabel (labelOf labels d) ∨ c = d by
      rcases hsame with heq | rfl
      · exact heq
      · rfl
    clear hc hd
    induction hconn with
    | rel c d hcd =>
      rcases hcd with hcd | ⟨rfl, rfl⟩
      · obtain ⟨hc, hd⟩ := hseen c d hcd
        exact Or.inl (congrArg relabel ((hlabels c hc d hd).mpr (.rel _ _ hcd)))
      · refine Or.inl ?_
        show relabel (labelOf labels c) = relabel (labelOf labels d)
        simp only [relabel, if_true, ite_self]
    | refl c => exact Or.inr rfl
    | symm c d _ ih => exact ih.imp Eq.symm Eq.symm
    | trans c d e _ _ ih ih' =>
      rcases ih with heq | rfl
      · rcases ih' with heq' | rfl
        · exact Or.inl (heq.trans heq')
        · exact Or.inl heq
      · exact ih'

/-- Edges close a cycle just if one of them joins two points that those before it connect. -/
theorem closesCycle_iff (hkeys : ∀ e ∈ edges, e.1 ∈ labels.map Prod.fst ∧ e.2 ∈ labels.map Prod.fst)
    (hseen : ∀ a b, seen a b → a ∈ labels.map Prod.fst ∧ b ∈ labels.map Prod.fst)
    (hlabels : ∀ a ∈ labels.map Prod.fst, ∀ b ∈ labels.map Prod.fst,
      labelOf labels a = labelOf labels b ↔ Relation.EqvGen seen a b) :
    closesCycle labels edges = true ↔ ∃ before e after, edges = before ++ e :: after ∧
      Relation.EqvGen (fun a b => seen a b ∨ (a, b) ∈ before) e.1 e.2 := by
  -- The induction is on the edges. Labels tell which plans the edges seen so far connect, and the
  -- next edge gives both its ends one label.
  induction edges generalizing labels seen with
  | nil =>
    constructor
    · rintro ⟨⟩
    · rintro ⟨before, e, after, hnil, -⟩
      exact absurd hnil (by simp)
  | cons e rest ih =>
    obtain ⟨a, b⟩ := e
    rw [List.forall_mem_cons] at hkeys
    obtain ⟨⟨ha, hb⟩, hrest⟩ := hkeys
    let relabel : PlanId → PlanId :=
      fun l => if l = labelOf labels b then labelOf labels a else l
    let labels' := labels.map fun x => (x.1, relabel x.2)
    let seen' : PlanId → PlanId → Prop := fun c d => seen c d ∨ c = a ∧ d = b
    have hsame : labels'.map Prod.fst = labels.map Prod.fst := by
      rw [List.map_map]
      rfl
    have hseen' : ∀ c d, seen' c d → c ∈ labels'.map Prod.fst ∧ d ∈ labels'.map Prod.fst := by
      rw [hsame]
      rintro c d (h | ⟨rfl, rfl⟩)
      · exact hseen c d h
      · exact ⟨ha, hb⟩
    have hlabels' : ∀ c ∈ labels'.map Prod.fst, ∀ d ∈ labels'.map Prod.fst,
        labelOf labels' c = labelOf labels' d ↔ Relation.EqvGen seen' c d := by
      rw [hsame]
      intro c hc d hd
      rw [labelOf_map (f := relabel) hc, labelOf_map (f := relabel) hd]
      exact labelOf_relabel ha hb hseen hlabels c hc d hd
    have ih := ih (by rw [hsame]; exact hrest) hseen' hlabels'
    -- To have seen the edge is to have it before the others.
    have hsplit : ∀ before : List (PlanId × PlanId), (fun c d => seen' c d ∨ (c, d) ∈ before) =
        fun c d => seen c d ∨ (c, d) ∈ (a, b) :: before := by
      intro before
      funext c d
      rw [List.mem_cons, Prod.mk.injEq, ← or_assoc]
    unfold closesCycle
    rw [Bool.or_eq_true, beq_iff_eq]
    constructor
    · rintro (heq | hlater)
      · refine ⟨[], (a, b), rest, rfl, ?_⟩
        exact ((hlabels a ha b hb).mp heq).mono (fun _ _ => Or.inl) _ _
      · obtain ⟨before, e, after, rfl, hconn⟩ := ih.mp hlater
        exact ⟨(a, b) :: before, e, after, rfl, hsplit before ▸ hconn⟩
    · rintro ⟨before, e, after, hcons, hconn⟩
      cases before with
      | nil =>
        obtain ⟨rfl, rfl⟩ := List.cons.inj hcons
        exact Or.inl ((hlabels a ha b hb).mpr
          (hconn.mono (fun _ _ h => h.resolve_right List.not_mem_nil) _ _))
      | cons f before =>
        obtain ⟨rfl, rfl⟩ := List.cons.inj hcons
        exact Or.inr (ih.mpr ⟨before, e, after, rfl, (hsplit before).symm ▸ hconn⟩)

end

/-- At first, each point is its own label. -/
theorem labelOf_self (ids : List PlanId) (a : PlanId) :
    labelOf (ids.map fun id => (id, id)) a = a := by
  unfold labelOf
  induction ids with
  | nil => rfl
  | cons b rest ih =>
    rw [List.map_cons, List.lookup_cons]
    by_cases hab : a = b
    · rw [beq_iff_eq.mpr hab]
      exact hab.symm
    · rw [beq_false_of_ne hab]
      exact ih

/-- The links close a cycle just if one of them joins two plans that those before it connect. -/
theorem closesCycle_linkEdges_iff (hlinks : ∀ e ∈ set.linkEdges, e.1 ∈ set.ids ∧ e.2 ∈ set.ids) :
    closesCycle (set.ids.map fun id => (id, id)) set.linkEdges = true ↔
      ∃ before e after, set.linkEdges = before ++ e :: after ∧
        Relation.EqvGen (fun a b => (a, b) ∈ before) e.1 e.2 := by
  have hids : (set.ids.map fun id => (id, id)).map Prod.fst = set.ids := by
    rw [List.map_map]
    exact List.map_id _
  -- No edge has gone before the first.
  let none : PlanId → PlanId → Prop := fun _ _ => False
  have hnone : ∀ a b, Relation.EqvGen none a b → a = b := by
    intro a b hab
    induction hab with
    | rel _ _ h => exact h.elim
    | refl => rfl
    | symm _ _ _ ih => exact ih.symm
    | trans _ _ _ _ _ ih ih' => exact ih.trans ih'
  have hlabels : ∀ a ∈ (set.ids.map fun id => (id, id)).map Prod.fst,
      ∀ b ∈ (set.ids.map fun id => (id, id)).map Prod.fst,
      labelOf (set.ids.map fun id => (id, id)) a = labelOf (set.ids.map fun id => (id, id)) b ↔
        Relation.EqvGen none a b := by
    intro a _ b _
    rw [labelOf_self, labelOf_self]
    exact ⟨fun heq => heq ▸ .refl a, hnone a b⟩
  rw [closesCycle_iff (by rw [hids]; exact hlinks) (fun _ _ h => h.elim) hlabels]
  simp only [none, false_or]

/-- Both ends of an edge are in the set. -/
theorem Answered.mem_ids_of_linkEdges (ht : Answered set.tables) :
    ∀ e ∈ set.linkEdges, e.1 ∈ set.ids ∧ e.2 ∈ set.ids := by
  intro e he
  obtain ⟨p, hp, hid, link, hlink, htarget⟩ := mem_linkEdges.mp he
  obtain ⟨q, hq, hqid, -⟩ := ht.back .right p hp link hlink
  rw [← hid, ← htarget, ← hqid]
  exact ⟨TableSet.mem_ids hp, TableSet.mem_ids hq⟩

/-! ## Heights and cycles -/

/-- Links with heights close no cycle. -/
theorem Leveled.closesCycle_eq_false (h : Leveled height set.tables) (ht : Answered set.tables) :
    closesCycle (set.ids.map fun id => (id, id)) set.linkEdges = false := by
  rw [Bool.eq_false_iff]
  intro hcycle
  obtain ⟨before, ⟨a, b⟩, after, hedges, hconn⟩ :=
    (closesCycle_linkEdges_iff ht.mem_ids_of_linkEdges).mp hcycle
  have hbefore : ∀ c d, (c, d) ∈ before → (c, d) ∈ set.linkEdges := by
    intro c d hcd
    rw [hedges]
    exact List.mem_append_left _ hcd
  have hright : Relator.RightUnique fun c d => (c, d) ∈ before :=
    fun _ _ _ h h' => rightUnique_linkEdges ht (hbefore _ _ h) (hbefore _ _ h')
  have hleft : Relator.LeftUnique fun c d => (c, d) ∈ before :=
    fun _ _ _ h h' => leftUnique_linkEdges ht (hbefore _ _ h) (hbefore _ _ h')
  have hnodup := nodup_linkEdges ht.nodup
  have hab : (a, b) ∈ set.linkEdges := by
    rw [hedges]
    exact List.mem_append_right _ List.mem_cons_self
  rw [hedges, List.map_append, List.map_cons] at hnodup
  have hstep := h.up hab
  -- The two ends are connected without the edge between them, which is the only one from `a`.
  have hconn : Relation.EqvGen (fun c d => (c, d) ∈ before) a b := hconn
  rcases total_of_eqvGen hright hleft hconn with hchain | hchain
  · rcases hchain.cases_head with rfl | ⟨c, hac, -⟩
    · omega
    · exact (List.nodup_append.mp hnodup).2.2 a (List.mem_map_of_mem hac) a List.mem_cons_self rfl
  · rcases lt_of_reflTransGen (fun c d hcd => h.up (hbefore c d hcd)) hchain with rfl | hlt
    · omega
    · omega

/-- Links that are answered and agree pass their check up to the cycles. -/
theorem validateLinks_eq (ht : Answered set.tables) (hagree : Agreeing set.tables) :
    set.validateLinks =
      if closesCycle (set.ids.map fun id => (id, id)) set.linkEdges then .error .cyclicJoinGraph
      else .ok () := by
  -- Every link is answered by one that agrees with it, so its check passes,
  have hlink : ∀ p ∈ set.tables, ∀ side, set.checkLink p side (p.linkOn side) = .ok () := by
    intro p hp side
    cases hlink : p.linkOn side with
    | none => rfl
    | some link =>
      obtain ⟨q, hq, hid, -, back, hback, hto, -⟩ := ht.back side p hp link hlink
      have hagrees : back.agrees link = true := by
        refine hagree side.other q hq p hp back link hback ?_ hto hid.symm
        rw [side.other_other]
        exact hlink
      have hrequire : set.require link.target = .ok q :=
        Planner.require_ok.mpr ((get?_eq_some_of_nodup ht.nodup).mpr ⟨hq, hid⟩)
      rw [TablePlan.checkLink_some]
      refine except_bind_ok.mpr ⟨q, hrequire, ?_⟩
      rw [hback, Option.elim_some, if_pos ⟨hto, hagrees⟩]
      rfl
  -- and so do the checks of all plans. What is left is the search for a cycle.
  have hplans : ∀ plans : List TablePlan, (∀ p ∈ plans, p ∈ set.tables) →
      set.checkPlans plans = .ok () := by
    intro plans
    induction plans with
    | nil => exact fun _ => rfl
    | cons p rest ih =>
      intro hmem
      rw [List.forall_mem_cons] at hmem
      unfold TableSet.checkPlans TableSet.checkPlan
      exact except_bind_ok.mpr ⟨(),
        except_bind_ok.mpr ⟨(), hlink p hmem.1 .left, hlink p hmem.1 .right⟩, ih hmem.2⟩
  unfold TableSet.validateLinks
  rw [hplans set.tables fun _ hp => hp]
  rfl

/-- Answered links that agree pass their check just if they go up in some heights, and are called
cyclic otherwise. -/
theorem validateLinks_iff (ht : Answered set.tables) (hagree : Agreeing set.tables) :
    (set.validateLinks = .ok () ↔ ∃ height, Leveled height set.tables) ∧
      (set.validateLinks ≠ .ok () → set.validateLinks = .error .cyclicJoinGraph) := by
  refine ⟨⟨exists_height, fun ⟨height, h⟩ => ?_⟩, fun h => ?_⟩
  · rw [validateLinks_eq ht hagree, h.closesCycle_eq_false ht]
    rfl
  · rw [validateLinks_eq ht hagree] at h ⊢
    split at h
    · rename_i hcycle
      rw [if_pos hcycle]
    · exact absurd rfl h

/-! ## Heights and merges -/

section

variable {m : PlanId} {tree : PlanNode}

/-- The links of a merge go up, if the two plans are at one height and the other links go up. -/
theorem Leveled.merged (ht : Answered tables) (hl : l ∈ tables) (hr : r ∈ tables)
    (hclear : Clear l r) (hfresh : ∀ p ∈ tables, p.id ≠ m) (hlr : height l.id = height r.id)
    (hup : ∀ p ∈ tables, ∀ link, p.right = some link →
      (p.id ∈ [l.id, r.id] → link.target ∉ [l.id, r.id]) → height link.target = height p.id + 1) :
    ∃ height', Leveled height' (mergedTables tables l r m tree) := by
  let height' : PlanId → Int := fun id => if id = m then height l.id else height id
  have hsame : ∀ p ∈ tables, height' (collapse l.id r.id m p.id) = height p.id := by
    intro p hp
    by_cases hin : p.id ∈ [l.id, r.id]
    · rw [collapse, if_pos hin]
      show (if m = m then height l.id else _) = _
      rw [if_pos rfl]
      rcases List.mem_pair.mp hin with hid | hid
      · rw [hid]
      · rw [hid, hlr]
    · rw [collapse, if_neg hin]
      exact if_neg (hfresh p hp)
  refine ⟨height', fun q hq link hlink => ?_⟩
  have hlink : q.linkOn .right = some link := hlink
  obtain ⟨p, hp, hid, link₀, hlink₀, rfl, hout⟩ := exists_link_of_merged hl hr hclear hq hlink
  obtain ⟨s, hs, hsid, -⟩ := ht.back .right p hp link₀ hlink₀
  show height' (collapse l.id r.id m link₀.target) = height' q.id + 1
  rw [← hid, hsame p hp, ← hsid, hsame s hs, hsid]
  exact hup p hp link₀ hlink₀ hout

/-- Where the links of a merge go up, those of its set did, if the two plans were not linked. -/
theorem Leveled.before_merge (h : Leveled height (mergedTables tables l r m tree))
    (ht : Answered tables) (hl : l ∈ tables) (hr : r ∈ tables) (hclear : Clear l r)
    (hlr : l.isLinkedTo r.id = false) (hrl : r.isLinkedTo l.id = false) :
    Leveled (height ∘ collapse l.id r.id m) tables := by
  intro p hp link hlink
  have hout : p.id ∈ [l.id, r.id] → link.target ∉ [l.id, r.id] := by
    intro hin
    have hself : link.target ≠ p.id :=
      ht.target_ne hp (show p.linkOn .right = some link from hlink)
    rw [List.mem_pair, not_or]
    rcases List.mem_pair.mp hin with hid | hid
    · obtain rfl := ht.eq_of_id hp hl hid
      refine ⟨hself, fun htarget => ?_⟩
      rw [isLinkedTo_of_right hlink htarget] at hlr
      cases hlr
    · obtain rfl := ht.eq_of_id hp hr hid
      refine ⟨fun htarget => ?_, hself⟩
      rw [isLinkedTo_of_right hlink htarget] at hrl
      cases hrl
  obtain ⟨q, hq, hqid, hlinkq⟩ :=
    exists_link_merged ht.nodup hl hr hclear hp (show p.linkOn .right = some link from hlink) hout
  show height (collapse l.id r.id m link.target) = height (collapse l.id r.id m p.id) + 1
  rw [← hqid]
  exact h q hq _ hlinkq

end

/-- The plans from the end of a link on can be lowered by one step, which puts both ends of the link
at one height. -/
theorem Leveled.lower (h : Leveled height set.tables) (ht : Answered set.tables)
    (hx : x ∈ set.tables) {link : JoinLink} (hlink : x.right = some link)
    (htarget : link.target = y.id) :
    ∃ lowered : PlanId → Int, lowered x.id = lowered y.id ∧
      ∀ p ∈ set.tables, ∀ link, p.right = some link → p.id ≠ x.id →
        lowered link.target = lowered p.id + 1 := by
  classical
  let After : PlanId → Prop := Relation.ReflTransGen (fun a b => (a, b) ∈ set.linkEdges) y.id
  have hxy : (x.id, y.id) ∈ set.linkEdges := mem_linkEdges.mpr ⟨x, hx, rfl, link, hlink, htarget⟩
  have hstep := h.up hxy
  have hbefore : ¬ After x.id := by
    intro hafter
    rcases lt_of_reflTransGen (fun _ _ hab => h.up hab) hafter with heq | hlt
    · rw [heq] at hstep
      omega
    · omega
  refine ⟨fun id => if After id then height id - 1 else height id, ?_, ?_⟩
  · simp only [if_neg hbefore, if_pos (show After y.id from .refl)]
    omega
  · intro p hp link hlink hne
    have hedge : (p.id, link.target) ∈ set.linkEdges :=
      mem_linkEdges.mpr ⟨p, hp, rfl, link, hlink, rfl⟩
    have hup := h.up hedge
    -- Both ends of any other link come after the plan, or neither does.
    have hboth : After p.id ↔ After link.target := by
      refine ⟨fun hafter => hafter.tail hedge, fun hafter => ?_⟩
      rcases hafter.cases_tail with heq | ⟨a, hafter, hedge'⟩
      · exact absurd (leftUnique_linkEdges ht (heq ▸ hedge) hxy) hne
      · exact leftUnique_linkEdges ht hedge hedge' ▸ hafter
    by_cases hafter : After p.id
    · simp only [if_pos hafter, if_pos (hboth.mp hafter)]
      omega
    · simp only [if_neg hafter, if_neg (mt hboth.mpr hafter)]
      exact hup

/-- The plans that are connected with a plan can be moved to the height of one that is not. -/
theorem Leveled.shift (h : Leveled height set.tables) {a b : PlanId} (hab : ¬ set.Connected a b) :
    ∃ shifted, shifted a = shifted b ∧ Leveled shifted set.tables := by
  classical
  refine ⟨fun id => if set.Connected a id then height id + (height b - height a) else height id,
    ?_, ?_⟩
  · have hself : set.Connected a a := Relation.EqvGen.refl a
    simp only [if_pos hself, if_neg hab]
    omega
  · intro p hp link hlink
    have hup := h p hp link hlink
    have hedge : set.Connected p.id link.target :=
      .rel _ _ (mem_linkEdges.mpr ⟨p, hp, rfl, link, hlink, rfl⟩)
    by_cases hconn : set.Connected a p.id
    · have hconn' : set.Connected a link.target := hconn.trans _ _ _ hedge
      simp only [if_pos hconn, if_pos hconn']
      omega
    · have hconn' : ¬ set.Connected a link.target :=
        fun hconn' => hconn (hconn'.trans _ _ _ hedge.symm)
      simp only [if_neg hconn, if_neg hconn']
      exact hup

/-- Connected plans are at different heights. -/
theorem Leveled.ne_of_connected (h : Leveled height set.tables) (ht : Answered set.tables)
    {a b : PlanId} (hab : set.Connected a b) (hne : a ≠ b) : height a ≠ height b := by
  rcases total_of_eqvGen (rightUnique_linkEdges ht) (leftUnique_linkEdges ht) hab with
    hchain | hchain
  · exact ((lt_of_reflTransGen (fun _ _ hcd => h.up hcd) hchain).resolve_left hne).ne
  · exact ((lt_of_reflTransGen (fun _ _ hcd => h.up hcd) hchain).resolve_left hne.symm).ne'

/-- The two links of a plan lead to different plans. -/
theorem Leveled.targets_ne (h : Leveled height tables) (ht : Answered tables) (hx : x ∈ tables)
    {left right : JoinLink} (hleft : x.left = some left) (hright : x.right = some right) :
    left.target ≠ right.target := by
  obtain ⟨q, hq, hqid, -, back, hback, hto, -⟩ := ht.back .left x hx left hleft
  have hbelow := h q hq back hback
  have habove := h x hx right hright
  rw [hto, hqid] at hbelow
  intro heq
  rw [← heq] at habove
  omega

/-- A link between two plans is a link to the right of one of them. -/
theorem exists_right_of_isLinkedTo (ht : Answered tables) (hl : l ∈ tables) (hr : r ∈ tables)
    (h : l.isLinkedTo r.id = true) :
    ∃ x ∈ tables, ∃ y ∈ tables, (x = l ∧ y = r ∨ x = r ∧ y = l) ∧
      ∃ link, x.right = some link ∧ link.target = y.id := by
  obtain ⟨side, link, hlink, htarget⟩ := isLinkedTo_iff.mp h
  cases side with
  | right => exact ⟨l, hl, r, hr, Or.inl ⟨rfl, rfl⟩, link, hlink, htarget⟩
  | left =>
    obtain ⟨q, hq, hqid, -, back, hback, hto, -⟩ := ht.back .left l hl link hlink
    obtain rfl := ht.eq_of_id hq hr (hqid.trans htarget)
    exact ⟨q, hr, l, hl, Or.inr ⟨rfl, rfl⟩, back, hback, hto⟩

/-! ## Joins -/

section

variable {m : PlanId} {tree : PlanNode}

/-- A merge of two linked plans leaves links that go up. -/
theorem Leveled.merged_of_linked (h : Leveled height set.tables) (ht : Answered set.tables)
    (hl : l ∈ set.tables) (hr : r ∈ set.tables) (hclear : Clear l r)
    (hfresh : ∀ p ∈ set.tables, p.id ≠ m) (hlinked : l.isLinkedTo r.id = true) :
    ∃ height', Leveled height' (mergedTables set.tables l r m tree) := by
  obtain ⟨x, hx, y, hy, hxy, link, hlink, htarget⟩ := exists_right_of_isLinkedTo ht hl hr hlinked
  obtain ⟨lowered, heq, hup⟩ := h.lower ht hx hlink htarget
  have hlevels : lowered l.id = lowered r.id := by
    rcases hxy with ⟨rfl, rfl⟩ | ⟨rfl, rfl⟩
    · exact heq
    · exact heq.symm
  refine Leveled.merged ht hl hr hclear hfresh hlevels fun s hs link' hlink' hout => ?_
  -- The link between the two is the only one that does not go up, and it is gone.
  refine hup s hs link' hlink' fun hsx => ?_
  obtain rfl := ht.eq_of_id hs hx hsx
  obtain rfl := Option.some.inj (hlink.symm.trans hlink')
  have hpair : s.id ∈ [l.id, r.id] ∧ y.id ∈ [l.id, r.id] := by
    simp only [List.mem_pair]
    rcases hxy with ⟨rfl, rfl⟩ | ⟨rfl, rfl⟩
    · exact ⟨Or.inl rfl, Or.inr rfl⟩
    · exact ⟨Or.inr rfl, Or.inl rfl⟩
  exact hout hpair.1 (htarget ▸ hpair.2)

/-- A merge of two plans that are not connected leaves links that go up. -/
theorem Leveled.merged_of_not_connected (h : Leveled height set.tables) (ht : Answered set.tables)
    (hl : l ∈ set.tables) (hr : r ∈ set.tables) (hclear : Clear l r)
    (hfresh : ∀ p ∈ set.tables, p.id ≠ m) (hconn : ¬ set.Connected l.id r.id) :
    ∃ height', Leveled height' (mergedTables set.tables l r m tree) := by
  obtain ⟨shifted, heq, hup⟩ := h.shift hconn
  exact Leveled.merged ht hl hr hclear hfresh heq fun s hs link hlink _ => hup s hs link hlink

/-- After a merge of two connected plans that are not linked, no heights are left. -/
theorem not_leveled_merged (ht : Answered set.tables) (hl : l ∈ set.tables) (hr : r ∈ set.tables)
    (hne : l.id ≠ r.id) (hclear : Clear l r) (hunlinked : l.isLinkedTo r.id = false)
    (hconn : set.Connected l.id r.id) : ¬ Leveled height (mergedTables set.tables l r m tree) := by
  intro h
  have hback : r.isLinkedTo l.id = false :=
    Bool.eq_false_iff.mpr fun hlinked => by
      rw [isLinkedTo_symm ht hr hl hlinked] at hunlinked
      cases hunlinked
  -- The merge stands for both, so that they were at one height before.
  refine (h.before_merge ht hl hr hclear hunlinked hback).ne_of_connected ht hconn hne ?_
  show height (collapse l.id r.id m l.id) = height (collapse l.id r.id m r.id)
  rw [collapse_left, collapse_right]

end

/-- The links of a set that passes its check pass it again after a join of two plans that are linked
with each other, or not connected at all, and then no plan has two links to one partner. After a
join of any other two they close a cycle. -/
theorem validateLinks_joinPair {set : TableSet} {context : Context} {p q : TablePlan} {id : PlanId}
    (hids : (set.tables.map TablePlan.id).Nodup)
    (hgiven : ∀ p ∈ set.tables, p.id.number < context.supply.next)
    (hvalid : set.validateLinks = .ok ()) (hp : p ∈ set.tables) (hq : q ∈ set.tables)
    (h : Planner.joinPair p.id q.id ⟨set, context⟩ = .ok id w') :
    (p.isLinkedTo q.id = true ∨ ¬ set.Connected p.id q.id →
      w'.set.validateLinks = .ok () ∧
        ∀ m ∈ w'.set.tables, ∀ left right, m.left = some left → m.right = some right →
          left.target ≠ right.target) ∧
    (p.isLinkedTo q.id = false → set.Connected p.id q.id →
      w'.set.validateLinks = .error .cyclicJoinGraph) := by
  have hne : set.tables ≠ [] := List.ne_nil_of_mem hp
  have hw := sound_of_validateLinks (P := fun _ => True) hne hids hgiven hvalid
    fun _ _ _ _ _ => trivial
  have ht : Answered set.tables := hw.answered
  obtain ⟨height, hlevel⟩ : ∃ height, Leveled height set.tables := exists_height hvalid
  have hagree : Agreeing set.tables := by
    obtain hnone | ⟨-, hagree⟩ := Coherent.of_validateLinks hids hgiven hvalid
    · exact absurd hnone hne
    · exact hagree
  obtain ⟨l, hl, r, hr, hsides, hlr, -, hclear, hnew, ⟨tree, hset⟩, hw'⟩ := joinPair_merged hw h
  have hfresh : ∀ p ∈ set.tables, p.id ≠ id := fun p hp => hw.id_ne hp hnew
  -- The two plans are those of the merge, in one order or the other.
  obtain ⟨hlinks, hconns⟩ : (p.isLinkedTo q.id = l.isLinkedTo r.id) ∧
      (set.Connected p.id q.id ↔ set.Connected l.id r.id) := by
    rcases hsides with ⟨hlp, hrq⟩ | ⟨hlq, hrp⟩
    · rw [ht.eq_of_id hl hp hlp, ht.eq_of_id hr hq hrq]
      exact ⟨rfl, Iff.rfl⟩
    · rw [ht.eq_of_id hl hq hlq, ht.eq_of_id hr hp hrp]
      exact ⟨Bool.eq_iff_iff.mpr ⟨isLinkedTo_symm ht hp hq, isLinkedTo_symm ht hq hp⟩,
        ⟨Relation.EqvGen.symm _ _, Relation.EqvGen.symm _ _⟩⟩
  have hagree' : Agreeing w'.set.tables := by
    rw [hset]
    exact hagree.merged ht hl hr hclear hfresh
  obtain ⟨hiff, hcyclic⟩ := validateLinks_iff hw'.answered hagree'
  rw [hlinks, hconns]
  constructor
  · intro hcase
    obtain ⟨height', h'⟩ : ∃ height, Leveled height w'.set.tables := by
      rw [hset]
      rcases hcase with hlinked | hconn
      · exact hlevel.merged_of_linked ht hl hr hclear hfresh hlinked
      · exact hlevel.merged_of_not_connected ht hl hr hclear hfresh hconn
    exact ⟨hiff.mpr ⟨height', h'⟩, fun m hm _ _ => h'.targets_ne hw'.answered hm⟩
  · intro hunlinked hconn
    refine hcyclic fun hok => ?_
    obtain ⟨height', hlevel'⟩ := hiff.mp hok
    rw [hset] at hlevel'
    exact not_leveled_merged ht hl hr hlr hclear hunlinked hconn hlevel'

/-- A chain of three tables is still in order after its first two were joined. -/
theorem validateLinks_joinPair_of_chain :
    let set : TableSet := ⟨chainOfOnes .left (.binary (columnOf "a") .eq (columnOf "b"))
      (.binary (columnOf "b") .lt (columnOf "c")), false⟩
    ∃ id w, Planner.joinPair ⟨1⟩ ⟨2⟩ ⟨set, .start .blank default ⟨4⟩⟩ = .ok id w ∧
      w.set.tables.length = 2 ∧ w.set.validateLinks = .ok () := by
  intro set
  have hjoin : resultWith (fun _ w => w.set.tables.length)
      (Planner.joinPair ⟨1⟩ ⟨2⟩ ⟨set, .start .blank default ⟨4⟩⟩) = some 2 := by decide +kernel
  obtain ⟨id, w, h, hlength⟩ := exists_of_resultWith hjoin
  have hids : (set.tables.map TablePlan.id).Nodup := by decide
  have hgiven : ∀ p ∈ set.tables,
      p.id.number < (Context.start .blank default ⟨4⟩).supply.next := by decide
  have hvalid : set.validateLinks = .ok () := by decide +kernel
  have ha : set.tables[0] ∈ set.tables := List.getElem_mem _
  have hb : set.tables[1] ∈ set.tables := List.getElem_mem _
  obtain ⟨hvalid', -⟩ := (validateLinks_joinPair hids hgiven hvalid ha hb h).1 (Or.inl rfl)
  exact ⟨id, w, h, hlength, hvalid'⟩

/-- The ends of a chain of inner joins do not clash. The links of their merge close a cycle. -/
theorem not_validateLinks_joinPair :
    let set : TableSet := ⟨chainOfOnes .inner (.binary (columnOf "a") .eq (columnOf "b"))
      (.binary (columnOf "b") .lt (columnOf "c")), false⟩
    set.validateLinks = .ok () ∧
      (∃ p ∈ set.tables, ∃ q ∈ set.tables, p.id = ⟨1⟩ ∧ q.id = ⟨3⟩ ∧ clash p q = .safe) ∧
      ∃ w, Planner.joinPair ⟨1⟩ ⟨3⟩ ⟨set, .start .blank default ⟨4⟩⟩ = .ok ⟨4⟩ w ∧
        w.set.tables.map (fun p => (p.leftTarget?, p.id, p.rightTarget?)) =
          [(some ⟨4⟩, ⟨2⟩, some ⟨4⟩), (some ⟨2⟩, ⟨4⟩, some ⟨2⟩)] ∧
        w.set.validateLinks = .error .cyclicJoinGraph := by
  intro set
  have hjoin : resultWith (fun id w => (id,
        w.set.tables.map fun p => (p.leftTarget?, p.id, p.rightTarget?),
        decide (w.set.validateLinks = .error .cyclicJoinGraph)))
      (Planner.joinPair ⟨1⟩ ⟨3⟩ ⟨set, .start .blank default ⟨4⟩⟩) =
        some (⟨4⟩, [(some ⟨4⟩, ⟨2⟩, some ⟨4⟩), (some ⟨2⟩, ⟨4⟩, some ⟨2⟩)], true) := by
    decide +kernel
  obtain ⟨id, w, h, hresult⟩ := exists_of_resultWith hjoin
  simp only [Prod.mk.injEq, decide_eq_true_eq] at hresult
  obtain ⟨rfl, hlinks, hcycle⟩ := hresult
  exact ⟨by decide +kernel, ⟨_, List.mem_cons_self, _,
    List.mem_cons_of_mem _ (List.mem_cons_of_mem _ List.mem_cons_self), rfl, rfl, rfl⟩,
    w, h, hlinks, hcycle⟩

end QueryPlan
