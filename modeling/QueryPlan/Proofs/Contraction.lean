import Mathlib.Data.List.Forall2
import Mathlib.Data.Set.Function
import QueryPlan.Proofs.Tidy

/-!
# Drawing plans together

Plans are renamed by copies and drawn together by joins. Either way every plan of
the new list stands for one or more plans of the old one.

- `Absorbs`: which plan of a new list has the columns of a plan of the old one.
- `Contracts`: the links of the new list are those that lead from one of its
  plans to another.
- `Tidy.contract`: a list with proper plans is tidy if it contracts a tidy one.
- `MirrorsAll`: the same plans under other handles, position by position.
-/

namespace QueryPlan

universe u

variable {V : Type u} {db : Database V} {val : Valuation V}

/-- The link with its target renamed. -/
def JoinLink.rename (g : PlanId → PlanId) (link : JoinLink) : JoinLink :=
  { link with target := g link.target }

/-- To point a link elsewhere is to rename its target. -/
theorem JoinLink.retarget_eq_rename (ids : List PlanId) (target : PlanId) (link : JoinLink) :
    link.retarget ids target = link.rename fun id => if id ∈ ids then target else id := by
  unfold JoinLink.retarget JoinLink.rename
  by_cases h : link.target ∈ ids
  · simp only [if_pos h]
  · simp only [if_neg h]

/-- The plans of `tables'` have the columns and tables of those of `tables`, where `g` gives the
handle of the plan that takes over another's columns. A plan that takes over an unpadded one is
unpadded. -/
structure Absorbs (g : PlanId → PlanId) (tables tables' : List TablePlan) : Prop where
  image : ∀ p ∈ tables, ∃ q ∈ tables', q.id = g p.id ∧ (∀ c ∈ p.columns, c ∈ q.columns) ∧
    (∀ t ∈ p.executable.sources, t ∈ q.executable.sources) ∧
    (p.padding? = none → q.padding? = none)
  origin : ∀ q ∈ tables', ∃ p ∈ tables, g p.id = q.id
  columns : ∀ q ∈ tables', ∀ c ∈ q.columns, ∃ p ∈ tables, g p.id = q.id ∧ c ∈ p.columns
  sources : ∀ q ∈ tables', ∀ t ∈ q.executable.sources,
    ∃ p ∈ tables, g p.id = q.id ∧ t ∈ p.executable.sources

/-- `tables'` are `tables` drawn together by `g`: their links are those of `tables`, except those
between plans that became one. -/
structure Contracts (g : PlanId → PlanId) (tables tables' : List TablePlan) : Prop
    extends Absorbs g tables tables' where
  forth : ∀ side, ∀ p ∈ tables, ∀ link, p.linkOn side = some link → g link.target ≠ g p.id →
    ∃ q ∈ tables', q.id = g p.id ∧ q.linkOn side = some (link.rename g)
  back : ∀ side, ∀ q ∈ tables', ∀ link, q.linkOn side = some link →
    ∃ p ∈ tables, g p.id = q.id ∧ ∃ link', p.linkOn side = some link' ∧
      link = link'.rename g ∧ link.target ≠ q.id

variable {wiring : Wiring} {linked : Bool} {g f : PlanId → PlanId}
  {tables tables' tables'' : List TablePlan}

namespace Absorbs

theorem refl (tables : List TablePlan) : Absorbs id tables tables where
  image p hp := ⟨p, hp, rfl, fun _ h => h, fun _ h => h, fun h => h⟩
  origin q hq := ⟨q, hq, rfl⟩
  columns q hq _ hc := ⟨q, hq, rfl, hc⟩
  sources q hq _ ht := ⟨q, hq, rfl, ht⟩

/-- Plans that were drawn together may be drawn together further. -/
theorem trans (h : Absorbs g tables tables') (h' : Absorbs f tables' tables'') :
    Absorbs (f ∘ g) tables tables'' := by
  constructor
  · intro p hp
    obtain ⟨q, hq, hid, hcols, hsrcs, hpad⟩ := h.image p hp
    obtain ⟨s, hs, hid', hcols', hsrcs', hpad'⟩ := h'.image q hq
    refine ⟨s, hs, by rw [hid', hid]; rfl, ?_, ?_, fun hnone => hpad' (hpad hnone)⟩
    · exact fun c hc => hcols' c (hcols c hc)
    · exact fun t ht => hsrcs' t (hsrcs t ht)
  · intro s hs
    obtain ⟨q, hq, hid'⟩ := h'.origin s hs
    obtain ⟨p, hp, hid⟩ := h.origin q hq
    exact ⟨p, hp, by rw [← hid', ← hid]; rfl⟩
  · intro s hs c hc
    obtain ⟨q, hq, hid', hcq⟩ := h'.columns s hs c hc
    obtain ⟨p, hp, hid, hcp⟩ := h.columns q hq c hcq
    exact ⟨p, hp, by rw [← hid', ← hid]; rfl, hcp⟩
  · intro s hs t ht
    obtain ⟨q, hq, hid', htq⟩ := h'.sources s hs t ht
    obtain ⟨p, hp, hid, htp⟩ := h.sources q hq t htq
    exact ⟨p, hp, by rw [← hid', ← hid]; rfl, htp⟩

/-- What takes over an unpadded plan is unpadded. -/
theorem unpadded (h : Absorbs g tables tables') (hnodup : (tables'.map TablePlan.id).Nodup)
    {p q : TablePlan} (hp : p ∈ tables) (hq : q ∈ tables') (hid : q.id = g p.id)
    (hpad : p.padding? = none) : q.padding? = none := by
  obtain ⟨q', hq', hid', -, -, hpad'⟩ := h.image p hp
  obtain rfl := eq_of_id_of_nodup hnodup hq' hq (hid'.trans hid.symm)
  exact hpad' hpad

/-- The plan that a plan went into has its columns. -/
theorem columns_subset (h : Absorbs g tables tables') (hnodup : (tables'.map TablePlan.id).Nodup)
    {p q : TablePlan} (hp : p ∈ tables) (hq : q ∈ tables') (hid : q.id = g p.id) :
    ∀ c ∈ p.columns, c ∈ q.columns := by
  obtain ⟨q', hq', hid', hcols, -⟩ := h.image p hp
  obtain rfl := eq_of_id_of_nodup hnodup hq' hq (hid'.trans hid.symm)
  exact hcols

/-- Plans that were drawn together have the same columns together. -/
theorem exposed (h : Absorbs g tables tables') (c : ColumnName) :
    (∃ q ∈ tables', c ∈ q.columns) ↔ ∃ p ∈ tables, c ∈ p.columns := by
  constructor
  · rintro ⟨q, hq, hc⟩
    obtain ⟨p, hp, -, hcp⟩ := h.columns q hq c hc
    exact ⟨p, hp, hcp⟩
  · rintro ⟨p, hp, hc⟩
    obtain ⟨q, hq, -, hcols, -⟩ := h.image p hp
    exact ⟨q, hq, hcols c hc⟩

/-- The plan that a plan went into reads its tables. -/
theorem sources_subset (h : Absorbs g tables tables') (hnodup : (tables'.map TablePlan.id).Nodup)
    {p q : TablePlan} (hp : p ∈ tables) (hq : q ∈ tables') (hid : q.id = g p.id) :
    ∀ t ∈ p.executable.sources, t ∈ q.executable.sources := by
  obtain ⟨q', hq', hid', -, hsrcs, -⟩ := h.image p hp
  obtain rfl := eq_of_id_of_nodup hnodup hq' hq (hid'.trans hid.symm)
  exact hsrcs

end Absorbs

/-- No two plans that become one are padded from outside. -/
def SinglyPadded (g : PlanId → PlanId) (tables : List TablePlan) : Prop :=
  ∀ p ∈ tables, ∀ q ∈ tables, g p.id = g q.id → ∀ l r, p.padding? = some l → q.padding? = some r →
    g l.target ≠ g p.id → g r.target ≠ g q.id → p = q

/-! ## Links of plans that were drawn together -/

namespace Contracts

variable {q s : TablePlan} {side : Side} {link : JoinLink}

/-- What pads a plan that was drawn together pads one of the plans that it stands for. -/
theorem padding (hc : Contracts g tables tables') (h : Linked val wiring tables)
    (hq : q ∈ tables') (hpad : q.padding? = some link) :
    ∃ p ∈ tables, g p.id = q.id ∧ ∃ link', p.padding? = some link' ∧ link = link'.rename g ∧
      link.target ≠ q.id := by
  obtain ⟨side, hside, hpads⟩ := TablePlan.exists_side_of_padding hpad
  obtain ⟨p, hp, hid, link', hlink', rfl, hne⟩ := hc.back side q hq link hside
  exact ⟨p, hp, hid, link', h.padding_eq hp hlink' hpads, rfl, hne⟩

/-- A plan and the one that pads it stand for two plans of which one pads the other. -/
theorem padding_pair (hc : Contracts g tables tables') (h : Linked val wiring tables)
    (hq : q ∈ tables') (hpad : q.padding? = some link) (hs : s.id = link.target) :
    ∃ p ∈ tables, q.id = g p.id ∧ ∃ link', p.padding? = some link' ∧ link = link'.rename g ∧
      ∃ k ∈ tables, s.id = g k.id ∧ k.id = link'.target := by
  obtain ⟨p, hp, hid, link', hlink', rfl, -⟩ := hc.padding h hq hpad
  obtain ⟨k, hk, hkid, -⟩ := h.exists_keeper hp hlink'
  exact ⟨p, hp, hid.symm, link', hlink', rfl, k, hk, hs.trans (congrArg g hkid.symm), hkid⟩

/-- The links are answered. -/
theorem answered (hc : Contracts g tables tables') (h : Linked val wiring tables)
    (hq : q ∈ tables') (hlink : q.linkOn side = some link) :
    ∃ s ∈ tables', s.id = link.target ∧ s.id ≠ q.id ∧
      ∃ back, s.linkOn side.other = some back ∧ back.target = q.id ∧
        back.joinType = link.joinType ∧ ∀ r, val.meets back.on r ↔ val.meets link.on r := by
  obtain ⟨p, hp, hid, link', hlink', rfl, hne⟩ := hc.back side q hq link hlink
  obtain ⟨s, hs, hsid, -, back, hback, htarget, htype, hon⟩ := h.answered side p hp link' hlink'
  have hgs : g s.id = g link'.target := by rw [hsid]
  have hout : g back.target ≠ g s.id := by
    rw [htarget, hid, hgs]
    exact fun heq => hne heq.symm
  obtain ⟨s', hs', hsid', hback'⟩ := hc.forth side.other s hs back hback hout
  refine ⟨s', hs', hsid'.trans hgs, ?_, back.rename g, hback', ?_, htype, hon⟩
  · rw [hsid', hgs]
    exact hne
  · rw [← hid, ← htarget]
    rfl

/-- The conditions read only the two plans that they join. -/
theorem reads (hc : Contracts g tables tables') (h : Linked val wiring tables)
    (hq : q ∈ tables') (hlink : q.linkOn side = some link) {e : Expr} (he : link.on = some e) :
    ReadsOnly tables' [q.id, link.target] e := by
  obtain ⟨p, hp, hid, link', hlink', rfl, -⟩ := hc.back side q hq link hlink
  obtain ⟨hsub, hreads⟩ := h.reads side p hp link' hlink' e he
  refine ⟨hsub, ?_⟩
  intro s' hs' hnot ref href
  rw [Bool.eq_false_iff]
  intro hexp
  obtain ⟨c, hcol, hres⟩ := TablePlan.exposes_iff.mp hexp
  obtain ⟨s, hs, hsid, hcs⟩ := hc.columns s' hs' c hcol
  have hout : s.id ∉ [p.id, link'.target] := by
    intro hin
    refine hnot ?_
    rw [← hsid, ← hid]
    simp only [List.mem_cons, List.not_mem_nil, or_false] at hin ⊢
    rcases hin with hin | hin
    · exact Or.inl (congrArg g hin)
    · exact Or.inr (congrArg g hin)
  have := hreads s hs hout ref href
  rw [TablePlan.exposes_iff.mpr ⟨c, hcs, hres⟩] at this
  exact Bool.noConfusion this

/-- No plan is padded by both of its links. -/
theorem padded_once (hc : Contracts g tables tables') (h : Linked val wiring tables)
    (hpads : SinglyPadded g tables) (hq : q ∈ tables') {l r : JoinLink} (hl : q.left = some l)
    (hr : q.right = some r) (hltype : l.joinType = .left) : r.joinType ≠ .right := by
  intro hrtype
  obtain ⟨p, hp, hid, l', hl', rfl, hlne⟩ := hc.back .left q hq l hl
  obtain ⟨s, hs, hsid, r', hr', rfl, hrne⟩ := hc.back .right q hq r hr
  have hlpads : TablePlan.padsOn .left l'.joinType = true := by
    rw [show l'.joinType = .left from hltype]
    rfl
  have hrpads : TablePlan.padsOn .right r'.joinType = true := by
    rw [show r'.joinType = .right from hrtype]
    rfl
  obtain rfl := hpads p hp s hs (hid.trans hsid.symm) l' r' (h.padding_eq hp hl' hlpads)
    (h.padding_eq hs hr' hrpads) (hid ▸ hlne) (hsid ▸ hrne)
  exact h.padded_once p hp l' r' hl' hr' hltype hrtype

/-- Padding goes round in no circle. -/
theorem grounded (hc : Contracts g tables tables') (h : Linked val wiring tables)
    (hpads : SinglyPadded g tables) {ids : Set PlanId} (hq : q ∈ tables') (hmem : q.id ∈ ids) :
    ∃ s ∈ tables', s.id ∈ ids ∧ ∀ link, s.padding? = some link → link.target ∉ ids := by
  obtain ⟨p, hp, hid⟩ := hc.origin q hq
  have hpmem : g p.id ∈ ids := hid.symm ▸ hmem
  -- A plan that no other of the set pads stands for a plan of the same kind.
  obtain ⟨s, hs, hsmem, hout⟩ := h.grounded {id | g id ∈ ids} ⟨p, hp, hpmem⟩
  obtain ⟨s', hs', hsid, -, -, hspad⟩ := hc.image s hs
  refine ⟨s', hs', hsid ▸ hsmem, fun link hlink htarget => ?_⟩
  cases hpad : s.padding? with
  | none =>
    rw [hspad hpad] at hlink
    cases hlink
  | some back =>
    obtain ⟨t, ht, htid, link', hlink', rfl, hne⟩ := hc.padding h hs' hlink
    have hback : g back.target ∉ ids := hout back hpad
    have hbackne : g back.target ≠ g s.id := fun heq => hback (heq ▸ hsmem)
    have htne : g link'.target ≠ g t.id := by
      rw [htid]
      exact hne
    obtain rfl := hpads t ht s hs (htid.trans hsid) link' back hlink' hpad htne hbackne
    rw [hpad] at hlink'
    obtain rfl := Option.some.inj hlink'
    exact hback htarget

end Contracts

/-- The links of plans that were drawn together are in order. -/
theorem Linked.contract (h : Linked val wiring tables) (hc : Contracts g tables tables')
    (hnodup : (tables'.map TablePlan.id).Nodup) (hpads : SinglyPadded g tables) :
    Linked val wiring tables' where
  answered _ _ hq _ hlink := hc.answered h hq hlink
  reads _ _ hq _ hlink _ he := hc.reads h hq hlink he
  not_full side q hq link hlink := by
    obtain ⟨p, hp, -, link', hlink', rfl, -⟩ := hc.back side q hq link hlink
    exact h.not_full side p hp link' hlink'
  inner_unpadded side q hq link hlink htype := by
    obtain ⟨p, hp, hid, link', hlink', rfl, -⟩ := hc.back side q hq link hlink
    exact hc.unpadded hnodup hp hq hid.symm (h.inner_unpadded side p hp link' hlink' htype)
  padded_once _ hq _ _ hl hr hltype := hc.padded_once h hpads hq hl hr hltype
  grounded _ := fun ⟨_, hq, hmem⟩ => hc.grounded h hpads hq hmem
  -- A link of the new list comes from one of the old list, with the ends in the plans that absorbed
  -- its ends.
  inner_ends q hq link hlink htype s hs hsid := by
    obtain ⟨p, hp, hid, link', hlink', rfl, -⟩ := hc.back .right q hq link hlink
    obtain ⟨k, hk, hkid, -⟩ := h.answered .right p hp link' hlink'
    have hsid' : s.id = g k.id := hsid.trans (congrArg g hkid.symm)
    obtain ⟨e, he, h₁, h₂⟩ := h.inner_ends p hp link' hlink' htype k hk hkid
    exact ⟨e, he, hc.sources_subset hnodup hp hq hid.symm _ h₁,
      hc.sources_subset hnodup hk hs hsid' _ h₂⟩
  outer_ends q hq link hlink s hs hsid := by
    obtain ⟨p, hp, hid, link', hlink', rfl, k, hk, hsid', hkid⟩ := hc.padding_pair h hq hlink hsid
    obtain ⟨e, he, h₁, h₂⟩ := h.outer_ends p hp link' hlink' k hk hkid
    exact ⟨e, he, hc.sources_subset hnodup hk hs hsid' _ h₁,
      hc.sources_subset hnodup hp hq hid _ h₂⟩
  -- The plan that the link points to is padded, so the one that went into it was as well.
  rejects hrejecting q hq link hlink s hs hsid hpadded r hr := by
    obtain ⟨p, hp, -, link', hlink', rfl, k, hk, hsid', hkid⟩ := hc.padding_pair h hq hlink hsid
    refine h.rejects hrejecting p hp link' hlink' k hk hkid ?_ r ?_
    · exact fun hnone => hpadded (hc.unpadded hnodup hk hs hsid' hnone)
    · exact fun x hx hcol => hr x hx (hc.columns_subset hnodup hk hs hsid' _ hcol)

/-- A list of proper plans that contracts a tidy one is tidy. -/
theorem Tidy.contract (h : Tidy db val wiring linked tables) (hc : Contracts g tables tables')
    (hnodup : (tables'.map TablePlan.id).Nodup) (hpads : SinglyPadded g tables)
    (hproper : ∀ q ∈ tables', q.Proper db val) : Tidy db val wiring linked tables' := by
  constructor
  · obtain ⟨p, hp⟩ := List.exists_mem_of_ne_nil tables h.nonempty
    obtain ⟨q, hq, -⟩ := hc.image p hp
    exact List.ne_nil_of_mem hq
  · exact hnodup
  · exact hproper
  -- Plans that went into different ones are different and share no column,
  · intro p' hp' q' hq' hne c hcp hcq
    obtain ⟨p, hp, hpid, hcp⟩ := hc.columns p' hp' c hcp
    obtain ⟨q, hq, hqid, hcq⟩ := hc.columns q' hq' c hcq
    refine h.disjoint p hp q hq ?_ c hcp hcq
    intro heq
    exact hne (by rw [← hpid, ← hqid, heq])
  -- and no base table.
  · intro p' hp' q' hq' hne t htp htq
    obtain ⟨p, hp, hpid, htp⟩ := hc.sources p' hp' t htp
    obtain ⟨q, hq, hqid, htq⟩ := hc.sources q' hq' t htq
    refine h.apart p hp q hq ?_ t htp htq
    intro heq
    exact hne (by rw [← hpid, ← hqid, heq])
  · exact h.links.contract hc hnodup hpads
  -- Where the old list has no links at all, a new one would come from one of them.
  · intro hlinked q hq side
    cases hlink : q.linkOn side with
    | none => rfl
    | some link =>
      obtain ⟨p, hp, -, link', hlink', -⟩ := hc.back side q hq link hlink
      rw [h.unlinked hlinked p hp side] at hlink'
      cases hlink'

/-! ## The same plans under other handles -/

/-- A plan with the same links under other handles is padded by the same link. -/
theorem TablePlan.padding?_of_links {p q : TablePlan}
    (h : ∀ side, q.linkOn side = (p.linkOn side).map (JoinLink.rename g)) :
    q.padding? = p.padding?.map (JoinLink.rename g) := by
  have hl : q.left = p.left.map (JoinLink.rename g) := h .left
  have hr : q.right = p.right.map (JoinLink.rename g) := h .right
  have hkept : ∀ side, (fun link => padsOn side (JoinLink.joinType link)) ∘ JoinLink.rename g =
      fun link => padsOn side link.joinType := fun _ => rfl
  rw [padding?_eq_or, padding?_eq_or, hl, hr, Option.filter_map, Option.filter_map, hkept, hkept,
    Option.map_or]

/-- `q` is `p` under another handle: with the same columns and tables, and with links of the same
types and conditions to the renamed plans. -/
structure TablePlan.Mirrors (g : PlanId → PlanId) (p q : TablePlan) : Prop where
  id_eq : q.id = g p.id
  columns : q.columns = p.columns
  sources : ∀ t, t ∈ q.executable.sources ↔ t ∈ p.executable.sources
  links : ∀ side, q.linkOn side = (p.linkOn side).map (JoinLink.rename g)

namespace TablePlan.Mirrors

variable {p q : TablePlan}

/-- The link that pads a plan is the one that pads the plan that it stands for, with its target
renamed. -/
theorem padding (h : p.Mirrors g q) : q.padding? = p.padding?.map (JoinLink.rename g) :=
  padding?_of_links h.links

/-- A plan under another handle demands what the plan demands. -/
theorem alike (h : p.Mirrors g q) : p.Alike q := by
  refine ⟨h.columns, h.sources, fun side => ?_⟩
  rw [h.links, Option.map_map]
  rfl

end TablePlan.Mirrors

theorem exists_left_of_forall₂ {α β : Type} {R : α → β → Prop} {as : List α} {bs : List β}
    (h : List.Forall₂ R as bs) {b : β} (hb : b ∈ bs) : ∃ a ∈ as, R a b := by
  induction h with
  | nil => cases hb
  | cons hab _ ih =>
    rcases List.mem_cons.mp hb with rfl | hb
    · exact ⟨_, List.mem_cons_self, hab⟩
    · obtain ⟨a, ha, h⟩ := ih hb
      exact ⟨a, List.mem_cons_of_mem _ ha, h⟩

theorem exists_right_of_forall₂ {α β : Type} {R : α → β → Prop} {as : List α} {bs : List β}
    (h : List.Forall₂ R as bs) {a : α} (ha : a ∈ as) : ∃ b ∈ bs, R a b :=
  exists_left_of_forall₂ h.flip ha

theorem map_eq_of_forall₂ {α β γ : Type} {R : α → β → Prop} {g : α → γ} {g' : β → γ} {as : List α}
    {bs : List β} (h : List.Forall₂ R as bs) (hR : ∀ a b, R a b → g' b = g a) :
    bs.map g' = as.map g := by
  induction h with
  | nil => rfl
  | cons hab _ ih => rw [List.map_cons, List.map_cons, hR _ _ hab, ih]

/-- Plans with the same columns, position by position, have the same columns together. -/
theorem exposed_of_forall₂ (h : List.Forall₂ (fun p q => q.columns = p.columns) tables tables')
    (c : ColumnName) : (∃ q ∈ tables', c ∈ q.columns) ↔ ∃ p ∈ tables, c ∈ p.columns := by
  constructor
  · rintro ⟨q, hq, hc⟩
    obtain ⟨p, hp, hpq⟩ := exists_left_of_forall₂ h hq
    exact ⟨p, hp, hpq ▸ hc⟩
  · rintro ⟨p, hp, hc⟩
    obtain ⟨q, hq, hpq⟩ := exists_right_of_forall₂ h hp
    exact ⟨q, hq, hpq ▸ hc⟩

/-- The plans of one list mirror those of another, position by position. -/
abbrev MirrorsAll (g : PlanId → PlanId) (tables tables' : List TablePlan) : Prop :=
  List.Forall₂ (TablePlan.Mirrors g) tables tables'

namespace MirrorsAll

/-- The handles are renamed position by position. -/
theorem map_id (h : MirrorsAll g tables tables') :
    tables'.map TablePlan.id = (tables.map TablePlan.id).map g := by
  induction h with
  | nil => rfl
  | cons hpq _ ih => rw [List.map_cons, List.map_cons, List.map_cons, ih, hpq.id_eq]

/-- Plans under other handles are drawn together with themselves alone. -/
theorem contracts (h : MirrorsAll g tables tables') (hlinks : Linked val wiring tables)
    (hinj : Set.InjOn g {id | id ∈ tables.map TablePlan.id}) : Contracts g tables tables' := by
  have hid : ∀ p ∈ tables, p.id ∈ {id | id ∈ tables.map TablePlan.id} :=
    fun p hp => List.mem_map_of_mem hp
  constructor
  -- Every plan corresponds to the one at its position, in both directions.
  · constructor
    · intro p hp
      obtain ⟨q, hq, hpq⟩ := exists_right_of_forall₂ h hp
      refine ⟨q, hq, hpq.id_eq, fun c hc => hpq.columns ▸ hc, fun t => (hpq.sources t).mpr, ?_⟩
      intro hpad
      rw [hpq.padding, hpad]
      rfl
    · intro q hq
      obtain ⟨p, hp, hpq⟩ := exists_left_of_forall₂ h hq
      exact ⟨p, hp, hpq.id_eq.symm⟩
    · intro q hq c hc
      obtain ⟨p, hp, hpq⟩ := exists_left_of_forall₂ h hq
      exact ⟨p, hp, hpq.id_eq.symm, hpq.columns ▸ hc⟩
    · intro q hq t ht
      obtain ⟨p, hp, hpq⟩ := exists_left_of_forall₂ h hq
      exact ⟨p, hp, hpq.id_eq.symm, (hpq.sources t).mp ht⟩
  -- Links correspond as well.
  · intro side p hp link hlink _
    obtain ⟨q, hq, hpq⟩ := exists_right_of_forall₂ h hp
    exact ⟨q, hq, hpq.id_eq, by rw [hpq.links, hlink]; rfl⟩
  · intro side q hq link hlink
    obtain ⟨p, hp, hpq⟩ := exists_left_of_forall₂ h hq
    rw [hpq.links, Option.map_eq_some_iff] at hlink
    obtain ⟨link', hlink', rfl⟩ := hlink
    refine ⟨p, hp, hpq.id_eq.symm, link', hlink', rfl, ?_⟩
    obtain ⟨s, hs, hst, hne, -⟩ := hlinks.answered side p hp link' hlink'
    -- No link leads from a plan to itself, since different handles stay different.
    rw [hpq.id_eq]
    intro heq
    exact hne (hinj (hid s hs) (hid p hp) (by rw [hst]; exact heq))

/-- Proper plans under other handles are tidy if the plans are. -/
theorem tidy (h : MirrorsAll g tables tables') (ht : Tidy db val wiring linked tables)
    (hinj : Set.InjOn g {id | id ∈ tables.map TablePlan.id})
    (hproper : ∀ q ∈ tables', q.Proper db val) : Tidy db val wiring linked tables' := by
  refine ht.contract (h.contracts ht.links hinj) ?_ ?_ hproper
  · rw [h.map_id]
    exact ht.nodup_ids.map_on fun a ha b hb => hinj ha hb
  · intro p hp q hq heq _ _ _ _ _ _
    exact ht.eq_of_id hp hq
      (hinj (List.mem_map_of_mem hp) (List.mem_map_of_mem hq) heq)

end MirrorsAll

/-- Plans under other handles with the same rows stand for the same rows. -/
theorem rowsOf_eq_of_mirrors (h : List.Forall₂ (fun p q => p.Mirrors g q ∧
      q.executable.rows db val = p.executable.rows db val) tables tables') :
    rowsOf db val tables' = rowsOf db val tables := by
  ext r
  rw [mem_rowsOf, mem_rowsOf]
  constructor
  · rintro ⟨hcov, hfits⟩
    constructor
    · intro x hx
      obtain ⟨q, hq, hc⟩ := hcov x hx
      obtain ⟨p, hp, hpq, -⟩ := exists_left_of_forall₂ h hq
      exact ⟨p, hp, hpq.columns ▸ hc⟩
    · intro p hp
      obtain ⟨q, hq, hpq, hrows⟩ := exists_right_of_forall₂ h hp
      exact (hpq.alike.fits hrows).mp (hfits q hq)
  · rintro ⟨hcov, hfits⟩
    constructor
    · intro x hx
      obtain ⟨p, hp, hc⟩ := hcov x hx
      obtain ⟨q, hq, hpq, -⟩ := exists_right_of_forall₂ h hp
      exact ⟨q, hq, hpq.columns ▸ hc⟩
    · intro q hq
      obtain ⟨p, hp, hpq, hrows⟩ := exists_left_of_forall₂ h hq
      exact (hpq.alike.fits hrows).mpr (hfits p hp)

end QueryPlan
