import QueryPlan.Proofs.Lookups
import QueryPlan.Proofs.Regroups

/-!
# Sets whose columns are resolved

- `Owned`: a column that just one plan exposes.
- `Resolvable`: a condition that can be planned over copies of two plans.
- `JoinLink.Fits`: a link whose condition can be planned, and reads no columns of
  other plans than the two that it joins.
- `Scoped`: a sound set of which some columns are owned, and whose links fit.
- `Scoped.step`: steps keep a set scoped.
- `Planner.Spares`: a computation does not fail for want of a single owner of a
  column, or for a full join.
- `spares_joinEverythingWith`, `spares_joinReadersWith`: over a scoped set, joins
  do not.
-/

namespace QueryPlan

/-! ## Failures that do not come up -/

namespace Planner

/-- The computation does not fail with one of the errors that are expected of planning. -/
def Spares {α : Type} (act : Planner α) (w : Workspace) : Prop :=
  ∀ e w', act w = .error e w' → ¬ e.Expected

variable {α β : Type} {w w' : Workspace} {act : Planner α}

/-- A computation that only fails as expected succeeds if it does not. -/
theorem Meets.succeeds {post : α → Workspace → Prop} (h : Meets act w post)
    (hspares : Spares act w) :
    ∃ a w', act w = .ok a w' ∧ post a w' := by
  cases hact : act w with
  | ok a w' => exact ⟨a, w', rfl, h.ok hact⟩
  | error e w' => exact absurd (h.expected hact) (hspares e w' hact)

/-- A sequence fails in its first part, or in the second after the first. -/
theorem bind_error {x : Planner α} {f : α → Planner β} {e : PlanError} :
    (x >>= f) w = .error e w' ↔
      x w = .error e w' ∨ ∃ a w₁, x w = .ok a w₁ ∧ f a w₁ = .error e w' := by
  show EStateM.bind x f w = _ ↔ _
  unfold EStateM.bind
  cases x w <;> simp

namespace Spares

/-- A sequence does not fail as expected if neither of its parts does. -/
theorem bind {x : Planner α} {f : α → Planner β} (hx : Spares x w)
    (hf : ∀ a w₁, x w = .ok a w₁ → Spares (f a) w₁) : Spares (x >>= f) w := by
  intro e w' h
  rcases bind_error.mp h with h | ⟨a, w₁, hok, h⟩
  · exact hx e w' h
  · exact hf a w₁ hok e w' h

theorem pure (a : α) : Spares (Pure.pure a) w := by
  rintro e w' ⟨⟩

theorem throw {e : PlanError} (he : ¬ e.Expected) : Spares (throw e : Planner α) w := by
  rintro _ _ ⟨⟩
  exact he

theorem modify (f : Workspace → Workspace) : Spares (modify f : Planner PUnit) w := by
  rintro e w' ⟨⟩

/-- To read the set fails only as the reading does. -/
theorem ask {f : TableSet → Except PlanError α} (hf : ∀ e, f w.set = .error e → ¬ e.Expected) :
    Spares (ask f) w := by
  intro e w' h
  unfold Planner.ask at h
  rcases bind_error.mp h with h | ⟨set, w₁, hcurrent, h⟩
  · cases h
  · obtain ⟨rfl, rfl⟩ := current_ok.mp hcurrent
    cases hset : f w₁.set with
    | ok a =>
      rw [hset] at h
      cases h
    | error e' =>
      rw [hset] at h
      cases h
      exact hf e hset

theorem current : Spares Planner.current w := by
  rintro e w' ⟨⟩

theorem freshId : Spares Planner.freshId w := by
  rintro e w' ⟨⟩

theorem nextMarker : Spares Planner.nextMarker w := by
  rintro e w' ⟨⟩

/-- To look for a handle does not fail for want of a column. -/
theorem require (id : PlanId) : Spares (Planner.ask fun set => set.require id) w := by
  refine ask fun e h => ?_
  unfold TableSet.require at h
  split at h
  · cases h
  · cases h
    rintro ⟨⟩

/-- A plan that is looked up is in the set, or missing, which is another failure. -/
theorem bind_require {id : PlanId} {f : TablePlan → Planner α}
    (hf : ∀ p ∈ w.set.tables, p.id = id → Spares (f p) w) :
    Spares (Planner.ask (fun set => set.require id) >>= f) w := by
  refine (require id).bind fun p _ h => ?_
  obtain ⟨h, rfl⟩ := ask_ok.mp h
  obtain ⟨hp, hid⟩ := TableSet.mem_of_get? (require_ok.mp h)
  exact hf p hp hid

theorem bind_current {f : TableSet → Planner α} (hf : Spares (f w.set) w) :
    Spares (Planner.current >>= f) w := by
  refine current.bind fun set _ h => ?_
  obtain ⟨rfl, rfl⟩ := current_ok.mp h
  exact hf

theorem changePlan (id : PlanId) (f : TablePlan → TablePlan) :
    Spares (Planner.changePlan id f) w :=
  (require id).bind fun _ _ _ => modify _

/-- A run over another set. -/
theorem within {inner : TableSet} (h : Spares act { w with set := inner }) :
    Spares (Planner.within inner act) w := by
  intro e w' hact
  unfold Planner.within at hact
  cases hinner : act { w with set := inner } with
  | ok a w₁ =>
    rw [hinner] at hact
    cases hact
  | error e' w₁ =>
    rw [hinner] at hact
    cases hact
    exact h e w₁ hinner

/-- A run over another set, and what comes after it. -/
theorem bind_within {inner : TableSet} {f : α × TableSet → Planner β}
    (h : Spares act { w with set := inner })
    (hf : ∀ a w₁, act { w with set := inner } = .ok a w₁ →
      Spares (f (a, w₁.set)) { w₁ with set := w.set }) :
    Spares (Planner.within inner act >>= f) w := by
  refine (within h).bind fun x w' hwithin => ?_
  obtain ⟨a, set⟩ := x
  obtain ⟨w₁, hact, rfl, rfl⟩ := within_ok.mp hwithin
  exact hf a w₁ hact

/-- A merge only fails for want of a plan. -/
theorem merge (left right : PlanId) (build : PlanNode → PlanNode → PlanNode) :
    Spares (Planner.merge left right build) w := by
  refine (require left).bind fun l w₁ _ => (modify _).bind fun _ w₂ _ => ?_
  refine current.bind fun set w₃ _ => ?_
  dsimp only
  split
  · refine (modify _).bind fun _ _ _ => throw ?_
    rintro ⟨⟩
  · exact freshId.bind fun _ _ _ => (modify _).bind fun _ _ _ => pure _

/-- A mark is named unless for a full join. -/
theorem newMark {joinType : JoinType} (h : joinType ≠ .full) (left right : PlanId) :
    Spares (Planner.newMark joinType left right) w := by
  cases joinType with
  | inner => exact pure _
  | left => exact nextMarker.bind fun _ _ _ => pure _
  | right => exact nextMarker.bind fun _ _ _ => pure _
  | full => exact absurd rfl h

/-- A plan to be marked may be missing at most. -/
theorem putMark (marked : Option (PlanId × String)) : Spares (Planner.putMark marked) w := by
  cases marked with
  | none => exact pure _
  | some x => exact changePlan _ _

/-- A plan to be copied may be missing at most. -/
theorem detachPair (left right : PlanId) : Spares (Planner.detachPair left right) w :=
  (require left).bind fun _ _ _ => freshId.bind fun _ _ _ => (require right).bind fun _ _ _ =>
    freshId.bind fun _ _ _ => pure _

end Spares

end Planner

/-! ## Columns with an owner -/

/-- Whether just one of the plans exposes a column. -/
def Owned (tables : List TablePlan) (c : ColumnName) : Prop :=
  ∃ p ∈ tables, p.exposes c = true ∧ ∀ q ∈ tables, q.exposes c = true → q.id = p.id

variable {P : Option Expr → Prop} {condition : ConditionPlanner} {w w' : Workspace}
  {tables : List TablePlan} {c : ColumnName} {read : List ColumnName} {l r a b : TablePlan}

/-- A column is owned if exactly one plan exposes it. -/
theorem owned_iff (hnodup : (tables.map TablePlan.id).Nodup) :
    Owned tables c ↔ (tables.countP fun p => p.exposes c) = 1 := by
  constructor
  · rintro ⟨p, hp, hexposes, honly⟩
    exact countP_exposes_of_id hnodup hp hexposes honly
  · intro hone
    rw [List.countP_eq_length_filter, List.length_eq_one_iff] at hone
    obtain ⟨p, hp⟩ := hone
    have hmem : ∀ q, q ∈ [p] ↔ q ∈ tables ∧ q.exposes c = true := fun q => hp ▸ List.mem_filter
    obtain ⟨hpmem, hexposes⟩ := (hmem p).mp (List.mem_singleton_self p)
    refine ⟨p, hpmem, hexposes, fun q hq hqc => ?_⟩
    rw [List.mem_singleton.mp ((hmem q).mpr ⟨hq, hqc⟩)]

/-- All plans that expose a column with an owner are the owner. -/
theorem Owned.id_eq (h : Owned tables c) (ha : a ∈ tables) (hac : a.exposes c = true)
    (hb : b ∈ tables) (hbc : b.exposes c = true) : a.id = b.id := by
  obtain ⟨o, -, -, honly⟩ := h
  exact (honly a ha hac).trans (honly b hb hbc).symm

/-- A column with an owner is found. -/
theorem Owned.owner {set : TableSet} (h : Owned set.tables c)
    (hnodup : (set.tables.map TablePlan.id).Nodup) : ∃ id, set.owner c = .ok id := by
  have hone := (owned_iff hnodup).mp h
  rw [List.countP_eq_length_filter, List.length_eq_one_iff] at hone
  obtain ⟨p, hp⟩ := hone
  exact ⟨p.id, owner_ok_iff.mpr ⟨p, hp, rfl⟩⟩

/-! ## Links that fit -/

/-- The columns that a condition reads, those that its nested queries read of it included. -/
def readsOf (on : Option Expr) : List ColumnName := on.elim [] Predicate.readsWithOuter

/-- Copies of two plans, without links, in a context after `c`. -/
def pairOf (l r : TablePlan) (c : Context) : Workspace :=
  ⟨⟨[l.detached ⟨c.supply.next⟩, r.detached ⟨c.supply.next + 1⟩], true⟩,
    { c with supply := ⟨c.supply.next + 2⟩ }⟩

/-- The condition can be planned over copies of any two plans that expose what `l` and `r` expose of
the columns that it reads. -/
def Resolvable (condition : ConditionPlanner) (on : Option Expr) (l r : TablePlan) : Prop :=
  ∀ x y c, (∀ column ∈ readsOf on, x.exposes column = l.exposes column ∧
    y.exposes column = r.exposes column) → Planner.Spares (condition on) (pairOf x y c)

/-- A link is between two plans, not one. -/
theorem JoinLink.Between.ne {link : JoinLink} (h : link.Between l r) (hanswered : Answered tables)
    (hl : l ∈ tables) (hr : r ∈ tables) : l.id ≠ r.id := by
  rcases h with ⟨hlink, htarget⟩ | ⟨hlink, htarget⟩
  · exact fun heq => hanswered.target_ne hl hlink (htarget.trans heq.symm)
  · exact fun heq => hanswered.target_ne hr hlink (htarget.trans heq)

/-- A link between `l` and `r` can be planned: it is no full join, and its condition can be planned
and reads no columns of other plans. -/
structure JoinLink.Fits (condition : ConditionPlanner) (tables : List TablePlan) (link : JoinLink)
    (l r : TablePlan) : Prop where
  notFull : link.joinType ≠ .full
  only : ∀ column ∈ readsOf link.on, ∀ p ∈ tables, p.exposes column = true →
    p.id = l.id ∨ p.id = r.id
  resolvable : Resolvable condition link.on l r

/-- A sound set where each of the columns `read` has an owner, and all links can be planned. -/
structure Scoped (P : Option Expr → Prop) (condition : ConditionPlanner) (read : List ColumnName)
    (w : Workspace) : Prop where
  sound : Sound P w
  owned : ∀ c ∈ read, Owned w.set.tables c
  fits : ∀ l ∈ w.set.tables, ∀ r ∈ w.set.tables, ∀ link : JoinLink, link.Between l r →
    link.Fits condition w.set.tables l r

namespace Scoped

/-- Where plans stand for those of a scoped set, columns still have owners, and links can still be
planned. -/
theorem regroup {g : PlanId → PlanId} (h : Scoped P condition read w)
    (hg : Regroups g w.set.tables w'.set.tables) (hw' : Sound P w') :
    Scoped P condition read w' := by
  have heq : ∀ {p q}, p ∈ w.set.tables → q ∈ w.set.tables → p.id = q.id → p = q :=
    h.sound.answered.eq_of_id
  refine ⟨hw', fun c hc => ?_, fun l' hl' r' hr' link' hbetween => ?_⟩
  · obtain ⟨p, hp, hexposes, honly⟩ := h.owned c hc
    obtain ⟨q, hq, hid⟩ := hg.mem p hp
    refine ⟨q, hq, (hg.exposes q hq c).mpr ⟨p, hp, hid.symm, hexposes⟩, fun q' hq' hexposes' => ?_⟩
    obtain ⟨p', hp', hid', hexposes'⟩ := (hg.exposes q' hq' c).mp hexposes'
    rw [← hid', hid, honly p' hp' hexposes']
  · -- The link is one of the links before, between plans that the two stand for.
    obtain ⟨l, hl, r, hr, link, hlink, hlid, hrid, htype, hon⟩ : ∃ l ∈ w.set.tables,
        ∃ r ∈ w.set.tables, ∃ link : JoinLink, link.Between l r ∧ g l.id = l'.id ∧ g r.id = r'.id ∧
          link'.joinType = link.joinType ∧ link'.on = link.on := by
      rcases hbetween with ⟨hlink', htarget⟩ | ⟨hlink', htarget⟩
      · obtain ⟨l, hl, hlid, link, hlink, rfl⟩ := hg.links _ l' hl' link' hlink'
        obtain ⟨r, hr, hrid, -⟩ := h.sound.answered.back _ l hl link hlink
        exact ⟨l, hl, r, hr, link, Or.inl ⟨hlink, hrid.symm⟩, hlid, hrid ▸ htarget, rfl, rfl⟩
      · obtain ⟨r, hr, hrid, link, hlink, rfl⟩ := hg.links _ r' hr' link' hlink'
        obtain ⟨l, hl, hlid, -⟩ := h.sound.answered.back _ r hr link hlink
        exact ⟨l, hl, r, hr, link, Or.inr ⟨hlink, hlid.symm⟩, hlid ▸ htarget, hrid, rfl, rfl⟩
    have hne : l'.id ≠ r'.id := hbetween.ne hw'.answered hl' hr'
    have hfits := h.fits l hl r hr link hlink
    -- A condition reads columns of its own two plans,
    have honly : ∀ column ∈ readsOf link.on, ∀ p ∈ w.set.tables, p.exposes column = true →
        p = l ∨ p = r := fun column hc p hp hexposes =>
      (hfits.only column hc p hp hexposes).imp (heq hp hl) (heq hp hr)
    refine ⟨htype ▸ hfits.notFull, fun column hc q hq hexposes => ?_, ?_⟩
    · rw [hon] at hc
      obtain ⟨p, hp, hpq, hexposes⟩ := (hg.exposes q hq column).mp hexposes
      rw [← hpq, ← hlid, ← hrid]
      rcases honly column hc p hp hexposes with rfl | rfl
      · exact Or.inl rfl
      · exact Or.inr rfl
    -- and the plans that these went into expose no others of them.
    · intro x y c hxy
      rw [hon] at hxy ⊢
      refine hfits.resolvable x y c fun column hc => ?_
      obtain ⟨hx, hy⟩ := hxy column hc
      rw [hx, hy]
      constructor
      · refine hg.exposes_eq hl hl' hlid fun p hp hpl hexposes => ?_
        refine (honly column hc p hp hexposes).resolve_right ?_
        rintro rfl
        exact hne (hpl.symm.trans hrid)
      · refine hg.exposes_eq hr hr' hrid fun p hp hpr hexposes => ?_
        refine (honly column hc p hp hexposes).resolve_left ?_
        rintro rfl
        exact hne (hlid.symm.trans hpr)

/-- Without links there are none that would have to fit. -/
theorem of_unlinked (hw : Unlinked w) (howned : ∀ c ∈ read, Owned w.set.tables c) :
    Scoped (fun _ => False) condition read w := by
  refine ⟨hw, howned, fun l hl r hr link hlink => ?_⟩
  rcases hlink with ⟨hlink, -⟩ | ⟨hlink, -⟩
  · rw [hw.linkOn_eq_none hl] at hlink
    cases hlink
  · rw [hw.linkOn_eq_none hr] at hlink
    cases hlink

/-- Steps keep a set scoped. -/
theorem step (h : Scoped P condition read w) (hsteps : Steps False w w') :
    Scoped P condition read w' := by
  obtain ⟨g, hg⟩ := hsteps.regroups h.sound
  exact h.regroup hg (hsteps.sound h.sound)

/-- A set stays scoped while more names are used up. -/
theorem extend (h : Scoped P condition read w) {c : Context} (hc : w.context.Extends c) :
    Scoped P condition read ⟨w.set, c⟩ :=
  ⟨h.sound.extend hc, h.owned, h.fits⟩

/-- A copy of a scoped set is scoped. -/
theorem copied {copy : TableSet} {c : Context} (h : Scoped P condition read w)
    (hcopy : w.set.Copied copy c) : Scoped P condition read ⟨copy, c⟩ := by
  obtain ⟨g, hg⟩ := hcopy.regroups h.sound.answered.nodup
  exact h.regroup hg (h.sound.copied hcopy)

end Scoped

/-! ## Joins -/

/-- A marked plan exposes the same columns. -/
theorem TablePlan.withMark_exposes (marked : Option (PlanId × String)) (p : TablePlan)
    (column : ColumnName) : (p.withMark marked).exposes column = p.exposes column := by
  unfold exposes
  rw [withMark_columns]

namespace Planner

/-- Two plans are joined by a link that fits. -/
theorem spares_joinLinkedWith {link : JoinLink} (hw : Scoped P condition read w)
    (hl : l ∈ w.set.tables) (hr : r ∈ w.set.tables)
    (hfits : link.Fits condition w.set.tables l r) :
    Spares (joinLinkedWith condition link.joinType link.on l.id r.id) w := by
  unfold joinLinkedWith
  refine (Spares.newMark hfits.notFull _ _).bind fun marked w₁ hmark => ?_
  obtain ⟨c, rfl⟩ := exists_context_of_newMark hmark
  refine (Spares.putMark marked).bind fun _ w₂ hput => ?_
  obtain rfl := putMark_ok hput
  refine (Spares.detachPair _ _).bind fun pair w₃ hdetach => ?_
  obtain ⟨rfl, rfl⟩ :=
    (meets_detachMarked marked hw.sound hl hr (newMark_extends hmark)).ok hdetach
  refine (Spares.within ?_).bind fun x _ _ => .merge _ _ _
  refine hfits.resolvable (l.withMark marked) (r.withMark marked) c fun column _ => ?_
  exact ⟨l.withMark_exposes marked column, r.withMark_exposes marked column⟩

/-- Two plans of a scoped set are joined. -/
theorem spares_joinPairWith (hw : Scoped P condition read w) (first second : PlanId) :
    Spares (joinPairWith condition first second) w := by
  unfold joinPairWith
  refine .bind_require fun a ha hfirst => .bind_require fun b hb hsecond => ?_
  cases hbetween : linkBetween a b with
  | some sided =>
    obtain ⟨l, r, hsides, hleft, hright, hlink⟩ := between_of_linkBetween hbetween
    simp only [hleft, hright]
    rcases hsides with ⟨rfl, rfl⟩ | ⟨rfl, rfl⟩
    · exact spares_joinLinkedWith hw ha hb (hw.fits _ ha _ hb _ hlink)
    · exact spares_joinLinkedWith hw hb ha (hw.fits _ hb _ ha _ hlink)
  | none =>
    cases hclash : clash a b with
    | safe =>
      exact .merge _ _ _
    | left =>
      exact .throw (by rintro ⟨⟩)
    | right =>
      exact .throw (by rintro ⟨⟩)

variable (hlaw : ConditionLaw False P condition)

include hlaw

/-- To resolve a plan does not fail as expected of planning, whatever the fuel. -/
theorem spares_resolveWithin (fuel : Nat) {id : PlanId} (hw : Scoped P condition read w) :
    Spares (resolveWithin condition fuel id) w := by
  induction fuel generalizing w id with
  | zero => exact .throw (by rintro ⟨⟩)
  | succ fuel ih =>
    unfold resolveWithin
    refine .bind_require fun plan hplan hid => ?_
    obtain rfl := hid
    cases hpad : plan.nullPaddedBy? with
    | none => exact .pure _
    | some partner =>
      have hlinked := isLinkedTo_of_nullPaddedBy hpad
      obtain ⟨q, hq, rfl, hne⟩ := exists_of_isLinkedTo hw.sound hplan hlinked
      refine (spares_joinPairWith hw _ _).bind fun merged w₁ hmerged => ?_
      exact ih (hw.step ((meets_joinPairWith hlaw hw.sound hplan hq hne (Or.inl hlinked)).ok
        hmerged).steps)

/-- To resolve a plan does not fail as expected of planning. -/
theorem spares_resolveWith {id : PlanId} (hw : Scoped P condition read w) :
    Spares (resolveWith condition id) w := by
  unfold resolveWith
  exact .bind_current (spares_resolveWithin hlaw _ hw)

theorem spares_joinAllWithin (fuel : Nat) {working : List PlanId} (hw : Scoped P condition read w)
    (hnodup : working.Nodup) (hmem : ∀ i ∈ working, i ∈ w.set.ids) :
    Spares (joinAllWithin condition fuel working) w := by
  -- The induction is on the fuel. Each round leaves a scoped set, and a list of plans of it.
  induction fuel generalizing w working with
  | zero =>
    unfold joinAllWithin
    rcases working with _ | ⟨first, _ | ⟨second, rest⟩⟩
    · exact .pure _
    · exact .pure _
    · exact .throw (by rintro ⟨⟩)
  | succ fuel ih =>
    have hround : ∀ {keep : PlanId → Bool} {id : PlanId} {w₁ : Workspace},
        Round False w working keep id w₁ →
        Spares (joinAllWithin condition fuel (id :: working.filter keep)) w₁ := fun h =>
      ih (hw.step h.steps) (h.nodup hw.sound hmem hnodup) h.subset
    unfold joinAllWithin
    rcases working with _ | ⟨first, _ | ⟨second, rest⟩⟩
    · exact .pure _
    · exact .pure _
    · refine .bind_require fun a ha hfirst => .bind_require fun b hb hsecond => ?_
      obtain rfl := hfirst
      obtain rfl := hsecond
      have hab : a.id ≠ b.id := fun heq =>
        (List.nodup_cons.mp hnodup).1 (heq ▸ List.mem_cons_self)
      cases hnext : nextJoin a b with
      | resolve padded =>
        obtain ⟨p, hp, rfl, hpad⟩ := padded_of_nextJoin ha hb hnext
        refine (spares_resolveWith hlaw hw).bind fun resolved w₁ hres => .bind_current ?_
        exact hround (.of_resolves ((meets_resolveWith hlaw hw.sound
          (TableSet.mem_ids hp)).ok hres) hp hpad)
      | join partner =>
        obtain ⟨q, hq, rfl, hne', hjoin⟩ := partner_of_nextJoin hw.sound ha hb hab hnext
        refine (spares_joinPairWith hw _ _).bind fun merged w₁ hmerged => ?_
        exact hround (.of_merges ((meets_joinPairWith hlaw hw.sound ha hq hne' hjoin).ok hmerged)
          hmem)

/-- To join some plans of the set does not fail as expected of planning. -/
theorem spares_joinSomeWith {working : List PlanId} (hw : Scoped P condition read w)
    (hnodup : working.Nodup) (hmem : ∀ i ∈ working, i ∈ w.set.ids) :
    Spares (joinSomeWith condition working) w := by
  unfold joinSomeWith joinAllWith
  refine (Spares.bind_current (spares_joinAllWithin hlaw _ hw hnodup hmem)).bind fun o _ _ => ?_
  cases o with
  | none => exact .throw (by rintro ⟨⟩)
  | some id => exact .pure id

theorem spares_joinEverythingWith (hw : Scoped P condition read w) :
    Spares (joinEverythingWith condition) w :=
  .bind_current (spares_joinSomeWith hlaw hw hw.sound.answered.nodup fun _ h => h)

/-! ### Owners -/

omit hlaw in
/-- A column with an owner is found. -/
theorem spares_owner (hw : Scoped P condition read w) (hc : c ∈ read) :
    Spares (ask fun set => set.owner c) w := by
  obtain ⟨id, hid⟩ := (hw.owned c hc).owner hw.sound.answered.nodup
  refine .ask fun e he => ?_
  rw [hid] at he
  cases he

/-- A column that is owned has an owner. -/
theorem spares_ownerWith (hw : Scoped P condition read w) (hc : c ∈ read) :
    Spares (ownerWith condition c) w := by
  refine (spares_owner hw hc).bind fun id w₁ hok => ?_
  obtain ⟨-, rfl⟩ := ask_ok.mp hok
  exact spares_resolveWith hlaw hw

/-- Columns that are all owned have owners. -/
theorem spares_resolveOwnersWith {columns : List ColumnName} (hw : Scoped P condition read w)
    (hcolumns : ∀ c ∈ columns, c ∈ read) : Spares (resolveOwnersWith condition columns) w := by
  induction columns generalizing w with
  | nil => exact .pure _
  | cons column rest ih =>
    rw [List.forall_mem_cons] at hcolumns
    rw [resolveOwnersWith_cons]
    refine (spares_ownerWith hlaw hw hcolumns.1).bind fun _ w₁ hok => ?_
    exact ih (hw.step ((meets_ownerWith hlaw hw.sound column).ok hok).1) hcolumns.2

omit hlaw in
/-- To look up the owners of columns among `read` does not fail as expected of planning. -/
theorem spares_owners {columns : List ColumnName} (hw : Scoped P condition read w)
    (hcolumns : ∀ c ∈ columns, c ∈ read) :
    Spares (columns.mapM fun column => ask fun set => set.owner column) w := by
  induction columns with
  | nil => exact .pure _
  | cons column rest ih =>
    rw [List.forall_mem_cons] at hcolumns
    rw [List.mapM_cons]
    refine (spares_owner hw hcolumns.1).bind fun id _ hok => ?_
    obtain ⟨-, rfl⟩ := ask_ok.mp hok
    exact (ih hcolumns.2).bind fun _ _ _ => .pure _

/-- To join the owners of columns among `read` does not fail as expected of planning. -/
theorem spares_joinReadersWith {columns : List ColumnName} (hw : Scoped P condition read w)
    (hcolumns : ∀ c ∈ columns, c ∈ read) : Spares (joinReadersWith condition columns) w := by
  unfold joinReadersWith
  cases columns with
  | nil => exact spares_joinEverythingWith hlaw hw
  | cons column rest =>
    refine (spares_resolveOwnersWith hlaw hw hcolumns).bind fun _ w₁ hresolve => ?_
    have hw₁ := hw.step ((meets_resolveOwnersWith hlaw hw.sound _).ok hresolve)
    refine (spares_owners hw₁ hcolumns).bind fun ids w₂ howners => ?_
    obtain ⟨rfl, -, hids⟩ := (meets_owners _).ok howners
    exact spares_joinSomeWith hlaw hw₁ (nodup_distinct ids) fun i hi => hids i (mem_distinct.mp hi)

end Planner

end QueryPlan
