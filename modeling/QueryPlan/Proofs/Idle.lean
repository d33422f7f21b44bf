import QueryPlan.Proofs.Renamed

/-!
# Filters that are always true

- `Expr.Vacuous`: filters built from the literal TRUE alone.
- `SelfContained`: plans under handles of their own, with links to each other.
- `Idle`: a computation that leaves such plans as they are, up to handles, and uses up
  ids of caches.
- `idle_planOrWith`: an OR is planned idly if its sides are.
- `idle_planExpressionWith`: so a filter that is always true is.
-/

namespace QueryPlan

/-- An expression built from the literal TRUE by AND and OR. -/
inductive Expr.Vacuous : Expr → Prop where
  | true : Vacuous .true
  | and {left right : Expr} (hl : Vacuous left) (hr : Vacuous right) :
    Vacuous (.binary left .and right)
  | or {left right : Expr} (hl : Vacuous left) (hr : Vacuous right) :
    Vacuous (.binary left .or right)

theorem Expr.Vacuous.mentions_eq {e : Expr} (h : e.Vacuous) : e.mentions = [] := by
  induction h with
  | true => rfl
  | and _ _ ihLeft ihRight => rw [mentions, ihLeft, ihRight, List.append_nil]
  | or _ _ ihLeft ihRight => rw [mentions, ihLeft, ihRight, List.append_nil]

theorem Expr.Vacuous.references_eq {e : Expr} (h : e.Vacuous) : e.references = [] := by
  unfold references
  rw [h.mentions_eq]
  rfl

/-! ## The same plans under other handles -/

/-- Plans under handles of their own, which were given out before, with links to each other. -/
structure SelfContained (w : Workspace) : Prop where
  nodup : (w.set.tables.map TablePlan.id).Nodup
  given : ∀ p ∈ w.set.tables, p.id.number < w.context.supply.next
  targets : ∀ p ∈ w.set.tables, ∀ side link, p.linkOn side = some link → link.target ∈ w.set.ids

variable {w : Workspace} {g f : PlanId → PlanId} {s : TableSet}

/-- An untouched copy of the plan under another handle. -/
def TablePlan.copyUnder (g : PlanId → PlanId) (p : TablePlan) : TablePlan :=
  { p.rename g with touched := false }

/-- Names for handles: they differ, and they are from before `next`. -/
structure Names (g : PlanId → PlanId) (ids : List PlanId) (next : Nat) : Prop where
  differ : Set.InjOn g {i | i ∈ ids}
  given : ∀ i ∈ ids, (g i).number < next

theorem Names.comp {ids : List PlanId} {next next' : Nat} (h : Names g ids next)
    (h' : Names f (ids.map g) next') : Names (f ∘ g) ids next' := by
  have hmem : ∀ i ∈ ids, g i ∈ ids.map g := fun i hi => List.mem_map_of_mem hi
  refine ⟨fun i hi j hj heq => ?_, fun i hi => h'.given _ (hmem i hi)⟩
  exact h.differ hi hj (h'.differ (hmem i hi) (hmem j hj) heq)

theorem Names.mono {ids : List PlanId} {next next' : Nat} (h : Names g ids next)
    (hnext : next ≤ next') : Names g ids next' :=
  ⟨h.differ, fun i hi => (h.given i hi).trans_le hnext⟩

namespace SelfContained

/-- The handles are names of themselves. -/
theorem names_id (hw : SelfContained w) :
    Names (fun i => i) w.set.ids w.context.supply.next := by
  refine ⟨fun _ _ _ _ heq => heq, fun i hi => ?_⟩
  obtain ⟨p, hp, rfl⟩ := List.mem_map.mp hi
  exact hw.given p hp

/-- Plans with the same links under other handles are self-contained. -/
theorem follow {tables : List TablePlan} {hasJoins : Bool} {c : Context} (hw : SelfContained w)
    (hg : Names g w.set.ids c.supply.next)
    (hall : List.Forall₂ (fun p q => q.id = g p.id ∧
      ∀ side, q.linkOn side = (p.linkOn side).map (JoinLink.rename g)) w.set.tables tables) :
    SelfContained ⟨⟨tables, hasJoins⟩, c⟩ := by
  have hids : tables.map TablePlan.id = (w.set.tables.map TablePlan.id).map g := by
    rw [List.map_map]
    exact map_eq_of_forall₂ hall fun _ _ h => h.1
  refine ⟨?_, fun q hq => ?_, fun q hq side link hlink => ?_⟩
  · show (tables.map TablePlan.id).Nodup
    rw [hids]
    exact hw.nodup.map_on fun i hi j hj => hg.differ hi hj
  · obtain ⟨p, hp, hid, -⟩ := exists_left_of_forall₂ hall hq
    rw [hid]
    exact hg.given p.id (TableSet.mem_ids hp)
  · obtain ⟨p, hp, -, hlinks⟩ := exists_left_of_forall₂ hall hq
    rw [hlinks, Option.map_eq_some_iff] at hlink
    obtain ⟨link', hlink', rfl⟩ := hlink
    show g link'.target ∈ tables.map TablePlan.id
    rw [hids]
    exact List.mem_map_of_mem (hw.targets p hp side link' hlink')

/-- Renamed plans are self-contained. -/
theorem rename {c : Context} (hw : SelfContained w) (hg : Names g w.set.ids c.supply.next) :
    SelfContained ⟨w.set.rename g, c⟩ := by
  refine hw.follow hg ?_
  rw [List.forall₂_map_right_iff, List.forall₂_same]
  exact fun p _ => ⟨rfl, p.rename_linkOn g⟩

/-- Copies of self-contained plans are self-contained. -/
theorem copy {c : Context} (hw : SelfContained w) (hg : Names g w.set.ids c.supply.next) :
    SelfContained ⟨⟨w.set.tables.map (TablePlan.copyUnder g), false⟩, c⟩ := by
  refine hw.follow hg ?_
  rw [List.forall₂_map_right_iff, List.forall₂_same]
  exact fun p _ => ⟨rfl, p.rename_linkOn g⟩

/-- Plans stay self-contained when handles are used up. -/
theorem spend {c : Context} (hw : SelfContained w) (hc : w.context.supply.next ≤ c.supply.next) :
    SelfContained ⟨w.set, c⟩ :=
  ⟨hw.nodup, fun p hp => (hw.given p hp).trans_le hc, hw.targets⟩

/-- Plans that are perhaps cached are self-contained. -/
theorem sheltered {cached : List Bool} {tables : List TablePlan} {hasJoins : Bool} {c : Context}
    (hw : SelfContained w) (hlen : cached.length = tables.length)
    (hall : List.Forall₂ (fun p x => p.Sheltered x.1 x.2) w.set.tables (cached.zip tables))
    (hc : c.supply = w.context.supply) : SelfContained ⟨⟨tables, hasJoins⟩, c⟩ := by
  refine hw.follow (hc ▸ hw.names_id) (forall₂_of_sheltered hlen hall fun cached p q hpq => ?_)
  have hsame : q.id = p.id ∧ ∀ side, q.linkOn side = p.linkOn side := by
    unfold TablePlan.Sheltered at hpq
    cases cached with
    | true =>
      obtain ⟨k, rfl⟩ := hpq
      exact ⟨rfl, fun _ => rfl⟩
    | false =>
      obtain rfl := hpq
      exact ⟨rfl, fun _ => rfl⟩
  refine ⟨hsame.1, fun side => ?_⟩
  rw [hsame.2]
  cases p.linkOn side <;> rfl

end SelfContained

/-! ## Idle computations -/

/-- How many caches an OR puts on the plans. -/
def Workspace.uncachedPlans (w : Workspace) : Nat :=
  if w.context.cacheOrBranches then w.set.tables.countP fun p => !p.executable.isCache else 0

/-- The computation leaves the plans as they are, up to their handles. It uses up handles, and
ids of caches as `ors` ORs do. -/
def Idle (ors : Nat) (act : Planner Unit) : Prop :=
  ∀ w, SelfContained w → ∃ g next, Names g w.set.ids next ∧ w.context.supply.next ≤ next ∧
    act w = .ok () ⟨w.set.rename g, { w.context with
      cacheIds := w.context.cacheIds + ors * w.uncachedPlans, supply := ⟨next⟩ }⟩

namespace Idle

theorem pure : Idle 0 (Pure.pure ()) := by
  intro w hw
  refine ⟨fun i => i, w.context.supply.next, hw.names_id, le_rfl, ?_⟩
  rw [TableSet.rename_id, Nat.zero_mul, Nat.add_zero]
  rfl

/-- Idle computations in sequence are idle. -/
theorem bind {m n : Nat} {act act' : Planner Unit} (h : Idle m act) (h' : Idle n act') :
    Idle (m + n) (act >>= fun _ => act') := by
  intro w hw
  obtain ⟨g, next, hg, hnext, hact⟩ := h w hw
  obtain ⟨f, next', hf, hnext', hact'⟩ := h' _ (hw.rename (c := { w.context with
    cacheIds := w.context.cacheIds + m * w.uncachedPlans, supply := ⟨next⟩ }) hg)
  refine ⟨f ∘ g, next', hg.comp (w.set.rename_ids g ▸ hf), hnext.trans hnext', ?_⟩
  refine Planner.bind_ok.mpr ⟨(), _, hact, hact'.trans ?_⟩
  -- Renamed plans are cached as the plans themselves.
  have hcount : (w.set.rename g).tables.countP (fun p => !p.executable.isCache) =
      w.set.tables.countP fun p => !p.executable.isCache := by
    show (w.set.tables.map (TablePlan.rename g)).countP _ = _
    rw [List.countP_map]
    rfl
  have hsame : Workspace.uncachedPlans ⟨w.set.rename g, { w.context with
      cacheIds := w.context.cacheIds + m * w.uncachedPlans, supply := ⟨next⟩ }⟩ =
      w.uncachedPlans := by
    unfold Workspace.uncachedPlans
    rw [hcount]
  rw [TableSet.rename_rename, hsame, Nat.add_mul, Nat.add_assoc]

end Idle

/-! ## ORs -/

namespace Planner

/-- Self-contained plans are copied under fresh handles. -/
theorem copy_selfContained (hw : SelfContained w) :
    ∃ g, Names g w.set.ids (w.context.supply.next + w.set.tables.length) ∧
      copy w = .ok ⟨w.set.tables.map (TablePlan.copyUnder g), false⟩ { w with context :=
        { w.context with supply := ⟨w.context.supply.next + w.set.tables.length⟩ } } := by
  obtain ⟨set, hset⟩ : ∃ set, w.set.copyAs ((List.range w.set.tables.length).map
      fun i => (⟨w.context.supply.next + i⟩ : PlanId)) = .ok set :=
    exists_copyAs hw.targets (by simp)
  obtain ⟨g, hdiffer, hjoins, hall, hgiven⟩ := copyAs_fresh hw.nodup hset
  have hcopies := isCopy_of_copyAs (by simp) hset
  have htables : set.tables = w.set.tables.map (TablePlan.copyUnder g) := by
    rw [← List.forall₂_eq_eq_eq, List.forall₂_map_right_iff]
    refine List.Forall₂.flip (List.Forall₂.mp ?_ hall hcopies)
    rintro p q ⟨hmirrors, -⟩ hcopy
    rw [hcopy, hmirrors.id_eq, ← q.linkOn_left, ← q.linkOn_right, hmirrors.links, hmirrors.links]
    rfl
  refine ⟨g, ⟨hdiffer, fun i hi => ?_⟩, ?_⟩
  · obtain ⟨p, hp, rfl⟩ := List.mem_map.mp hi
    exact hgiven (p.copyUnder g) (htables ▸ List.mem_map_of_mem hp)
  · refine copy_ok.mpr ⟨?_, rfl⟩
    rw [← htables, ← hjoins]
    exact hset

end Planner

/-- The caches that are put on plans are as many as plans without one. -/
theorem cachePlans_snd (last : Nat) (tables : List TablePlan) :
    (cachePlans last tables).2 = last + tables.countP fun p => !p.executable.isCache := by
  induction tables generalizing last with
  | nil => rfl
  | cons p rest ih =>
    unfold cachePlans
    by_cases hcache : p.executable.isCache = true
    · rw [if_pos hcache, List.countP_cons_of_neg (by simpa using hcache)]
      exact ih last
    · rw [if_neg hcache, List.countP_cons_of_pos (by simpa using hcache)]
      exact (ih (last + 1)).trans (by omega)

theorem isCache_cachePlans (last : Nat) (tables : List TablePlan) :
    ∀ x ∈ (cachePlans last tables).1, x.2.executable.isCache = true := by
  induction tables generalizing last with
  | nil => exact List.forall_mem_nil _
  | cons p rest ih =>
    unfold cachePlans
    by_cases hcache : p.executable.isCache = true
    · rw [if_pos hcache]
      exact List.forall_mem_cons.mpr ⟨hcache, ih last⟩
    · rw [if_neg hcache]
      exact List.forall_mem_cons.mpr ⟨rfl, ih (last + 1)⟩

namespace Planner

/-- Caches are put on the plans for the sides of an OR, after which no further ones would be. -/
theorem cacheForSides_counted (w : Workspace) :
    ∃ cached tables, cacheForSides w = .ok cached ⟨⟨tables, w.set.hasJoins⟩,
        { w.context with cacheIds := w.context.cacheIds + w.uncachedPlans }⟩ ∧
      cached.length = tables.length ∧
      List.Forall₂ (fun p x => p.Sheltered x.1 x.2) w.set.tables (cached.zip tables) ∧
      (w.context.cacheOrBranches = true → ∀ p ∈ tables, p.executable.isCache = true) := by
  obtain ⟨cached, tables, hok, hcached⟩ : ∃ cached tables,
      cacheForSides w = .ok cached ⟨⟨tables, w.set.hasJoins⟩,
        { w.context with cacheIds := w.context.cacheIds + w.uncachedPlans }⟩ ∧
      (w.context.cacheOrBranches = true → ∀ p ∈ tables, p.executable.isCache = true) := by
    rw [cacheForSides_eq]
    unfold Workspace.uncachedPlans
    by_cases hon : w.context.cacheOrBranches = true
    · rw [if_pos hon, if_pos hon, ← cachePlans_snd]
      refine ⟨_, _, rfl, fun _ p hp => ?_⟩
      obtain ⟨x, hx, rfl⟩ := List.mem_map.mp hp
      exact isCache_cachePlans _ _ x hx
    · rw [if_neg hon, if_neg hon]
      exact ⟨_, _, rfl, fun h => absurd h hon⟩
  obtain ⟨-, -, hlen, hall⟩ := cacheForSides_ok hok
  exact ⟨cached, tables, hok, hlen, hall, hcached⟩

end Planner

/-- Copies that were not touched since fit together, position by position. -/
theorem mustReshape_copies (tables : List TablePlan) (f g : PlanId → PlanId) :
    mustReshape ⟨tables.map (TablePlan.copyUnder f), false⟩
      ⟨tables.map (TablePlan.copyUnder g), false⟩ = false := by
  have huntouched : ((tables.map (TablePlan.copyUnder f)).zip
      (tables.map (TablePlan.copyUnder g))).countP (fun x => x.1.touched || x.2.touched) = 0 := by
    rw [List.zip_map', List.countP_map, List.countP_eq_zero]
    exact fun p _ => Bool.false_ne_true
  refine mustReshape_eq_false_iff.mpr ⟨huntouched.trans_le (Nat.zero_le 1), ?_, rfl, rfl⟩
  rw [List.length_map, List.length_map]

/-- United, they are the plans as they were before they were perhaps cached. -/
theorem unitePositions_copies {before tables : List TablePlan} {cached : List Bool}
    (hlen : cached.length = tables.length)
    (hall : List.Forall₂ (fun p x => p.Sheltered x.1 x.2) before (cached.zip tables)) :
    unitePositions (cached.zip tables) (tables.map (TablePlan.copyUnder f))
      (tables.map (TablePlan.copyUnder g)) = before.map (TablePlan.rename f) := by
  -- The induction is on the plans. Neither copy is touched, so the left one is kept, without the
  -- cache if it got one.
  induction before generalizing cached tables with
  | nil =>
    rw [List.forall₂_nil_left_iff.mp hall]
    rfl
  | cons p rest ih =>
    obtain ⟨x, xs, hp, hrest, hzip⟩ := List.forall₂_cons_left_iff.mp hall
    cases cached with
    | nil => cases hzip
    | cons flag cached =>
      cases tables with
      | nil => cases hzip
      | cons q tables =>
        obtain ⟨rfl, rfl⟩ := List.cons.inj hzip
        have hone : unitePosition flag q (q.copyUnder f) (q.copyUnder g) = p.rename f := by
          have hp : p.Sheltered flag q := hp
          unfold TablePlan.Sheltered at hp
          cases flag with
          | true =>
            obtain ⟨k, rfl⟩ := hp
            rfl
          | false =>
            obtain rfl := hp
            rfl
        show unitePosition flag q (q.copyUnder f) (q.copyUnder g) :: _ = p.rename f :: _
        rw [hone]
        exact congrArg _ (ih (Nat.succ.inj hlen) hrest)

namespace Planner

variable {condition : ConditionPlanner} {m n : Nat} {planLeft planRight : Planner Unit}

/-- An idle computation over an untouched copy of plans that take no more caches. -/
theorem side_idle (h : Idle m planLeft) {tables : List TablePlan} {c : Context}
    (hside : SelfContained ⟨⟨tables.map (TablePlan.copyUnder g), false⟩, c⟩)
    (hcached : c.cacheOrBranches = true → ∀ p ∈ tables, p.executable.isCache = true) :
    ∃ f next, Names f ((tables.map TablePlan.id).map g) next ∧ c.supply.next ≤ next ∧
      planLeft ⟨⟨tables.map (TablePlan.copyUnder g), false⟩, c⟩ =
        .ok () ⟨⟨tables.map (TablePlan.copyUnder (f ∘ g)), false⟩,
          { c with supply := ⟨next⟩ }⟩ := by
  obtain ⟨f, next, hf, hnext, hact⟩ := h _ hside
  have hnone : Workspace.uncachedPlans ⟨⟨tables.map (TablePlan.copyUnder g), false⟩, c⟩ = 0 := by
    unfold Workspace.uncachedPlans
    split
    · rename_i hon
      rw [List.countP_map, List.countP_eq_zero]
      intro p hp
      have hcache : (p.copyUnder g).executable.isCache = true := hcached hon p hp
      simp only [Function.comp_apply, hcache, Bool.not_true, Bool.false_eq_true, not_false_iff]
    · rfl
  have hids : (tables.map TablePlan.id).map g = (tables.map (TablePlan.copyUnder g)).map
      TablePlan.id := by
    rw [List.map_map, List.map_map]
    rfl
  refine ⟨f, next, hids ▸ hf, hnext, hact.trans ?_⟩
  rw [hnone, Nat.mul_zero, Nat.add_zero]
  unfold TableSet.rename
  rw [List.map_map]
  -- Renaming a copy gives a copy under the other names.
  have hcopy : TablePlan.rename f ∘ TablePlan.copyUnder g = TablePlan.copyUnder (f ∘ g) :=
    funext fun p => congrArg (fun q : TablePlan => { q with touched := false })
      (p.rename_rename f g)
  rw [hcopy]

/-- An OR is planned idly if its sides are. -/
theorem idle_planOrWith (hl : Idle m planLeft) (hr : Idle n planRight) :
    Idle 1 (planOrWith condition planLeft planRight) := by
  intro w hw
  obtain ⟨cached, tables, hcaches, hlen, hall, hfull⟩ := cacheForSides_counted w
  have hw₁ : SelfContained ⟨⟨tables, w.set.hasJoins⟩, { w.context with
      cacheIds := w.context.cacheIds + w.uncachedPlans }⟩ := hw.sheltered hlen hall rfl
  obtain ⟨g, hg, hcopy⟩ := copy_selfContained hw₁
  obtain ⟨g', hg', hcopy'⟩ := copy_selfContained (hw₁.spend (c := { w.context with
    cacheIds := w.context.cacheIds + w.uncachedPlans
    supply := ⟨w.context.supply.next + tables.length⟩ }) (Nat.le_add_right _ _))
  obtain ⟨f, next, hf, hnext, hleft⟩ := side_idle hl (hw₁.copy (c := { w.context with
    cacheIds := w.context.cacheIds + w.uncachedPlans
    supply := ⟨w.context.supply.next + tables.length + tables.length⟩ })
      (hg.mono (Nat.le_add_right _ _))) hfull
  obtain ⟨f', next', -, hnext', hright⟩ := side_idle hr (hw₁.copy (c := { w.context with
    cacheIds := w.context.cacheIds + w.uncachedPlans, supply := ⟨next⟩ }) (hg'.mono hnext)) hfull
  -- The caches change no handle.
  have hids : tables.map TablePlan.id = w.set.ids := by
    refine map_eq_of_forall₂ (forall₂_of_sheltered hlen hall fun cached p q hpq => ?_)
      fun _ _ h => h
    exact hpq.follows.id_eq
  refine ⟨f ∘ g, next', ?_, ?_, ?_⟩
  · exact hids ▸ (hg.comp hf).mono hnext'
  · exact (Nat.le_add_right _ _).trans ((Nat.le_add_right _ _).trans (hnext.trans hnext'))
  -- The run itself: caches, two copies, both sides, and the union of what no side touched.
  · refine bind_ok.mpr ⟨_, _, hcaches, bind_ok.mpr ⟨_, _, current_ok.mpr ⟨rfl, rfl⟩, ?_⟩⟩
    refine bind_ok.mpr ⟨(_, _), _, bind_ok.mpr ⟨_, _, hcopy, bind_ok.mpr ⟨_, _, hcopy',
      bind_ok.mpr ⟨(_, _), _, within_ok.mpr ⟨_, hleft, rfl, rfl⟩,
        bind_ok.mpr ⟨(_, _), _, within_ok.mpr ⟨_, hright, rfl, rfl⟩, pure_ok.mpr ⟨rfl, rfl⟩⟩⟩⟩⟩, ?_⟩
    dsimp only
    rw [mustReshape_copies, if_neg Bool.false_ne_true, replaceSet_ok,
      unitePositions_copies hlen hall, Nat.one_mul]
    rfl

/-! ## Filters -/

/-- Predicates that stand for idle computations are applied idly. -/
theorem idle_applyAllWith {placed : List (Predicate × Planner Unit)}
    (h : ∀ y ∈ placed, (∃ e joinable, y.1 = .subLogic e joinable) ∧ Idle 1 y.2) :
    Idle placed.length (applyAllWith condition placed) := by
  induction placed with
  | nil => exact .pure
  | cons y rest ih =>
    obtain ⟨predicate, planOr⟩ := y
    obtain ⟨⟨⟨e, joinable, rfl⟩, hor⟩, hrest⟩ := List.forall_mem_cons.mp h
    rw [List.length_cons, Nat.add_comm]
    exact hor.bind (ih hrest)

end Planner

/-- The literal TRUE, or an OR that reads no column, with the computation that plans it idly. -/
inductive IdleConjunct : Expr × Planner Unit → Prop where
  | true (act : Planner Unit) : IdleConjunct (.true, act)
  | or {left right : Expr} {planOr : Planner Unit} (hleft : left.references = [])
    (hright : right.references = []) (hor : Idle 1 planOr) :
    IdleConjunct (.binary left .or right, planOr)

/-- ORs that read no column are classified as such, and TRUE as nothing. -/
theorem TableSet.classifyListed_idle (s : TableSet) {agenda : List (Expr × Planner Unit)}
    (h : ∀ x ∈ agenda, IdleConjunct x) :
    ∃ placed, s.classifyListed agenda = .ok placed ∧
      placed.length = agenda.countP (fun x => x.1.isOr) ∧
      ∀ y ∈ placed, (∃ e joinable, y.1.2 = .subLogic e joinable) ∧ Idle 1 y.2 := by
  induction agenda with
  | nil => exact ⟨[], rfl, rfl, List.forall_mem_nil _⟩
  | cons x rest ih =>
    obtain ⟨hx, hrest⟩ := List.forall_mem_cons.mp h
    obtain ⟨placed, hplaced, hlength, hall⟩ := ih hrest
    cases hx with
    | true act =>
      exact ⟨placed, except_bind_ok.mpr ⟨none, rfl, except_bind_ok.mpr ⟨_, hplaced, rfl⟩⟩, hlength,
        hall⟩
    | @or left right planOr hleft hright hor =>
      have hone : s.classifyOne (.binary left .or right) =
          .ok (some (.subLogic, .subLogic (.binary left .or right) Bool.true)) := by
        show (s.classifySubLogic (.binary left .or right)).map _ = _
        have hread : s.readOnePlan none [left, right] = .ok Bool.true := by
          simp only [readOnePlan, hleft, hright, List.isEmpty_nil, if_true]
        have hclass : s.classifySubLogic (.binary left .or right) =
            .ok (.subLogic (.binary left .or right) Bool.true) :=
          except_bind_ok.mpr ⟨_, hread, rfl⟩
        rw [hclass]
        rfl
      refine ⟨(_, planOr) :: placed,
        except_bind_ok.mpr ⟨_, hone, except_bind_ok.mpr ⟨_, hplaced, rfl⟩⟩, ?_,
        List.forall_mem_cons.mpr ⟨⟨⟨_, _, rfl⟩, hor⟩, hall⟩⟩
      rw [List.length_cons, hlength, List.countP_cons_of_pos rfl]

namespace Planner

variable {condition : ConditionPlanner}

theorem idle_planAgendaWith {agenda : List (Expr × Planner Unit)}
    (h : ∀ x ∈ agenda, IdleConjunct x) :
    Idle (agenda.countP fun x => x.1.isOr) (planAgendaWith condition agenda) := by
  intro w hw
  obtain ⟨placed, hplaced, hlength, hall⟩ := w.set.classifyListed_idle h
  have hidle : Idle (agenda.countP fun x => x.1.isOr) (applyAllWith condition
      ((sortBy (fun a b => Predicate.comesBefore a.1 b.1) placed).map
        fun (placed, a) => (placed.2, a))) := by
    rw [sortBy_eq_insertionSort, ← hlength, ← List.length_insertionSort
      (fun a b => Predicate.comesBefore a.1 b.1 = true) placed, ← List.length_map]
    refine idle_applyAllWith ?_
    rw [List.forall_mem_map]
    exact fun y hy => hall y ((List.mem_insertionSort _).mp hy)
  obtain ⟨g, next, hg, hnext, hact⟩ := hidle w hw
  refine ⟨g, next, hg, hnext, bind_ok.mpr ⟨_, _, ask_ok.mpr ⟨?_, rfl⟩, hact⟩⟩
  exact except_bind_ok.mpr ⟨placed, hplaced, rfl⟩

theorem idle_runAgendaWith {agenda : List (Expr × Planner Unit)}
    (h : ∀ x ∈ agenda, IdleConjunct x) :
    Idle (agenda.countP fun x => x.1.isOr) (runAgendaWith condition agenda) := by
  by_cases hone : ∃ l r planOr, agenda = [(.binary l .or r, planOr)]
  · obtain ⟨l, r, planOr, rfl⟩ := hone
    have hx := h _ (List.mem_singleton_self _)
    cases hx with
    | or _ _ hor => exact hor
  · rw [runAgendaWith_eq hone]
    exact idle_planAgendaWith h

theorem idle_agendaWith {e : Expr} (h : e.Vacuous) :
    ∀ x ∈ agendaWith condition e, IdleConjunct x := by
  induction h with
  | true => exact List.forall_mem_singleton.mpr (.true _)
  | @and left right _ _ ihLeft ihRight =>
    show ∀ x ∈ agendaWith condition left ++ agendaWith condition right, IdleConjunct x
    exact List.forall_mem_append.mpr ⟨ihLeft, ihRight⟩
  | or hl hr ihLeft ihRight =>
    exact List.forall_mem_singleton.mpr (.or hl.references_eq hr.references_eq
      (idle_planOrWith (idle_runAgendaWith ihLeft) (idle_runAgendaWith ihRight)))

/-- A filter that is always true is planned idly. -/
theorem idle_planExpressionWith {e : Expr} (h : e.Vacuous) :
    Idle (e.conjuncts.countP Expr.isOr) (planExpressionWith condition e) := by
  rw [← map_fst_agendaWith condition e, List.countP_map]
  exact idle_runAgendaWith (idle_agendaWith h)

end Planner

end QueryPlan
