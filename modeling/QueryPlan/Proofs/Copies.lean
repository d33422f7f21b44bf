import Mathlib.Data.List.Zip
import QueryPlan.Filter
import QueryPlan.Proofs.Select

/-!
# Copies of a set

- `copyAs_plans`, `Planner.copy_ok`: how a copy is made.
- `copyAs_ok`: a copy has the same plans under other handles.
- `copyAs_fresh`: so has a copy under fresh handles.
- `copy_yields`: such a copy stands for the same rows.
- `Planner.cacheForSides_eq`, `cacheForSides_ok`: what caches are put on the plans of a set.
- `cacheForSides_yields`: with these, the set stands for the same rows.
- `mustReshape_eq_false_iff`: when the sides of an OR fit together.
-/

namespace QueryPlan

universe u

variable {V : Type u} {db : Database V} {val : Valuation V} {wiring : Wiring} {linked : Bool}

/-! ## Lists -/

/-- A list that is mapped without a failure corresponds to its image. -/
theorem forall₂_of_mapM_ok {ε α β : Type} {f : α → Except ε β} {as : List α} {bs : List β}
    (h : as.mapM f = .ok bs) : List.Forall₂ (fun a b => f a = .ok b) as bs := by
  induction as generalizing bs with
  | nil =>
    rw [List.mapM_nil] at h
    cases h
    exact .nil
  | cons a rest ih =>
    rw [List.mapM_cons, except_bind_ok] at h
    obtain ⟨b, hb, h⟩ := h
    rw [except_bind_ok] at h
    obtain ⟨others, hothers, h⟩ := h
    cases h
    exact .cons hb (ih hothers)

theorem forall₂_of_zip {α β γ : Type} {R : α × β → γ → Prop} {as : List α} {bs : List β}
    {cs : List γ} (hlen : as.length = bs.length) (h : List.Forall₂ R (as.zip bs) cs) :
    List.Forall₂ (fun a c => ∃ b, (a, b) ∈ as.zip bs ∧ R (a, b) c) as cs := by
  induction as generalizing bs cs with
  | nil =>
    rw [List.zip_nil_left] at h
    cases h
    exact .nil
  | cons a as ih =>
    cases bs with
    | nil => cases hlen
    | cons b bs =>
      rw [List.zip_cons_cons] at h ⊢
      cases h with
      | cons hab h =>
        refine .cons ⟨b, List.mem_cons_self, hab⟩ ?_
        refine (ih (Nat.succ.inj hlen) h).imp ?_
        rintro x c ⟨y, hy, hR⟩
        exact ⟨y, List.mem_cons_of_mem _ hy, hR⟩

/-- Among distinct names, the one of an entry finds it. -/
theorem lookup_of_mem {α β : Type} [DecidableEq α] {l : List (α × β)}
    (h : (l.map Prod.fst).Nodup) {a : α} {b : β} (hmem : (a, b) ∈ l) : l.lookup a = some b := by
  induction l with
  | nil => cases hmem
  | cons x rest ih =>
    rw [List.map_cons, List.nodup_cons] at h
    rcases List.mem_cons.mp hmem with rfl | hmem
    · exact List.lookup_cons_self
    · have hne : a ≠ x.1 := by
        rintro rfl
        exact h.1 (List.mem_map.mpr ⟨_, hmem, rfl⟩)
      rw [List.lookup_cons, beq_false_of_ne hne]
      exact ih h.2 hmem

/-! ## The same plans under other handles -/

/-- The new handle of an old one. -/
def newName (names : List (PlanId × PlanId)) (id : PlanId) : PlanId := (names.lookup id).getD id

/-- A link that could be renamed has the new name of its target. -/
theorem renameLink_ok {names : List (PlanId × PlanId)} {o o' : Option JoinLink}
    (h : TableSet.renameLink names o = .ok o') : o' = o.map (JoinLink.rename (newName names)) := by
  cases o with
  | none =>
    cases h
    rfl
  | some link =>
    unfold TableSet.renameLink at h
    cases hlookup : names.lookup link.target with
    | none =>
      simp only [hlookup] at h
      cases h
    | some target =>
      simp only [hlookup] at h
      cases h
      rw [Option.map_some]
      unfold JoinLink.rename newName
      rw [hlookup]
      rfl

/-- A copy is made plan by plan. -/
theorem copyAs_plans {set copy : TableSet} {ids : List PlanId} (h : set.copyAs ids = .ok copy) :
    copy.hasJoins = false ∧ List.Forall₂ (fun (x : TablePlan × PlanId) q => ∃ left right,
      TableSet.renameLink (set.ids.zip ids) x.1.left = .ok left ∧
        TableSet.renameLink (set.ids.zip ids) x.1.right = .ok right ∧
          q = { x.1.detached x.2 with left, right }) (set.tables.zip ids) copy.tables := by
  unfold TableSet.copyAs at h
  rw [except_bind_ok] at h
  obtain ⟨tables, hall, h⟩ := h
  cases h
  refine ⟨rfl, (forall₂_of_mapM_ok hall).imp ?_⟩
  rintro ⟨p, i⟩ q hq
  rw [except_bind_ok] at hq
  obtain ⟨left, hleft, hq⟩ := hq
  rw [except_bind_ok] at hq
  obtain ⟨right, hright, hq⟩ := hq
  cases hq
  exact ⟨left, right, hleft, hright, rfl⟩

/-- The planner copies its set under fresh handles. -/
theorem Planner.copy_ok {w w' : Workspace} {copy : TableSet} : Planner.copy w = .ok copy w' ↔
    w.set.copyAs ((List.range w.set.tables.length).map
        fun i => (⟨w.context.supply.next + i⟩ : PlanId)) = .ok copy ∧
      w' = { w with context :=
        { w.context with supply := ⟨w.context.supply.next + w.set.tables.length⟩ } } := by
  unfold Planner.copy
  simp only [Planner.bind_ok, Planner.current_ok, Planner.freshIds_ok, Planner.ask_ok]
  constructor
  · rintro ⟨_, w, ⟨rfl, rfl⟩, ids, _, ⟨rfl, rfl⟩, h, rfl⟩
    exact ⟨h, rfl⟩
  · rintro ⟨h, rfl⟩
    exact ⟨_, w, ⟨rfl, rfl⟩, _, _, ⟨rfl, rfl⟩, h, rfl⟩

/-- `q` is an untouched copy of `p`. -/
structure TablePlan.Copies (p q : TablePlan) : Prop where
  alike : p.Alike q
  executable : q.executable = p.executable
  untouched : q.touched = false

theorem copyAs_ok {set set' : TableSet} {ids : List PlanId}
    (hnodup : (set.tables.map TablePlan.id).Nodup) (hids : ids.Nodup)
    (hlen : set.tables.length = ids.length) (h : set.copyAs ids = .ok set') :
    ∃ g, Set.InjOn g {id | id ∈ set.tables.map TablePlan.id} ∧ set'.hasJoins = false ∧
      List.Forall₂ (fun p q => p.Mirrors g q ∧ p.Copies q ∧ q.id ∈ ids) set.tables set'.tables := by
  obtain ⟨hjoins, hall⟩ := copyAs_plans h
  have hkeys : ((set.ids.zip ids).map Prod.fst).Nodup := by
    rw [List.map_fst_zip (by rw [TableSet.ids, List.length_map, hlen])]
    exact hnodup
  -- The new name of a plan is the handle at its position.
  have hname : ∀ p i, (p, i) ∈ set.tables.zip ids → newName (set.ids.zip ids) p.id = i := by
    intro p i hmem
    have hmem' : (p.id, i) ∈ set.ids.zip ids := by
      rw [TableSet.ids, List.zip_map_left]
      exact List.mem_map.mpr ⟨(p, i), hmem, rfl⟩
    unfold newName
    rw [lookup_of_mem hkeys hmem']
    rfl
  refine ⟨newName (set.ids.zip ids), ?_, hjoins, ?_⟩
  · -- Old handles at one position are the same.
    have hkeys' : ((ids.zip set.tables).map Prod.fst).Nodup := by
      rw [List.map_fst_zip (le_of_eq hlen.symm)]
      exact hids
    have hposition : ∀ p ∈ set.tables, ∃ i, (p, i) ∈ set.tables.zip ids := by
      intro p hp
      rw [← List.map_fst_zip (le_of_eq hlen)] at hp
      obtain ⟨⟨p', i⟩, hmem, rfl⟩ := List.mem_map.mp hp
      exact ⟨i, hmem⟩
    have hswap : ∀ p i, (p, i) ∈ set.tables.zip ids → (i, p) ∈ ids.zip set.tables := by
      intro p i hmem
      rw [← List.zip_swap]
      exact List.mem_map.mpr ⟨(p, i), hmem, rfl⟩
    rintro a ha b hb heq
    obtain ⟨p, hp, rfl⟩ := List.mem_map.mp ha
    obtain ⟨q, hq, rfl⟩ := List.mem_map.mp hb
    obtain ⟨i, hi⟩ := hposition p hp
    obtain ⟨j, hj⟩ := hposition q hq
    rw [hname p i hi, hname q j hj] at heq
    subst heq
    have hfirst := lookup_of_mem hkeys' (hswap p i hi)
    rw [lookup_of_mem hkeys' (hswap q i hj), Option.some.injEq] at hfirst
    rw [hfirst]
  -- Each copy has the links of its plan, with their targets renamed.
  · refine (forall₂_of_zip hlen hall).imp ?_
    rintro p q ⟨i, hmem, left, right, hleft, hright, rfl⟩
    have hlinks : ∀ side, (({ p.detached i with left, right } : TablePlan)).linkOn side =
        (p.linkOn side).map (JoinLink.rename (newName (set.ids.zip ids))) := by
      intro side
      cases side
      · exact renameLink_ok hleft
      · exact renameLink_ok hright
    refine ⟨⟨(hname p i hmem).symm, rfl, fun _ => Iff.rfl, hlinks⟩,
      ⟨⟨rfl, fun _ => Iff.rfl, fun side => ?_⟩, rfl, rfl⟩, (List.of_mem_zip hmem).2⟩
    rw [hlinks, Option.map_map]
    rfl

/-- A copy under fresh handles. -/
theorem copyAs_fresh {set copy : TableSet} {first : Nat}
    (hnodup : (set.tables.map TablePlan.id).Nodup)
    (h : set.copyAs ((List.range set.tables.length).map fun i => (⟨first + i⟩ : PlanId)) =
      .ok copy) :
    ∃ g, Set.InjOn g {id | id ∈ set.tables.map TablePlan.id} ∧ copy.hasJoins = false ∧
      List.Forall₂ (fun p q => p.Mirrors g q ∧ p.Copies q) set.tables copy.tables ∧
      ∀ q ∈ copy.tables, q.id.number < first + set.tables.length := by
  have hids : ((List.range set.tables.length).map fun i => (⟨first + i⟩ : PlanId)).Nodup := by
    refine List.nodup_range.map ?_
    intro a b hab
    exact Nat.add_left_cancel (PlanId.mk.inj hab)
  obtain ⟨g, hinj, hjoins, hall⟩ := copyAs_ok hnodup hids (by simp) h
  refine ⟨g, hinj, hjoins, hall.imp fun _ _ h => ⟨h.1, h.2.1⟩, fun q hq => ?_⟩
  obtain ⟨p, -, -, -, hin⟩ := exists_left_of_forall₂ hall hq
  obtain ⟨i, hi, hid⟩ := List.mem_map.mp hin
  rw [← hid]
  exact Nat.add_lt_add_left (List.mem_range.mp hi) _

/-- A copy under fresh handles stands for the same rows. -/
theorem copy_yields {w w' : Workspace} {set : TableSet} (hw : Ready db val wiring linked w)
    (h : Planner.copy w = .ok set w') :
    Yields db val wiring linked (fun _ => True) w ⟨set, w'.context⟩ ∧ w'.set = w.set ∧
      set.hasJoins = false ∧ List.Forall₂ TablePlan.Copies w.set.tables set.tables := by
  obtain ⟨hcopy, rfl⟩ := Planner.copy_ok.mp h
  obtain ⟨g, hinj, hjoins, hall, hgiven⟩ := copyAs_fresh hw.tidy.nodup_ids hcopy
  have hmirrors : MirrorsAll g w.set.tables set.tables := hall.imp fun _ _ h => h.1
  have hcopies : List.Forall₂ TablePlan.Copies w.set.tables set.tables := hall.imp fun _ _ h => h.2
  -- A copy has the very trees of the set.
  have htrees : set.trees = w.set.trees := by
    refine (List.forall₂_eq_eq_eq ▸ ?_ : set.trees = w.set.trees)
    unfold TableSet.trees
    rw [List.forall₂_map_left_iff, List.forall₂_map_right_iff]
    exact hcopies.flip.imp fun _ _ h => h.executable
  have hcontext : w.context.Extends
      { w.context with supply := ⟨w.context.supply.next + w.set.tables.length⟩ } :=
    ⟨Nat.le_add_right _ _, ⟨_, le_rfl, rfl⟩, rfl⟩
  refine ⟨⟨⟨?_, hgiven, ?_, hw.distinct⟩, hcontext, ?_,
    exposed_of_forall₂ (hmirrors.imp fun _ _ h => h.columns), Or.inr ?_⟩, rfl, hjoins, hcopies⟩
  -- The copies are proper plans, since the plans are.
  · refine hmirrors.tidy hw.tidy hinj ?_
    intro q hq
    obtain ⟨p, hp, hpq⟩ := exists_left_of_forall₂ hcopies hq
    obtain ⟨hnodup, hcols, hover⟩ := hw.tidy.proper p hp
    constructor
    · rw [hpq.alike.columns]
      exact hnodup
    · rw [hpq.alike.columns, hpq.executable]
      exact hcols
    · rw [hpq.alike.columns, hpq.executable]
      exact hover
  · intro mark hmark t ht
    exact hw.unmarked mark hmark t (htrees ▸ ht)
  · rw [htrees]
    exact .refl _ _
  · ext r
    rw [Set.mem_ofPred_eq, and_true]
    unfold TableSet.rows
    rw [rowsOf_eq_of_mirrors (hall.imp fun p q h => ⟨h.1, by rw [h.2.executable]⟩)]

/-! ## Caches -/

/-- `q` is `p`, with a cache on its tree if `cached`. -/
def TablePlan.Sheltered (cached : Bool) (p q : TablePlan) : Prop :=
  if cached then ∃ k, q = p.updateQuietly (.cache · k) else q = p

/-- A plan that a cache may have been put on is dressed, with the same rows. -/
theorem TablePlan.Sheltered.dresses {cached : Bool} {p q : TablePlan} (h : p.Sheltered cached q) :
    p.Dresses db q ∧ q.executable.rows db val = p.executable.rows db val := by
  unfold Sheltered at h
  cases cached with
  | true =>
    obtain ⟨k, rfl⟩ := h
    exact ⟨⟨rfl, rfl, rfl, rfl, .cache _ k, rfl⟩, rfl⟩
  | false =>
    obtain rfl := h
    exact ⟨.refl q, rfl⟩

/-- The caches for the sides of an OR are put on plans so. -/
theorem sheltered_cachePlans (last : Nat) (tables : List TablePlan) :
    List.Forall₂ (fun p x => p.Sheltered x.1 x.2) tables (cachePlans last tables).1 := by
  induction tables generalizing last with
  | nil => exact .nil
  | cons plan rest ih =>
    unfold cachePlans
    by_cases hcache : plan.executable.isCache = true
    · rw [if_pos hcache]
      exact .cons rfl (ih last)
    · rw [if_neg hcache]
      exact .cons ⟨last + 1, rfl⟩ (ih (last + 1))

/-- For the sides of an OR, all plans without a cache get one, or none does. -/
theorem Planner.cacheForSides_eq (w : Workspace) :
    cacheForSides w =
      if w.context.cacheOrBranches then
        let cached := cachePlans w.context.cacheIds w.set.tables
        .ok (cached.1.map Prod.fst)
          ⟨⟨cached.1.map Prod.snd, w.set.hasJoins⟩, { w.context with cacheIds := cached.2 }⟩
      else .ok (w.set.tables.map fun _ => false) w := by
  obtain ⟨set, markers, last, cacheOrBranches, supply⟩ := w
  cases cacheOrBranches <;> rfl

/-- What the caches for the sides of an OR are, and that only cache ids are used up for them. -/
theorem cacheForSides_ok {w w' : Workspace} {cached : List Bool}
    (h : Planner.cacheForSides w = .ok cached w') :
    (∃ cacheIds, w'.context = { w.context with cacheIds }) ∧ w'.set.hasJoins = w.set.hasJoins ∧
      cached.length = w'.set.tables.length ∧
      List.Forall₂ (fun p x => p.Sheltered x.1 x.2) w.set.tables (cached.zip w'.set.tables) := by
  rw [Planner.cacheForSides_eq] at h
  split at h <;> cases h
  · refine ⟨⟨_, rfl⟩, rfl, by simp, ?_⟩
    rw [List.zip_map', List.map_id']
    exact sheltered_cachePlans w.context.cacheIds w.set.tables
  · refine ⟨⟨_, rfl⟩, rfl, by simp, ?_⟩
    rw [← List.map_prod_right_eq_zip, List.forall₂_map_right_iff, List.forall₂_same]
    exact fun _ _ => rfl

/-- What holds of a plan and the plan that is perhaps cached holds position by position. -/
theorem forall₂_of_sheltered {R : TablePlan → TablePlan → Prop} {cached : List Bool}
    {tables tables' : List TablePlan} (hlen : cached.length = tables'.length)
    (h : List.Forall₂ (fun p x => p.Sheltered x.1 x.2) tables (cached.zip tables'))
    (hR : ∀ cached p q, p.Sheltered cached q → R p q) : List.Forall₂ R tables tables' := by
  have hsnd : (cached.zip tables').map Prod.snd = tables' := List.map_snd_zip (le_of_eq hlen.symm)
  rw [← hsnd, List.forall₂_map_right_iff]
  exact h.imp fun p (x : Bool × TablePlan) hpx => hR x.1 p x.2 hpx

/-- Caches on the plans change no rows. -/
theorem cacheForSides_yields {w w' : Workspace} {cached : List Bool}
    (hw : Ready db val wiring linked w) (h : Planner.cacheForSides w = .ok cached w') :
    Yields db val wiring linked (fun _ => True) w w' ∧ w'.set.hasJoins = w.set.hasJoins ∧
      cached.length = w'.set.tables.length ∧
      List.Forall₂ (fun p x => p.Sheltered x.1 x.2) w.set.tables (cached.zip w'.set.tables) := by
  obtain ⟨⟨cacheIds, hcacheIds⟩, hjoins, hlen, hall⟩ := cacheForSides_ok h
  -- Caches use up numbers of their own and no name of a mark.
  have hcontext : w.context.Extends w'.context := by
    rw [hcacheIds]
    exact ⟨le_rfl, ⟨_, le_rfl, rfl⟩, rfl⟩
  have htables : List.Forall₂ (fun p q => p.Dresses db q ∧
      q.executable.rows db val = p.executable.rows db val) w.set.tables w'.set.tables :=
    forall₂_of_sheltered hlen hall fun _ _ _ h => h.dresses
  have hdress : List.Forall₂ (TablePlan.Dresses db) w.set.tables w'.set.tables :=
    htables.imp fun _ _ h => h.1
  have hready : Ready db val wiring linked { w with set := w'.set } := by
    refine hw.dress hdress ?_
    intro q hq r hr
    obtain ⟨p, hp, hpq, hrows⟩ := exists_left_of_forall₂ htables hq
    rw [hrows] at hr
    rw [hpq.columns]
    exact (hw.tidy.proper p hp).rows_over r hr
  refine ⟨⟨hready.extend hcontext, hcontext, grows_of_dresses _ hdress,
    exposed_of_forall₂ (hdress.imp fun _ _ h => h.columns), Or.inr ?_⟩, hjoins, hlen, hall⟩
  ext r
  rw [Set.mem_ofPred_eq, and_true]
  unfold TableSet.rows
  rw [rowsOf_eq_of_mirrors (htables.imp fun p q h => ⟨h.1.mirrors, h.2⟩)]

/-! ## Sides that fit -/

/-- The sides of an OR fit together, position by position, if one position at most was touched
and no plans were joined. -/
theorem mustReshape_eq_false_iff {left right : TableSet} : mustReshape left right = false ↔
    (left.tables.zip right.tables).countP (fun x => x.1.touched || x.2.touched) ≤ 1 ∧
      left.tables.length = right.tables.length ∧ left.hasJoins = false ∧
      right.hasJoins = false := by
  unfold mustReshape
  simp only [Bool.or_eq_false_iff, decide_eq_false_iff_not, not_lt, bne_eq_false_iff_eq, and_assoc]

/-- Two sides of one position each, without joins, are united as they are. -/
theorem not_mustReshape_of_single {left right : TableSet} (hl : left.hasJoins = false)
    (hr : right.hasJoins = false) (hlen : left.tables.length = 1)
    (hlen' : right.tables.length = 1) : mustReshape left right = false := by
  refine mustReshape_eq_false_iff.mpr
    ⟨List.countP_le_length.trans ?_, hlen.trans hlen'.symm, hl, hr⟩
  rw [List.length_zip, hlen, hlen', Nat.min_self]

end QueryPlan
