import Mathlib.Algebra.GroupWithZero.Nat
import QueryPlan.Proofs.Names
import QueryPlan.Proofs.Uncached

/-!
# Caches are shared

A cache is put on a plan so that both sides of an OR read the same rows once. Where
neither side touched the plan it would be read once only, and is taken off again.

- `PlanNode.caches`: how often a tree has a cache with an id.
- `TablePlan.SharesCache`, `HasCache`: two plans, or some of several, have such a cache.
- `Moves.hasCache`: moves keep the ids that were given before, position by position
  until plans are joined.
- `Moves.caches_ne_one`: no id is left that occurs only once in a tree.
- `planQuery_cachesShared`: in the tree of a filter, caches with one id are the same,
  there are several of them, and none is right over another.
-/

namespace QueryPlan

namespace PlanNode

/-- How many caches with the id are in the tree. -/
def caches (id : Nat) (tree : PlanNode) : Nat :=
  tree.count fun node => node.name? = some (.cache id)

variable {id : Nat} {tree input node l r : PlanNode}

/-- The caches with an id of a tree are those of its inputs, and the tree itself if it is one. -/
theorem caches_eq (id : Nat) (tree : PlanNode) : tree.caches id =
    (tree.children.map (caches id)).sum + if tree.name? = some (.cache id) then 1 else 0 := by
  unfold caches count
  rw [walk_eq, List.countP_cons, List.countP_flatMap]
  simp only [decide_eq_true_eq]
  rfl

/-- What is no cache has no id. -/
theorem name_ne_cache (h : tree.isCache = false) (id : Nat) : tree.name? ≠ some (.cache id) := by
  intro hname
  cases tree <;> cases hname
  cases h

/-- A node over one input that is no cache adds none. -/
theorem caches_of_only (hcache : tree.isCache = false) (hchildren : tree.children = [input]) :
    tree.caches id = input.caches id := by
  rw [caches_eq, if_neg (name_ne_cache hcache id), hchildren]
  simp

/-- A node over two inputs that is no cache has those of both. -/
theorem caches_of_both (hcache : tree.isCache = false) (hchildren : tree.children = [l, r]) :
    tree.caches id = l.caches id + r.caches id := by
  rw [caches_eq, if_neg (name_ne_cache hcache id), hchildren]
  simp

/-- A cache adds itself to those with its id. -/
theorem caches_cache (input : PlanNode) (id' : Nat) :
    (PlanNode.cache input id').caches id = input.caches id + if id' = id then 1 else 0 := by
  rw [caches_eq]
  simp [children, name?]

/-- A tree without caches has none with any id. -/
theorem Cacheless.caches_eq_zero (h : tree.Cacheless) (id : Nat) : tree.caches id = 0 := by
  unfold caches count
  rw [List.countP_eq_zero]
  intro node hnode
  rw [decide_eq_true_eq]
  exact name_ne_cache (h node hnode) id

/-- A selection over nested queries without caches adds none. -/
theorem caches_of_filters (h : input.Filters Cacheless node) :
    node.caches id = input.caches id := by
  cases h with
  | anyAll query =>
    rw [caches_of_both rfl rfl, query.caches_eq_zero, Nat.add_zero]
  | _ => exact caches_of_only rfl rfl

/-- A join has the caches of both its inputs. -/
theorem caches_of_joined (h : node.joined? = some (l, r)) :
    node.caches id = l.caches id + r.caches id := by
  cases node <;> cases h <;> exact caches_of_both rfl rfl

theorem caches_union (l r : PlanNode) :
    (PlanNode.union l r).caches id = l.caches id + r.caches id :=
  caches_of_both rfl rfl

/-- An outer join adds no caches. -/
theorem caches_addBack (marked : Option (PlanId × String)) (tree : PlanNode) :
    (Planner.addBack marked tree).caches id = tree.caches id := by
  cases marked with
  | none => rfl
  | some x => exact caches_of_only rfl rfl

end PlanNode

/-- A mark adds no caches. -/
theorem TablePlan.caches_withMark (marked : Option (PlanId × String)) (p : TablePlan) (id : Nat) :
    (p.withMark marked).executable.caches id = p.executable.caches id := by
  rcases p.withMark_eq marked with h | ⟨mark, h⟩ <;> rw [h]
  exact PlanNode.caches_of_only rfl rfl

/-- Another order of the columns adds no caches. -/
theorem TablePlan.caches_reordered (order : List ColumnName) (p : TablePlan) (id : Nat) :
    (p.reordered order).executable.caches id = p.executable.caches id := by
  unfold reordered
  split
  · rfl
  · exact PlanNode.caches_of_only rfl rfl

variable {or : Prop} {P : Option Expr → Prop} {w w₁ w' : Workspace} {id : Nat}
  {cached : List Bool} {left right : TableSet} {c : Context} {tables tables' : List TablePlan}

/-! ## Ids that were given before -/

/-- Both plans have a cache with the id in their trees, or neither. -/
def TablePlan.SharesCache (id : Nat) (p q : TablePlan) : Prop :=
  0 < q.executable.caches id ↔ 0 < p.executable.caches id

/-- Some plan has a cache with the id in its tree. -/
def HasCache (id : Nat) (tables : List TablePlan) : Prop :=
  ∃ p ∈ tables, 0 < p.executable.caches id

@[simp] theorem hasCache_cons {p : TablePlan} :
    HasCache id (p :: tables) ↔ 0 < p.executable.caches id ∨ HasCache id tables := by
  simp [HasCache]

@[simp] theorem hasCache_nil : ¬ HasCache id [] := by
  simp [HasCache]

/-- Plans that share a cache position by position have it or do not have it together. -/
theorem hasCache_of_forall₂ (h : List.Forall₂ (TablePlan.SharesCache id) tables tables') :
    HasCache id tables' ↔ HasCache id tables := by
  induction h with
  | nil => rfl
  | cons hpq _ ih =>
    rw [hasCache_cons, hasCache_cons, ih]
    exact or_congr_left hpq

/-- A cache of two plans that become one is in the merged plan. -/
theorem hasCache_mergedTables {l r : TablePlan} {m : PlanId} {tree : PlanNode} (hw : Handled P w)
    (hl : l ∈ w.set.tables) (hr : r ∈ w.set.tables)
    (htree : 0 < tree.caches id ↔ HasCache id [l, r]) :
    HasCache id (mergedTables w.set.tables l r m tree) ↔ HasCache id w.set.tables := by
  rw [hasCache_cons, hasCache_cons, or_iff_left hasCache_nil] at htree
  constructor
  · rintro ⟨q, hq, hpos⟩
    rcases mem_mergedTables.mp hq with ⟨p, hp, -, -, rfl⟩ | rfl
    · exact ⟨p, hp, hpos⟩
    · rcases htree.mp hpos with hpos | hpos
      · exact ⟨l, hl, hpos⟩
      · exact ⟨r, hr, hpos⟩
  · rintro ⟨p, hp, hpos⟩
    rcases eq_or_eq_or_beside hw.nodup hl hr hp with rfl | rfl | ⟨hpl, hpr⟩
    · exact ⟨_, mergedPlan_mem, htree.mpr (Or.inl hpos)⟩
    · exact ⟨_, mergedPlan_mem, htree.mpr (Or.inr hpos)⟩
    · exact ⟨_, retarget_mem hp hpl hpr, hpos⟩

/-- A filtered plan shares the caches of the plan. -/
theorem TablePlan.Filtered.sharesCache {p q : TablePlan} (h : p.Filtered PlanNode.Cacheless q) :
    p.SharesCache id q := by
  unfold SharesCache
  rcases h with rfl | ⟨tree, htree, rfl⟩
  · rfl
  · show 0 < tree.caches id ↔ _
    rw [PlanNode.caches_of_filters htree]

/-- A copy shares the caches of the plan. -/
theorem TablePlan.IsCopy.sharesCache {p q : TablePlan} (h : p.IsCopy q) : p.SharesCache id q := by
  unfold SharesCache
  rw [h.executable]

/-- A cache that a plan gets for the sides of an OR has an id that no other node has. -/
theorem TablePlan.Wraps.sharesCache {last newLast : Nat} {p : TablePlan} {x : Bool × TablePlan}
    (h : p.Wraps last newLast x) (hid : id ≤ last) : p.SharesCache id x.2 := by
  unfold SharesCache
  cases h with
  | bare => rfl
  | @cached id' _ lower =>
    show 0 < (PlanNode.cache p.executable id').caches id ↔ _
    rw [PlanNode.caches_cache, if_neg (by omega), Nat.add_zero]

namespace Opened

/-- The plans for the sides of an OR have the caches that were there before. -/
theorem hasCache_wrapped (h : Opened w cached w₁ left right c) (hw : Handled P w)
    (hid : id ≤ w.context.cacheIds) : HasCache id w₁.set.tables ↔ HasCache id w.set.tables := by
  refine hasCache_of_forall₂ ?_
  rw [← List.map_snd_zip (le_of_eq (h.sides hw).length_cached.symm), List.forall₂_map_right_iff]
  exact h.wraps.2.imp fun _ _ hpx => hpx.sharesCache hid

/-- Both sides of an OR start with the caches of these plans. -/
theorem hasCache_copies (h : Opened w cached w₁ left right c) (hw : Handled P w) :
    (HasCache id left.tables ↔ HasCache id w₁.set.tables) ∧
      (HasCache id right.tables ↔ HasCache id w₁.set.tables) := by
  have hs := h.sides hw
  exact ⟨hasCache_of_forall₂ (hs.copiesLeft.imp fun _ _ hpq => hpq.sharesCache),
    hasCache_of_forall₂ (hs.copiesRight.imp fun _ _ hpq => hpq.sharesCache)⟩

/-- Where the sides of an OR are united, a cache that either had before is in both, and a plan that
neither touched is as before. -/
theorem caches_united {l r : Workspace} (h : Opened w cached w₁ left right c) (hw : Handled P w)
    (hl : List.Forall₂ (fun q y => q.Rests y ∧ q.SharesCache id y) left.tables l.set.tables)
    (hr : List.Forall₂ (fun s z => s.Rests z ∧ s.SharesCache id z) right.tables r.set.tables) :
    List.Forall₂ (fun p q => q.executable = p.executable ∨ q.executable.caches id ≠ 1 ∧
        (id ≤ w.context.cacheIds → p.SharesCache id q)) w.set.tables
      (unitePositions (cached.zip w₁.set.tables) l.set.tables r.set.tables) := by
  refine h.forall₂_united hw hl hr fun p x q s y z hpx hcopy hqy hcopy' hsz => ?_
  rcases hpx.united (r := z) hcopy hqy.1 with heq | ⟨htree, -⟩
  · refine Or.inr ?_
    have hq : 0 < q.executable.caches id ↔ 0 < x.2.executable.caches id := hcopy.sharesCache
    have hs : 0 < s.executable.caches id ↔ 0 < x.2.executable.caches id := hcopy'.sharesCache
    have hy : 0 < y.executable.caches id ↔ 0 < q.executable.caches id := hqy.2
    have hz : 0 < z.executable.caches id ↔ 0 < s.executable.caches id := hsz.2
    have hsum : (unitePosition x.1 x.2 y z).executable.caches id =
        y.executable.caches id + z.executable.caches id := by
      rw [heq]
      exact PlanNode.caches_union _ _
    unfold TablePlan.SharesCache
    rw [hsum]
    refine ⟨by omega, fun hid => ?_⟩
    have hx : 0 < x.2.executable.caches id ↔ 0 < p.executable.caches id := hpx.sharesCache hid
    omega
  · exact Or.inl htree

end Opened

/-- A cache that both sides of an OR have, once joined into one plan each, is several times in their
union. -/
theorem caches_union_reordered {x y : TablePlan} (order : List ColumnName)
    (hx : HasCache id [x] ↔ HasCache id tables) (hy : HasCache id [y] ↔ HasCache id tables) :
    let tree := PlanNode.union (x.reordered order).executable (y.reordered order).executable
    tree.caches id ≠ 1 ∧ (0 < tree.caches id ↔ HasCache id tables) := by
  rw [hasCache_cons, or_iff_left hasCache_nil] at hx hy
  show PlanNode.caches id (.union _ _) ≠ 1 ∧ (0 < PlanNode.caches id (.union _ _) ↔ _)
  rw [PlanNode.caches_union, TablePlan.caches_reordered, TablePlan.caches_reordered]
  have hxy := hx.trans hy.symm
  refine ⟨by omega, ?_⟩
  rw [← hx]
  omega

/-- Moves keep the ids of caches that were given before, position by position until plans are
joined. -/
theorem Moves.hasCache (h : Moves PlanNode.Cacheless or w w') (hw : Handled P w)
    (hid : id ≤ w.context.cacheIds) :
    (HasCache id w'.set.tables ↔ HasCache id w.set.tables) ∧
      (w'.set.hasJoins = false →
        List.Forall₂ (TablePlan.SharesCache id) w.set.tables w'.set.tables) := by
  -- The induction is on the moves. Only an OR gives ids, and they are later than the one in
  -- question, so at a join or an OR the trees have it if one of those before has.
  induction h generalizing P with
  | refl => exact ⟨Iff.rfl, fun _ => List.forall₂_same.mpr fun _ _ => Iff.rfl⟩
  | trans first rest ih ih' =>
    obtain ⟨hfirst, hpos⟩ := ih hw hid
    obtain ⟨hrest, hpos'⟩ := ih' (first.handled hw) (hid.trans first.cacheIds_le)
    refine ⟨hrest.trans hfirst, fun hjoins => ?_⟩
    have hmid := ((rest.keeps (first.handled hw)).2 hjoins).1
    exact forall₂_trans (fun _ _ _ hpq hqs => hqs.trans hpq) (hpos hmid) (hpos' hjoins)
  | @filter w tables filtered =>
    have hall : List.Forall₂ (TablePlan.SharesCache id) w.set.tables tables :=
      filtered.imp fun _ _ hpq => hpq.sharesCache
    exact ⟨hasCache_of_forall₂ hall, fun _ => hall⟩
  | @join w l r tree left right ne joined =>
    refine ⟨hasCache_mergedTables hw left right ?_, nofun⟩
    rw [PlanNode.caches_of_joined joined, hasCache_cons, hasCache_cons, or_iff_left hasCache_nil]
    exact Nat.add_pos_iff_pos_or_pos
  | @joinLinked w w₁ l r x joinType marked c left right _ marks _ single ih =>
    refine ⟨hasCache_mergedTables hw left right ?_, nofun⟩
    have hpair := (ih (P := P) Handled.pair (hid.trans (newMark_cacheIds marks).symm.le)).1
    rw [single] at hpair
    simp only [hasCache_cons, hasCache_nil, or_false] at hpair ⊢
    rw [PlanNode.caches_addBack, hpair]
    show 0 < (l.withMark marked).executable.caches id ∨
      0 < (r.withMark marked).executable.caches id ↔ _
    rw [TablePlan.caches_withMark, TablePlan.caches_withMark]
  | unite _ opened planLeft planRight fits ih ih' =>
    have hwl := opened.handledLeft hw
    have hwr := opened.handledRight hw planLeft.extends
    obtain ⟨hnone, hnone'⟩ := hasJoins_of_not_mustReshape fits
    have hle := hid.trans opened.wraps.1
    have hl := forall₂_and (planLeft.rests hwl hnone) ((ih hwl hle).2 hnone)
    have hr := forall₂_and (planRight.rests hwr hnone')
      ((ih' hwr (hle.trans planLeft.cacheIds_le)).2 hnone')
    -- At each position stands the tree from before the OR, or what unites both sides.
    have hall := (opened.caches_united hw hl hr).imp fun p q hpq => by
      rcases hpq with htree | ⟨-, hshares⟩
      · show 0 < q.executable.caches id ↔ 0 < p.executable.caches id
        rw [htree]
      · exact hshares hid
    exact ⟨hasCache_of_forall₂ hall, fun _ => hall⟩
  | @uniteJoined w w₁ l r l' r' _ _ _ _ x y _ opened planLeft planRight reshaped joinLeft single
      joinRight single' ih ih' ihJoin ihJoin' =>
    have hwl := opened.handledLeft hw
    have hwr := opened.handledRight hw planLeft.extends
    have hle := hid.trans opened.wraps.1
    have hle₁ := hle.trans planLeft.cacheIds_le
    have hle₂ := hle₁.trans planRight.cacheIds_le
    have hx := ((ihJoin ((planLeft.handled hwl).extend planRight.extends) hle₂).1.trans
      (ih hwl hle).1).trans (opened.hasCache_copies hw).1
    have hy := ((ihJoin' ((planRight.handled hwr).extend joinLeft.extends)
      (hle₂.trans joinLeft.cacheIds_le)).1.trans (ih' hwr hle₁).1).trans
      (opened.hasCache_copies hw).2
    -- Both joined sides have the id if the plans before the OR have, so it is in what unites them
    -- as well.
    rw [single] at hx
    rw [single'] at hy
    refine ⟨?_, fun hjoins => ?_⟩
    · rw [opened.unitePair_of_reshaped hw planLeft planRight reshaped joinLeft single joinRight
        single', hasCache_cons, or_iff_left hasCache_nil, ← opened.hasCache_wrapped hw hid]
      exact (caches_union_reordered _ hx hy).2
    · have htold := opened.hasJoins_of_reshaped hw planLeft planRight reshaped joinLeft single
        joinRight single'
      cases htold.symm.trans hjoins

/-! ## No id occurs once -/

/-- Ids of caches that are still to be given do not occur. -/
def FreshCaches (w : Workspace) : Prop :=
  ∀ p ∈ w.set.tables, ∀ id, w.context.cacheIds < id → p.executable.caches id = 0

/-- Moves give no id that is still to be given. -/
theorem inherited_fresh (last : Nat) : Inherited PlanNode.Cacheless last
    fun tree => ∀ id, last < id → tree.caches id = 0 := by
  refine ⟨fun h hinput id hid => ?_, fun h hl hr id hid => ?_, fun mark h id hid => ?_,
    fun mark h id hid => ?_, fun hl hr id hid => ?_, fun columns h id hid => ?_,
    fun _ hle h id hid => ?_⟩
  · rw [PlanNode.caches_of_filters h, hinput id hid]
  · rw [PlanNode.caches_of_joined h, hl id hid, hr id hid]
  · rw [PlanNode.caches_of_only rfl rfl, h id hid]
  · rw [PlanNode.caches_of_only rfl rfl, h id hid]
  · rw [PlanNode.caches_union, hl id hid, hr id hid]
  · rw [PlanNode.caches_of_only rfl rfl, h id hid]
  · rw [PlanNode.caches_cache, h id hid, if_neg (by omega)]

/-- Ids that are still to come stay on no tree. -/
theorem Moves.fresh (h : Moves PlanNode.Cacheless or w w') (hw : Handled P w)
    (hfresh : FreshCaches w) : FreshCaches w' :=
  h.inherits (inherited_fresh _) hw le_rfl fun p hp id hid =>
    hfresh p hp id (lt_of_le_of_lt h.cacheIds_le hid)

/-- When more ids are given, the fresh ones become fewer. -/
theorem FreshCaches.extend (h : FreshCaches w) {c : Context}
    (hids : w.context.cacheIds ≤ c.cacheIds) : FreshCaches ⟨w.set, c⟩ :=
  fun p hp id hid => h p hp id (lt_of_le_of_lt hids hid)

/-- The sides of an OR start with ids that were given before. -/
theorem Opened.fresh (h : Opened w cached w₁ left right c) (hw : Handled P w)
    (hfresh : FreshCaches w) : FreshCaches ⟨left, c⟩ ∧ FreshCaches ⟨right, c⟩ := by
  have hcopies := fun q => (inherited_fresh c.cacheIds).copies (q := q) h hw le_rfl
    fun p hp id hid => hfresh p hp id (lt_of_le_of_lt h.wraps.1 hid)
  exact ⟨fun q hq => hcopies q (Or.inl hq), fun q hq => hcopies q (Or.inr hq)⟩

/-- The pair that a condition is planned over has no new ids. -/
theorem FreshCaches.pair {joinType : JoinType} {l r : TablePlan}
    {marked : Option (PlanId × String)} {i j : PlanId} {supply : PlanId.Supply}
    (hmarks : Planner.newMark joinType l.id r.id w = .ok marked { w with context := c })
    (h : FreshCaches w) (hl : l ∈ w.set.tables) (hr : r ∈ w.set.tables) :
    FreshCaches ⟨⟨[(l.withMark marked).detached i, (r.withMark marked).detached j], true⟩,
      { c with supply }⟩ := by
  have hfresh : ∀ p ∈ w.set.tables, ∀ i id, c.cacheIds < id →
      ((p.withMark marked).detached i).executable.caches id = 0 := fun p hp i id hid => by
    show (p.withMark marked).executable.caches id = 0
    rw [TablePlan.caches_withMark]
    exact h p hp id (lt_of_eq_of_lt (newMark_cacheIds hmarks).symm hid)
  exact List.forall_mem_cons.mpr ⟨hfresh l hl i, List.forall_mem_singleton.mpr (hfresh r hr j)⟩

/-- Ids that are still to be given do not occur just once. -/
theorem FreshCaches.ne_one (h : FreshCaches w) (hid : ¬ id ≤ w.context.cacheIds) :
    ∀ p ∈ w.set.tables, p.executable.caches id ≠ 1 := by
  intro p hp
  rw [h p hp id (not_le.mp hid)]
  exact Nat.zero_ne_one

namespace Opened

variable {l r l' r' : Workspace} {x y : TablePlan}

/-- An id from before the sides of an OR were planned is on both sides of a union, or on neither. -/
theorem caches_ne_one_of_given (h : Opened w cached w₁ left right c) (hw : Handled P w)
    (planLeft : Moves PlanNode.Cacheless or ⟨left, c⟩ l)
    (planRight : Moves PlanNode.Cacheless or ⟨right, l.context⟩ r)
    (fits : mustReshape l.set r.set = false) (hid : id ≤ c.cacheIds)
    (hne : ∀ p ∈ w.set.tables, p.executable.caches id ≠ 1) :
    ∀ q ∈ unitePositions (cached.zip w₁.set.tables) l.set.tables r.set.tables,
      q.executable.caches id ≠ 1 := by
  have hwl := h.handledLeft hw
  have hwr := h.handledRight hw planLeft.extends
  obtain ⟨hnone, hnone'⟩ := hasJoins_of_not_mustReshape fits
  have hl := forall₂_and (planLeft.rests hwl hnone) ((planLeft.hasCache hwl hid).2 hnone)
  have hr := forall₂_and (planRight.rests hwr hnone')
    ((planRight.hasCache hwr (hid.trans planLeft.cacheIds_le)).2 hnone')
  intro q hq
  obtain ⟨p, hp, htree | ⟨hsum, -⟩⟩ := exists_left_of_forall₂ (h.caches_united hw hl hr) hq
  · rw [htree]
    exact hne p hp
  · exact hsum

/-- An id from before the sides of an OR were planned is on both sides of a union, or on neither,
also where each side was joined into one plan. -/
theorem caches_reordered_of_given (h : Opened w cached w₁ left right c) (hw : Handled P w)
    (planLeft : Moves PlanNode.Cacheless or ⟨left, c⟩ l)
    (planRight : Moves PlanNode.Cacheless or ⟨right, l.context⟩ r)
    (joinLeft : Moves PlanNode.Cacheless or ⟨l.set, r.context⟩ l') (single : l'.set.tables = [x])
    (joinRight : Moves PlanNode.Cacheless or ⟨r.set, l'.context⟩ r') (single' : r'.set.tables = [y])
    (hid : id ≤ c.cacheIds) (order : List ColumnName) :
    (PlanNode.union (x.reordered order).executable (y.reordered order).executable).caches id ≠
      1 := by
  have hwl := h.handledLeft hw
  have hwr := h.handledRight hw planLeft.extends
  have hid₁ := hid.trans planLeft.cacheIds_le
  have hid₂ := hid₁.trans planRight.cacheIds_le
  have hx := ((joinLeft.hasCache ((planLeft.handled hwl).extend planRight.extends) hid₂).1.trans
    (planLeft.hasCache hwl hid).1).trans (h.hasCache_copies hw).1
  have hy := ((joinRight.hasCache ((planRight.handled hwr).extend joinLeft.extends)
    (hid₂.trans joinLeft.cacheIds_le)).1.trans (planRight.hasCache hwr hid₁).1).trans
    (h.hasCache_copies hw).2
  rw [single] at hx
  rw [single'] at hy
  exact (caches_union_reordered order hx hy).1

end Opened

/-- If an id occurs just once in no tree, then so it is after any moves. -/
theorem Moves.caches_ne_one (h : Moves PlanNode.Cacheless or w w') (hw : Handled P w)
    (hfresh : FreshCaches w) (hne : ∀ p ∈ w.set.tables, p.executable.caches id ≠ 1) :
    ∀ q ∈ w'.set.tables, q.executable.caches id ≠ 1 := by
  -- The induction is on the moves. An id that was given before is on both sides of an OR or on
  -- neither; one that is given on a side is never there once, nor on the other side at all.
  induction h generalizing P with
  | refl => exact hne
  | trans first _ ih ih' =>
    exact ih' (first.handled hw) (first.fresh hw hfresh) (ih hw hfresh hne)
  | filter filtered =>
    intro q hq
    obtain ⟨p, hp, hpq⟩ := exists_left_of_forall₂ filtered hq
    rcases hpq with rfl | ⟨tree, htree, rfl⟩
    · exact hne q hp
    · show tree.caches id ≠ 1
      rw [PlanNode.caches_of_filters htree]
      exact hne p hp
  | @join w l r tree left right _ joined =>
    refine Inherited.mergedTables (I := fun tree => tree.caches id ≠ 1) hne ?_
    have hl := hne l left
    have hr := hne r right
    rw [PlanNode.caches_of_joined joined]
    omega
  | @joinLinked w w₁ l r x joinType marked c left right _ marks pair single ih =>
    have hpair := ih (P := P) Handled.pair (FreshCaches.pair marks hfresh left right) ?_
    · rw [single, List.forall_mem_singleton] at hpair
      refine Inherited.mergedTables (I := fun tree => tree.caches id ≠ 1) hne ?_
      rwa [PlanNode.caches_addBack]
    · rw [List.forall_mem_cons, List.forall_mem_singleton]
      show (l.withMark marked).executable.caches id ≠ 1 ∧
        (r.withMark marked).executable.caches id ≠ 1
      rw [TablePlan.caches_withMark, TablePlan.caches_withMark]
      exact ⟨hne l left, hne r right⟩
  | @unite w w₁ l r _ _ _ c _ opened planLeft planRight fits ih ih' =>
    by_cases hid : id ≤ c.cacheIds
    · exact opened.caches_ne_one_of_given hw planLeft planRight fits hid hne
    -- The id is given on one of the sides, if at all.
    obtain ⟨hfl, hfr⟩ := opened.fresh hw hfresh
    have hl := ih (opened.handledLeft hw) hfl (hfl.ne_one hid)
    have hr := ih' (opened.handledRight hw planLeft.extends) (hfr.extend planLeft.cacheIds_le)
      (hfr.ne_one hid)
    intro q hq
    rcases opened.mem_united hw planLeft planRight fits hq with
      ⟨y, hy, z, hz, htree⟩ | ⟨p, hp, htree⟩
    · have hy := hl y hy
      have hz := hr z hz
      rw [htree, PlanNode.caches_union]
      omega
    · rw [htree]
      exact hne p hp
  | @uniteJoined w w₁ l r l' r' _ _ _ c x y _ opened planLeft planRight reshaped joinLeft single
      joinRight single' ih ih' ihJoin ihJoin' =>
    rw [List.forall_mem_singleton, opened.unitePair_of_reshaped hw planLeft planRight reshaped
      joinLeft single joinRight single']
    by_cases hid : id ≤ c.cacheIds
    · exact opened.caches_reordered_of_given hw planLeft planRight joinLeft single joinRight single'
        hid _
    -- The id is given while one of the sides is planned or joined, if at all.
    have hwl := opened.handledLeft hw
    have hwr := opened.handledRight hw planLeft.extends
    obtain ⟨hfl, hfr⟩ := opened.fresh hw hfresh
    have hfr₁ := hfr.extend planLeft.cacheIds_le
    have hx := ihJoin ((planLeft.handled hwl).extend planRight.extends)
      ((planLeft.fresh hwl hfl).extend planRight.cacheIds_le) (ih hwl hfl (hfl.ne_one hid))
    have hy := ihJoin' ((planRight.handled hwr).extend joinLeft.extends)
      ((planRight.fresh hwr hfr₁).extend joinLeft.cacheIds_le) (ih' hwr hfr₁ (hfr.ne_one hid))
    rw [single, List.forall_mem_singleton] at hx
    rw [single', List.forall_mem_singleton] at hy
    show PlanNode.caches id (.union _ _) ≠ 1
    rw [PlanNode.caches_union, TablePlan.caches_reordered, TablePlan.caches_reordered]
    omega

/-! ## Whole queries -/

namespace PlanNode

/-- The caches of a tree are shared by their ids. -/
structure CachesShared (tree : PlanNode) : Prop where
  /-- Caches with one id have the same input. -/
  same : ∀ input input' id, .cache input id ∈ tree.walk → .cache input' id ∈ tree.walk →
    input = input'
  /-- An id that occurs does so several times. -/
  several : ∀ input id, .cache input id ∈ tree.walk → 2 ≤ tree.caches id
  /-- No cache is right over another one. -/
  apart : ∀ input id, .cache input id ∈ tree.walk → input.isCache = false

/-- Where nested queries have no caches, all caches are own nodes. -/
theorem own_of_cache {tree input : PlanNode} {id : Nat}
    (hnested : tree.Throughout (Nests Cacheless))
    (h : .cache input id ∈ tree.walk) : .cache input id ∈ tree.own := by
  refine (mem_walk_iff_own.mp h).resolve_right ?_
  rintro ⟨select, hown, query, hquery, hmem⟩
  cases hnested select hown query hquery _ hmem

end PlanNode

/-- With moves, caches are put on trees that have none. -/
theorem inherited_apart (Q : PlanNode → Prop) (last : Nat) : Inherited Q last
    (PlanNode.Throughout fun node =>
      ∀ input id, node = .cache input id → input.isCache = false) := by
  refine .throughout (fun {input node} h => ?_) (fun uncached _ input id heq => ?_)
    fun hcache _ input id heq => ?_
  · cases h <;> exact nofun
  · cases heq
    exact uncached
  · rw [heq] at hcache
    cases hcache

/-- A base table has no cache. -/
theorem caches_source (table : String) (id : Nat) : (PlanNode.source table).caches id = 0 := by
  rw [PlanNode.caches_eq, if_neg nofun]
  rfl

/-- In the tree of a plan over base tables, caches with one id are the same, there are several of
them, and none is right over another, if the nested queries of the filter and of the conditions have
no caches. -/
theorem planQuery_cachesShared {uuids : Identifiers} {settings : Settings} {set : TableSet}
    {supply supply' : PlanId.Supply} {filter : Option Expr} {plan : TablePlan}
    (hbase : ∀ p ∈ set.tables, ∃ table, p.executable = .source table)
    (hids : (set.tables.map TablePlan.id).Nodup)
    (hgiven : ∀ p ∈ set.tables, p.id.number < supply.next)
    (hfilter : ∀ e, filter = some e → ∀ query ∈ e.queries, query.Cacheless)
    (hlinks : ∀ p ∈ set.tables, ∀ side link, p.linkOn side = some link →
      ∀ e, link.on = some e → ∀ query ∈ e.queries, query.Cacheless)
    (h : planQuery uuids settings set filter supply = .ok plan supply') :
    plan.executable.CachesShared := by
  have hnested := planQuery_inherits hbase hids hgiven hfilter hlinks h (inherited_nests _)
    fun _ => PlanNode.throughout_source nofun
  have hapart := planQuery_inherits hbase hids hgiven hfilter hlinks h (inherited_apart _)
    fun _ => PlanNode.throughout_source nofun
  obtain ⟨f, c, hassigned⟩ : ∃ f c, Assigned (Set.range .cache) f c plan.executable :=
    planQuery_assigned hbase hids hgiven hfilter hlinks h nofun
  refine ⟨fun input input' id hl hr => ?_, fun input id hmem => ?_, fun input id hmem => ?_⟩
  · have heq := hassigned.eq (PlanNode.own_of_cache hnested hl) (PlanNode.own_of_cache hnested hr)
      (Set.mem_range_self id) rfl rfl
    exact (PlanNode.cache.inj heq).1
  · have hpos : 0 < plan.executable.caches id :=
      List.countP_pos_iff.mpr ⟨_, hmem, decide_eq_true rfl⟩
    -- Moves from base tables leave no id that occurs just once.
    obtain ⟨w₁, hw, hmoves, hsingle⟩ := planQuery_moves hids hgiven hfilter hlinks h
    have hfresh : FreshCaches ⟨set, .start uuids settings supply⟩ := fun p hp id _ => by
      obtain ⟨table, htree⟩ := hbase p hp
      rw [htree, caches_source]
    have hlone : ∀ q ∈ w₁.set.tables, q.executable.caches id ≠ 1 :=
      hmoves.caches_ne_one hw hfresh fun p hp => by
        obtain ⟨table, htree⟩ := hbase p hp
        rw [htree, caches_source]
        exact Nat.zero_ne_one
    rw [hsingle, List.forall_mem_singleton] at hlone
    omega
  · exact hapart _ (PlanNode.own_of_cache hnested hmem) input id rfl

/-- Nested ORs over a chain of outer joins with an OR in a condition: there are eight ids, most of
them for trees with further caches. -/
theorem planQuery_cachesShared_chain :
    let on := Expr.binary (.binary (columnOf "a") .eq (columnOf "b")) .or
      (.binary (columnOf "a") .lt (columnOf "b"))
    let set : TableSet :=
      ⟨chainOfOnes .left on (.binary (columnOf "b") .lt (columnOf "c")), false⟩
    let filter := Expr.binary (.binary (columnOf "a") .eq (columnOf "c")) .or
      (.binary (.unary .isNull (columnOf "b")) .or (.unary .isNull (columnOf "c")))
    ∃ plan supply', planQuery .blank default set (some filter) ⟨4⟩ = .ok plan supply' ∧
      (List.range 10).map (plan.executable.caches ·) = [0, 6, 6, 5, 2, 2, 2, 2, 2, 0] ∧
      plan.executable.CachesShared := by
  intro on set filter
  have hok : resultWith (fun plan _ => (List.range 10).map (plan.executable.caches ·))
      (planQuery .blank default set (some filter) ⟨4⟩) = some [0, 6, 6, 5, 2, 2, 2, 2, 2, 0] := by
    decide +kernel
  obtain ⟨plan, supply', h, hcaches⟩ := exists_of_resultWith hok
  refine ⟨plan, supply', h, hcaches, planQuery_cachesShared ?_ (by decide) (by decide)
    (by rintro e ⟨⟩ _ ⟨⟩) ?_ h⟩
  · simp only [set, chainOfOnes, List.forall_mem_cons]
    exact ⟨⟨_, rfl⟩, ⟨_, rfl⟩, ⟨_, rfl⟩, List.forall_mem_nil _⟩
  · simp only [set, chainOfOnes, List.forall_mem_cons]
    refine ⟨?_, ?_, ?_, List.forall_mem_nil _⟩
    all_goals rintro (_ | _) link hlink e he <;> cases hlink <;> cases he <;> rintro _ ⟨⟩

end QueryPlan
