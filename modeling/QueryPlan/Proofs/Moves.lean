import QueryPlan.Proofs.SoundFilters

/-!
# The moves of planning

Whatever the links of a set are, answered or not, a planning run that succeeds is
a chain of a few kinds of moves. Unlike steps, moves assume nothing of the links,
and where an OR is planned they record both of its sides.

- `Expr.queries`: the plans of the nested queries of an expression.
- `Handled`: plans under handles of their own, which were given out before.
- `copy_ok`: what a copy of such plans is.
- `Opened`: copies of a set for the two sides of an OR.
- `Moves`: chains of moves.
- `Moves.extends`, `Moves.handled`: moves use up handles and names, and keep
  handles apart.
- `Moves.length_eq`: until plans are joined, there are as many as before.
-/

namespace QueryPlan

/-! ## Nested queries -/

mutual

/-- The plans of the nested queries of an expression, left to right, without those that the plans
hold in turn. -/
def Expr.queries : Expr → List PlanNode
  | .constant _ => []
  | .reference _ => []
  | .unary _ e => e.queries
  | .binary l _ r => l.queries ++ r.queries
  | .pattern _ l p escape => l.queries ++ p.queries ++ queriesOfEscape escape
  | .call _ args => queriesOfAll args
  | .query plan _ => [plan]
  | .quantified _ _ l r => l.queries ++ r.queries

/-- The nested queries of an escape, if there is one. -/
def queriesOfEscape : Option Expr → List PlanNode
  | none => []
  | some e => e.queries

/-- The nested queries of arguments, in their order. -/
def queriesOfAll : List Expr → List PlanNode
  | [] => []
  | e :: rest => e.queries ++ queriesOfAll rest

end

/-! ## Filtered plans -/

/-- The node filters the rows of `input`; `Q` holds of the nested query that it compares them with,
if there is one. -/
inductive PlanNode.Filters (Q : PlanNode → Prop) (input : PlanNode) : PlanNode → Prop where
  | constant (predicate : Expr) : Filters Q input (.constantSelect input predicate)
  | simple (column : ColumnName) (op : BinaryOp) (value : Expr) :
    Filters Q input (.simpleSelect input column op value)
  | pattern (column : ColumnName) (op : MatchOp) (pattern : Expr) (escape : Option Expr) :
    Filters Q input (.patternSelect input column op pattern escape)
  | exhaustive (predicate : Expr) : Filters Q input (.exhaustiveSelect input predicate)
  | anyAll {subQuery : PlanNode} (query : Q subQuery) (columns : List ColumnName) (op : BinaryOp)
    (quantifier : Quantifier) :
    Filters Q input (.anyAllSelect input subQuery columns op quantifier)

/-- `q` is `p`, perhaps with a node on its tree that filters its rows. -/
def TablePlan.Filtered (Q : PlanNode → Prop) (p q : TablePlan) : Prop :=
  q = p ∨ ∃ tree, p.executable.Filters Q tree ∧ q = p.update fun _ => tree

variable {Q : PlanNode → Prop} {or : Prop} {P : Option Expr → Prop} {w w' : Workspace}

/-- A node that filters is put on one input. -/
theorem PlanNode.Filters.covered {node input : PlanNode} (h : input.Filters Q node) :
    node.covered? = some input := by
  cases h <;> rfl

/-- A filtered plan follows the plan, under its handle. -/
theorem TablePlan.Filtered.follows {p q : TablePlan} (h : p.Filtered Q q) :
    p.Follows (fun i => i) q := by
  rcases h with rfl | ⟨tree, htree, rfl⟩
  · exact .of_eq rfl rfl rfl fun _ ht => ht
  · refine .of_eq rfl rfl rfl fun t ht => ?_
    show t ∈ tree.sources
    rwa [PlanNode.sources_of_covered htree.covered]

/-! ## Plans under handles of their own -/

/-- The plans have handles of their own, which were given out before, and their links have
conditions that satisfy `P`. -/
structure Handled (P : Option Expr → Prop) (w : Workspace) : Prop where
  nodup : (w.set.tables.map TablePlan.id).Nodup
  given : ∀ p ∈ w.set.tables, p.id.number < w.context.supply.next
  conditions : ∀ side, ∀ p ∈ w.set.tables, ∀ link, p.linkOn side = some link → P link.on

/-- A link of a merge is one of the pair. -/
theorem eq_or_of_outsideLink {ids : List PlanId} {a b : Option JoinLink} {link : JoinLink}
    (h : outsideLink ids a b = some link) : a = some link ∨ b = some link := by
  unfold outsideLink at h
  rw [Option.orElse_eq_orElse, Option.orElse_eq_or, Option.or_eq_some_iff] at h
  rcases h with h | ⟨-, h⟩
  · exact Or.inl (Option.filter_eq_some_iff.mp h).1
  · exact Or.inr (Option.filter_eq_some_iff.mp h).1

namespace Handled

/-- Plans of a sound workspace are under handles of their own. -/
theorem of_sound (h : Sound P w) : Handled P w := ⟨h.answered.nodup, h.given, h.conditions⟩

/-- Without links, all conditions are of any kind. -/
theorem of_unlinked (h : Handled (fun _ => False) w) : Handled P w :=
  ⟨h.nodup, h.given, fun side p hp link hlink => (h.conditions side p hp link hlink).elim⟩

/-- A handle is of one plan. -/
theorem eq_of_id (h : Handled P w) {p q : TablePlan} (hp : p ∈ w.set.tables)
    (hq : q ∈ w.set.tables) (hid : p.id = q.id) : p = q :=
  eq_of_id_of_nodup h.nodup hp hq hid

/-- A handle that was not given out is not in the set. -/
theorem id_ne (h : Handled P w) {p : TablePlan} (hp : p ∈ w.set.tables) {id : PlanId}
    (hid : w.context.supply.next ≤ id.number) : p.id ≠ id := by
  rintro rfl
  exact absurd (h.given p hp) (not_lt.mpr hid)

/-- The same plans under other handles. -/
theorem follow {g : PlanId → PlanId} {set : TableSet} {c : Context} (h : Handled P w)
    (hf : FollowsAll g w.set.tables set.tables)
    (hinj : Set.InjOn g {id | id ∈ w.set.tables.map TablePlan.id})
    (hgiven : ∀ p ∈ set.tables, p.id.number < c.supply.next) : Handled P ⟨set, c⟩ := by
  refine ⟨?_, hgiven, fun side q hq link hlink => ?_⟩
  · rw [hf.map_id]
    exact h.nodup.map_on fun a ha b hb => hinj ha hb
  · obtain ⟨p, hp, hpq⟩ := exists_left_of_forall₂ hf hq
    rw [hpq.links, Option.map_eq_some_iff] at hlink
    obtain ⟨link', hlink', rfl⟩ := hlink
    exact h.conditions side p hp link' hlink'

/-- The same plans under the same handles. -/
theorem stay {set : TableSet} {c : Context} (h : Handled P w)
    (hf : FollowsAll (fun i => i) w.set.tables set.tables) (hc : w.context.Extends c) :
    Handled P ⟨set, c⟩ := by
  refine h.follow hf (fun _ _ _ _ heq => heq) fun q hq => ?_
  obtain ⟨p, hp, hpq⟩ := exists_left_of_forall₂ hf hq
  rw [hpq.id_eq]
  exact (h.given p hp).trans_le hc.supply

/-- More handles and names may be used up. -/
theorem extend (h : Handled P w) {c : Context} (hc : w.context.Extends c) : Handled P ⟨w.set, c⟩ :=
  ⟨h.nodup, fun p hp => (h.given p hp).trans_le hc.supply, h.conditions⟩

/-- Two plans become one. -/
theorem merged {l r : TablePlan} {m : PlanId} {tree : PlanNode} {c : Context} {hasJoins : Bool}
    (h : Handled P w) (hl : l ∈ w.set.tables) (hr : r ∈ w.set.tables)
    (hnew : w.context.supply.next ≤ m.number) (hc : m.number < c.supply.next) :
    Handled P ⟨⟨mergedTables w.set.tables l r m tree, hasJoins⟩, c⟩ := by
  refine ⟨nodup_mergedTables h.nodup fun p hp => h.id_ne hp hnew, fun q hq => ?_,
    fun side q hq link hlink => ?_⟩
  · rcases mem_mergedTables.mp hq with ⟨p, hp, -, -, rfl⟩ | rfl
    · exact ((h.given p hp).trans_le hnew).trans hc
    · exact hc
  · rcases mem_mergedTables.mp hq with ⟨p, hp, -, -, rfl⟩ | rfl
    · rw [retarget_linkOn, Option.map_eq_some_iff] at hlink
      obtain ⟨link', hlink', rfl⟩ := hlink
      exact h.conditions side p hp link' hlink'
    · have hpair : l.linkOn side = some link ∨ r.linkOn side = some link := by
        cases side
        · exact eq_or_of_outsideLink hlink
        · exact eq_or_of_outsideLink hlink
      rcases hpair with hlink | hlink
      · exact h.conditions side l hl link hlink
      · exact h.conditions side r hr link hlink

/-- Copies of two plans without their links. -/
theorem pair {l r : TablePlan} {hasJoins : Bool} {c : Context} :
    Handled P ⟨⟨[l.detached ⟨c.supply.next⟩, r.detached ⟨c.supply.next + 1⟩], hasJoins⟩,
      { c with supply := ⟨c.supply.next + 2⟩ }⟩ :=
  of_unlinked (of_sound Sound.pair)

end Handled

/-! ## Copies -/

/-- `q` is an untouched copy of `p`, perhaps with other links. -/
def TablePlan.IsCopy (p q : TablePlan) : Prop :=
  q = { p.detached q.id with left := q.left, right := q.right }

/-- A copy of a set copies its plans one by one. -/
theorem isCopy_of_copyAs {set copy : TableSet} {ids : List PlanId}
    (hlen : set.tables.length = ids.length) (h : set.copyAs ids = .ok copy) :
    List.Forall₂ TablePlan.IsCopy set.tables copy.tables := by
  refine (forall₂_of_zip hlen (copyAs_plans h).2).imp ?_
  rintro p q ⟨i, -, left, right, -, -, rfl⟩
  rfl

/-- A copy has the same plans under fresh handles. -/
theorem Handled.copy_ok {copy : TableSet} (hw : Handled P w)
    (h : Planner.copy w = .ok copy w') :
    w' = { w with context :=
      { w.context with supply := ⟨w.context.supply.next + w.set.tables.length⟩ } } ∧
    w.set.Copied copy w'.context ∧ List.Forall₂ TablePlan.IsCopy w.set.tables copy.tables := by
  obtain ⟨hcopy, rfl⟩ := Planner.copy_ok.mp h
  obtain ⟨g, hinj, hjoins, hall, hgiven⟩ := copyAs_fresh hw.nodup hcopy
  exact ⟨rfl, ⟨⟨g, hinj, hall⟩, hjoins, hgiven⟩, isCopy_of_copyAs (by simp) hcopy⟩

/-- Copies are under handles of their own. -/
theorem Handled.copied {copy : TableSet} {c : Context} (h : Handled P w)
    (hcopy : w.set.Copied copy c) : Handled P ⟨copy, c⟩ := by
  obtain ⟨g, hinj, hall⟩ := hcopy.renamed
  exact h.follow (hall.imp fun _ _ hpq => .of_mirrors hpq.1) hinj hcopy.given

/-- A plan that a cache may have been put on follows the plan. -/
theorem TablePlan.Sheltered.follows {cached : Bool} {p q : TablePlan} (h : p.Sheltered cached q) :
    p.Follows (fun i => i) q := by
  unfold Sheltered at h
  cases cached with
  | true =>
    obtain ⟨k, rfl⟩ := h
    exact .of_eq rfl rfl rfl fun _ ht => ht
  | false =>
    obtain rfl := h
    exact .of_eq rfl rfl rfl fun _ ht => ht

/-! ## The sides of an OR -/

/-- `left` and `right` are copies of the plans of `w` for the two sides of an OR, made after those
were perhaps cached, as they are in `w₁`; `c` is the context that the sides are planned in. -/
structure Opened (w : Workspace) (cached : List Bool) (w₁ : Workspace) (left right : TableSet)
    (c : Context) : Prop where
  caches : Planner.cacheForSides w = .ok cached w₁
  copies : ∃ w₂ w₃, Planner.copy w₁ = .ok left w₂ ∧ Planner.copy w₂ = .ok right w₃ ∧
    w₃.context = c

/-- What the sides of an OR start with. -/
structure Sides (w w₁ : Workspace) (cached : List Bool) (left right : TableSet) (c : Context) :
    Prop where
  /-- Cached plans are the plans of the set, up to caches. -/
  sheltered : List.Forall₂ (fun p x => p.Sheltered x.1 x.2) w.set.tables
    (cached.zip w₁.set.tables)
  length_cached : cached.length = w₁.set.tables.length
  hasJoins : w₁.set.hasJoins = w.set.hasJoins
  markers : c.markers = w.context.markers
  copiedLeft : w₁.set.Copied left c
  copiedRight : w₁.set.Copied right c
  copiesLeft : List.Forall₂ TablePlan.IsCopy w₁.set.tables left.tables
  copiesRight : List.Forall₂ TablePlan.IsCopy w₁.set.tables right.tables

variable {w₁ : Workspace} {cached : List Bool} {left right : TableSet} {c : Context}

/-- Copies stay copies while more handles and names are used up. -/
theorem TableSet.Copied.extend {set copy : TableSet} {c c' : Context} (h : set.Copied copy c)
    (hc : c.Extends c') : set.Copied copy c' :=
  ⟨h.renamed, h.hasJoins, fun q hq => (h.given q hq).trans_le hc.supply⟩

/-- What holds of a plan and the plan that is perhaps cached holds position by position. -/
theorem Sides.forall₂_cached {R : TablePlan → TablePlan → Prop}
    (h : Sides w w₁ cached left right c) (hR : ∀ cached p q, p.Sheltered cached q → R p q) :
    List.Forall₂ R w.set.tables w₁.set.tables :=
  forall₂_of_sheltered h.length_cached h.sheltered hR

/-- There are as many plans with the caches as without. -/
theorem Sides.length_eq (h : Sides w w₁ cached left right c) :
    w₁.set.tables.length = w.set.tables.length :=
  (h.forall₂_cached fun _ _ _ => TablePlan.Sheltered.follows).length_eq.symm

/-- Each plan is cached or not. -/
theorem Sides.length_zip (h : Sides w w₁ cached left right c) :
    (cached.zip w₁.set.tables).length = w₁.set.tables.length := by
  rw [List.length_zip, h.length_cached, Nat.min_self]

namespace Opened

/-- Handles stay apart when the plans are cached. -/
theorem handled (h : Opened w cached w₁ left right c) (hw : Handled P w) : Handled P w₁ := by
  obtain ⟨⟨cacheIds, hcontext⟩, -, hlen, hall⟩ := cacheForSides_ok h.caches
  have hextends : w.context.Extends w₁.context := by
    rw [hcontext]
    exact ⟨le_rfl, ⟨_, le_rfl, rfl⟩, rfl⟩
  exact hw.stay (forall₂_of_sheltered hlen hall fun _ _ _ => TablePlan.Sheltered.follows) hextends

/-- The two copies that an OR opens are its sides. -/
theorem sides (h : Opened w cached w₁ left right c) (hw : Handled P w) :
    Sides w w₁ cached left right c := by
  obtain ⟨⟨cacheIds, hcontext⟩, hjoins, hlen, hall⟩ := cacheForSides_ok h.caches
  have hw₁ := h.handled hw
  obtain ⟨w₂, w₃, hleft, hright, rfl⟩ := h.copies
  obtain ⟨rfl, hcopied, hcopy⟩ := hw₁.copy_ok hleft
  obtain ⟨rfl, hcopied', hcopy'⟩ := (hw₁.extend (Context.extends_supply _ _)).copy_ok hright
  refine ⟨hall, hlen, hjoins, ?_, hcopied.extend (Context.extends_supply _ _), hcopied', hcopy,
    hcopy'⟩
  show w₁.context.markers = w.context.markers
  rw [hcontext]

/-- The plans of the left side are under handles of their own. -/
theorem handledLeft (h : Opened w cached w₁ left right c) (hw : Handled P w) :
    Handled P ⟨left, c⟩ :=
  (h.handled hw).copied (h.sides hw).copiedLeft

/-- Handles of the right side stay apart while the left side is planned. -/
theorem handledRight (h : Opened w cached w₁ left right c) (hw : Handled P w) {c' : Context}
    (hc : c.Extends c') : Handled P ⟨right, c'⟩ :=
  (h.handled hw).copied ((h.sides hw).copiedRight.extend hc)

end Opened

/-! ## Chains of moves -/

/-- The chains of moves from one workspace to another, where `Q` holds of the nested queries that
rows are compared with. There are ORs among them only if `or` is true. -/
inductive Moves (Q : PlanNode → Prop) (or : Prop) : Workspace → Workspace → Prop where
  | refl (w : Workspace) : Moves Q or w w
  | trans {w w₁ w' : Workspace} (first : Moves Q or w w₁) (rest : Moves Q or w₁ w') :
    Moves Q or w w'
  /-- The rows of some plans are filtered. -/
  | filter {w : Workspace} {tables : List TablePlan}
    (filtered : List.Forall₂ (TablePlan.Filtered Q) w.set.tables tables) :
    Moves Q or w ⟨⟨tables, w.set.hasJoins⟩, w.context⟩
  /-- Two plans become one. -/
  | join {w : Workspace} {l r : TablePlan} {tree : PlanNode} (left : l ∈ w.set.tables)
    (right : r ∈ w.set.tables) (ne : l.id ≠ r.id)
    (joined : tree.joined? = some (l.executable, r.executable)) :
    Moves Q or w ⟨⟨mergedTables w.set.tables l r ⟨w.context.supply.next⟩ tree, true⟩,
      { w.context with supply := ⟨w.context.supply.next + 1⟩ }⟩
  /-- Two plans become one by a link: the tree is planned over copies of them, of which an outer
  join marks one. -/
  | joinLinked {w w₁ : Workspace} {l r x : TablePlan} {joinType : JoinType}
    {marked : Option (PlanId × String)} {c : Context} (left : l ∈ w.set.tables)
    (right : r ∈ w.set.tables) (ne : l.id ≠ r.id)
    (marks : Planner.newMark joinType l.id r.id w = .ok marked { w with context := c })
    (pair : Moves Q or ⟨⟨[(l.withMark marked).detached ⟨c.supply.next⟩,
      (r.withMark marked).detached ⟨c.supply.next + 1⟩], true⟩,
      { c with supply := ⟨c.supply.next + 2⟩ }⟩ w₁)
    (single : w₁.set.tables = [x]) :
    Moves Q or w ⟨⟨mergedTables w.set.tables l r ⟨w₁.context.supply.next⟩
      (Planner.addBack marked x.executable), true⟩,
      { w₁.context with supply := ⟨w₁.context.supply.next + 1⟩ }⟩
  /-- Both sides of an OR were planned over copies. Their plans are united position by position. -/
  | unite {w w₁ l r : Workspace} {cached : List Bool} {left right : TableSet} {c : Context}
    (allowed : or) (opened : Opened w cached w₁ left right c) (planLeft : Moves Q or ⟨left, c⟩ l)
    (planRight : Moves Q or ⟨right, l.context⟩ r) (fits : mustReshape l.set r.set = false) :
    Moves Q or w
      ⟨⟨unitePositions (cached.zip w₁.set.tables) l.set.tables r.set.tables, w₁.set.hasJoins⟩,
        r.context⟩
  /-- Both sides of an OR were planned over copies and joined into one plan each. With the columns
  in their order before the OR, these are united. -/
  | uniteJoined {w w₁ l r l' r' : Workspace} {cached : List Bool} {left right : TableSet}
    {c : Context} {x y : TablePlan} (allowed : or) (opened : Opened w cached w₁ left right c)
    (planLeft : Moves Q or ⟨left, c⟩ l) (planRight : Moves Q or ⟨right, l.context⟩ r)
    (reshaped : mustReshape l.set r.set = true)
    (joinLeft : Moves Q or ⟨l.set, r.context⟩ l') (single : l'.set.tables = [x])
    (joinRight : Moves Q or ⟨r.set, l'.context⟩ r') (single' : r'.set.tables = [y]) :
    Moves Q or w
      ⟨⟨[unitePair (x.reordered (w₁.set.tables.flatMap TablePlan.columns))
        (y.reordered (w₁.set.tables.flatMap TablePlan.columns))],
        w₁.set.hasJoins || l'.set.hasJoins || r'.set.hasJoins⟩, r'.context⟩

/-- To open the sides uses up handles and ids of caches. -/
theorem Opened.extends (h : Opened w cached w₁ left right c) : w.context.Extends c := by
  obtain ⟨⟨cacheIds, hcontext⟩, -⟩ := cacheForSides_ok h.caches
  obtain ⟨w₂, w₃, hleft, hright, rfl⟩ := h.copies
  -- A copy uses up handles, also where these are not apart.
  have hcopy : ∀ {w w' : Workspace} {set : TableSet}, Planner.copy w = .ok set w' →
      w.context.Extends w'.context := by
    intro w w' set h
    obtain ⟨-, rfl⟩ := Planner.copy_ok.mp h
    exact Context.extends_supply _ _
  refine .trans ?_ ((hcopy hleft).trans (hcopy hright))
  rw [hcontext]
  exact ⟨le_rfl, ⟨_, le_rfl, rfl⟩, rfl⟩

/-- Moves only use up handles and names. -/
theorem Moves.extends (h : Moves Q or w w') : w.context.Extends w'.context := by
  induction h with
  | refl => exact .refl _
  | trans _ _ ih ih' => exact ih.trans ih'
  | filter => exact .refl _
  | join => exact Context.extends_supply _ 1
  | joinLinked _ _ _ marks _ _ ih =>
    exact (newMark_extends marks).trans ((Context.extends_supply _ 2).trans
      (ih.trans (Context.extends_supply _ 1)))
  | unite _ opened _ _ _ ih ih' => exact opened.extends.trans (ih.trans ih')
  | uniteJoined _ opened _ _ _ _ _ _ _ ih₁ ih₂ ih₃ ih₄ =>
    exact opened.extends.trans (ih₁.trans (ih₂.trans (ih₃.trans ih₄)))

/-- The sides of an OR that are not reshaped have no joined plans. -/
theorem hasJoins_of_not_mustReshape {left right : TableSet} (h : mustReshape left right = false) :
    left.hasJoins = false ∧ right.hasJoins = false :=
  (mustReshape_eq_false_iff.mp h).2.2

/-- A copy has as many plans. -/
theorem TableSet.Copied.length_eq {set copy : TableSet} {c : Context} (h : set.Copied copy c) :
    copy.tables.length = set.tables.length :=
  h.copies.length_eq.symm

/-- Handles stay apart, and until plans are joined, there are as many as before. -/
theorem Moves.keeps (h : Moves Q or w w') (hw : Handled P w) :
    Handled P w' ∧ (w'.set.hasJoins = false →
      w.set.hasJoins = false ∧ w'.set.tables.length = w.set.tables.length) := by
  -- The induction is on the moves. Both facts go together: the sides of an OR are united position
  -- by position only if they have as many plans as there were.
  induction h generalizing P with
  | refl => exact ⟨hw, fun h => ⟨h, rfl⟩⟩
  | trans _ _ ih ih' =>
    obtain ⟨hw₁, hlen⟩ := ih hw
    obtain ⟨hw', hlen'⟩ := ih' hw₁
    refine ⟨hw', fun h => ?_⟩
    obtain ⟨h₁, heq'⟩ := hlen' h
    obtain ⟨h₀, heq⟩ := hlen h₁
    exact ⟨h₀, heq'.trans heq⟩
  | filter filtered =>
    refine ⟨hw.stay (filtered.imp fun _ _ => TablePlan.Filtered.follows) (.refl _), fun h => ?_⟩
    exact ⟨h, filtered.length_eq.symm⟩
  | join left right =>
    exact ⟨hw.merged left right le_rfl (Nat.lt_succ_self _), by rintro ⟨⟩⟩
  | joinLinked left right _ marks pair =>
    have hext := (newMark_extends marks).trans ((Context.extends_supply _ 2).trans pair.extends)
    exact ⟨hw.merged left right hext.supply (Nat.lt_succ_self _), by rintro ⟨⟩⟩
  | @unite w w₁ l r cached _ _ _ _ opened planLeft planRight fits ih ih' =>
    have hs := opened.sides hw
    have hw₁ := opened.handled hw
    obtain ⟨hjoins, hjoins'⟩ := hasJoins_of_not_mustReshape fits
    obtain ⟨hl, hlenl⟩ := ih (hw₁.copied hs.copiedLeft)
    obtain ⟨hr, hlenr⟩ := ih' (hw₁.copied (hs.copiedRight.extend planLeft.extends))
    have hlen := (hlenl hjoins).2.trans hs.copiedLeft.length_eq
    have hall := unites_unitePositions (hlen.trans hs.length_zip.symm)
      (((hlenr hjoins').2.trans hs.copiedRight.length_eq).trans hs.length_zip.symm)
    refine ⟨hl.stay (hall.imp fun _ _ => TablePlan.Unites.follows) planRight.extends, fun h => ?_⟩
    refine ⟨hs.hasJoins ▸ h, ?_⟩
    rw [← hall.length_eq, hlen]
    exact hs.length_eq
  | @uniteJoined w w₁ l r l' r' _ _ _ _ x y _ opened planLeft planRight _ joinLeft single joinRight
      single' ih ih' ihJoin ihJoin' =>
    have hs := opened.sides hw
    have hw₁ := opened.handled hw
    obtain ⟨hl, hlenl⟩ := ih (hw₁.copied hs.copiedLeft)
    obtain ⟨hl', hlenl'⟩ := ihJoin (hl.extend planRight.extends)
    refine ⟨hl'.stay ?_ joinRight.extends, fun h => ?_⟩
    · rw [single]
      exact .cons ((TablePlan.follows_reordered _ _).trans (unites_unitePair _ _).follows) .nil
    · simp only [Bool.or_eq_false_iff] at h
      obtain ⟨hjoins, hlen⟩ := hlenl' h.1.2
      refine ⟨hs.hasJoins ▸ h.1.1, ?_⟩
      rw [single] at hlen
      rw [← hs.length_eq, ← hs.copiedLeft.length_eq, ← (hlenl hjoins).2]
      exact hlen

/-- Handles stay apart. -/
theorem Moves.handled (h : Moves Q or w w') (hw : Handled P w) : Handled P w' := (h.keeps hw).1

/-- Until plans are joined, there are as many as before. -/
theorem Moves.length_eq (h : Moves Q or w w') (hw : Handled P w)
    (hjoins : w'.set.hasJoins = false) : w'.set.tables.length = w.set.tables.length :=
  ((h.keeps hw).2 hjoins).2

/-- The sides of an OR that are not reshaped have a plan for each position. -/
theorem Opened.lengths {l r : Workspace} (h : Opened w cached w₁ left right c) (hw : Handled P w)
    (planLeft : Moves Q or ⟨left, c⟩ l) (planRight : Moves Q or ⟨right, l.context⟩ r)
    (fits : mustReshape l.set r.set = false) :
    l.set.tables.length = (cached.zip w₁.set.tables).length ∧
      r.set.tables.length = (cached.zip w₁.set.tables).length := by
  have hs := h.sides hw
  have hw₁ := h.handled hw
  obtain ⟨hjoins, hjoins'⟩ := hasJoins_of_not_mustReshape fits
  rw [hs.length_zip]
  constructor
  · exact (planLeft.length_eq (hw₁.copied hs.copiedLeft) hjoins).trans hs.copiedLeft.length_eq
  · have hr := hw₁.copied (hs.copiedRight.extend planLeft.extends)
    exact (planRight.length_eq hr hjoins').trans hs.copiedRight.length_eq

end QueryPlan
