import QueryPlan.Proofs.MarkPairs
import QueryPlan.Proofs.OwnNodes

/-!
# Names of nodes

Caches have ids, and nodes that remember rows for outer joins have marks. Whoever
runs a tree takes nodes with the same name for the same node. Both sides of an OR
start with the same nodes, and what they add has to get names of its own.

- `PlanNode.name?`: the name of a node.
- `Context.coming`: the names that are still to be given.
- `Assigned`: a tree that has no such name, and nodes with the names of an assignment.
- `Revises`: an assignment that also has new names.
- `Moves.assigned`: after any moves, the names are still those of an assignment.
-/

namespace QueryPlan

/-- The name of a node: the id of a cache, or the mark of a node that remembers rows. -/
inductive NodeName where
  | cache (id : Nat)
  | mark (mark : String)
deriving DecidableEq

namespace PlanNode

/-- The name, for a cache and a node that remembers rows. -/
def name? : PlanNode → Option NodeName
  | .cache _ id => some (.cache id)
  | .cacheMark _ mark => some (.mark mark)
  | _ => none

variable {input node l r : PlanNode} {Q : PlanNode → Prop}

theorem Filters.name_eq (h : input.Filters Q node) : node.name? = none := by
  cases h <;> rfl

theorem name_of_joined (h : node.joined? = some (l, r)) : node.name? = none := by
  cases node <;> cases h <;> rfl

end PlanNode

/-- The names that are still to be given. -/
def Context.coming (c : Context) : Set NodeName
  | .cache id => c.cacheIds < id
  | .mark mark => mark ∈ c.markers.future

variable {names : Set NodeName} {f f' f'' : NodeName → PlanNode} {c c' c'' : Context}
  {tree : PlanNode}

theorem coming_subset (hextends : c.Extends c') (hids : c.cacheIds ≤ c'.cacheIds) :
    c'.coming ⊆ c.coming := by
  rintro (id | mark) hname
  · exact lt_of_le_of_lt hids hname
  · exact hextends.future hname

/-- `f'` assigns the same nodes as `f` to the names that were given before. -/
def Revises (c : Context) (f f' : NodeName → PlanNode) : Prop := ∀ name ∉ c.coming, f' name = f name

theorem Revises.refl (c : Context) (f : NodeName → PlanNode) : Revises c f f := fun _ _ => rfl

theorem Revises.trans (h : Revises c f f') (hsub : c'.coming ⊆ c.coming) (h' : Revises c' f' f'') :
    Revises c f f'' :=
  fun name hname => (h' name fun hmem => hname (hsub hmem)).trans (h name hname)

/-- The own nodes with one of `names` are those that `f` assigns to their names, which all were
given before. -/
def Assigned (names : Set NodeName) (f : NodeName → PlanNode) (c : Context) (tree : PlanNode) :
    Prop :=
  tree.Throughout fun node => ∀ name ∈ names, node.name? = some name →
    name ∉ c.coming ∧ f name = node

namespace Assigned

/-- What names are assigned to stays so when later names are given. -/
theorem extend (h : Assigned names f c tree) (hrevises : Revises c f f')
    (hsub : c'.coming ⊆ c.coming) : Assigned names f' c' tree := by
  intro node hown name hmem hname
  obtain ⟨hgiven, heq⟩ := h node hown name hmem hname
  exact ⟨fun hcoming => hgiven (hsub hcoming), (hrevises name hgiven).trans heq⟩

/-- Own nodes with the same name are the same. -/
theorem eq (h : Assigned names f c tree) {a b : PlanNode} (ha : a ∈ tree.own) (hb : b ∈ tree.own)
    {name : NodeName} (hmem : name ∈ names) (hname : a.name? = some name)
    (hname' : b.name? = some name) : a = b :=
  (h a ha name hmem hname).2.symm.trans (h b hb name hmem hname').2

/-- A node gets the name that is assigned to it. -/
theorem named {node : PlanNode} {name : NodeName} (hname : node.name? = some name)
    (hinputs : node.inputs = [tree]) (hnew : name ∈ names → name ∉ c.coming ∧ f name = node)
    (h : Assigned names f c tree) : Assigned names f c node := by
  unfold Assigned
  rw [PlanNode.throughout_iff, hinputs, List.forall_mem_singleton]
  refine ⟨fun name' hmem heq => ?_, h⟩
  cases hname.symm.trans heq
  exact hnew hmem

/-- A node without a name. -/
theorem unnamed {node : PlanNode} (hname : node.name? = none)
    (h : ∀ child ∈ node.inputs, Assigned names f c child) : Assigned names f c node := by
  refine PlanNode.throughout_iff.mpr ⟨fun name _ heq => ?_, h⟩
  rw [hname] at heq
  cases heq

end Assigned

/-! ## New names -/

/-- Each cache that a plan gets for the sides of an OR has an id of its own. -/
theorem exists_revises_cachePlans (last : Nat) (tables : List TablePlan) (f : NodeName → PlanNode) :
    ∃ f' : NodeName → PlanNode, (∀ name, (∀ id, last < id → name ≠ .cache id) → f' name = f name) ∧
      ∀ x ∈ (cachePlans last tables).1, x.1 = true →
        ∀ name, x.2.executable.name? = some name → f' name = x.2.executable := by
  induction tables generalizing last f with
  | nil => exact ⟨f, fun _ _ => rfl, List.forall_mem_nil _⟩
  | cons p rest ih =>
    unfold cachePlans
    by_cases hcache : p.executable.isCache = true
    · rw [if_pos hcache]
      obtain ⟨f', hold, hnew⟩ := ih last f
      exact ⟨f', hold, List.forall_mem_cons.mpr
        ⟨fun hcached => absurd hcached Bool.false_ne_true, hnew⟩⟩
    · rw [if_neg hcache]
      -- The later caches leave the first of the new ids alone.
      obtain ⟨f', hold, hnew⟩ := ih (last + 1)
        (Function.update f (.cache (last + 1)) (.cache p.executable (last + 1)))
      refine ⟨f', fun name hname => ?_, List.forall_mem_cons.mpr ⟨fun _ name heq => ?_, hnew⟩⟩
      · rw [hold name fun id hid => hname id (by omega)]
        exact Function.update_of_ne (hname (last + 1) (Nat.lt_succ_self last)) _ _
      · cases heq
        rw [hold _ fun id hid heq => by cases heq; omega]
        exact Function.update_self _ _ _

section

variable {Q : PlanNode → Prop} {or : Prop} {P : Option Expr → Prop} {w w₁ w' : Workspace}
  {cached : List Bool} {left right : TableSet}

theorem Opened.coming (h : Opened w cached w₁ left right c) : c.coming ⊆ w.context.coming :=
  coming_subset h.extends h.wraps.1

theorem Moves.coming (h : Moves Q or w w') : w'.context.coming ⊆ w.context.coming :=
  coming_subset h.extends h.cacheIds_le

/-- The copies for the sides of an OR have new names for their caches alone. -/
theorem Opened.assigned (h : Opened w cached w₁ left right c) (hw : Handled P w)
    (hf : ∀ p ∈ w.set.tables, Assigned names f w.context p.executable) :
    ∃ f', Revises w.context f f' ∧
      ∀ q, q ∈ left.tables ∨ q ∈ right.tables → Assigned names f' c q.executable := by
  obtain ⟨f', hold, hnew⟩ : ∃ f', Revises w.context f f' ∧ ∀ x ∈ cached.zip w₁.set.tables,
      x.1 = true → ∀ name, x.2.executable.name? = some name → f' name = x.2.executable := by
    rcases cacheForSides_cases h.caches with ⟨-, hplans⟩ | ⟨-, hplans⟩ <;> rw [hplans]
    · obtain ⟨f', hold, hnew⟩ := exists_revises_cachePlans w.context.cacheIds w.set.tables f
      exact ⟨f', fun name hname => hold name fun id hid heq => hname (heq ▸ hid), hnew⟩
    · refine ⟨f, .refl _ _, List.forall_mem_map.mpr fun p _ hcached => ?_⟩
      cases hcached
  refine ⟨f', hold, fun q hq => ?_⟩
  obtain ⟨p, hp, x, hpx, hx, htree⟩ := h.exists_of_mem_copies hw hq
  have hbare := (hf p hp).extend hold h.coming
  rw [htree]
  cases hpx with
  | bare => exact hbare
  | @cached id uncached lower upper =>
    exact .named rfl rfl (fun _ => ⟨not_lt.mpr upper, hnew _ hx rfl _ rfl⟩) hbare

/-- Of two plans that a link joins, one may get a new mark. -/
theorem exists_revises_withMark {joinType : JoinType} {l r : TablePlan}
    {marked : Option (PlanId × String)} (hne : l.id ≠ r.id)
    (hnames : ∀ mark, .mark mark ∈ names → Function.Injective w.context.markers.nameAt)
    (h : Planner.newMark joinType l.id r.id w = .ok marked { w with context := c })
    (hl : Assigned names f w.context l.executable) (hr : Assigned names f w.context r.executable) :
    ∃ f', Revises w.context f f' ∧ Assigned names f' c (l.withMark marked).executable ∧
      Assigned names f' c (r.withMark marked).executable := by
  have hsub : c.coming ⊆ w.context.coming :=
    coming_subset (newMark_extends h) (newMark_cacheIds h).symm.le
  rcases Planner.newMark_ok h with ⟨-, rfl, -⟩ | ⟨kept, hkept, rfl, heq⟩
  · exact ⟨f, .refl _ _, hl.extend (.refl _ _) hsub, hr.extend (.refl _ _) hsub⟩
  obtain rfl : c = { w.context with markers := w.context.markers.next.2 } :=
    congrArg Workspace.context heq
  -- The mark is the first of those that were to come, and no later one is the same.
  have hnew : NodeName.mark w.context.markers.next.1 ∈ w.context.coming :=
    ⟨_, Nat.lt_succ_self _, rfl⟩
  have hgiven : .mark w.context.markers.next.1 ∈ names →
      w.context.markers.next.1 ∉ w.context.markers.next.2.future := fun hmem => by
    have := Set.mem_singleton w.context.markers.next.1
    rw [← MarkerGenerator.future_next (hnames _ hmem)] at this
    exact this.2
  have hmarked : ∀ p : TablePlan, Assigned names f w.context p.executable →
      ∃ f', Revises w.context f f' ∧
        Assigned names f' { w.context with markers := w.context.markers.next.2 }
          (.cacheMark p.executable w.context.markers.next.1) := by
    intro p hp
    have hrevises : Revises w.context f (Function.update f (.mark w.context.markers.next.1)
        (.cacheMark p.executable w.context.markers.next.1)) := by
      intro name hname
      refine Function.update_of_ne ?_ _ _
      rintro rfl
      exact hname hnew
    refine ⟨_, hrevises, .named rfl rfl (fun hmem => ⟨hgiven hmem, ?_⟩) (hp.extend hrevises hsub)⟩
    exact Function.update_self _ _ _
  rcases hkept with ⟨-, rfl⟩ | ⟨-, rfl⟩
  · obtain ⟨f', hrevises, htree⟩ := hmarked l hl
    rw [TablePlan.withMark_of_eq rfl, TablePlan.withMark_of_ne hne.symm]
    exact ⟨f', hrevises, htree, hr.extend hrevises hsub⟩
  · obtain ⟨f', hrevises, htree⟩ := hmarked r hr
    rw [TablePlan.withMark_of_eq rfl, TablePlan.withMark_of_ne hne]
    exact ⟨f', hrevises, hl.extend hrevises hsub, htree⟩

namespace Assigned

theorem union {l r : PlanNode} (hl : Assigned names f c l) (hr : Assigned names f c r) :
    Assigned names f c (.union l r) :=
  .unnamed rfl (List.forall_mem_cons.mpr ⟨hl, List.forall_mem_singleton.mpr hr⟩)

theorem addBack (marked : Option (PlanId × String)) (h : Assigned names f c tree) :
    Assigned names f c (Planner.addBack marked tree) := by
  cases marked with
  | none => exact h
  | some x => exact .unnamed rfl (List.forall_mem_singleton.mpr h)

theorem reordered (order : List ColumnName) {p : TablePlan} (h : Assigned names f c p.executable) :
    Assigned names f c (p.reordered order).executable := by
  unfold TablePlan.reordered
  split
  · exact h
  · exact .unnamed rfl (List.forall_mem_singleton.mpr h)

end Assigned

/-- After any moves, the names are those of an assignment that revises the one from before. -/
theorem Moves.assigned (h : Moves Q or w w') (hw : Handled P w)
    (hnames : ∀ mark, .mark mark ∈ names → Function.Injective w.context.markers.nameAt)
    (hf : ∀ p ∈ w.set.tables, Assigned names f w.context p.executable) :
    ∃ f', Revises w.context f f' ∧
      ∀ q ∈ w'.set.tables, Assigned names f' w'.context q.executable := by
  induction h generalizing P f with
  | refl => exact ⟨f, .refl _ _, hf⟩
  | trans first rest ih ih' =>
    obtain ⟨f₁, hrevises, hf₁⟩ := ih hw hnames hf
    obtain ⟨f', hrevises', hf'⟩ := ih' (first.handled hw) (first.extends.nameAt ▸ hnames) hf₁
    exact ⟨f', hrevises.trans first.coming hrevises', hf'⟩
  | filter filtered =>
    refine ⟨f, .refl _ _, fun q hq => ?_⟩
    obtain ⟨p, hp, hpq⟩ := exists_left_of_forall₂ filtered hq
    rcases hpq with rfl | ⟨tree, htree, rfl⟩
    · exact hf q hp
    · exact .unnamed htree.name_eq (htree.inputs_eq ▸ List.forall_mem_singleton.mpr (hf p hp))
  | join left right _ joined =>
    refine ⟨f, .refl _ _, Inherited.mergedTables hf (.unnamed (PlanNode.name_of_joined joined) ?_)⟩
    rw [PlanNode.inputs_of_joined joined, List.forall_mem_cons, List.forall_mem_singleton]
    exact ⟨hf _ left, hf _ right⟩
  | @joinLinked w w₁ l r x joinType marked c left right ne marks pair single ih =>
    have hsub : c.coming ⊆ w.context.coming :=
      coming_subset (newMark_extends marks) (newMark_cacheIds marks).symm.le
    obtain ⟨f₁, hrevises, hl, hr⟩ :=
      exists_revises_withMark ne hnames marks (hf l left) (hf r right)
    obtain ⟨f', hrevises', hx⟩ := ih (P := P) Handled.pair
      (by exact (newMark_extends marks).nameAt ▸ hnames)
      (List.forall_mem_cons.mpr ⟨hl, List.forall_mem_singleton.mpr hr⟩)
    rw [single, List.forall_mem_singleton] at hx
    have hall := hrevises.trans hsub hrevises'
    refine ⟨f', hall, Inherited.mergedTables (fun p hp => ?_) (.addBack marked hx)⟩
    exact (hf p hp).extend hall (pair.coming.trans hsub)
  | unite _ opened planLeft planRight fits ih ih' =>
    obtain ⟨f₁, hrevises₁, hcopies⟩ := opened.assigned hw hf
    obtain ⟨f₂, hrevises₂, hl⟩ := ih (opened.handledLeft hw) (opened.extends.nameAt ▸ hnames)
      fun q hq => hcopies q (Or.inl hq)
    obtain ⟨f', hrevises', hr⟩ := ih' (opened.handledRight hw planLeft.extends)
      ((opened.extends.trans planLeft.extends).nameAt ▸ hnames)
      fun q hq => (hcopies q (Or.inr hq)).extend hrevises₂ planLeft.coming
    have hall := (hrevises₁.trans opened.coming hrevises₂).trans
      (planLeft.coming.trans opened.coming) hrevises'
    refine ⟨f', hall, fun q hq => ?_⟩
    rcases opened.mem_united hw planLeft planRight fits hq with
      ⟨y, hy, z, hz, htree⟩ | ⟨p, hp, htree⟩ <;> rw [htree]
    · exact ((hl y hy).extend hrevises' planRight.coming).union (hr z hz)
    · exact (hf p hp).extend hall (planRight.coming.trans (planLeft.coming.trans opened.coming))
  | @uniteJoined w w₁ l r l' r' _ _ _ _ x y _ opened planLeft planRight reshaped joinLeft single
      joinRight single' ih ih' ihJoin ihJoin' =>
    have hwl := opened.handledLeft hw
    have hwr := opened.handledRight hw planLeft.extends
    have hextends := opened.extends.trans planLeft.extends
    have hextends' := hextends.trans planRight.extends
    -- Each of the four runs leaves what the others planned as it is.
    obtain ⟨f₁, hrevises₁, hcopies⟩ := opened.assigned hw hf
    obtain ⟨f₂, hrevises₂, hl⟩ := ih hwl (opened.extends.nameAt ▸ hnames)
      fun q hq => hcopies q (Or.inl hq)
    obtain ⟨f₃, hrevises₃, hr⟩ := ih' hwr (hextends.nameAt ▸ hnames)
      fun q hq => (hcopies q (Or.inr hq)).extend hrevises₂ planLeft.coming
    obtain ⟨f₄, hrevises₄, hx⟩ := ihJoin ((planLeft.handled hwl).extend planRight.extends)
      (hextends'.nameAt ▸ hnames) fun q hq => (hl q hq).extend hrevises₃ planRight.coming
    obtain ⟨f', hrevises', hy⟩ := ihJoin' ((planRight.handled hwr).extend joinLeft.extends)
      ((hextends'.trans joinLeft.extends).nameAt ▸ hnames)
      fun q hq => (hr q hq).extend hrevises₄ joinLeft.coming
    rw [single, List.forall_mem_singleton] at hx
    rw [single', List.forall_mem_singleton] at hy
    have hfirst := hrevises₁.trans opened.coming hrevises₂
    have hcoming := planLeft.coming.trans opened.coming
    have hsecond := hfirst.trans hcoming hrevises₃
    have hthird := hsecond.trans (planRight.coming.trans hcoming) hrevises₄
    refine ⟨f', hthird.trans (joinLeft.coming.trans (planRight.coming.trans hcoming)) hrevises', ?_⟩
    rw [List.forall_mem_singleton, opened.unitePair_of_reshaped hw planLeft planRight reshaped
      joinLeft single joinRight single']
    exact ((hx.extend hrevises' joinRight.coming).reordered _).union (hy.reordered _)

end

/-! ## Whole queries -/

section

variable {Q : PlanNode → Prop} {uuids : Identifiers} {settings : Settings} {set : TableSet}
  {supply supply' : PlanId.Supply} {filter : Option Expr} {plan : TablePlan}

/-- A filter is planned by moves, over plans under handles of their own. -/
theorem planQuery_moves (hids : (set.tables.map TablePlan.id).Nodup)
    (hgiven : ∀ p ∈ set.tables, p.id.number < supply.next)
    (hfilter : ∀ e, filter = some e → ∀ query ∈ e.queries, Q query)
    (hlinks : ∀ p ∈ set.tables, ∀ side link, p.linkOn side = some link →
      ∀ e, link.on = some e → ∀ query ∈ e.queries, Q query)
    (h : planQuery uuids settings set filter supply = .ok plan supply') :
    ∃ w, Handled (fun _ => True) ⟨set, .start uuids settings supply⟩ ∧
      Moves Q True ⟨set, .start uuids settings supply⟩ w ∧ w.set.tables = [plan] := by
  obtain ⟨w', hplan⟩ := planQuery_ok h
  obtain ⟨w, hmoves, hsingle, -⟩ := plan_moves hids hgiven
    (fun e he => ⟨hfilter e he, absurd trivial⟩)
    (fun side p hp link hlink e he => ⟨hlinks p hp side link hlink e he, absurd trivial⟩) hplan
  exact ⟨w, ⟨hids, hgiven, fun _ _ _ _ _ => trivial⟩, hmoves, hsingle⟩

variable (hbase : ∀ p ∈ set.tables, ∃ table, p.executable = .source table)
  (hids : (set.tables.map TablePlan.id).Nodup)
  (hgiven : ∀ p ∈ set.tables, p.id.number < supply.next)
  (hfilter : ∀ e, filter = some e → ∀ query ∈ e.queries, Q query)
  (hlinks : ∀ p ∈ set.tables, ∀ side link, p.linkOn side = some link →
    ∀ e, link.on = some e → ∀ query ∈ e.queries, Q query)
  (h : planQuery uuids settings set filter supply = .ok plan supply')

include hbase hids hgiven hfilter hlinks h

/-- What base tables have is inherited by the tree that is planned over them. -/
theorem planQuery_inherits {I : PlanNode → Prop} (hI : ∀ last, Inherited Q last I)
    (hsource : ∀ table, I (.source table)) : I plan.executable := by
  obtain ⟨w, hw, hmoves, hsingle⟩ := planQuery_moves hids hgiven hfilter hlinks h
  have htrees := hmoves.inherits (hI _) hw le_rfl fun p hp => by
    obtain ⟨table, htree⟩ := hbase p hp
    exact htree ▸ hsource table
  rwa [hsingle, List.forall_mem_singleton] at htrees

/-- The names in the tree that is planned over base tables are those of an assignment. -/
theorem planQuery_assigned
    (hnames : ∀ mark, .mark mark ∈ names → settings.markers.strategy = .sequential) :
    ∃ f c, Assigned names f c plan.executable := by
  obtain ⟨w, hw, hmoves, hsingle⟩ := planQuery_moves hids hgiven hfilter hlinks h
  obtain ⟨f, -, hassigned⟩ := hmoves.assigned (f := fun _ => .source "") hw
    (fun mark hmark => MarkerGenerator.nameAt_injective (hnames mark hmark)) fun p hp => by
      obtain ⟨table, htree⟩ := hbase p hp
      rw [htree]
      exact PlanNode.throughout_source fun _ _ => nofun
  rw [hsingle, List.forall_mem_singleton] at hassigned
  exact ⟨f, w.context, hassigned⟩

end

end QueryPlan
