import QueryPlan.Proofs.Names

/-!
# Names in planned nested queries

Every run gives its names anew, from the first one on. A filter may compare rows
with what another run planned, so that the names of both are in one tree.

- `PlanNode.FromRuns`: what runs plan, with nested queries that other runs planned.
- `PlanNode.scopes`: the parts of a tree that each come from one run.
- `PlanNode.ScopesApart`: different parts have no name in common.
- `planQuery_namesUnique`: then nodes with the same name are the same.
- `not_planQuery_namesUnique`: else they need not be.
-/

namespace QueryPlan

/-- What a run plans over base tables, with numbered marks and with nested queries that other runs
planned so. -/
inductive PlanNode.FromRuns : PlanNode → Prop where
  | run {uuids : Identifiers} {settings : Settings} {set : TableSet}
    {supply supply' : PlanId.Supply} {filter : Option Expr} {plan : TablePlan}
    (marks : settings.markers.strategy = .sequential)
    (base : ∀ p ∈ set.tables, ∃ table, p.executable = .source table)
    (ids : (set.tables.map TablePlan.id).Nodup)
    (given : ∀ p ∈ set.tables, p.id.number < supply.next)
    (filters : ∀ e, filter = some e → ∀ query ∈ e.queries, query.FromRuns)
    (links : ∀ p ∈ set.tables, ∀ side link, p.linkOn side = some link →
      ∀ e, link.on = some e → ∀ query ∈ e.queries, query.FromRuns)
    (planned : planQuery uuids settings set filter supply = .ok plan supply') :
    FromRuns plan.executable

namespace PlanNode

/-- The tree and its nested queries, and theirs at any depth. The own nodes of each come from one
run. -/
def scopes (tree : PlanNode) : List PlanNode := tree :: tree.walk.filterMap nested?

/-- The names of the own nodes. -/
def names (tree : PlanNode) : List NodeName := tree.own.filterMap name?

/-- Different scopes of the tree have no name in common. -/
def ScopesApart (tree : PlanNode) : Prop :=
  ∀ s ∈ tree.scopes, ∀ t ∈ tree.scopes, s ≠ t → ∀ name ∈ s.names, name ∉ t.names

/-- Own nodes with the same name are the same. -/
def OwnNamesUnique (tree : PlanNode) : Prop :=
  ∀ a ∈ tree.own, ∀ b ∈ tree.own, ∀ name, a.name? = some name → b.name? = some name → a = b

/-- Whoever runs the tree may take nodes with the same name for the same. -/
structure NamesUnique (tree : PlanNode) : Prop where
  /-- Caches with one id have the same input. -/
  cache : ∀ input input' id, .cache input id ∈ tree.walk → .cache input' id ∈ tree.walk →
    input = input'
  /-- Nodes that remember rows under one mark have the same input. -/
  mark : ∀ input input' mark, .cacheMark input mark ∈ tree.walk →
    .cacheMark input' mark ∈ tree.walk → input = input'

variable {Q : PlanNode → Prop} {tree node select query : PlanNode} {name : NodeName}

theorem mem_names_iff : name ∈ tree.names ↔ ∃ node ∈ tree.own, node.name? = some name :=
  List.mem_filterMap

/-- Every node of a tree is an own node of one of its scopes. -/
theorem exists_scope_of_mem_walk (h : node ∈ tree.walk) : ∃ s ∈ tree.scopes, node ∈ s.own := by
  have hself : ∀ {n : PlanNode}, n ∈ n.walk := fun {n} => walk_eq n ▸ List.mem_cons_self
  unfold scopes
  simp only [List.mem_cons, exists_eq_or_imp, List.mem_filterMap]
  induction tree using induction_children with
  | step tree ih =>
    rw [walk_eq, List.mem_cons, List.mem_flatMap] at h
    rcases h with rfl | ⟨child, hchild, h⟩
    · exact Or.inl (mem_own_iff.mpr (Or.inl rfl))
    rcases ih child hchild h with hown | ⟨s, ⟨select, hselect, hnested⟩, hown⟩
    · rcases mem_children_iff.mp hchild with hinput | hnested
      · exact Or.inl (mem_own_iff.mpr (Or.inr ⟨child, hinput, hown⟩))
      · exact Or.inr ⟨child, ⟨tree, hself, hnested⟩, hown⟩
    · exact Or.inr ⟨s, ⟨select, mem_walk_of_child hchild hselect, hnested⟩, hown⟩

/-- What holds of the nested queries of a tree, and of those of such queries, holds of them at any
depth. -/
theorem nests_of_mem_walk (hQ : ∀ query, Q query → query.Throughout (Nests Q))
    (h : tree.Throughout (Nests Q)) (hmem : node ∈ tree.walk) : node.Nests Q := by
  induction tree using induction_children with
  | step tree ih =>
    obtain ⟨hself, hinputs⟩ := throughout_iff.mp h
    rw [walk_eq, List.mem_cons, List.mem_flatMap] at hmem
    rcases hmem with rfl | ⟨child, hchild, hmem⟩
    · exact hself
    rcases mem_children_iff.mp hchild with hinput | hnested
    · exact ih child hchild (hinputs child hinput) hmem
    · exact ih child hchild (hQ child (hself child hnested)) hmem

end PlanNode

namespace PlanNode.FromRuns

variable {tree : PlanNode}

/-- The own nested queries were planned by other runs. -/
theorem nests (h : tree.FromRuns) : tree.Throughout (Nests FromRuns) := by
  cases h with
  | run marks base ids given filters links planned =>
    exact planQuery_inherits base ids given filters links planned (inherited_nests _) fun _ =>
      PlanNode.throughout_source nofun

theorem of_mem_scopes (h : tree.FromRuns) {s : PlanNode} (hs : s ∈ tree.scopes) : s.FromRuns := by
  rcases List.mem_cons.mp hs with rfl | hs
  · exact h
  · obtain ⟨select, hselect, hnested⟩ := List.mem_filterMap.mp hs
    exact PlanNode.nests_of_mem_walk (fun _ hq => hq.nests) h.nests hselect s hnested

/-- Each run gives different names to different nodes. -/
theorem ownNamesUnique (h : tree.FromRuns) : tree.OwnNamesUnique := by
  intro a ha b hb name hname hname'
  cases h with
  | run marks base ids given filters links planned =>
    obtain ⟨f, c, hassigned⟩ : ∃ f c, Assigned Set.univ f c _ :=
      planQuery_assigned base ids given filters links planned fun _ _ => marks
    exact hassigned.eq ha hb (Set.mem_univ name) hname hname'

/-- If the runs gave no name twice, nodes with the same name are the same. -/
theorem namesUnique (h : tree.FromRuns) (hapart : tree.ScopesApart) : tree.NamesUnique := by
  have hunique : ∀ a ∈ tree.walk, ∀ b ∈ tree.walk, ∀ name, a.name? = some name →
      b.name? = some name → a = b := by
    intro a ha b hb name hname hname'
    obtain ⟨s, hs, ha⟩ := PlanNode.exists_scope_of_mem_walk ha
    obtain ⟨t, ht, hb⟩ := PlanNode.exists_scope_of_mem_walk hb
    by_cases hst : s = t
    · subst hst
      exact (h.of_mem_scopes hs).ownNamesUnique a ha b hb name hname hname'
    · exact absurd (PlanNode.mem_names_iff.mpr ⟨b, hb, hname'⟩)
        (hapart s hs t ht hst name (PlanNode.mem_names_iff.mpr ⟨a, ha, hname⟩))
  refine ⟨fun input input' id hl hr => ?_, fun input input' mark hl hr => ?_⟩
  · exact (PlanNode.cache.inj (hunique _ hl _ hr (.cache id) rfl rfl)).1
  · exact (PlanNode.cacheMark.inj (hunique _ hl _ hr (.mark mark) rfl rfl)).1

end PlanNode.FromRuns

/-- What is planned over base tables with numbered marks, and with nested queries that other runs
planned, has different names for different nodes of one run. So caches with one id and nodes with
one mark are the same in the whole tree, if no two of the runs gave the same name. -/
theorem planQuery_namesUnique {uuids : Identifiers} {settings : Settings} {set : TableSet}
    {supply supply' : PlanId.Supply} {filter : Option Expr} {plan : TablePlan}
    (hmarks : settings.markers.strategy = .sequential)
    (hbase : ∀ p ∈ set.tables, ∃ table, p.executable = .source table)
    (hids : (set.tables.map TablePlan.id).Nodup)
    (hgiven : ∀ p ∈ set.tables, p.id.number < supply.next)
    (hfilter : ∀ e, filter = some e → ∀ query ∈ e.queries, query.FromRuns)
    (hlinks : ∀ p ∈ set.tables, ∀ side link, p.linkOn side = some link →
      ∀ e, link.on = some e → ∀ query ∈ e.queries, query.FromRuns)
    (h : planQuery uuids settings set filter supply = .ok plan supply') :
    (∀ s ∈ plan.executable.scopes, s.OwnNamesUnique) ∧
      (plan.executable.ScopesApart → plan.executable.NamesUnique) := by
  have hruns : plan.executable.FromRuns := .run hmarks hbase hids hgiven hfilter hlinks h
  exact ⟨fun s hs => (hruns.of_mem_scopes hs).ownNamesUnique, hruns.namesUnique⟩

/-- The column of the table has one of two values. -/
def eitherOf (table : String) : Expr :=
  .binary (.binary (columnOf table) .eq (.constant (.int 1))) .or
    (.binary (columnOf table) .eq (.constant (.int 2)))

/-- An OR over one table, with a nested query that was planned with an outer join: the tree of this
query is in it twice. -/
theorem planQuery_namesUnique_of_marks :
    let on := Expr.binary (columnOf "b") .eq (columnOf "c")
    let inner : TableSet := ⟨[(TablePlan.one 1 "b").withRight ⟨⟨2⟩, .left, some on⟩,
      (TablePlan.one 2 "c").withLeft ⟨⟨1⟩, .left, some on⟩], false⟩
    let query := (resultWith (fun plan _ => plan.executable)
      (planQuery .blank default inner none ⟨3⟩)).getD (.source "")
    let set : TableSet := ⟨[TablePlan.one 1 "a"], false⟩
    let filter := (eitherOf "a").and
      (.quantified .any .eq (columnOf "a") (.query query []))
    ∃ plan supply', planQuery .blank default set (some filter) ⟨2⟩ = .ok plan supply' ∧
      plan.executable.walk.filterMap PlanNode.name? =
        [.cache 1, .mark "OUTER_JOIN_1", .cache 1, .mark "OUTER_JOIN_1"] ∧
      plan.executable.NamesUnique := by
  intro on inner query set filter
  have hinner : resultWith (fun _ _ => ()) (planQuery .blank default inner none ⟨3⟩) = some () := by
    decide +kernel
  obtain ⟨plan₀, supply₀, h₀, -⟩ := exists_of_resultWith hinner
  have hquery : query.FromRuns := by
    have htree : query = plan₀.executable := by
      show (resultWith _ (planQuery .blank default inner none ⟨3⟩)).getD _ = _
      rw [h₀]
      rfl
    rw [htree]
    refine .run rfl ?_ (by decide) (by decide) (by rintro e ⟨⟩) ?_ h₀
    · simp only [inner, List.forall_mem_cons]
      exact ⟨⟨_, rfl⟩, ⟨_, rfl⟩, List.forall_mem_nil _⟩
    · simp only [inner, List.forall_mem_cons]
      refine ⟨?_, ?_, List.forall_mem_nil _⟩
      all_goals
        rintro (_ | _) link hlink e he <;> cases hlink
        cases he
        rintro _ ⟨⟩
  have hok : resultWith
      (fun plan _ => (plan.executable.walk.filterMap PlanNode.name?, plan.executable.names))
      (planQuery .blank default set (some filter) ⟨2⟩) =
        some ([.cache 1, .mark "OUTER_JOIN_1", .cache 1, .mark "OUTER_JOIN_1"],
          [.cache 1, .cache 1]) := by
    decide +kernel
  obtain ⟨plan, supply', h, hboth⟩ := exists_of_resultWith hok
  obtain ⟨hwalk, hnames⟩ := Prod.mk.inj hboth
  have hbase : ∀ p ∈ set.tables, ∃ table, p.executable = .source table :=
    List.forall_mem_singleton.mpr ⟨_, rfl⟩
  have hqueries : ∀ e, some filter = some e → ∀ q ∈ e.queries, q = query := by
    rintro e ⟨⟩ q hq
    exact List.mem_singleton.mp (show q ∈ [query] from hq)
  have hlinks : ∀ p ∈ set.tables, ∀ side link, p.linkOn side = some link →
      ∀ e, link.on = some e → ∀ q ∈ e.queries, q = query := by
    refine List.forall_mem_singleton.mpr ?_
    rintro (_ | _) link ⟨⟩
  refine ⟨plan, supply', h, hwalk, (planQuery_namesUnique rfl hbase (by decide) (by decide)
    (fun e he q hq => hqueries e he q hq ▸ hquery)
    (fun p hp side link hlink e he q hq => hlinks p hp side link hlink e he q hq ▸ hquery) h).2 ?_⟩
  -- There is one nested query, which has a mark and no further ones.
  have hnames' : query.names = [.mark "OUTER_JOIN_1"] := by decide +kernel
  have hnone : query.walk.all (·.nested?.isNone) = true := by decide +kernel
  have hnests : plan.executable.Throughout (PlanNode.Nests (· = query)) :=
    planQuery_inherits hbase (by decide) (by decide) hqueries hlinks h (inherited_nests _) fun _ =>
      PlanNode.throughout_source nofun
  have hscopes : ∀ s ∈ plan.executable.scopes, s = plan.executable ∨ s = query := by
    intro s hs
    refine (List.mem_cons.mp hs).imp_right fun hs => ?_
    obtain ⟨select, hselect, hnested⟩ := List.mem_filterMap.mp hs
    refine PlanNode.nests_of_mem_walk (fun q hq node hnode q' hnested => ?_) hnests hselect s
      hnested
    have := List.all_eq_true.mp hnone node (PlanNode.mem_walk_of_own (hq ▸ hnode))
    rw [hnested] at this
    cases this
  have hdiffer : ∀ name ∈ plan.executable.names, name ∉ query.names := by
    rw [hnames, hnames']
    decide
  intro s hs t ht hne name hmem hmem'
  rcases hscopes s hs with rfl | rfl <;> rcases hscopes t ht with rfl | rfl
  · exact hne rfl
  · exact hdiffer name hmem hmem'
  · exact hdiffer name hmem' hmem
  · exact hne rfl

/-- The id of a cache and the line of its input. -/
def PlanNode.cacheLine? : PlanNode → Option (Nat × String)
  | .cache input id => some (id, input.label)
  | _ => none

/-- Two runs that each plan an OR give the same id, here to different caches. -/
theorem not_planQuery_namesUnique :
    let inner : TableSet := ⟨[TablePlan.one 1 "b"], false⟩
    let query := (resultWith (fun plan _ => plan.executable)
      (planQuery .blank default inner (some (eitherOf "b")) ⟨2⟩)).getD (.source "")
    let set : TableSet := ⟨[TablePlan.one 1 "a"], false⟩
    let filter := (eitherOf "a").and (.quantified .any .eq (columnOf "a") (.query query []))
    (∀ q ∈ filter.queries, q.FromRuns) ∧
      ∃ plan supply', planQuery .blank default set (some filter) ⟨2⟩ = .ok plan supply' ∧
        ¬ plan.executable.NamesUnique := by
  intro inner query set filter
  have hinner : resultWith (fun _ _ => ())
      (planQuery .blank default inner (some (eitherOf "b")) ⟨2⟩) = some () := by
    decide +kernel
  obtain ⟨plan₀, supply₀, h₀, -⟩ := exists_of_resultWith hinner
  have hquery : query.FromRuns := by
    have htree : query = plan₀.executable := by
      show (resultWith _ (planQuery .blank default inner (some (eitherOf "b")) ⟨2⟩)).getD _ = _
      rw [h₀]
      rfl
    rw [htree]
    refine .run rfl (List.forall_mem_singleton.mpr ⟨_, rfl⟩) (by decide) (by decide)
      (by rintro e ⟨⟩ _ ⟨⟩) (List.forall_mem_singleton.mpr ?_) h₀
    rintro (_ | _) link ⟨⟩
  have hok : resultWith (fun plan _ => plan.executable.walk.filterMap PlanNode.cacheLine?)
      (planQuery .blank default set (some filter) ⟨2⟩) =
        some [(1, "NonCorrelatedAnyAll (a.x) = ANY"), (1, "Source b"), (1, "Source b"),
          (1, "NonCorrelatedAnyAll (a.x) = ANY"), (1, "Source b"), (1, "Source b")] := by
    decide +kernel
  obtain ⟨plan, supply', h, hlines⟩ := exists_of_resultWith hok
  refine ⟨List.forall_mem_singleton.mpr hquery, plan, supply', h, fun hunique => ?_⟩
  have hcache : ∀ line, (1, line) ∈ plan.executable.walk.filterMap PlanNode.cacheLine? →
      ∃ input, .cache input 1 ∈ plan.executable.walk ∧ input.label = line := by
    intro line hline
    obtain ⟨node, hnode, hview⟩ := List.mem_filterMap.mp hline
    cases node with
    | cache input id =>
      cases hview
      exact ⟨input, hnode, rfl⟩
    | _ => cases hview
  rw [hlines] at hcache
  obtain ⟨input, hinput, hline⟩ := hcache "NonCorrelatedAnyAll (a.x) = ANY" (by decide)
  obtain ⟨input', hinput', hline'⟩ := hcache "Source b" (by decide)
  rw [hunique.cache input input' 1 hinput hinput', hline'] at hline
  revert hline
  decide

end QueryPlan
