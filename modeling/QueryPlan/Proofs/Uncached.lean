import QueryPlan.Proofs.Evaluation
import QueryPlan.Proofs.Renamed
import QueryPlan.Proofs.Validated

/-!
# Runs without caches

- `PlanNode.uncached`: a tree without its caches.
- `PlanNode.Like.eq_uncached`: what a run without caches plans is that.
- `planQuery_uncached`: so caches for the sides of ORs change nothing else.
-/

namespace QueryPlan

/-- The settings with caches for the sides of ORs, or without. -/
def Settings.caching (settings : Settings) (on : Bool) : Settings :=
  { settings with planning := { settings.planning with cacheOrBranches := on } }

namespace PlanNode

/-- The tree without its caches. -/
def uncached : PlanNode → PlanNode
  | .source name => .source name
  | .naturalJoin l r => .naturalJoin l.uncached r.uncached
  | .join l r column op value => .join l.uncached r.uncached column op value
  | .outerJoin input mark => .outerJoin input.uncached mark
  | .union l r => .union l.uncached r.uncached
  | .project input columns => .project input.uncached columns
  | .cache input _ => input.uncached
  | .cacheMark input mark => .cacheMark input.uncached mark
  | .constantSelect input predicate => .constantSelect input.uncached predicate
  | .simpleSelect input column op value => .simpleSelect input.uncached column op value
  | .patternSelect input column op pattern escape =>
    .patternSelect input.uncached column op pattern escape
  | .exhaustiveSelect input predicate => .exhaustiveSelect input.uncached predicate
  | .anyAllSelect input subQuery columns op quantifier =>
    .anyAllSelect input.uncached subQuery.uncached columns op quantifier

/-- The tree has no cache, nor has a nested query that rows are compared with. -/
def Cacheless (node : PlanNode) : Prop := ∀ n ∈ node.walk, n.isCache = false

instance (node : PlanNode) : Decidable node.Cacheless :=
  inferInstanceAs (Decidable (∀ n ∈ node.walk, n.isCache = false))

variable {node n n' : PlanNode} {L : Likeness}

theorem cacheless_iff :
    node.Cacheless ↔ node.isCache = false ∧ ∀ child ∈ node.children, child.Cacheless := by
  unfold Cacheless
  rw [walk_eq, List.forall_mem_cons]
  refine and_congr_right fun _ => ?_
  constructor
  · exact fun h child hchild n hn => h n (List.mem_flatMap.mpr ⟨child, hchild, hn⟩)
  · intro h n hn
    obtain ⟨child, hchild, hn⟩ := List.mem_flatMap.mp hn
    exact h child hchild n hn

/-- Where there is no cache, the inputs lose their caches. -/
theorem children_uncached (h : node.isCache = false) :
    node.uncached.isCache = false ∧ node.uncached.children = node.children.map uncached := by
  cases node with
  | cache => cases h
  | _ => exact ⟨rfl, rfl⟩

theorem cacheless_uncached (node : PlanNode) : node.uncached.Cacheless := by
  induction node using induction_children with
  | step node ih =>
    by_cases hcache : node.isCache = true
    · cases node with
      | cache input id => exact ih input (List.mem_singleton_self _)
      | _ => cases hcache
    · obtain ⟨hself, hchildren⟩ := children_uncached (Bool.eq_false_iff.mpr hcache)
      rw [cacheless_iff, hchildren, List.forall_mem_map]
      exact ⟨hself, ih⟩

/-- A tree without caches is as it is. -/
theorem Cacheless.uncached_eq (h : node.Cacheless) : node.uncached = node := by
  induction node using induction_children with
  | step node ih =>
    obtain ⟨hself, hchildren⟩ := cacheless_iff.mp h
    have hsame : ∀ child ∈ node.children, child.uncached = child :=
      fun child hchild => ih child hchild (hchildren child hchild)
    cases node with
    | cache => cases hself
    | _ => simp_all [uncached, children]

/-- A tree of a run without caches is that of the other run, without its caches. -/
theorem Like.eq_uncached (hmarks : ∀ mark mark', L.marks mark mark' → mark' = mark)
    (hbare : L.caches? = none) (hqueries : ∀ q, L.queries q → q.Cacheless) (h : n.Like L n') :
    n' = n.uncached := by
  induction h with
  | source name => rfl
  | naturalJoin _ _ ihLeft ihRight => rw [uncached, ← ihLeft, ← ihRight]
  | join _ _ column op value ihLeft ihRight => rw [uncached, ← ihLeft, ← ihRight]
  | outerJoin _ mark ih => rw [uncached, ← ih, hmarks _ _ mark]
  | union _ _ ihLeft ihRight => rw [uncached, ← ihLeft, ← ihRight]
  | project _ columns ih => rw [uncached, ← ih]
  | cache caches =>
    rw [hbare] at caches
    cases caches
  | bared _ _ id ih => rw [uncached, ← ih]
  | cacheMark _ mark ih => rw [uncached, ← ih, hmarks _ _ mark]
  | constantSelect _ predicate ih => rw [uncached, ← ih]
  | simpleSelect _ column op value ih => rw [uncached, ← ih]
  | patternSelect _ column op pattern escape ih => rw [uncached, ← ih]
  | exhaustiveSelect _ predicate ih => rw [uncached, ← ih]
  | anyAllSelect _ nested columns op quantifier ih =>
    rw [uncached, ← ih, (hqueries _ nested).uncached_eq]

theorem Cacheless.like (h : node.Cacheless) (hmarks : ∀ mark, L.marks mark mark)
    (hqueries : ∀ q : PlanNode, q.Cacheless → L.queries q) :
    node.Like L node := by
  refine like_self hmarks (fun m i hmem => ?_) fun m q columns op quantifier hmem => hqueries q ?_
  · cases h _ hmem
  · intro n hn
    exact h n (mem_walk_trans hmem (mem_walk_of_child (List.mem_cons_of_mem _
      (List.mem_singleton_self q)) hn))

end PlanNode

/-! ## Queries -/

variable {uuids uuids' : Identifiers} {settings : Settings} {set : TableSet}
  {filter : Option Expr} {g : PlanId → PlanId} {supply supply' : PlanId.Supply}

/-- Caches for the sides of ORs change nothing else. A filter is planned with them over any plans
without caches, whatever their links are, and without them over the same plans under any other
handles. Both runs fail for the same reason, up to handles, or both give one plan with the same
columns and keys, where the tree of the second is that of the first without its caches. -/
theorem planQuery_uncached (hmarks : settings.markers.strategy = .sequential)
    (hnames : Renames g set supply supply')
    (htrees : ∀ p ∈ set.tables, p.executable.Cacheless)
    (hfilter : ∀ e, filter = some e → ∀ query ∈ e.queries, query.Cacheless)
    (hlinks : ∀ p ∈ set.tables, ∀ side link, p.linkOn side = some link →
      ∀ e, link.on = some e → ∀ query ∈ e.queries, query.Cacheless) :
    (∃ plan plan' n n', planQuery uuids (settings.caching true) set filter supply = .ok plan n ∧
      planQuery uuids' (settings.caching false) (set.rename g) filter supply' = .ok plan' n' ∧
      plan'.columns = plan.columns ∧ plan'.uniqueKeys = plan.uniqueKeys ∧
      plan'.executable = plan.executable.uncached ∧ plan'.executable.Cacheless) ∨
    ∃ e n n', planQuery uuids (settings.caching true) set filter supply = .error e n ∧
      planQuery uuids' (settings.caching false) (set.rename g) filter supply' =
        .error (e.mapIds (namesFrom supply supply' g)) n' := by
  have hset : set.Like (hnames.likeness Eq none PlanNode.Cacheless True) (set.rename g) :=
    hnames.set_like (fun p hp => (htrees p hp).like (fun _ => rfl) fun _ hq => hq)
      fun side p hp link hlink e he => ⟨hlinks p hp side link hlink e he, absurd trivial⟩
  -- Both runs start with no name given out. The second one puts no caches on.
  have hcontext : (Context.start uuids (settings.caching true) supply).Like
      (hnames.likeness Eq none PlanNode.Cacheless True)
      (.start uuids' (settings.caching false) supply') :=
    hnames.context_like hmarks rfl rfl
  have hlike := planQuery_like hset hcontext rfl fun e he => ⟨hfilter e he, absurd trivial⟩
  -- The two runs succeed together, with trees alike, or fail together.
  generalize planQuery uuids (settings.caching true) set filter supply = result at hlike
  generalize planQuery uuids' (settings.caching false) (set.rename g) filter supply' =
    result' at hlike
  cases hlike with
  | ok plans =>
    have htree := plans.executable.eq_uncached (fun _ _ => Eq.symm) rfl fun _ hq => hq
    exact Or.inl ⟨_, _, _, _, rfl, rfl, plans.columns, plans.uniqueKeys, htree,
      htree ▸ PlanNode.cacheless_uncached _⟩
  | @error e e' n n' cause =>
    exact Or.inr ⟨e, n, n', rfl, congrArg (EStateM.Result.error · n') (hnames.error_eq cause)⟩

/-- An OR over a chain of outer joins, which is planned with six caches or without. -/
theorem planQuery_uncached_of_chain :
    let set : TableSet := ⟨chainOfOnes .left (.binary (columnOf "a") .eq (columnOf "b"))
      (.binary (columnOf "b") .lt (columnOf "c")), false⟩
    let filter := Expr.binary (.binary (columnOf "a") .eq (columnOf "c")) .or
      (.unary .isNull (columnOf "b"))
    let g : PlanId → PlanId := fun i => ⟨i.number + 10⟩
    ∃ plan plan' n n',
      planQuery .blank (Settings.caching default true) set (some filter) ⟨4⟩ = .ok plan n ∧
      plan.executable.count PlanNode.isCache = 6 ∧
      planQuery .blank (Settings.caching default false) (set.rename g) (some filter) ⟨20⟩ =
        .ok plan' n' ∧
      plan'.columns = plan.columns ∧ plan'.executable = plan.executable.uncached := by
  intro set filter g
  have hok : resultWith (fun plan _ => plan.executable.count PlanNode.isCache)
      (planQuery .blank (Settings.caching default true) set (some filter) ⟨4⟩) = some 6 := by
    decide +kernel
  obtain ⟨plan, n, h, hcount⟩ := exists_of_resultWith hok
  have hqueries : ∀ s t op, ∀ query ∈ (Expr.binary (columnOf s) op (columnOf t)).queries,
      query.Cacheless := by
    rintro _ _ _ _ ⟨⟩
  have hsame := @planQuery_uncached .blank .blank default set (some filter) g ⟨4⟩ ⟨20⟩ rfl
    ⟨by decide, by decide, by decide⟩ (by decide) (by rintro e ⟨⟩ _ ⟨⟩) (by
      simp only [set, chainOfOnes, List.forall_mem_cons]
      refine ⟨?_, ?_, ?_, List.forall_mem_nil _⟩
      all_goals rintro (_ | _) link hlink e he <;> cases hlink <;> cases he <;>
        exact hqueries _ _ _)
  rcases hsame with ⟨plan₁, plan', n₁, n', h₁, h', hcolumns, -, htree, -⟩ | ⟨e, n₁, -, h₁, -⟩
  · cases h.symm.trans h₁
    exact ⟨plan, plan', n, n', h, hcount, h', hcolumns, htree⟩
  · cases h.symm.trans h₁

end QueryPlan
