import QueryPlan.Proofs.Conserved
import QueryPlan.Proofs.Idle
import QueryPlan.Proofs.Redrawn

/-!
# What is planned after a filter that is always true

- `PlanNode.SameUpToNames`: trees that differ in their marks and the ids of their
  caches alone.
- `SelfContained.plan_likewise`: what is planned over renamed plans, after ids of
  caches were used up, in a run that draws from a source of its own.
- `plan_vacuous`: a filter that is always true leaves the plans as they are, and
  what is planned differs in the ids of caches alone, and in marks that are drawn.
- `not_plan_vacuous`: it may differ in these.
-/

namespace QueryPlan

variable {w : Workspace} {g : PlanId → PlanId}

namespace Planner

/-- A filter that is planned without failing is followed by what follows no filter. -/
theorem plan_some_eq {e : Expr} {w' : Workspace} (h : planExpression e w = .ok () w')
    (hne : w.set.tables ≠ []) (hne' : w'.set.tables ≠ []) :
    plan (some e) w = plan none w' := by
  unfold plan planWholeWith
  show (if w.set.tables.isEmpty = true then _ else _ : Planner TablePlan) w =
    (if w'.set.tables.isEmpty = true then _ else _ : Planner TablePlan) w'
  rw [if_neg (by simpa using hne), if_neg (by simpa using hne')]
  show EStateM.bind (planExpression e) _ w = _
  unfold EStateM.bind
  rw [h]

/-- Nothing is planned over no plans. -/
theorem plan_of_empty (filter : Option Expr) (h : w.set.tables = []) :
    plan filter w = .error .emptyTableSet w := by
  unfold plan planWholeWith
  show (if w.set.tables.isEmpty = true then _ else _ : Planner TablePlan) w = _
  rw [if_pos (by simpa using h)]
  rfl

end Planner

/-- Handles that occur among self-contained plans are handles of plans. -/
theorem SelfContained.mem_ids (hw : SelfContained w) {i : PlanId} (hi : i ∈ w.set.handles) :
    i ∈ w.set.ids := by
  obtain ⟨p, hp, hi⟩ := List.mem_flatMap.mp hi
  rcases List.mem_cons.mp hi with rfl | hi
  · exact TableSet.mem_ids hp
  · simp only [List.mem_append, Option.mem_toList, TablePlan.leftTarget?, TablePlan.rightTarget?,
      Option.map_eq_some_iff] at hi
    rcases hi with ⟨link, hlink, rfl⟩ | ⟨link, hlink, rfl⟩
    · exact hw.targets p hp .left link hlink
    · exact hw.targets p hp .right link hlink

/-- In a workspace that is self-contained, new names of the handles rename all of it. -/
theorem SelfContained.renames {next : Nat} (hw : SelfContained w) (hg : Names g w.set.ids next) :
    Renames g w.set w.context.supply ⟨next⟩ := by
  refine ⟨fun i hi j hj heq => hg.differ (hw.mem_ids hi) (hw.mem_ids hj) heq, fun i hi => ?_,
    fun i hi => hg.given i (hw.mem_ids hi)⟩
  obtain ⟨p, hp, rfl⟩ := List.mem_map.mp (hw.mem_ids hi)
  exact hw.given p hp

namespace PlanNode

/-- Trees that are the same but for their marks, which `marks` relates, and for the ids of their
caches, which `same` relates. -/
def SameUpToNames (marks : String → String → Prop) (same : Nat → Nat → Prop) (n n' : PlanNode) :
    Prop :=
  n.Like (.upToNames marks same) n'

/-- Trees that are alike up to marks and ids differ in these alone. -/
theorem Like.sameUpToNames {L : Likeness} {same same' : Nat → Nat → Prop} {n n' : PlanNode}
    (hcaches : L.caches? = some same) (hsame : ∀ i i', same i i' → same' i i')
    (h : n.Like L n') : n.SameUpToNames L.marks same' n' := by
  unfold SameUpToNames
  induction h with
  | source name => exact .source name
  | naturalJoin _ _ ihLeft ihRight => exact .naturalJoin ihLeft ihRight
  | join _ _ column op value ihLeft ihRight => exact .join ihLeft ihRight column op value
  | outerJoin _ mark ih => exact .outerJoin ih mark
  | union _ _ ihLeft ihRight => exact .union ihLeft ihRight
  | project _ columns ih => exact .project ih columns
  | cache caches _ id ih =>
    obtain rfl := Option.some.inj (hcaches.symm.trans caches)
    exact .cache rfl ih (hsame _ _ id)
  | bared bare =>
    rw [hcaches] at bare
    cases bare
  | cacheMark _ mark ih => exact .cacheMark ih mark
  | constantSelect _ predicate ih => exact .constantSelect ih predicate
  | simpleSelect _ column op value ih => exact .simpleSelect ih column op value
  | patternSelect _ column op pattern escape ih =>
    exact .patternSelect ih column op pattern escape
  | exhaustiveSelect _ predicate ih => exact .exhaustiveSelect ih predicate
  | anyAllSelect _ _ columns op quantifier ih =>
    exact .anyAllSelect ih trivial columns op quantifier

/-- Trees with the same marks and ids are the same. -/
theorem SameUpToNames.eq {marks : String → String → Prop} {same : Nat → Nat → Prop}
    {n n' : PlanNode} (hmarks : ∀ mark mark', marks mark mark' → mark' = mark)
    (hsame : ∀ i i', same i i' → i' = i) (h : n.SameUpToNames marks same n') : n' = n := by
  unfold SameUpToNames at h
  induction h with
  | source name => rfl
  | bared bare => cases bare
  | cache caches _ id ih =>
    cases caches
    rw [ih, hsame _ _ id]
  | naturalJoin _ _ ihLeft ihRight | join _ _ _ _ _ ihLeft ihRight | union _ _ ihLeft ihRight =>
    rw [ihLeft, ihRight]
  | outerJoin _ mark ih | cacheMark _ mark ih => rw [ih, hmarks _ _ mark]
  | project _ _ ih | constantSelect _ _ ih | simpleSelect _ _ _ _ ih
  | patternSelect _ _ _ _ _ ih | exhaustiveSelect _ _ ih | anyAllSelect _ _ _ _ _ ih =>
    rw [ih]

end PlanNode

/-- The id stays, or it is raised by `used`, if it is above `last`. -/
def RaisedAbove (last used i i' : Nat) : Prop := i' = i ∨ last < i ∧ i' = i + used

namespace SelfContained

/-- Without a filter, the same is planned over renamed plans after `used` ids of caches were used
up, up to handles, these ids, and marks that are drawn from another source. -/
theorem plan_likewise {next : Nat} (uuids : Identifiers) (used : Nat) (same : Nat → Nat → Prop)
    (ors : Prop) (hw : SelfContained w) (hg : Names g w.set.ids next) (hsame : ∀ i, same i i)
    (hnext : ors → ∀ k, same (w.context.cacheIds + (k + 1)) (w.context.cacheIds + used + (k + 1)))
    (hlinks : ¬ ors → ∀ p ∈ w.set.tables, ∀ side link, p.linkOn side = some link →
      WithoutOr link.on) :
    let L := (hw.renames hg).likeness (w.context.markers.Redrawn uuids) (some same) (fun _ => True)
      ors
    ResultLike L (TablePlan.Like L) (Planner.plan none w)
      (Planner.plan none ⟨w.set.rename g, { w.context.drawing uuids with
        cacheIds := w.context.cacheIds + used, supply := ⟨next⟩ }⟩) := by
  intro L
  have hset : w.set.Like L (w.set.rename g) := by
    refine (hw.renames hg).set_like (fun p _ => PlanNode.like_self (fun _ => Or.inl rfl) ?_ ?_) ?_
    · exact fun _ i _ => ⟨same, rfl, hsame i⟩
    · exact fun _ _ _ _ _ _ => trivial
    · exact fun side p hp link hlink e he =>
        ⟨fun _ _ => trivial, fun hnot => hlinks hnot p hp side link hlink e he⟩
  refine QueryPlan.plan_likewise (by rintro e ⟨⟩) w _
    ⟨hset, rfl, fun _ hn => MarkerGenerator.redrawn_nameAt hn, fun k => ?_, fun hors => ?_⟩
  · exact ⟨(namesFrom_next k).symm, Or.inr (Nat.le_add_right _ _)⟩
  · exact ⟨rfl, hnext hors⟩

end SelfContained

/-- A filter that is always true changes nothing. It leaves the plans as they are, up to their
handles. With it planning fails as without it, up to handles, or it gives the same plan, except
that ids of caches that are given after the filter come after those that its ORs used up, and
that random marks are drawn anew. If the ORs used up no ids, or no condition of a link has an OR
among its conjuncts, then only marks may differ, and if marks are numbered, nothing does. -/
theorem plan_vacuous {e : Expr} (he : e.Vacuous) (hw : SelfContained w) (uuids : Identifiers) :
    let used := e.conjuncts.countP Expr.isOr * w.uncachedPlans
    let marks := w.context.markers.Redrawn uuids
    ∃ g next, Names g w.set.ids next ∧ w.context.supply.next ≤ next ∧
      Planner.planExpression e (w.drawing uuids) = .ok () ⟨w.set.rename g,
        { w.context.drawing uuids with
          cacheIds := w.context.cacheIds + used, supply := ⟨next⟩ }⟩ ∧
      ((∃ plan plan' v v', Planner.plan none w = .ok plan v ∧
          Planner.plan (some e) (w.drawing uuids) = .ok plan' v' ∧
          plan'.columns = plan.columns ∧ plan'.uniqueKeys = plan.uniqueKeys ∧
          plan'.touched = plan.touched ∧
          plan.executable.SameUpToNames marks (RaisedAbove w.context.cacheIds used)
            plan'.executable ∧
          ((used = 0 ∨ ∀ p ∈ w.set.tables, ∀ side link, p.linkOn side = some link →
              WithoutOr link.on) →
            plan.executable.SameUpToNames marks Eq plan'.executable ∧
            (w.context.markers.strategy = .sequential → plan'.executable = plan.executable))) ∨
        ∃ cause v v', Planner.plan none w = .error cause v ∧
          Planner.plan (some e) (w.drawing uuids) =
            .error (cause.mapIds (namesFrom w.context.supply ⟨next⟩ g)) v') := by
  intro used marks
  have hidle : Idle _ (Planner.planExpression e) := Planner.idle_planExpressionWith he
  obtain ⟨g, next, hg, hnext, hact⟩ := hidle (w.drawing uuids) (hw.spend le_rfl)
  have hact : Planner.planExpression e (w.drawing uuids) = .ok () ⟨w.set.rename g,
    { w.context.drawing uuids with
      cacheIds := w.context.cacheIds + used, supply := ⟨next⟩ }⟩ := hact
  refine ⟨g, next, hg, hnext, hact, ?_⟩
  -- Without tables both runs fail alike.
  by_cases hempty : w.set.tables = []
  · exact Or.inr ⟨_, _, _, Planner.plan_of_empty none hempty, Planner.plan_of_empty (some e) hempty⟩
  have hempty' : (w.drawing uuids).set.tables ≠ [] := hempty
  rw [Planner.plan_some_eq hact hempty' (by simpa [TableSet.rename] using hempty)]
  -- Without a filter, what is planned over the renamed plans is alike: up to ids in any case, and
  -- exactly if no condition is an OR.
  have hraised := hw.plan_likewise uuids used (RaisedAbove w.context.cacheIds used) True hg
    (fun _ => Or.inl rfl) (fun _ k => Or.inr ⟨by omega, by omega⟩) (absurd trivial)
  have hexact := hw.plan_likewise uuids used Eq False hg (fun _ => rfl) False.elim
  -- Both likenesses are of the same two runs, so they succeed or fail together.
  generalize Planner.plan none w = result at hraised hexact
  generalize Planner.plan none _ = result' at hraised hexact
  cases hraised with
  | error cause =>
    exact Or.inr ⟨_, _, _, rfl,
      congrArg (EStateM.Result.error · _) ((hw.renames hg).error_eq cause)⟩
  | @ok plan plan' _ _ plans =>
    refine Or.inl ⟨_, _, _, _, rfl, rfl, plans.columns, plans.uniqueKeys, plans.touched,
      plans.executable.sameUpToNames rfl fun _ _ hi => hi, fun hids => ?_⟩
    have hsame : plan.executable.SameUpToNames marks Eq plan'.executable := by
      rcases hids with hnone | hwithout
      · refine plans.executable.sameUpToNames rfl fun i i' hi => ?_
        rcases hi with rfl | ⟨-, rfl⟩
        · rfl
        · rw [hnone, Nat.add_zero]
      · cases hexact fun _ => hwithout with
        | ok plans => exact plans.executable.sameUpToNames rfl fun _ _ hi => hi
    exact ⟨hsame, fun hmarks => hsame.eq (fun _ _ h => h.eq hmarks) fun _ _ hi => hi.symm⟩

/-- Plans under the handles `ids` are self-contained if their links lead to these. -/
theorem selfContained_of_ids {set : TableSet} {c : Context} (ids : List PlanId)
    (hids : set.ids = ids) (hnodup : ids.Nodup) (hgiven : ∀ i ∈ ids, i.number < c.supply.next)
    (htargets : ∀ p ∈ set.tables, ∀ side link, p.linkOn side = some link → link.target ∈ ids) :
    SelfContained ⟨set, c⟩ := by
  subst hids
  exact ⟨hnodup, List.forall_mem_map.mp hgiven, htargets⟩

/-- A chain of three tables refers to nothing outside. -/
theorem selfContained_chainOfOnes {joinType : JoinType} {ab bc : Expr} {hasJoins : Bool} :
    SelfContained ⟨⟨chainOfOnes joinType ab bc, hasJoins⟩, .start .blank default ⟨4⟩⟩ := by
  refine selfContained_of_ids [⟨1⟩, ⟨2⟩, ⟨3⟩] rfl (by decide) (by decide) ?_
  simp only [chainOfOnes, List.forall_mem_cons]
  refine ⟨?_, ?_, ?_, List.forall_mem_nil _⟩
  all_goals rintro (_ | _) link hlink <;> cases hlink
  all_goals exact List.mem_of_elem_eq_true rfl

/-- A chain of outer joins after a filter that uses up three ids of caches. -/
theorem plan_vacuous_of_chain :
    let set : TableSet := ⟨chainOfOnes .left (.binary (columnOf "a") .eq (columnOf "b"))
      (.binary (columnOf "b") .lt (columnOf "c")), false⟩
    let w : Workspace := ⟨set, .start .blank default ⟨4⟩⟩
    let filter := Expr.binary .true .and (.binary .true .or (.binary .true .or .true))
    (∃ g next, Planner.planExpression filter w = .ok () ⟨set.rename g, { w.context with
      cacheIds := 3, supply := ⟨next⟩ }⟩) ∧
    ∃ plan plan' v v', Planner.plan none w = .ok plan v ∧
      Planner.plan (some filter) w = .ok plan' v' ∧ plan'.columns = plan.columns ∧
        plan'.executable = plan.executable := by
  intro set w filter
  have hfilter : filter.Vacuous := .and .true (.or .true (.or .true .true))
  have hw : SelfContained w := selfContained_chainOfOnes
  have hwithout : ∀ p ∈ w.set.tables, ∀ side link, p.linkOn side = some link →
      WithoutOr link.on := by
    simp only [w, set, chainOfOnes, List.forall_mem_cons]
    refine ⟨?_, ?_, ?_, List.forall_mem_nil _⟩
    all_goals rintro (_ | _) link hlink e he <;> cases hlink <;> cases he <;> decide
  obtain ⟨g, next, -, -, hact, hplans⟩ := plan_vacuous hfilter hw .blank
  refine ⟨⟨g, next, hact⟩, ?_⟩
  have hok : resultWith (fun _ _ => ()) (Planner.plan none w) = some () := by decide +kernel
  obtain ⟨plan₀, v₀, h₀, -⟩ := exists_of_resultWith hok
  rcases hplans with ⟨plan, plan', v, v', h, h', hcolumns, -, -, -, hexact⟩ | ⟨cause, v, v', h, -⟩
  · exact ⟨plan, plan', v, v', h, h', hcolumns, (hexact (Or.inr hwithout)).2 rfl⟩
  · cases h₀.symm.trans h

/-- What a run hands out for a node: the id of a cache, or a mark. -/
def PlanNode.handedOut? : PlanNode → Option (Nat ⊕ String)
  | .cache _ id => some (.inl id)
  | .outerJoin _ mark | .cacheMark _ mark => some (.inr mark)
  | _ => none

/-- What was handed out in the tree of a plan. -/
def TablePlan.handedOut (plan : TablePlan) : List (Nat ⊕ String) :=
  plan.executable.walk.filterMap PlanNode.handedOut?

/-- Plans that hand out different names and ids are different. -/
theorem exists_of_handedOut {result result' : EStateM.Result PlanError Workspace TablePlan}
    (handed handed' : List (Nat ⊕ String)) (hhanded : handed' ≠ handed)
    (h : resultWith (fun plan _ => plan.handedOut) result = some handed)
    (h' : resultWith (fun plan _ => plan.handedOut) result' = some handed') :
    ∃ plan plan' v v', result = .ok plan v ∧ result' = .ok plan' v' ∧
      plan'.executable ≠ plan.executable := by
  obtain ⟨plan, v, hplan, rfl⟩ := exists_of_resultWith h
  obtain ⟨plan', v', hplan', rfl⟩ := exists_of_resultWith h'
  refine ⟨plan, plan', v, v', hplan, hplan', fun heq => hhanded ?_⟩
  simp only [TablePlan.handedOut, heq]

/-- Two tables with a link. -/
def linkedPair (joinType : JoinType) (on : Expr) : TableSet :=
  ⟨[(TablePlan.one 1 "a").withRight ⟨⟨2⟩, joinType, some on⟩,
    (TablePlan.one 2 "b").withLeft ⟨⟨1⟩, joinType, some on⟩], false⟩

/-- A pair of linked tables refers to nothing outside. -/
theorem selfContained_linkedPair {joinType : JoinType} {on : Expr} {settings : Settings} :
    SelfContained ⟨linkedPair joinType on, .start .blank settings ⟨3⟩⟩ := by
  have hgiven : ∀ i ∈ ([⟨1⟩, ⟨2⟩] : List PlanId), i.number < 3 := by decide
  refine selfContained_of_ids [⟨1⟩, ⟨2⟩] rfl (by decide) hgiven ?_
  simp only [linkedPair, List.forall_mem_cons]
  refine ⟨?_, ?_, List.forall_mem_nil _⟩
  all_goals rintro (_ | _) link hlink <;> cases hlink
  all_goals exact List.mem_of_elem_eq_true rfl

/-- An OR in the condition of a link is planned with other ids of caches after an OR in the filter,
even if this is always true. And where marks are random, an outer join has another mark in each run,
whatever the filter is. -/
theorem not_plan_vacuous :
    let on := Expr.binary (.binary (columnOf "a") .eq (columnOf "b")) .or
      (.binary (columnOf "a") .lt (columnOf "b"))
    let w : Workspace := ⟨linkedPair .inner on, .start .blank default ⟨3⟩⟩
    let filter := Expr.binary .true .or .true
    let random : Settings := { Settings.defaults with markers := ⟨.uuid, "OUTER_JOIN"⟩ }
    let v : Workspace := ⟨linkedPair .left .true, .start .blank random ⟨3⟩⟩
    (SelfContained w ∧ filter.Vacuous ∧ ∃ plan plan' u u', Planner.plan none w = .ok plan u ∧
      Planner.plan (some filter) w = .ok plan' u' ∧ plan'.executable ≠ plan.executable) ∧
    SelfContained v ∧ Expr.true.Vacuous ∧ ∃ plan plan' u u', Planner.plan none v = .ok plan u ∧
      Planner.plan (some .true) (v.drawing ⟨fun _ => "9"⟩) = .ok plan' u' ∧
      plan'.executable ≠ plan.executable := by
  intro on w filter random v
  refine ⟨⟨selfContained_linkedPair, .or .true .true, ?_⟩, selfContained_linkedPair, .true, ?_⟩
  · exact exists_of_handedOut [.inl 1, .inl 2, .inl 1, .inl 2] [.inl 3, .inl 4, .inl 3, .inl 4]
      (by decide) (by decide +kernel) (by decide +kernel)
  · exact exists_of_handedOut [.inr "OUTER_JOIN_", .inr "OUTER_JOIN_"]
      [.inr "OUTER_JOIN_9", .inr "OUTER_JOIN_9"] (by decide) (by decide +kernel) (by decide +kernel)

end QueryPlan
