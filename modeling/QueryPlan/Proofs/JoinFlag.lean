import QueryPlan.Proofs.SoundFilters

/-!
# Whether plans were joined before

A set notes whether a merge made one of its plans. The note is read where the two sides
of an OR are united, of the copies that the sides were planned over, and copies start
without it. So planning does not read it of the set that it starts with.

- `Blind`: a computation that does the same with and without the note.
- `TableSet.classifyAll_congr`: conjuncts are classified by the owners of columns alone.
- `blind_merge`, `blind_planOrWith`: merges are blind, and ORs over any sides.
- `blind_planWholeWith`: so is all of planning.
- `planQuery_congr`: a query is planned alike over sets of the same plans.
-/

namespace QueryPlan

variable {α β : Type}

/-- The set, as one of which a merge made a plan. -/
def TableSet.joined (set : TableSet) : TableSet := { set with hasJoins := true }

/-- The workspace, with its set as one of which a merge made a plan. -/
def Workspace.joined (w : Workspace) : Workspace := { w with set := w.set.joined }

/-- The outcome, with its set as one of which a merge made a plan. -/
def joinedAfter : EStateM.Result PlanError Workspace α → EStateM.Result PlanError Workspace α
  | .ok a w => .ok a w.joined
  | .error e w => .error e w.joined

/-- Where a merge made one of the plans, `act'` does what `act` does otherwise. -/
def WithNote (act act' : Planner α) : Prop := ∀ w, act' w.joined = joinedAfter (act w)

/-- The computation does the same whether or not a merge made one of the plans. -/
def Blind (act : Planner α) : Prop := WithNote act act

/-! ## Sequencing -/

/-- To read the set answers or fails, and changes nothing. -/
theorem Planner.ask_eq (g : TableSet → Except PlanError α) (w : Workspace) :
    ask g w = match g w.set with
      | .ok a => .ok a w
      | .error e => .error e w := by
  show (match g w.set with
    | .ok a => pure a
    | .error e => throw e : Planner α) w = _
  cases g w.set <;> rfl

/-- Computations one after another are compared one after another. -/
theorem WithNote.bind {act act' : Planner α} {f f' : α → Planner β} (h : WithNote act act')
    (hf : ∀ a, WithNote (f a) (f' a)) : WithNote (act >>= f) (act' >>= f') := by
  intro w
  show EStateM.bind act' f' w.joined = joinedAfter (EStateM.bind act f w)
  unfold EStateM.bind
  rw [h]
  cases act w with
  | ok a w' => exact hf a w'
  | error e w' => rfl

namespace Blind

variable {act : Planner α} {f : α → Planner β}

/-- To answer reads nothing. -/
theorem pure (a : α) : Blind (Pure.pure a) := fun _ => rfl

/-- To fail reads nothing. -/
theorem throw (e : PlanError) : Blind (throw e : Planner α) := fun _ => rfl

/-- Blind computations one after another are blind. -/
theorem bind (h : Blind act) (hf : ∀ a, Blind (f a)) : Blind (act >>= f) := WithNote.bind h hf

/-- A change of the set that leaves the note as it is, and does not read it. -/
theorem change {f : TableSet → TableSet} (hf : ∀ set, f set.joined = (f set).joined) :
    Blind (Planner.change f) := by
  intro w
  show EStateM.Result.ok () (Workspace.mk (f w.set.joined) w.context) = _
  rw [hf]
  rfl

/-- Reading the set, as far as that does not read the note. -/
theorem bind_ask {g : TableSet → Except PlanError α} (hg : ∀ set, g set.joined = g set)
    (hf : ∀ set a, g set = .ok a → Blind (f a)) : Blind (Planner.ask g >>= f) := by
  intro w
  show EStateM.bind (Planner.ask g) f w.joined = joinedAfter (EStateM.bind (Planner.ask g) f w)
  unfold EStateM.bind
  rw [Planner.ask_eq, Planner.ask_eq, show g w.joined.set = g w.set from hg w.set]
  cases hread : g w.set with
  | ok a => exact hf w.set a hread w
  | error e => rfl

theorem ask {g : TableSet → Except PlanError α} (hg : ∀ set, g set.joined = g set) :
    Blind (Planner.ask g) := by
  have hask := bind_ask (f := Pure.pure) hg fun _ a _ => .pure a
  rwa [bind_pure] at hask

theorem bind_current {f : TableSet → Planner β} (hf : ∀ set, WithNote (f set) (f set.joined)) :
    Blind (Planner.current >>= f) :=
  fun w => hf w.set w

/-- Whatever is done to another set. -/
theorem within (inner : TableSet) (act : Planner α) : Blind (Planner.within inner act) := by
  intro w
  -- The inner run has a set of its own, and that of the outer run comes back as it was.
  show (match act ⟨inner, w.context⟩ with
    | .ok a w' => .ok (a, w'.set) { w' with set := w.set.joined }
    | .error e w' => .error e { w' with set := w.set.joined }) =
    joinedAfter (match act ⟨inner, w.context⟩ with
    | .ok a w' => .ok (a, w'.set) { w' with set := w.set }
    | .error e w' => .error e { w' with set := w.set })
  cases act ⟨inner, w.context⟩ <;> rfl

/-- A blind computation for each member of a list. -/
theorem mapM {f : α → Planner β} (hf : ∀ a, Blind (f a)) (as : List α) : Blind (as.mapM f) := by
  induction as with
  | nil => exact .pure _
  | cons a rest ih =>
    rw [List.mapM_cons]
    exact (hf a).bind fun _ => ih.bind fun _ => .pure _

end Blind

/-! ## Joins -/

namespace Planner

variable {condition : ConditionPlanner}

theorem blind_require (id : PlanId) : Blind (ask fun set => set.require id) := .ask fun _ => rfl

theorem blind_owner (column : ColumnName) : Blind (ask fun set => set.owner column) :=
  .ask fun _ => rfl

theorem blind_changePlan (id : PlanId) (f : TablePlan → TablePlan) : Blind (changePlan id f) :=
  (blind_require id).bind fun _ => .change fun _ => rfl

theorem blind_freshId : Blind freshId := fun _ => rfl

theorem blind_nextMarker : Blind nextMarker := fun _ => rfl

theorem blind_merge (left right : PlanId) (build : PlanNode → PlanNode → PlanNode) :
    Blind (merge left right build) := by
  have hchange : ∀ {f : TableSet → TableSet} {rest : Planner PlanId},
      (∀ set, f set.joined = (f set).joined) → Blind rest → Blind (change f >>= fun _ => rest) :=
    fun hf hrest => (Blind.change hf).bind fun _ => hrest
  refine (blind_require left).bind fun l => hchange (fun _ => rfl) ?_
  refine .bind_current fun set => (show Blind _ from ?_)
  cases set.get? right with
  | none => exact hchange (fun _ => rfl) (.throw _)
  | some r => exact blind_freshId.bind fun _ => hchange (fun _ => rfl) (.pure _)

/-- A new mark depends on the type of the join and the context alone. -/
theorem blind_newMark (joinType : JoinType) (left right : PlanId) :
    Blind (newMark joinType left right) := by
  cases joinType with
  | inner => exact .pure _
  | left => exact blind_nextMarker.bind fun _ => .pure _
  | right => exact blind_nextMarker.bind fun _ => .pure _
  | full => exact .throw _

theorem blind_putMark (marked : Option (PlanId × String)) : Blind (putMark marked) := by
  cases marked with
  | none => exact .pure _
  | some marked => exact blind_changePlan _ _

theorem blind_detachPair (left right : PlanId) : Blind (detachPair left right) :=
  (blind_require left).bind fun _ => blind_freshId.bind fun _ =>
    (blind_require right).bind fun _ => blind_freshId.bind fun _ => .pure _

theorem blind_joinLinkedWith (joinType : JoinType) (on : Option Expr) (left right : PlanId) :
    Blind (joinLinkedWith condition joinType on left right) :=
  (blind_newMark joinType left right).bind fun marked => (blind_putMark marked).bind fun _ =>
    (blind_detachPair left right).bind fun pair => (Blind.within pair _).bind fun _ =>
      blind_merge left right _

/-- To join two plans, by links or by all pairs, is blind. -/
theorem blind_joinPairWith (first second : PlanId) :
    Blind (joinPairWith condition first second) := by
  refine (blind_require first).bind fun a => (blind_require second).bind fun b => ?_
  cases linkBetween a b with
  | some sided => exact blind_joinLinkedWith _ _ _ _
  | none =>
    cases clash a b with
    | safe => exact blind_merge _ _ _
    | left => exact .throw _
    | right => exact .throw _

theorem blind_resolveWithin (fuel : Nat) (id : PlanId) :
    Blind (resolveWithin condition fuel id) := by
  induction fuel generalizing id with
  | zero => exact .throw _
  | succ fuel ih =>
    refine (blind_require id).bind fun plan => ?_
    cases plan.nullPaddedBy? with
    | none => exact .pure _
    | some partner => exact (blind_joinPairWith id partner).bind ih

/-- To resolve the outer joins of a plan is blind. -/
theorem blind_resolveWith (id : PlanId) : Blind (resolveWith condition id) :=
  .bind_current fun _ => blind_resolveWithin _ id

/-- To join a list of plans is blind, whatever the fuel. -/
theorem blind_joinAllWithin (fuel : Nat) (working : List PlanId) :
    Blind (joinAllWithin condition fuel working) := by
  induction fuel generalizing working with
  | zero =>
    unfold joinAllWithin
    split <;> first | exact .pure _ | exact .throw _
  | succ fuel ih =>
    unfold joinAllWithin
    split
    · exact .pure _
    · exact .pure _
    · rename_i first second _
      refine (blind_require first).bind fun a => (blind_require second).bind fun b => ?_
      cases nextJoin a b with
      | resolve padded =>
        exact (blind_resolveWith padded).bind fun _ => .bind_current fun _ => ih _
      | join partner => exact (blind_joinPairWith first partner).bind fun _ => ih _

theorem blind_joinSomeWith (working : List PlanId) : Blind (joinSomeWith condition working) := by
  refine Blind.bind (.bind_current fun _ => blind_joinAllWithin _ working) fun o => ?_
  cases o with
  | some id => exact .pure _
  | none => exact .throw _

theorem blind_joinEverythingWith : Blind (joinEverythingWith condition) :=
  .bind_current fun _ => blind_joinSomeWith _

theorem blind_ownerWith (column : ColumnName) : Blind (ownerWith condition column) :=
  (blind_owner column).bind blind_resolveWith

theorem blind_resolveOwnersWith (columns : List ColumnName) :
    Blind (resolveOwnersWith condition columns) := by
  induction columns with
  | nil => exact .pure _
  | cons column rest ih =>
    exact (blind_owner column).bind fun _ => (blind_resolveWith _).bind fun _ => ih

/-- To join the plans that own some columns is blind. -/
theorem blind_joinReadersWith (columns : List ColumnName) :
    Blind (joinReadersWith condition columns) := by
  unfold joinReadersWith
  split
  · exact blind_joinEverythingWith
  · exact (blind_resolveOwnersWith columns).bind fun _ =>
      (Blind.mapM blind_owner columns).bind fun _ => blind_joinSomeWith _

/-! ## Predicates -/

theorem blind_joinThenSelectWith (lhs rhs : PlanId) (expr : Expr) :
    Blind (joinThenSelectWith condition lhs rhs expr) :=
  (blind_joinSomeWith _).bind fun _ => blind_changePlan _ _

theorem blind_mustJoinByLinks (lhs rhs : PlanId) : Blind (mustJoinByLinks lhs rhs) :=
  (blind_require lhs).bind fun _ => (blind_require rhs).bind fun _ => .pure _

theorem blind_selectReaders (columns : List ColumnName) (expr : Expr) :
    Blind (do selectRows (← joinReadersWith condition columns) expr) :=
  (blind_joinReadersWith columns).bind fun _ => blind_changePlan _ _

theorem blind_selectOwner (column : ColumnName) (select : PlanNode → PlanNode) :
    Blind (do selectOn (← ownerWith condition column) select) :=
  (blind_ownerWith column).bind fun _ => blind_changePlan _ _

/-- To plan a comparison of two sides is blind. -/
theorem blind_compareWith (left : Expr) (op : BinaryOp) (right : Expr) (lhs rhs : PlanId) :
    Blind (compareWith condition left op right lhs rhs) := by
  unfold compareWith
  split
  · exact blind_changePlan _ _
  · refine (blind_mustJoinByLinks lhs rhs).bind fun must => ?_
    cases must with
    | true => exact blind_joinThenSelectWith _ _ _
    | false =>
      simp only [Bool.false_eq_true, if_false]
      split
      · exact (blind_merge _ _ _).bind fun _ => .pure _
      · exact (blind_merge _ _ _).bind fun _ => .pure _
      · exact blind_joinThenSelectWith _ _ _

/-- To apply a condition that compares two plans is blind. -/
theorem blind_applyStandardJoinWith (expr : Expr) :
    Blind (applyStandardJoinWith condition expr) := by
  cases expr with
  | binary left op right =>
    rcases Expr.constant_or_reads left right with hconstant | ⟨first, -, hleft, hright⟩
    · rw [applyStandardJoinWith_of_constant hconstant]
      exact blind_selectReaders _ _
    · rw [applyStandardJoinWith_of_reads hleft hright]
      exact (blind_joinReadersWith _).bind fun _ => (blind_joinReadersWith _).bind fun rhs =>
        (blind_owner _).bind fun lhs => blind_compareWith left op right lhs rhs
  | _ => exact .throw _

/-- To apply a classified conjunct is blind, if its ORs are. -/
theorem blind_applyWith {planOr : Planner Unit} (hor : Blind planOr) (predicate : Predicate) :
    Blind (applyWith condition planOr predicate) := by
  unfold applyWith
  cases predicate with
  | constant => exact .change fun _ => rfl
  | simpleSingle | complexSingle | simplePattern | simpleSubQuery => exact blind_selectOwner _ _
  | complexPattern | exhaustiveJoin | exhaustiveSubQuery => exact blind_selectReaders _ _
  | standardJoin expr => exact blind_applyStandardJoinWith expr
  | subLogic => exact hor

end Planner

/-! ## Conjuncts -/

namespace TableSet

variable {set set' : TableSet}

/-- Whether one plan owns some columns is read off the owners. -/
theorem allOwnedBy_congr (h : ∀ c, set.owner c = set'.owner c) (id : PlanId)
    (columns : List ColumnName) : set.allOwnedBy id columns = set'.allOwnedBy id columns := by
  induction columns with
  | nil => rfl
  | cons column rest ih => simp only [allOwnedBy, h, ih]

/-- The plan that owns all of some columns is read off the owners. -/
theorem commonOwner_congr (h : ∀ c, set.owner c = set'.owner c) (columns : List ColumnName) :
    set.commonOwner columns = set'.commonOwner columns := by
  cases columns with
  | nil => rfl
  | cons column rest => simp only [commonOwner, h, allOwnedBy_congr h]

/-- Whether sides with a single owner each read one plan is read off the owners. -/
theorem readOnePlan_congr (h : ∀ c, set.owner c = set'.owner c) (common : Option PlanId)
    (sides : List Expr) : set.readOnePlan common sides = set'.readOnePlan common sides := by
  induction sides generalizing common with
  | nil => rfl
  | cons side rest ih => simp only [readOnePlan, commonOwner_congr h, ih]

/-- A conjunct is classified by the owners of columns alone. -/
theorem classifyOne_congr (h : ∀ c, set.owner c = set'.owner c) (e : Expr) :
    set.classifyOne e = set'.classifyOne e := by
  simp only [classifyOne, classifySubLogic, classifyPattern, readOnePlan_congr h,
    commonOwner_congr h]

/-- Conjuncts are classified by the owners of columns, whatever else is in the set. -/
theorem classifyAll_congr (h : ∀ c, set.owner c = set'.owner c) (agenda : List (Expr × α)) :
    set.classifyAll agenda = set'.classifyAll agenda := by
  have hlisted : set.classifyListed agenda = set'.classifyListed agenda := by
    induction agenda with
    | nil => rfl
    | cons x rest ih => simp only [classifyListed, classifyOne_congr h, ih]
  simp only [classifyAll, hlisted]

end TableSet

/-! ## Filters -/

namespace Planner

variable {condition : ConditionPlanner} {planLeft planRight : Planner Unit}

theorem blind_cacheForSides : Blind cacheForSides := by
  refine Blind.bind (fun _ => rfl) fun cache => ?_
  cases cache with
  | true => exact fun _ => rfl
  | false => exact fun _ => rfl

theorem blind_copy : Blind copy := by
  refine .bind_current fun set => Blind.bind (fun _ => rfl) fun ids => ?_
  exact .ask fun _ => rfl

theorem blind_planSides : Blind (planSides planLeft planRight) :=
  blind_copy.bind fun _ => blind_copy.bind fun _ => (Blind.within _ _).bind fun _ =>
    (Blind.within _ _).bind fun _ => .pure _

theorem blind_joinSidesWith (order : List ColumnName) (left right : TableSet) :
    Blind (joinSidesWith condition order left right) :=
  (Blind.within _ _).bind fun _ => (Blind.within _ _).bind fun _ => (Blind.within _ _).bind fun _ =>
    (Blind.within _ _).bind fun _ => .pure _

/-- Whatever its sides are, an OR keeps the note and does not read it. -/
theorem blind_planOrWith : Blind (planOrWith condition planLeft planRight) := by
  refine blind_cacheForSides.bind fun cached => .bind_current fun whole => ?_
  refine WithNote.bind blind_planSides fun sides => ?_
  dsimp only
  split
  · exact WithNote.bind (blind_joinSidesWith _ _ _) fun _ _ => rfl
  · exact fun _ => rfl

/-- To apply all conjuncts of a list is blind, if each is. -/
theorem blind_applyAllWith {placed : List (Predicate × Planner Unit)}
    (h : ∀ y ∈ placed, Blind y.2) : Blind (applyAllWith condition placed) := by
  induction placed with
  | nil => exact .pure _
  | cons y rest ih =>
    rw [List.forall_mem_cons] at h
    exact (blind_applyWith h.1 y.1).bind fun _ => ih h.2

theorem blind_planAgendaWith {agenda : List (Expr × Planner Unit)} (h : ∀ x ∈ agenda, Blind x.2) :
    Blind (planAgendaWith condition agenda) := by
  have howner : ∀ (set : TableSet) c, set.joined.owner c = set.owner c := fun _ _ => rfl
  have hsame : ∀ set : TableSet, set.joined.classifyAll agenda = set.classifyAll agenda :=
    fun set => TableSet.classifyAll_congr (howner set) agenda
  refine .bind_ask hsame fun set placed hplaced => blind_applyAllWith fun y hy => ?_
  obtain ⟨x, hx, -, -, hact⟩ := TableSet.mem_of_classifyAll hplaced hy
  exact hact ▸ h x hx

/-- To plan the parts of an expression and join what is left is blind. -/
theorem blind_runAgendaWith {agenda : List (Expr × Planner Unit)} (h : ∀ x ∈ agenda, Blind x.2) :
    Blind (runAgendaWith condition agenda) := by
  unfold runAgendaWith
  split
  · exact h _ (List.mem_singleton_self _)
  · exact blind_planAgendaWith h

theorem blind_agendaWith (e : Expr) : ∀ x ∈ agendaWith condition e, Blind x.2 := by
  fun_induction agendaWith condition e with
  | case1 left right ihLeft ihRight => exact List.forall_mem_append.mpr ⟨ihLeft, ihRight⟩
  | case2 => exact List.forall_mem_singleton.mpr blind_planOrWith
  | case3 => exact List.forall_mem_singleton.mpr (.pure _)

/-- To plan an expression is blind. -/
theorem blind_planExpressionWith (e : Expr) : Blind (planExpressionWith condition e) :=
  blind_runAgendaWith (blind_agendaWith e)

/-- Planning does not read whether a merge made one of the plans. -/
theorem blind_planWholeWith (filter : Option Expr) : Blind (planWholeWith condition filter) := by
  have hrest : Blind (do
      let id ← joinEverythingWith condition
      let plan ← ask fun set => set.require id
      change fun set => set.erase id
      return plan) := by
    refine blind_joinEverythingWith.bind fun id => (blind_require id).bind fun plan => ?_
    refine Blind.bind ?_ fun _ => .pure plan
    exact .change fun _ => rfl
  unfold planWholeWith
  refine .bind_current fun set => (show Blind _ from ?_)
  by_cases hnil : set.tables.isEmpty = true
  · rw [if_pos hnil]
    show Blind (throw .emptyTableSet)
    exact .throw _
  · rw [if_neg hnil]
    cases filter with
    | none => exact hrest
    | some filter => exact (blind_planExpressionWith filter).bind fun _ => hrest

end Planner

namespace TableSet

variable {set set' : TableSet}

/-- With the note added, sets of the same plans are the same. -/
theorem joined_congr (h : set.tables = set'.tables) : set.joined = set'.joined := by
  unfold joined
  rw [h]

/-- The checks of the plans do not read the note. -/
theorem checkPlans_joined (set : TableSet) (plans : List TablePlan) :
    set.joined.checkPlans plans = set.checkPlans plans := by
  induction plans with
  | nil => rfl
  | cons plan rest ih =>
    unfold checkPlans
    rw [ih]
    rfl

/-- The check of the links does not read the note. -/
theorem validateLinks_joined (set : TableSet) : set.joined.validateLinks = set.validateLinks := by
  unfold validateLinks
  rw [show set.joined.tables = set.tables from rfl, checkPlans_joined]
  rfl

end TableSet

/-- A query over a set of which a merge made a plan is planned as over the same plans without the
note. -/
theorem planQuery_joined (uuids : Identifiers) (settings : Settings) (set : TableSet)
    (filter : Option Expr) :
    planQuery uuids settings set.joined filter = planQuery uuids settings set filter := by
  funext supply
  have hplan : Planner.plan filter ⟨set.joined, .start uuids settings supply⟩ =
      joinedAfter (Planner.plan filter ⟨set, .start uuids settings supply⟩) :=
    Planner.blind_planWholeWith filter ⟨set, .start uuids settings supply⟩
  unfold planQuery
  rw [set.validateLinks_joined, hplan]
  cases Planner.plan filter ⟨set, .start uuids settings supply⟩ <;> rfl

/-- A query over a set is planned as over any other set of the same plans. -/
theorem planQuery_congr {uuids : Identifiers} {settings : Settings} {set set' : TableSet}
    {filter : Option Expr} (h : set.tables = set'.tables) :
    planQuery uuids settings set filter = planQuery uuids settings set' filter := by
  rw [← planQuery_joined uuids settings set, TableSet.joined_congr h, planQuery_joined]

end QueryPlan
