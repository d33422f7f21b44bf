import QueryPlan.Proofs.OfConjunct

/-!
# Runs that succeed move

Over plans under handles of their own, with any links, whatever succeeds does so
by moves.

- `Moving`: a computation that moves where it succeeds.
- `MoveLaw`: what is required of the planner of conditions.
- `joinPairWith_fuses`, `joinEverythingWith_ok`: joins move, and all plans of a
  set become one.
- `Predicate.Comparing`: a predicate that compares with nested queries of a kind.
- `moving_applyWith`, `moving_planOrWith`, `moving_planExpressionWith`: predicates,
  ORs and filters move.
- `plan_moves`: a filter that is planned leaves one plan, by moves.
-/

namespace QueryPlan

/-- A planner of conditions turns plans without links into one tree by moves, for conditions that
satisfy `P`. -/
def MoveLaw (Q : PlanNode → Prop) (or : Prop) (P : Option Expr → Prop)
    (condition : ConditionPlanner) : Prop :=
  ∀ on, P on → ∀ w tree w', Handled (fun _ => False) w → condition on w = .ok tree w' →
    ∃ w₁ x, Moves Q or w w₁ ∧ w₁.set.tables = [x] ∧ tree = x.executable ∧ w'.context = w₁.context

/-- Where no condition comes up, any planner of conditions will do. -/
theorem moveLaw_unlinked (Q : PlanNode → Prop) (or : Prop) (condition : ConditionPlanner) :
    MoveLaw Q or (fun _ => False) condition :=
  fun _ h => h.elim

variable {α β : Type} {Q : PlanNode → Prop} {or : Prop} {P : Option Expr → Prop}
  {condition : ConditionPlanner} {w w' : Workspace}

/-! ## Computations that move -/

/-- Where the computation succeeds, it does so by moves. -/
def Moving (Q : PlanNode → Prop) (or : Prop) (P : Option Expr → Prop) (act : Planner α) : Prop :=
  ∀ w a w', Handled P w → act w = .ok a w' → Moves Q or w w'

namespace Moving

theorem pure (a : α) : Moving Q or P (Pure.pure a) := by
  intro w b w' _ h
  rw [(Planner.pure_ok.mp h).2]
  exact .refl w

theorem throw (e : PlanError) : Moving Q or P (throw e : Planner α) := by
  intro w a w' _ h
  exact (Planner.throw_ok.mp h).elim

theorem ask (f : TableSet → Except PlanError α) : Moving Q or P (Planner.ask f) := by
  intro w a w' _ h
  rw [(Planner.ask_ok.mp h).2]
  exact .refl w

/-- Computations that move, one after another. -/
theorem bind {x : Planner α} {f : α → Planner β} (hx : Moving Q or P x)
    (hf : ∀ a, Moving Q or P (f a)) : Moving Q or P (x >>= f) := by
  intro w b w' hw h
  obtain ⟨a, w₁, hxa, hfb⟩ := Planner.bind_ok.mp h
  have hmoves := hx w a w₁ hw hxa
  exact hmoves.trans (hf a w₁ b w' (hmoves.handled hw) hfb)

/-- Computations that move, for each member of a list. -/
theorem mapM {f : α → Planner β} (hf : ∀ a, Moving Q or P (f a)) (as : List α) :
    Moving Q or P (as.mapM f) := by
  induction as with
  | nil => exact .pure _
  | cons a rest ih =>
    rw [List.mapM_cons]
    exact (hf a).bind fun _ => ih.bind fun _ => .pure _

end Moving

/-! ## Joins -/

/-- The link between two plans, with its two sides and with a condition that satisfies `P`. -/
theorem Handled.exists_of_linkBetween (hw : Handled P w) {a b : TablePlan}
    (ha : a ∈ w.set.tables) (hb : b ∈ w.set.tables) {sided : SidedLink}
    (h : linkBetween a b = some sided) :
    (sided.left = a.id ∧ sided.right = b.id ∨ sided.left = b.id ∧ sided.right = a.id) ∧
      P sided.link.on := by
  obtain ⟨l, r, hsides, hleft, hright, hlink⟩ := between_of_linkBetween h
  have hon : l ∈ w.set.tables → r ∈ w.set.tables → P sided.link.on := fun hl hr =>
    hlink.elim (fun h => hw.conditions .right l hl _ h.1) fun h => hw.conditions .left r hr _ h.1
  rcases hsides with ⟨rfl, rfl⟩ | ⟨rfl, rfl⟩
  · exact ⟨Or.inl ⟨hleft, hright⟩, hon ha hb⟩
  · exact ⟨Or.inr ⟨hleft, hright⟩, hon hb ha⟩

/-- Two plans became one by moves, under a new handle. -/
structure Fuses (Q : PlanNode → Prop) (or : Prop) (first second : PlanId) (w : Workspace)
    (id : PlanId) (w' : Workspace) : Prop where
  moves : Moves Q or w w'
  mem_ids : ∀ i, i ∈ w'.set.ids ↔ i = id ∨ i ∈ w.set.ids ∧ i ≠ first ∧ i ≠ second

/-- Whichever of the two plans comes first. -/
theorem Fuses.symm {first second id : PlanId} (h : Fuses Q or first second w id w') :
    Fuses Q or second first w id w' := by
  refine ⟨h.moves, fun i => ?_⟩
  rw [h.mem_ids, and_comm (a := i ≠ second)]

namespace Planner

/-- A merge fuses its two plans. -/
theorem merge_fuses {left right id : PlanId} {build : PlanNode → PlanNode → PlanNode}
    (hw : Handled P w) (hbuild : ∀ s t, (build s t).joined? = some (s, t))
    (h : merge left right build w = .ok id w') : Fuses Q or left right w id w' := by
  obtain ⟨l, hl, r, hr, rfl, rfl, hne, rfl, rfl⟩ := merge_ok hw.nodup h
  exact ⟨.join hl hr hne (hbuild _ _), fun _ => mem_ids_mergedTables⟩

/-- A join by a link fuses its two plans. -/
theorem joinLinkedWith_fuses (hlaw : MoveLaw Q or P condition) {joinType : JoinType}
    {on : Option Expr} {l r : TablePlan} {id : PlanId} (hw : Handled P w)
    (hl : l ∈ w.set.tables) (hr : r ∈ w.set.tables) (hon : P on)
    (h : joinLinkedWith condition joinType on l.id r.id w = .ok id w') :
    Fuses Q or l.id r.id w id w' := by
  obtain ⟨marked, c, tree, w₁, hmark, htree, hne, rfl, rfl⟩ :=
    joinLinkedWith_ok hw.nodup hl hr h
  obtain ⟨w₂, x, hmoves, hsingle, rfl, hcontext⟩ := hlaw on hon _ _ _ Handled.pair htree
  rw [hcontext]
  exact ⟨.joinLinked hl hr hne hmark hmoves hsingle, fun _ => mem_ids_mergedTables⟩

/-- Two plans of a set are joined by the link between them, or are merged without one. -/
theorem joinPairWith_mem {first second id : PlanId} (hids : (w.set.tables.map TablePlan.id).Nodup)
    (h : joinPairWith condition first second w = .ok id w') :
    ∃ a ∈ w.set.tables, ∃ b ∈ w.set.tables, a.id = first ∧ b.id = second ∧
      ((∃ sided, linkBetween a b = some sided ∧ joinLinkedWith condition sided.link.joinType
          sided.link.on sided.left sided.right w = .ok id w') ∨
        linkBetween a b = none ∧ clash a b = .safe ∧
          merge a.id b.id .naturalJoin w = .ok id w') := by
  obtain ⟨a, b, hgeta, hgetb, hcases⟩ := joinPairWith_ok h
  obtain ⟨ha, rfl⟩ := (get?_eq_some_of_nodup hids).mp hgeta
  obtain ⟨hb, rfl⟩ := (get?_eq_some_of_nodup hids).mp hgetb
  exact ⟨a, ha, b, hb, rfl, rfl, hcases⟩

/-- Two plans become one. -/
theorem joinPairWith_fuses (hlaw : MoveLaw Q or P condition) {first second id : PlanId}
    (hw : Handled P w) (h : joinPairWith condition first second w = .ok id w') :
    Fuses Q or first second w id w' := by
  obtain ⟨a, ha, b, hb, rfl, rfl, ⟨sided, hbetween, h⟩ | ⟨-, -, h⟩⟩ :=
    joinPairWith_mem hw.nodup h
  · obtain ⟨hsides, hon⟩ := hw.exists_of_linkBetween ha hb hbetween
    rcases hsides with ⟨hleft, hright⟩ | ⟨hleft, hright⟩
    · rw [hleft, hright] at h
      exact joinLinkedWith_fuses hlaw hw ha hb hon h
    · rw [hleft, hright] at h
      exact (joinLinkedWith_fuses hlaw hw hb ha hon h).symm
  · exact merge_fuses hw (fun _ _ => rfl) h

end Planner

/-- A plan that is resolved is in the set, and what else is there was there before. -/
theorem Resolution.moves {id id' : PlanId} {pairings : List Pairing}
    (h : Resolution condition id w pairings (.ok id' w')) (hlaw : MoveLaw Q or P condition)
    (hw : Handled P w) :
    Moves Q or w w' ∧ id' ∈ w'.set.ids ∧ ∀ i ∈ w'.set.ids, i = id' ∨ i ∈ w.set.ids ∧ i ≠ id := by
  generalize hresult : EStateM.Result.ok id' w' = result at h
  induction h with
  | missing | fails => cases hresult
  | @unpadded id _ _ found none =>
    obtain ⟨rfl, rfl⟩ := hresult
    obtain ⟨hmem, rfl⟩ := TableSet.mem_of_get? found
    exact ⟨.refl _, TableSet.mem_ids hmem,
      fun i hi => (eq_or_ne i _).imp_right fun hne => ⟨hi, hne⟩⟩
  | joins _ _ joined _ ih =>
    have hfuses := Planner.joinPairWith_fuses hlaw hw joined
    obtain ⟨hmoves, hid', hids⟩ := ih (hfuses.moves.handled hw) hresult
    refine ⟨hfuses.moves.trans hmoves, hid', fun i hi => ?_⟩
    refine (hids i hi).imp_right ?_
    rintro ⟨hi₁, hne⟩
    obtain ⟨hi₀, hne₀, -⟩ := ((hfuses.mem_ids i).mp hi₁).resolve_left hne
    exact ⟨hi₀, hne₀⟩

/-- Plans become one by moves; if they are all plans of the set, no other plan is left. -/
theorem JoinRun.moves {working : List PlanId} {o : Option PlanId} {pairings : List Pairing}
    (h : JoinRun condition working w pairings (.ok o w')) (hlaw : MoveLaw Q or P condition)
    (hw : Handled P w) :
    Moves Q or w w' ∧ ((∀ i, i ∈ working ↔ i ∈ w.set.ids) → ∀ i, i ∈ o ↔ i ∈ w'.set.ids) := by
  generalize hresult : EStateM.Result.ok o w' = result at h
  -- The induction is on the run. If the list is of all plans at the start, it is so after each
  -- round.
  induction h with
  | missingFirst | missingSecond | resolveFails | joinFails => cases hresult
  | nil =>
    obtain ⟨rfl, rfl⟩ := hresult
    exact ⟨.refl _, fun hall i => by simp [← hall i]⟩
  | single =>
    obtain ⟨rfl, rfl⟩ := hresult
    exact ⟨.refl _, fun hall i => by simp [← hall i, eq_comm]⟩
  | resolves _ _ _ resolution _ ih =>
    obtain ⟨hmoves, hmem, hids⟩ := resolution.moves hlaw hw
    obtain ⟨hmoves', hrest⟩ := ih (hmoves.handled hw) hresult
    refine ⟨hmoves.trans hmoves', fun hall => hrest fun i => ?_⟩
    rw [List.mem_cons, List.mem_filter, TableSet.contains_iff, hall]
    constructor
    · rintro (rfl | ⟨-, hi⟩)
      · exact hmem
      · exact hi
    · exact fun hi => (hids i hi).imp_right fun hold => ⟨hold.1, hi⟩
  | joins _ _ _ joined _ ih =>
    have hfuses := Planner.joinPairWith_fuses hlaw hw joined
    obtain ⟨hmoves, hrest⟩ := ih (hfuses.moves.handled hw) hresult
    refine ⟨hfuses.moves.trans hmoves, fun hall => hrest fun i => ?_⟩
    rw [List.mem_cons, List.mem_filter, hall, decide_eq_true_eq, hfuses.mem_ids]

namespace Planner

/-- A plan is resolved by moves, and is itself the only one that is gone. -/
theorem resolveWith_ok (hlaw : MoveLaw Q or P condition) {id id' : PlanId} (hw : Handled P w)
    (h : resolveWith condition id w = .ok id' w') :
    Moves Q or w w' ∧ id' ∈ w'.set.ids ∧ ∀ i ∈ w'.set.ids, i = id' ∨ i ∈ w.set.ids ∧ i ≠ id := by
  obtain ⟨pairings, hrun⟩ := exists_resolution_of_ok h
  exact hrun.moves hlaw hw

/-- To resolve a plan moves. -/
theorem moving_resolveWith (hlaw : MoveLaw Q or P condition) (id : PlanId) :
    Moving Q or P (resolveWith condition id) :=
  fun _ _ _ hw h => (resolveWith_ok hlaw hw h).1

/-- To join some plans moves. -/
theorem moving_joinSomeWith (hlaw : MoveLaw Q or P condition) (working : List PlanId) :
    Moving Q or P (joinSomeWith condition working) := by
  intro w id w' hw h
  obtain ⟨pairings, hrun⟩ := exists_joinRun_of_some h
  exact (hrun.moves hlaw hw).1

/-- All plans of a set become one. -/
theorem joinEverythingWith_ok (hlaw : MoveLaw Q or P condition) {id : PlanId} (hw : Handled P w)
    (h : joinEverythingWith condition w = .ok id w') :
    Moves Q or w w' ∧ ∃ x, w'.set.tables = [x] ∧ x.id = id := by
  simp only [joinEverythingWith, bind_ok, current_ok] at h
  obtain ⟨_, w, ⟨rfl, rfl⟩, h⟩ := h
  obtain ⟨pairings, hrun⟩ := exists_joinRun_of_some h
  obtain ⟨hmoves, hids⟩ := hrun.moves hlaw hw
  have hids := hids fun _ => Iff.rfl
  refine ⟨hmoves, ?_⟩
  -- No other handle is left, and none is there twice.
  obtain ⟨x, hx, rfl⟩ := TableSet.exists_of_mem_ids ((hids id).mp rfl)
  have hw' := hmoves.handled hw
  refine ⟨x, List.perm_singleton.mp ?_, rfl⟩
  refine (List.perm_ext_iff_of_nodup hw'.nodup.of_map (List.nodup_singleton x)).mpr fun p => ?_
  rw [List.mem_singleton]
  constructor
  · intro hp
    have := (hids p.id).mpr (TableSet.mem_ids hp)
    exact hw'.eq_of_id hp hx (Option.some.inj this).symm
  · rintro rfl
    exact hx

/-- To join all plans moves. -/
theorem moving_joinEverythingWith (hlaw : MoveLaw Q or P condition) :
    Moving Q or P (joinEverythingWith condition) :=
  fun _ _ _ hw h => (joinEverythingWith_ok hlaw hw h).1

/-- To resolve the owner of a column moves. -/
theorem moving_ownerWith (hlaw : MoveLaw Q or P condition) (column : ColumnName) :
    Moving Q or P (ownerWith condition column) :=
  (Moving.ask _).bind fun id => moving_resolveWith hlaw id

/-- To resolve the owners of several columns moves. -/
theorem moving_resolveOwnersWith (hlaw : MoveLaw Q or P condition) (columns : List ColumnName) :
    Moving Q or P (resolveOwnersWith condition columns) := by
  induction columns with
  | nil => exact .pure _
  | cons column rest ih =>
    exact (Moving.ask _).bind fun id => (moving_resolveWith hlaw id).bind fun _ => ih

/-- To join the owners of several columns moves. -/
theorem moving_joinReadersWith (hlaw : MoveLaw Q or P condition) (columns : List ColumnName) :
    Moving Q or P (joinReadersWith condition columns) := by
  unfold joinReadersWith
  split
  · exact moving_joinEverythingWith hlaw
  · refine (moving_resolveOwnersWith hlaw columns).bind fun _ => ?_
    exact (Moving.mapM (fun column => .ask _) columns).bind fun owners =>
      moving_joinSomeWith hlaw _

/-! ## Predicates -/

/-- To select rows of a plan is a move. -/
theorem moving_selectOn (id : PlanId) {select : PlanNode → PlanNode}
    (hselect : ∀ t : PlanNode, t.Filters Q (select t)) : Moving Q or P (selectOn id select) := by
  intro w u w' _ h
  obtain ⟨-, rfl⟩ := changePlan_ok.mp h
  refine .filter ?_
  rw [List.forall₂_map_right_iff, List.forall₂_same]
  intro p _
  by_cases hid : p.id = id
  · rw [if_pos hid]
    exact Or.inr ⟨_, hselect _, rfl⟩
  · rw [if_neg hid]
    exact Or.inl rfl

theorem moving_selectRows (id : PlanId) (expr : Expr) : Moving Q or P (selectRows id expr) :=
  moving_selectOn id fun _ => .exhaustive expr

theorem moving_selectConstant (expr : Expr) : Moving Q or P (selectConstant expr) := by
  intro w u w' _ h
  obtain rfl := change_ok.mp h
  refine .filter ?_
  rw [List.forall₂_map_right_iff, List.forall₂_same]
  exact fun p _ => Or.inr ⟨_, .constant expr, rfl⟩

/-- To merge two plans is a move. -/
theorem moving_merge {left right : PlanId} {build : PlanNode → PlanNode → PlanNode}
    (hbuild : ∀ s t, (build s t).joined? = some (s, t)) :
    Moving Q or P (merge left right build) :=
  fun _ _ _ hw h => (merge_fuses hw hbuild h).moves

/-- To join two plans and then select rows moves. -/
theorem moving_joinThenSelectWith (hlaw : MoveLaw Q or P condition) (lhs rhs : PlanId)
    (expr : Expr) : Moving Q or P (joinThenSelectWith condition lhs rhs expr) :=
  (moving_joinSomeWith hlaw _).bind fun id => moving_selectRows id expr

theorem moving_mustJoinByLinks (lhs rhs : PlanId) : Moving Q or P (mustJoinByLinks lhs rhs) :=
  (Moving.ask _).bind fun _ => (Moving.ask _).bind fun _ => .pure _

/-- To compare columns of two plans moves. -/
theorem moving_compareWith (hlaw : MoveLaw Q or P condition) (left : Expr) (op : BinaryOp)
    (right : Expr) (lhs rhs : PlanId) :
    Moving Q or P (compareWith condition left op right lhs rhs) := by
  unfold compareWith
  split
  · exact moving_selectRows lhs _
  · refine (moving_mustJoinByLinks lhs rhs).bind fun must => ?_
    split
    · exact moving_joinThenSelectWith hlaw lhs rhs _
    · split
      · exact (moving_merge fun _ _ => rfl).bind fun _ => .pure _
      · exact (moving_merge fun _ _ => rfl).bind fun _ => .pure _
      · exact moving_joinThenSelectWith hlaw lhs rhs _

/-- A comparison of two sides that moves. -/
theorem moving_applyStandardJoinWith (hlaw : MoveLaw Q or P condition) (expr : Expr) :
    Moving Q or P (applyStandardJoinWith condition expr) := by
  cases expr with
  | binary left op right =>
    rcases Expr.constant_or_reads left right with hconstant | ⟨first, -, hleft, hright⟩
    · rw [applyStandardJoinWith_of_constant hconstant]
      exact (moving_joinReadersWith hlaw _).bind fun id => moving_selectRows id _
    · rw [applyStandardJoinWith_of_reads hleft hright]
      exact (moving_joinReadersWith hlaw _).bind fun _ =>
        (moving_joinReadersWith hlaw _).bind fun rhs => (Moving.ask _).bind fun lhs =>
          moving_compareWith hlaw left op right lhs rhs
  | _ => exact .throw _

end Planner

/-- If the predicate compares a column with a nested query, then `Q` holds of the query. -/
def Predicate.Comparing (Q : PlanNode → Prop) : Predicate → Prop
  | .simpleSubQuery _ _ _ query => Q query.plan
  | _ => True

namespace Planner

/-- A predicate is applied by moves. -/
theorem moving_applyWith (hlaw : MoveLaw Q or P condition) {planOr : Planner Unit}
    (hor : Moving Q or P planOr) {predicate : Predicate} (hquery : predicate.Comparing Q) :
    Moving Q or P (applyWith condition planOr predicate) := by
  have howner : ∀ {column select}, (∀ t : PlanNode, t.Filters Q (select t)) →
      Moving Q or P (do selectOn (← ownerWith condition column) select) := fun hselect =>
    (moving_ownerWith hlaw _).bind fun id => moving_selectOn id hselect
  have hreaders : ∀ columns expr, Moving Q or P (do
      selectRows (← joinReadersWith condition columns) expr) := fun columns expr =>
    (moving_joinReadersWith hlaw columns).bind fun id => moving_selectRows id expr
  unfold applyWith
  cases predicate with
  | constant expr => exact moving_selectConstant expr
  | simpleSingle column op value => exact howner fun _ => .simple column op value
  | complexSingle column expr => exact howner fun _ => .exhaustive expr
  | simplePattern column op pattern escape =>
    exact howner fun _ => .pattern column op pattern escape
  | complexPattern expr references => exact hreaders references expr
  | exhaustiveJoin expr references => exact hreaders references expr
  | exhaustiveSubQuery expr references => exact hreaders references expr
  | simpleSubQuery column op quantifier query =>
    exact howner fun _ => .anyAll hquery [column] op quantifier
  | standardJoin expr mixed => exact moving_applyStandardJoinWith hlaw expr
  | subLogic expr joinable => exact hor

end Planner

/-- What a predicate compares with is a nested query of its conjunct. -/
theorem Predicate.OfConjunct.comparing {e : Expr} {predicate : Predicate}
    (h : predicate.OfConjunct e) (hquery : ∀ plan ∈ e.queries, Q plan) :
    predicate.Comparing Q := by
  cases h with
  | simpleSubQuery _ nested => exact hquery _ nested
  | _ => trivial

/-! ## Filters -/

/-- What is required of a condition: `Q` holds of its nested queries, and without ORs to plan it has
none among its conjuncts. -/
def Admits (Q : PlanNode → Prop) (or : Prop) (on : Option Expr) : Prop :=
  ∀ e, on = some e → (∀ plan ∈ e.queries, Q plan) ∧ (¬ or → ∀ part ∈ e.conjuncts, part.isOr = false)

namespace Planner

/-- The only plan gets its columns in another order. -/
theorem reorderColumns_ok {x : TablePlan} {order : List ColumnName} {u : Unit}
    (hx : w.set.tables = [x]) (h : reorderColumns order w = .ok u w') :
    w' = { w with set := ⟨[x.reordered order], w.set.hasJoins⟩ } := by
  obtain ⟨⟨tables, hasJoins⟩, c⟩ := w
  obtain rfl : tables = [x] := hx
  unfold reorderColumns at h
  simp only [bind_ok, ask_ok, TableSet.single, Except.ok.injEq] at h
  obtain ⟨_, _, ⟨rfl, rfl⟩, h⟩ := h
  unfold TablePlan.reordered
  split at h
  · rename_i hsame
    obtain ⟨-, rfl⟩ := pure_ok.mp h
    rw [if_pos hsame]
  · rename_i hother
    split at h
    · exact (throw_ok.mp h).elim
    · obtain ⟨-, rfl⟩ := changePlan_ok.mp h
      rw [if_neg hother]
      simp [TableSet.modify]

/-- Both sides become one plan each, with the columns in the given order. -/
theorem joinSidesWith_ok (hlaw : MoveLaw Q or P condition) {order : List ColumnName}
    {left right : TableSet} {sides : TableSet × TableSet} (hl : Handled P ⟨left, w.context⟩)
    (hr : Handled P ⟨right, w.context⟩)
    (h : joinSidesWith condition order left right w = .ok sides w') :
    ∃ l r x y, Moves Q or ⟨left, w.context⟩ l ∧ l.set.tables = [x] ∧
      Moves Q or ⟨right, l.context⟩ r ∧ r.set.tables = [y] ∧
      sides = (⟨[x.reordered order], l.set.hasJoins⟩, ⟨[y.reordered order], r.set.hasJoins⟩) ∧
      w' = ⟨w.set, r.context⟩ := by
  simp only [joinSidesWith, bind_ok, within_ok, pure_ok] at h
  obtain ⟨⟨_, _⟩, _, ⟨l, hjoinLeft, rfl, rfl⟩, ⟨_, _⟩, _, ⟨r, hjoinRight, rfl, rfl⟩,
    ⟨_, _⟩, _, ⟨l', horderLeft, rfl, rfl⟩, ⟨_, _⟩, _, ⟨r', horderRight, rfl, rfl⟩, rfl, rfl⟩ := h
  obtain ⟨hmoves, x, hx, -⟩ := joinEverythingWith_ok hlaw hl hjoinLeft
  obtain ⟨hmoves', y, hy, -⟩ := joinEverythingWith_ok hlaw (hr.extend hmoves.extends) hjoinRight
  obtain rfl := reorderColumns_ok (by exact hx) horderLeft
  obtain rfl := reorderColumns_ok (by exact hy) horderRight
  exact ⟨l, r, x, y, hmoves, hx, hmoves', hy, rfl, rfl⟩

/-- An OR is planned by moves if both of its sides are. -/
theorem moving_planOrWith (hlaw : MoveLaw Q or P condition) (hor : or)
    {planLeft planRight : Planner Unit} (hl : Moving Q or P planLeft)
    (hr : Moving Q or P planRight) :
    Moving Q or P (planOrWith condition planLeft planRight) := by
  intro w u w' hw h
  simp only [planOrWith, planSides, bind_ok, current_ok, within_ok, pure_ok] at h
  obtain ⟨cached, w₁, hcaches, _, w₁, ⟨rfl, rfl⟩, ⟨left, right⟩, _, ⟨copyLeft, w₂, hcopyLeft,
    copyRight, w₃, hcopyRight, ⟨_, _⟩, _, ⟨l, hplanLeft, rfl, rfl⟩, ⟨_, _⟩, _,
    ⟨r, hplanRight, rfl, rfl⟩, heq, rfl⟩, h⟩ := h
  obtain ⟨rfl, rfl⟩ := Prod.mk.inj heq
  have hopened : Opened w cached w₁ copyLeft copyRight w₃.context :=
    ⟨hcaches, w₂, w₃, hcopyLeft, hcopyRight, rfl⟩
  have hleft := hl _ _ _ (hopened.handledLeft hw) hplanLeft
  have hright := hr _ _ _ (hopened.handledRight hw hleft.extends) hplanRight
  by_cases hshape : mustReshape l.set r.set = true
  · simp only [if_pos hshape, bind_ok, replaceSet_ok] at h
    obtain ⟨⟨left, right⟩, w₄, hjoin, rfl⟩ := h
    have hl' := (hleft.handled (hopened.handledLeft hw)).extend hright.extends
    have hr' := hright.handled (hopened.handledRight hw hleft.extends)
    obtain ⟨l', r', x, y, hmoves, hx, hmoves', hy, heq, rfl⟩ :=
      joinSidesWith_ok (w := ⟨w₃.set, r.context⟩) hlaw hl' hr' hjoin
    obtain ⟨rfl, rfl⟩ := Prod.mk.inj heq
    exact .uniteJoined hor hopened hleft hright hshape hmoves hx hmoves' hy
  · simp only [if_neg hshape, replaceSet_ok] at h
    subst h
    exact .unite hor hopened hleft hright (Bool.eq_false_iff.mpr hshape)

/-- Predicates are applied one after another, by moves. -/
theorem moving_applyAllWith (hlaw : MoveLaw Q or P condition)
    {placed : List (Predicate × Planner Unit)}
    (hplaced : ∀ y ∈ placed, y.1.Comparing Q ∧ Moving Q or P y.2) :
    Moving Q or P (applyAllWith condition placed) := by
  induction placed with
  | nil => exact .pure _
  | cons y rest ih =>
    rw [List.forall_mem_cons] at hplaced
    obtain ⟨⟨hquery, hact⟩, hrest⟩ := hplaced
    exact (moving_applyWith hlaw hact hquery).bind fun _ => ih hrest

/-- Conjuncts are classified and applied by moves. -/
theorem moving_planAgendaWith (hlaw : MoveLaw Q or P condition)
    {agenda : List (Expr × Planner Unit)}
    (hagenda : ∀ x ∈ agenda, (∀ plan ∈ x.1.queries, Q plan) ∧ Moving Q or P x.2) :
    Moving Q or P (planAgendaWith condition agenda) := by
  intro w u w' hw h
  simp only [planAgendaWith, bind_ok, ask_ok] at h
  obtain ⟨placed, w, ⟨hplaced, rfl⟩, h⟩ := h
  refine moving_applyAllWith hlaw (fun y hy => ?_) w u w' hw h
  obtain ⟨x, hx, bucket, hclass, hact⟩ := TableSet.mem_of_classifyAll hplaced hy
  obtain ⟨hquery, hmoving⟩ := hagenda x hx
  exact ⟨(TableSet.ofConjunct_of_classifyOne hclass).comparing hquery, hact ▸ hmoving⟩

/-- An agenda is planned by moves, be it a single OR or several conjuncts. -/
theorem moving_runAgendaWith (hlaw : MoveLaw Q or P condition)
    {agenda : List (Expr × Planner Unit)}
    (hagenda : ∀ x ∈ agenda, (∀ plan ∈ x.1.queries, Q plan) ∧ Moving Q or P x.2) :
    Moving Q or P (runAgendaWith condition agenda) := by
  unfold runAgendaWith
  split
  · exact (hagenda _ (List.mem_singleton_self _)).2
  · exact moving_planAgendaWith hlaw hagenda

/-- The conjuncts of a filter are planned by moves. -/
theorem moving_agendaWith (hlaw : MoveLaw Q or P condition) {filter : Expr}
    (hquery : ∀ plan ∈ filter.queries, Q plan)
    (hor : ¬ or → ∀ part ∈ filter.conjuncts, part.isOr = false) :
    ∀ x ∈ agendaWith condition filter, (∀ plan ∈ x.1.queries, Q plan) ∧ Moving Q or P x.2 := by
  fun_induction agendaWith condition filter with
  | case1 left right ihLeft ihRight =>
    simp only [Expr.queries, Expr.conjuncts, List.forall_mem_append] at hquery hor ⊢
    exact ⟨ihLeft hquery.1 fun h => (hor h).1, ihRight hquery.2 fun h => (hor h).2⟩
  | case2 left right ihLeft ihRight =>
    have hallowed : or := by
      by_contra hnot
      have := hor hnot _ (List.mem_singleton_self _)
      cases this
    rw [List.forall_mem_singleton]
    refine ⟨hquery, ?_⟩
    simp only [Expr.queries, List.forall_mem_append] at hquery
    refine moving_planOrWith hlaw hallowed (moving_runAgendaWith hlaw ?_)
      (moving_runAgendaWith hlaw ?_)
    · exact ihLeft hquery.1 fun hnot => absurd hallowed hnot
    · exact ihRight hquery.2 fun hnot => absurd hallowed hnot
  | case3 e =>
    rw [List.forall_mem_singleton]
    exact ⟨hquery, .pure _⟩

/-- A filter is planned by moves. -/
theorem moving_planExpressionWith (hlaw : MoveLaw Q or P condition) {filter : Expr}
    (hadmits : Admits Q or (some filter)) : Moving Q or P (planExpressionWith condition filter) :=
  moving_runAgendaWith hlaw (moving_agendaWith hlaw (hadmits filter rfl).1 (hadmits filter rfl).2)

/-- A filter is planned, and what is left becomes one plan. -/
theorem planWholeWith_moves (hlaw : MoveLaw Q or P condition) {filter : Option Expr}
    {plan : TablePlan} (hadmits : Admits Q or filter) (hw : Handled P w)
    (h : planWholeWith condition filter w = .ok plan w') :
    ∃ w₁, Moves Q or w w₁ ∧ w₁.set.tables = [plan] ∧ w'.context = w₁.context := by
  -- What is left after the filter is joined.
  have hrest : ∀ w₁, Handled P w₁ → (do
      let id ← joinEverythingWith condition
      let plan ← ask fun set => set.require id
      change fun set => set.erase id
      return plan) w₁ = .ok plan w' →
      ∃ w₂, Moves Q or w₁ w₂ ∧ w₂.set.tables = [plan] ∧ w'.context = w₂.context := by
    intro w₁ hw₁ h
    simp only [bind_ok, ask_ok, require_ok, change_ok, pure_ok] at h
    obtain ⟨id, w₂, hjoin, x, _, ⟨hget, rfl⟩, _, _, rfl, rfl, rfl⟩ := h
    obtain ⟨hmoves, y, hy, rfl⟩ := joinEverythingWith_ok hlaw hw₁ hjoin
    have hnodup := (hmoves.handled hw₁).nodup
    obtain ⟨hx, -⟩ := (get?_eq_some_of_nodup hnodup).mp hget
    rw [hy, List.mem_singleton] at hx
    exact ⟨_, hmoves, hx ▸ hy, rfl⟩
  unfold planWholeWith at h
  simp only [bind_ok, current_ok] at h
  obtain ⟨_, w, ⟨rfl, rfl⟩, h⟩ := h
  split at h
  · exact (throw_ok.mp h).elim
  · cases filter with
    | none => exact hrest _ hw h
    | some filter =>
      obtain ⟨_, w₁, hfilter, h⟩ := bind_ok.mp h
      have hmoves := moving_planExpressionWith hlaw hadmits _ _ _ hw hfilter
      obtain ⟨w₂, hmoves', hsingle, hcontext⟩ := hrest w₁ (hmoves.handled hw) h
      exact ⟨w₂, hmoves.trans hmoves', hsingle, hcontext⟩

end Planner

/-- The planner of conditions does what is required of it: a pair has no links, so that no further
condition comes up. -/
theorem moveLaw_planCondition (Q : PlanNode → Prop) (or : Prop) :
    MoveLaw Q or (Admits Q or) planCondition := by
  intro on hon w tree w' hw h
  simp only [planCondition, Planner.bind_ok, Planner.pure_ok] at h
  obtain ⟨plan, w₁, hwhole, rfl, rfl⟩ := h
  obtain ⟨w₂, hmoves, hsingle, hcontext⟩ :=
    Planner.planWholeWith_moves (moveLaw_unlinked Q or noCondition) hon hw hwhole
  exact ⟨w₂, plan, hmoves, hsingle, rfl, hcontext⟩

/-- What a filter is planned as over any set is what moves lead to, where `Q` holds of all nested
queries, and ORs are allowed for if there are any. -/
theorem plan_moves {set : TableSet} {context : Context} {filter : Option Expr} {plan : TablePlan}
    (hids : (set.tables.map TablePlan.id).Nodup)
    (hgiven : ∀ p ∈ set.tables, p.id.number < context.supply.next)
    (hfilter : Admits Q or filter)
    (hlinks : ∀ side, ∀ p ∈ set.tables, ∀ link, p.linkOn side = some link → Admits Q or link.on)
    (h : Planner.plan filter ⟨set, context⟩ = .ok plan w') :
    ∃ w₁, Moves Q or ⟨set, context⟩ w₁ ∧ w₁.set.tables = [plan] ∧ w'.context = w₁.context :=
  Planner.planWholeWith_moves (moveLaw_planCondition Q or) hfilter ⟨hids, hgiven, hlinks⟩ h

end QueryPlan
