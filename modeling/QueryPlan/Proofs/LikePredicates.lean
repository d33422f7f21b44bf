import QueryPlan.Proofs.LikeJoins
import QueryPlan.Proofs.TwinFilters

/-!
# Predicates over sets that are alike

- `TableSet.Like.classifyAll`: conjuncts are classified as the same predicates, which
  are applied in the same order.
- `applyWith_likewise`: predicates are applied alike.
-/

namespace QueryPlan

variable {L : Likeness} {s t : TableSet} {α β : Type} {S : α → β → Prop}

/-! ## Classifying -/

theorem ExceptLike.and {x : Except PlanError α} {x' : Except PlanError β} {P : α → Prop}
    (h : ExceptLike L S x x') (hP : ∀ a, x = .ok a → P a) :
    ExceptLike L (fun a b => S a b ∧ P a) x x' := by
  cases h with
  | ok value => exact .ok ⟨value, hP _ rfl⟩
  | error cause => exact .error cause

namespace TableSet.Like

theorem classifyPattern (h : s.Like L t) (e : Expr) :
    ExceptLike L Eq (s.classifyPattern e) (t.classifyPattern e) := by
  unfold TableSet.classifyPattern
  simp only
  split
  · exact .ok rfl
  · cases Predicate.simplePattern? e with
    | some predicate => exact .ok rfl
    | none =>
      refine (h.commonOwner e.references).bind fun o o' ho => ?_
      cases ho with
      | some => exact .ok rfl
      | none => exact .ok rfl

theorem readOnePlan (h : s.Like L t) {common common' : Option PlanId}
    (hcommon : Option.Rel L.handles common common') (sides : List Expr) :
    ExceptLike L Eq (s.readOnePlan common sides) (t.readOnePlan common' sides) := by
  induction sides generalizing common common' with
  | nil => exact .ok rfl
  | cons side rest ih =>
    unfold TableSet.readOnePlan
    simp only
    split
    · exact ih hcommon
    · refine (h.commonOwner side.references).bind fun o o' ho => ?_
      cases ho with
      | none => exact .ok rfl
      | @some i i' hi =>
        cases hcommon with
        | none => exact ih (.some hi)
        | @some j j' hj =>
          simp only
          by_cases hsame : i = j
          · rw [if_pos hsame, if_pos ((L.oneToOne hi hj).mp hsame)]
            exact ih (.some hj)
          · rw [if_neg hsame, if_neg fun hsame' => hsame ((L.oneToOne hi hj).mpr hsame')]
            exact .ok rfl

theorem classifySubLogic (h : s.Like L t) (e : Expr) :
    ExceptLike L Eq (s.classifySubLogic e) (t.classifySubLogic e) := by
  unfold TableSet.classifySubLogic
  split
  · refine (h.readOnePlan .none _).bind ?_
    rintro joinable _ rfl
    exact .ok rfl
  · exact .ok rfl

theorem classifyOne (h : s.Like L t) (e : Expr) :
    ExceptLike L Eq (s.classifyOne e) (t.classifyOne e) := by
  have hplaced : ∀ {x x' : Except PlanError Predicate} (bucket : Bucket), ExceptLike L Eq x x' →
      ExceptLike L Eq (x.map fun p => some (bucket, p)) (x'.map fun p => some (bucket, p)) := by
    intro x x' bucket hx
    refine hx.map ?_
    rintro p _ rfl
    rfl
  unfold TableSet.classifyOne
  split
  · exact .ok rfl
  · split
    · exact .ok rfl
    · split
      · exact hplaced _ (h.classifySubLogic e)
      · split
        · exact .ok rfl
        · split
          · exact hplaced _ (h.classifyPattern e)
          · exact .ok rfl

end TableSet.Like

/-- The same conjunct, which compares rows with nested queries of the kind that may come up, with
what `S` relates. -/
def ConjunctLike (L : Likeness) (S : α → β → Prop) (x : Expr × α) (y : Expr × β) : Prop :=
  x.1 = y.1 ∧ (∀ plan ∈ x.1.queries, L.queries plan) ∧ S x.2 y.2

/-- The same predicate, which compares rows with a nested query of the kind that may come up, if
with one, with what `S` relates. -/
def PredicateLike (L : Likeness) (S : α → β → Prop) (x : Predicate × α)
    (y : Predicate × β) : Prop :=
  x.1 = y.1 ∧ x.1.Comparing L.queries ∧ S x.2 y.2

theorem TableSet.Like.classifyListed (h : s.Like L t) {agenda : List (Expr × α)}
    {agenda' : List (Expr × β)} (hagenda : List.Forall₂ (ConjunctLike L S) agenda agenda') :
    ExceptLike L
      (List.Forall₂ fun x y => x.1.1 = y.1.1 ∧ PredicateLike L S (x.1.2, x.2) (y.1.2, y.2))
      (s.classifyListed agenda) (t.classifyListed agenda') := by
  induction hagenda with
  | nil => exact .ok .nil
  | @cons x y _ _ hxy _ ih =>
    obtain ⟨e, a⟩ := x
    obtain ⟨_, b⟩ := y
    obtain ⟨rfl, hquery, hab⟩ := hxy
    have hone := (h.classifyOne e).and (P := fun o => ∀ placed, o = some placed →
      placed.2.Comparing L.queries) fun o ho placed hplaced =>
        (TableSet.ofConjunct_of_classifyOne (hplaced ▸ ho)).comparing hquery
    refine hone.bind ?_
    rintro first _ ⟨rfl, hfirst⟩
    refine ih.bind fun others others' hothers => ?_
    cases first with
    | none => exact .ok hothers
    | some placed => exact .ok (.cons ⟨rfl, rfl, hfirst placed rfl, hab⟩ hothers)

/-- Conjuncts are classified as the same predicates, which are applied in the same order. -/
theorem TableSet.Like.classifyAll (h : s.Like L t) {agenda : List (Expr × α)}
    {agenda' : List (Expr × β)} (hagenda : List.Forall₂ (ConjunctLike L S) agenda agenda') :
    ExceptLike L (List.Forall₂ (PredicateLike L S)) (s.classifyAll agenda)
      (t.classifyAll agenda') := by
  refine (h.classifyListed hagenda).bind fun placed placed' hplaced => .ok ?_
  rw [List.forall₂_map_left_iff, List.forall₂_map_right_iff]
  refine (forall₂_sortBy ?_ hplaced).imp fun _ _ hxy => hxy.2
  rintro ⟨⟨_, _⟩, _⟩ ⟨⟨_, _⟩, _⟩ ⟨⟨_, _⟩, _⟩ ⟨⟨_, _⟩, _⟩ ⟨rfl, rfl, -⟩ ⟨rfl, rfl, -⟩
  rfl

/-! ## Applying predicates -/

variable {condition condition' : ConditionPlanner} {i i' j j' : PlanId}

namespace Planner

/-- What a select is put on is alike afterwards. -/
theorem selectOn_likewise {select : PlanNode → PlanNode} (hi : L.handles i i')
    (hselect : ∀ n n' : PlanNode, n.Like L n' → (select n).Like L (select n')) :
    Likewise L Eq (selectOn i select) (selectOn i' select) :=
  changePlan_likewise hi fun _ _ hpq => hpq.update (hselect _ _ hpq.executable)

theorem selectRows_likewise (hi : L.handles i i') (expr : Expr) :
    Likewise L Eq (selectRows i expr) (selectRows i' expr) :=
  selectOn_likewise hi fun _ _ hn => .exhaustiveSelect hn expr

theorem selectConstant_likewise (expr : Expr) :
    Likewise L Eq (selectConstant expr) (selectConstant expr) := by
  refine .change fun s t hset => ⟨?_, hset.hasJoins⟩
  rw [List.forall₂_map_left_iff, List.forall₂_map_right_iff]
  exact hset.tables.imp fun _ _ hpq => hpq.update (.constantSelect hpq.executable expr)

theorem mustJoinByLinks_likewise (hi : L.handles i i') (hj : L.handles j j') :
    Likewise L Eq (mustJoinByLinks i j) (mustJoinByLinks i' j') := by
  unfold mustJoinByLinks
  refine (require_likewise hi).bind fun l l' hl => (require_likewise hj).bind fun r r' hr => ?_
  rw [hl.isLinkedTo hj, hr.isLinkedTo hi, clash_like hl hr]
  exact .pure rfl

section

variable (hcondition : ConditionsLikewise L condition condition')
include hcondition

theorem joinThenSelectWith_likewise (hi : L.handles i i') (hj : L.handles j j') (expr : Expr) :
    Likewise L Eq (joinThenSelectWith condition i j expr)
      (joinThenSelectWith condition' i' j' expr) := by
  unfold joinThenSelectWith
  exact (joinSomeWith_likewise hcondition (.cons hi (.cons hj .nil))).bind
    fun _ _ hid => selectRows_likewise hid expr

theorem selectReaders_likewise (columns : List ColumnName) (expr : Expr) :
    Likewise L Eq (do selectRows (← joinReadersWith condition columns) expr)
      (do selectRows (← joinReadersWith condition' columns) expr) :=
  (joinReadersWith_likewise hcondition columns).bind fun _ _ hid => selectRows_likewise hid expr

theorem selectOwner_likewise (column : ColumnName) {select : PlanNode → PlanNode}
    (hselect : ∀ n n' : PlanNode, n.Like L n' → (select n).Like L (select n')) :
    Likewise L Eq (do selectOn (← ownerWith condition column) select)
      (do selectOn (← ownerWith condition' column) select) :=
  (ownerWith_likewise hcondition column).bind fun _ _ hid => selectOn_likewise hid hselect

/-- Comparisons are put on plans that are alike. -/
theorem compareWith_likewise {lhs lhs' rhs rhs' : PlanId} (hlhs : L.handles lhs lhs')
    (hrhs : L.handles rhs rhs') (left : Expr) (op : BinaryOp) (right : Expr) :
    Likewise L Eq (compareWith condition left op right lhs rhs)
      (compareWith condition' left op right lhs' rhs') := by
  unfold compareWith
  by_cases hsame : lhs = rhs
  · rw [if_pos hsame, if_pos ((L.oneToOne hlhs hrhs).mp hsame)]
    exact selectRows_likewise hlhs _
  · rw [if_neg hsame, if_neg fun hsame' => hsame ((L.oneToOne hlhs hrhs).mpr hsame')]
    refine (mustJoinByLinks_likewise hlhs hrhs).bind ?_
    rintro must _ rfl
    split
    · exact joinThenSelectWith_likewise hcondition hlhs hrhs _
    · split
      · exact (merge_likewise hlhs hrhs fun _ _ _ _ hl hr => .join hl hr _ _ _).bind
          fun _ _ _ => .pure rfl
      · exact (merge_likewise hrhs hlhs fun _ _ _ _ hr hl => .join hr hl _ _ _).bind
          fun _ _ _ => .pure rfl
      · exact joinThenSelectWith_likewise hcondition hlhs hrhs _

/-- Comparisons are applied alike. -/
theorem applyStandardJoinWith_likewise (expr : Expr) :
    Likewise L Eq (applyStandardJoinWith condition expr)
      (applyStandardJoinWith condition' expr) := by
  cases expr with
  | binary left op right =>
    rcases Expr.constant_or_reads left right with hconstant | ⟨first, -, hleft, hright⟩
    · rw [applyStandardJoinWith_of_constant hconstant, applyStandardJoinWith_of_constant hconstant]
      exact selectReaders_likewise hcondition _ _
    · rw [applyStandardJoinWith_of_reads hleft hright, applyStandardJoinWith_of_reads hleft hright]
      exact (joinReadersWith_likewise hcondition _).bind fun _ _ _ =>
        (joinReadersWith_likewise hcondition _).bind fun _ _ hrhs =>
          (owner_likewise first).bind fun _ _ hlhs =>
            compareWith_likewise hcondition hlhs hrhs left op right
  | _ => exact .throw (.plain fun _ => rfl)

/-- Predicates are applied alike. -/
theorem applyWith_likewise {planOr planOr' : Planner Unit} (hor : Likewise L Eq planOr planOr')
    {predicate : Predicate} (hquery : predicate.Comparing L.queries) :
    Likewise L Eq (applyWith condition planOr predicate)
      (applyWith condition' planOr' predicate) := by
  unfold applyWith
  cases predicate with
  | constant expr => exact selectConstant_likewise expr
  | simpleSingle column op value =>
    exact selectOwner_likewise hcondition column fun _ _ hn => .simpleSelect hn column op value
  | complexSingle column expr =>
    exact selectOwner_likewise hcondition column fun _ _ hn => .exhaustiveSelect hn expr
  | simplePattern column op pattern escape =>
    exact selectOwner_likewise hcondition column
      fun _ _ hn => .patternSelect hn column op pattern escape
  | complexPattern expr references => exact selectReaders_likewise hcondition references expr
  | exhaustiveJoin expr references => exact selectReaders_likewise hcondition references expr
  | exhaustiveSubQuery expr references => exact selectReaders_likewise hcondition references expr
  | simpleSubQuery column op quantifier query =>
    exact selectOwner_likewise hcondition column
      fun _ _ hn => .anyAllSelect hn hquery [column] op quantifier
  | standardJoin expr mixed => exact applyStandardJoinWith_likewise hcondition expr
  | subLogic expr joinable => exact hor

end

end Planner

end QueryPlan
