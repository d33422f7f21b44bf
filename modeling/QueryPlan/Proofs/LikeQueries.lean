import QueryPlan.Proofs.LikeFilters
import QueryPlan.TableSet.Links

/-!
# Queries over sets that are alike

- `validateLinks_like`: the links of both sets pass their check, or they fail it for
  the same reason.
- `planQuery_like`: a query is planned alike over both sets, or in neither.
-/

namespace QueryPlan

variable {L : Likeness} {s t : TableSet}

/-! ## The check of the links -/

theorem JoinLink.Like.agrees_eq {a b a' b' : JoinLink} (h : a.Like L b) (h' : a'.Like L b') :
    a.agrees a' = b.agrees b' := by
  unfold JoinLink.agrees
  rw [h.joinType, h.on, h'.joinType, h'.on]

theorem checkLink_like {p q : TablePlan} {o o' : Option JoinLink} (h : s.Like L t)
    (hpq : p.Like L q) (side : Side) (ho : Option.Rel (JoinLink.Like L) o o') :
    ExceptLike L Eq (s.checkLink p side o) (t.checkLink q side o') := by
  cases ho with
  | none => exact .ok rfl
  | @some link link' hlink =>
    rw [TablePlan.checkLink_some, TablePlan.checkLink_some]
    refine (h.require hlink.target).bind fun r r' hr => ?_
    have hfault : ExceptLike L (α := Unit) Eq
        (throw (.contradictoryLinks (.unanswered p.id side link.target)))
        (throw (.contradictoryLinks (.unanswered q.id side link'.target))) :=
      .error (.unanswered hpq.id side hlink.target)
    -- Both are answered by the same kind of link, or neither is.
    have hback : Option.Rel (JoinLink.Like L) (r.linkOn side.other) (r'.linkOn side.other) := by
      cases side
      · exact hr.right
      · exact hr.left
    generalize r.linkOn side.other = u at hback
    generalize r'.linkOn side.other = u' at hback
    cases hback with
    | none => exact hfault
    | some hanswer =>
      simp only [Option.elim_some, L.oneToOne hanswer.target hpq.id, hanswer.agrees_eq hlink]
      split
      · exact .ok rfl
      · exact hfault

theorem checkPlans_like (h : s.Like L t) {ps qs : List TablePlan}
    (hall : List.Forall₂ (TablePlan.Like L) ps qs) :
    ExceptLike L Eq (s.checkPlans ps) (t.checkPlans qs) := by
  induction hall with
  | nil => exact .ok rfl
  | cons hpq _ ih =>
    unfold TableSet.checkPlans TableSet.checkPlan
    refine ExceptLike.bind (R := Eq) ?_ fun _ _ _ => ih
    exact (checkLink_like h hpq .left hpq.left).bind
      fun _ _ _ => checkLink_like h hpq .right hpq.right

/-- Pairs of handles that stand for one another. -/
def PairsLike (L : Likeness) : List (PlanId × PlanId) → List (PlanId × PlanId) → Prop :=
  List.Forall₂ fun x y => L.handles x.1 y.1 ∧ L.handles x.2 y.2

theorem labelOf_like {labels labels' : List (PlanId × PlanId)} (h : PairsLike L labels labels')
    {i i' : PlanId} (hi : L.handles i i') : L.handles (labelOf labels i) (labelOf labels' i') := by
  have hlookup := rel_lookup h hi
  unfold labelOf
  generalize labels.lookup i = o at hlookup
  generalize labels'.lookup i' = o' at hlookup
  cases hlookup with
  | some hl => exact hl
  | none => exact hi

/-- Edges close a cycle in both graphs or in neither. -/
theorem closesCycle_like {labels labels' edges edges' : List (PlanId × PlanId)}
    (h : PairsLike L labels labels') (hedges : PairsLike L edges edges') :
    closesCycle labels edges = closesCycle labels' edges' := by
  induction hedges generalizing labels labels' with
  | nil => rfl
  | @cons edge _ _ _ hedge _ ih =>
    have hla := labelOf_like h hedge.1
    have hlb := labelOf_like h hedge.2
    unfold closesCycle
    simp only
    rw [L.beq_eq hla hlb]
    refine congrArg (_ || ·) (ih ?_)
    unfold PairsLike
    rw [List.forall₂_map_left_iff, List.forall₂_map_right_iff]
    refine h.imp fun x y hxy => ⟨hxy.1, ?_⟩
    by_cases hsame : x.2 = labelOf labels edge.2
    · rw [if_pos hsame, if_pos ((L.oneToOne hxy.2 hlb).mp hsame)]
      exact hla
    · rw [if_neg hsame, if_neg fun hsame' => hsame ((L.oneToOne hxy.2 hlb).mpr hsame')]
      exact hxy.2

/-- The links of both sets pass their check, or they fail it for the same reason. -/
theorem validateLinks_like (h : s.Like L t) : ExceptLike L Eq s.validateLinks t.validateLinks := by
  have hlabels : PairsLike L (s.ids.map fun id => (id, id)) (t.ids.map fun id => (id, id)) := by
    unfold PairsLike
    rw [List.forall₂_map_left_iff, List.forall₂_map_right_iff]
    exact h.ids.imp fun _ _ hi => ⟨hi, hi⟩
  have hedges : PairsLike L s.linkEdges t.linkEdges := by
    refine List.rel_filterMap (fun p q hpq => ?_) h.tables
    exact rel_map hpq.rightTarget fun _ _ htarget => ⟨hpq.id, htarget⟩
  unfold TableSet.validateLinks
  refine (checkPlans_like h h.tables).bind fun _ _ _ => ?_
  rw [closesCycle_like hlabels hedges]
  split
  · exact .error (.plain fun _ => rfl)
  · exact .ok rfl

/-! ## Queries -/

/-- Both queries are planned alike, or planning fails for the same reason. -/
inductive QueryLike (L : Likeness) : EStateM.Result PlanError PlanId.Supply TablePlan →
    EStateM.Result PlanError PlanId.Supply TablePlan → Prop where
  | ok {plan plan' : TablePlan} {supply supply' : PlanId.Supply} (plans : plan.Like L plan') :
    QueryLike L (.ok plan supply) (.ok plan' supply')
  | error {e e' : PlanError} {supply supply' : PlanId.Supply} (cause : e.Like L e') :
    QueryLike L (.error e supply) (.error e' supply')

/-- Queries over sets that are alike are planned alike, where what is still to be handed out is
alike too. -/
theorem planQuery_like {uuids uuids' : Identifiers} {settings settings' : Settings}
    {filter : Option Expr} {supply supply' : PlanId.Supply} (h : s.Like L t)
    (hcontext : (Context.start uuids settings supply).Like L (.start uuids' settings' supply'))
    (hchecked : settings'.planning.validateLinks = settings.planning.validateLinks)
    (hfilter : Admits L.queries L.ors filter) :
    QueryLike L (planQuery uuids settings s filter supply)
      (planQuery uuids' settings' t filter supply') := by
  have hcheck : ExceptLike L Eq
      (if settings.planning.validateLinks then s.validateLinks else .ok ())
      (if settings.planning.validateLinks then t.validateLinks else .ok ()) := by
    split
    · exact validateLinks_like h
    · exact .ok rfl
  unfold planQuery
  rw [hchecked]
  simp only
  generalize (if settings.planning.validateLinks then s.validateLinks else .ok ()) = check at hcheck
  generalize (if settings.planning.validateLinks then t.validateLinks else .ok ()) = check'
    at hcheck
  cases hcheck with
  | error cause => exact .error cause
  | ok =>
    simp only
    have hresult := plan_likewise hfilter ⟨s, .start uuids settings supply⟩
      ⟨t, .start uuids' settings' supply'⟩ ⟨h, hcontext⟩
    generalize Planner.plan filter ⟨s, .start uuids settings supply⟩ = result at hresult
    generalize Planner.plan filter ⟨t, .start uuids' settings' supply'⟩ = result' at hresult
    cases hresult with
    | ok value => exact .ok value
    | error cause => exact .error cause

end QueryPlan
