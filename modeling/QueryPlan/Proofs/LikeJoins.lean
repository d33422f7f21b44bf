import QueryPlan.Proofs.Likeness

/-!
# Joins over sets that are alike

- `linkBetween_like`, `clash_like`, `nextJoin_like`: what has to happen to two
  plans is alike.
- `ConditionsLikewise`: planners of conditions that go alike.
- `merge_likewise`, `joinPairWith_likewise`, `joinAllWith_likewise`,
  `joinReadersWith_likewise`: joins go alike.
-/

namespace QueryPlan

variable {L : Likeness} {p q p' q' : TablePlan}

/-! ## What two plans have to do with each other -/

/-- The same links with sides that stand for one another. -/
structure SidedLink.Like (L : Likeness) (a b : SidedLink) : Prop where
  link : a.link.Like L b.link
  left : L.handles a.left b.left
  right : L.handles a.right b.right

theorem linkBetween_like (h : p.Like L q) (h' : p'.Like L q') :
    Option.Rel (SidedLink.Like L) (linkBetween p p') (linkBetween q q') := by
  have haimed : ∀ {i i' : PlanId} {o o' : Option JoinLink}, L.handles i i' →
      Option.Rel (JoinLink.Like L) o o' →
      Option.Rel (JoinLink.Like L) (aimedAt i o) (aimedAt i' o') := by
    intro i i' o o' hi ho
    exact rel_filter ho fun a b hlink => L.decide_eq hlink.target hi
  unfold linkBetween
  refine rel_orElse ?_ (rel_orElse ?_ (rel_orElse ?_ ?_))
  · exact rel_map (haimed h'.id h.right) fun _ _ hlink => ⟨hlink, h.id, h'.id⟩
  · exact rel_map (haimed h'.id h.left) fun _ _ hlink => ⟨hlink, h'.id, h.id⟩
  · exact rel_map (haimed h.id h'.right) fun _ _ hlink => ⟨hlink, h'.id, h.id⟩
  · exact rel_map (haimed h.id h'.left) fun _ _ hlink => ⟨hlink, h.id, h'.id⟩

theorem differ_like {o o' u u' : Option PlanId} (ho : Option.Rel L.handles o o')
    (hu : Option.Rel L.handles u u') : differ o u = differ o' u' := by
  cases ho with
  | none => rfl
  | some hi =>
    cases hu with
    | none => rfl
    | some hj => exact congrArg (! ·) (L.beq_eq hi hj)

theorem clash_like (h : p.Like L q) (h' : p'.Like L q') : clash p p' = clash q q' := by
  unfold clash
  rw [h.isLinkedTo h'.id, h'.isLinkedTo h.id, differ_like h.leftTarget h'.leftTarget,
    differ_like h.rightTarget h'.rightTarget]

theorem nullPaddedFromOutside_like (h : p.Like L q) (h' : p'.Like L q') :
    Option.Rel L.handles (nullPaddedFromOutside? p p') (nullPaddedFromOutside? q q') := by
  have hoff : ∀ {i i' : PlanId} {o o' : Option PlanId}, L.handles i i' →
      Option.Rel L.handles o o' → (o.any fun j => j != i) = o'.any fun j => j != i' :=
    fun hi ho => any_eq_of_rel ho fun _ _ hj => congrArg (! ·) (L.beq_eq hj hi)
  unfold nullPaddedFromOutside?
  rw [hoff h'.id h.nullPaddedBy, hoff h.id h'.nullPaddedBy]
  split
  · exact .some h.id
  · split
    · exact .some h'.id
    · exact .none

/-- The same next step for plans that stand for one another. -/
inductive NextJoin.Like (L : Likeness) : NextJoin → NextJoin → Prop where
  | resolve {i i' : PlanId} (padded : L.handles i i') : Like L (.resolve i) (.resolve i')
  | join {i i' : PlanId} (partner : L.handles i i') : Like L (.join i) (.join i')

theorem nextJoin_like (h : p.Like L q) (h' : p'.Like L q') :
    (nextJoin p p').Like L (nextJoin q q') := by
  have htarget : ∀ {o o' : Option PlanId}, Option.Rel L.handles o o' →
      L.handles (o.getD p'.id) (o'.getD q'.id) := by
    intro o o' ho
    cases ho with
    | some hi => exact hi
    | none => exact h'.id
  unfold nextJoin
  rw [clash_like h h']
  cases clash q q' with
  | safe =>
    have hpadded := nullPaddedFromOutside_like h h'
    generalize nullPaddedFromOutside? p p' = o at hpadded
    generalize nullPaddedFromOutside? q q' = o' at hpadded
    cases hpadded with
    | some hi => exact .resolve hi
    | none => exact .join h'.id
  | left => exact .join (htarget h.leftTarget)
  | right => exact .join (htarget h.rightTarget)

/-! ## Joins -/

/-- Planners of conditions that go alike, for the conditions that may come up. -/
def ConditionsLikewise (L : Likeness) (condition condition' : ConditionPlanner) : Prop :=
  ∀ on, Admits L.queries L.ors on → Likewise L (PlanNode.Like L) (condition on) (condition' on)

variable {condition condition' : ConditionPlanner} {i i' j j' : PlanId}

namespace Planner

theorem require_likewise (h : L.handles i i') :
    Likewise L (TablePlan.Like L) (ask fun set => set.require i) (ask fun set => set.require i') :=
  .ask fun _ _ hset => hset.require h

theorem owner_likewise (column : ColumnName) :
    Likewise L L.handles (ask fun set => set.owner column) (ask fun set => set.owner column) :=
  .ask fun _ _ hset => hset.owner column

theorem changePlan_likewise {f f' : TablePlan → TablePlan} (h : L.handles i i')
    (hf : ∀ p q, p.Like L q → (f p).Like L (f' q)) :
    Likewise L Eq (changePlan i f) (changePlan i' f') := by
  unfold changePlan
  exact (require_likewise h).bind fun _ _ _ => .change fun _ _ hset => hset.modify h hf

/-- Two plans become one alike. -/
theorem merge_likewise {build build' : PlanNode → PlanNode → PlanNode} (hi : L.handles i i')
    (hj : L.handles j j')
    (hbuild : ∀ s t s' t' : PlanNode, s.Like L s' → t.Like L t' →
      (build s t).Like L (build' s' t')) :
    Likewise L L.handles (merge i j build) (merge i' j' build') := by
  unfold merge
  refine (require_likewise hi).bind fun l l' hl => ?_
  refine (Likewise.change fun _ _ hset => hset.erase hi).bind fun _ _ _ => ?_
  refine Likewise.current.bind fun s t hset => ?_
  have hget := hset.get? hj
  generalize s.get? j = o at hget
  generalize t.get? j' = o' at hget
  cases hget with
  | none =>
    refine (Likewise.change fun _ _ hset => ?_).bind fun _ _ _ => .throw (.danglingLink hj)
    exact ⟨List.rel_append hset.tables (.cons hl .nil), hset.hasJoins⟩
  | some hr =>
    refine Likewise.freshId.bind fun m m' hm => ?_
    refine (Likewise.change fun s t hset => ?_).bind fun _ _ _ => .pure hm
    refine ⟨List.rel_append ?_ (.cons (hl.merged hr hm ?_) .nil), rfl⟩
    · rw [List.forall₂_map_left_iff, List.forall₂_map_right_iff]
      exact (hset.erase hj).tables.imp fun _ _ hpq => hpq.retarget (.cons hi (.cons hj .nil)) hm
    · exact hbuild _ _ _ _ hl.executable hr.executable

/-- Marks that stand for one another, on plans that do. -/
def MarksLike (L : Likeness) : Option (PlanId × String) → Option (PlanId × String) → Prop :=
  Option.Rel fun x y => L.handles x.1 y.1 ∧ L.marks x.2 y.2

theorem newMark_likewise (joinType : JoinType) (hi : L.handles i i') (hj : L.handles j j') :
    Likewise L (MarksLike L) (newMark joinType i j) (newMark joinType i' j') := by
  unfold newMark
  cases joinType with
  | inner => exact .pure .none
  | left => exact Likewise.nextMarker.bind fun _ _ hmark => .pure (.some ⟨hi, hmark⟩)
  | right => exact Likewise.nextMarker.bind fun _ _ hmark => .pure (.some ⟨hj, hmark⟩)
  | full => exact .throw (.plain fun _ => rfl)

theorem putMark_likewise {marked marked' : Option (PlanId × String)}
    (h : MarksLike L marked marked') :
    Likewise L Eq (putMark marked) (putMark marked') := by
  cases h with
  | none => exact .pure rfl
  | some hmarked =>
    exact changePlan_likewise hmarked.1 fun _ _ hpq =>
      hpq.update (.cacheMark hpq.executable hmarked.2)

theorem addBack_like {marked marked' : Option (PlanId × String)} {tree tree' : PlanNode}
    (h : MarksLike L marked marked') (htree : tree.Like L tree') :
    (addBack marked tree).Like L (addBack marked' tree') := by
  cases h with
  | none => exact htree
  | some hmarked => exact .outerJoin htree hmarked.2

theorem detachPair_likewise (hi : L.handles i i') (hj : L.handles j j') :
    Likewise L (TableSet.Like L) (detachPair i j) (detachPair i' j') := by
  unfold detachPair
  refine (require_likewise hi).bind fun l l' hl => Likewise.freshId.bind fun m m' hm => ?_
  refine (require_likewise hj).bind fun r r' hr => Likewise.freshId.bind fun n n' hn => ?_
  exact .pure ⟨.cons (hl.detached hm) (.cons (hr.detached hn) .nil), rfl⟩

section

variable (hcondition : ConditionsLikewise L condition condition')
include hcondition

/-- Linked plans are joined alike. -/
theorem joinLinkedWith_likewise (joinType : JoinType) {on : Option Expr}
    (hon : Admits L.queries L.ors on) (hi : L.handles i i') (hj : L.handles j j') :
    Likewise L L.handles (joinLinkedWith condition joinType on i j)
      (joinLinkedWith condition' joinType on i' j') := by
  unfold joinLinkedWith
  refine (newMark_likewise joinType hi hj).bind fun marked marked' hmarked => ?_
  refine (putMark_likewise hmarked).bind fun _ _ _ => ?_
  refine (detachPair_likewise hi hj).bind fun pair pair' hpair => ?_
  refine (Likewise.within hpair (hcondition on hon)).bind ?_
  rintro ⟨tree, _⟩ ⟨tree', _⟩ ⟨htree, -⟩
  exact merge_likewise hi hj fun _ _ _ _ _ _ => addBack_like hmarked htree

/-- Two plans are joined alike. -/
theorem joinPairWith_likewise (hi : L.handles i i') (hj : L.handles j j') :
    Likewise L L.handles (joinPairWith condition i j) (joinPairWith condition' i' j') := by
  unfold joinPairWith
  refine (require_likewise hi).bind fun a a' ha => (require_likewise hj).bind fun b b' hb => ?_
  have hbetween := linkBetween_like ha hb
  generalize linkBetween a b = o at hbetween
  generalize linkBetween a' b' = o' at hbetween
  cases hbetween with
  | @some sided sided' hsided =>
    simp only [hsided.link.joinType, hsided.link.on]
    exact joinLinkedWith_likewise hcondition _ hsided.link.admitted hsided.left hsided.right
  | none =>
    simp only [clash_like ha hb]
    cases clash a' b' with
    | safe => exact merge_likewise hi hj fun _ _ _ _ hs ht => .naturalJoin hs ht
    | left => exact .throw (.joinClash hi hj .left)
    | right => exact .throw (.joinClash hi hj .right)

theorem resolveWithin_likewise (fuel : Nat) (hi : L.handles i i') :
    Likewise L L.handles (resolveWithin condition fuel i) (resolveWithin condition' fuel i') := by
  induction fuel generalizing i i' with
  | zero => exact .throw (.danglingLink hi)
  | succ fuel ih =>
    unfold resolveWithin
    refine (require_likewise hi).bind fun plan plan' hplan => ?_
    have hpad := hplan.nullPaddedBy
    generalize plan.nullPaddedBy? = o at hpad
    generalize plan'.nullPaddedBy? = o' at hpad
    cases hpad with
    | none => exact .pure hi
    | some hpartner =>
      exact (joinPairWith_likewise hcondition hi hpartner).bind fun _ _ hid => ih hid

theorem resolveWith_likewise (hi : L.handles i i') :
    Likewise L L.handles (resolveWith condition i) (resolveWith condition' i') := by
  unfold resolveWith
  refine Likewise.current.bind fun s t hset => ?_
  rw [hset.tables.length_eq]
  exact resolveWithin_likewise hcondition _ hi

theorem joinAllWithin_likewise (fuel : Nat) {working working' : List PlanId}
    (h : List.Forall₂ L.handles working working') :
    Likewise L (Option.Rel L.handles) (joinAllWithin condition fuel working)
      (joinAllWithin condition' fuel working') := by
  induction fuel generalizing working working' with
  | zero =>
    cases h with
    | nil => exact .pure .none
    | cons hfirst hrest =>
      cases hrest with
      | nil => exact .pure (.some hfirst)
      | cons => exact .throw (.danglingLink hfirst)
  | succ fuel ih =>
    cases h with
    | nil => exact .pure .none
    | @cons first first' _ _ hfirst hrest =>
      cases hrest with
      | nil => exact .pure (.some hfirst)
      | @cons second second' rest rest' hsecond hrest =>
        have hworking := List.Forall₂.cons hfirst (.cons hsecond hrest)
        unfold joinAllWithin
        refine (require_likewise hfirst).bind fun a a' ha => ?_
        refine (require_likewise hsecond).bind fun b b' hb => ?_
        have hnext := nextJoin_like ha hb
        generalize nextJoin a b = next at hnext
        generalize nextJoin a' b' = next' at hnext
        cases hnext with
        | resolve hpadded =>
          refine (resolveWith_likewise hcondition hpadded).bind fun id id' hid => ?_
          refine Likewise.current.bind fun now now' hnow => ih (.cons hid ?_)
          exact forall₂_filter (fun _ _ hj => hnow.contains hj) hworking
        | join hpartner =>
          refine (joinPairWith_likewise hcondition hfirst hpartner).bind fun id id' hid => ?_
          refine ih (.cons hid (forall₂_filter (fun j j' hj => ?_) hworking))
          exact decide_eq_decide.mpr (and_congr (not_congr (L.oneToOne hj hfirst))
            (not_congr (L.oneToOne hj hpartner)))

/-- Several plans are joined alike. -/
theorem joinAllWith_likewise {working working' : List PlanId}
    (h : List.Forall₂ L.handles working working') :
    Likewise L (Option.Rel L.handles) (joinAllWith condition working)
      (joinAllWith condition' working') := by
  unfold joinAllWith
  refine Likewise.current.bind fun s t hset => ?_
  rw [hset.tables.length_eq]
  exact joinAllWithin_likewise hcondition _ h

theorem joinSomeWith_likewise {working working' : List PlanId}
    (h : List.Forall₂ L.handles working working') :
    Likewise L L.handles (joinSomeWith condition working) (joinSomeWith condition' working') := by
  unfold joinSomeWith
  refine (joinAllWith_likewise hcondition h).bind fun o o' ho => ?_
  cases ho with
  | some hid => exact .pure hid
  | none => exact .throw (.plain fun _ => rfl)

theorem joinEverythingWith_likewise :
    Likewise L L.handles (joinEverythingWith condition) (joinEverythingWith condition') := by
  unfold joinEverythingWith
  exact Likewise.current.bind fun _ _ hset => joinSomeWith_likewise hcondition hset.ids

theorem ownerWith_likewise (column : ColumnName) :
    Likewise L L.handles (ownerWith condition column) (ownerWith condition' column) := by
  unfold ownerWith
  exact (owner_likewise column).bind fun _ _ hid => resolveWith_likewise hcondition hid

theorem resolveOwnersWith_likewise (columns : List ColumnName) :
    Likewise L Eq (resolveOwnersWith condition columns) (resolveOwnersWith condition' columns) := by
  induction columns with
  | nil => exact .pure rfl
  | cons column rest ih =>
    unfold resolveOwnersWith
    refine (owner_likewise column).bind fun _ _ hid => ?_
    exact (resolveWith_likewise hcondition hid).bind fun _ _ _ => ih

/-- The readers of columns are joined alike. -/
theorem joinReadersWith_likewise (columns : List ColumnName) :
    Likewise L L.handles (joinReadersWith condition columns)
      (joinReadersWith condition' columns) := by
  unfold joinReadersWith
  split
  · exact joinEverythingWith_likewise hcondition
  · refine (resolveOwnersWith_likewise hcondition columns).bind fun _ _ _ => ?_
    have howners : Likewise L (List.Forall₂ L.handles)
        (columns.mapM fun column => ask fun set => set.owner column)
        (columns.mapM fun column => ask fun set => set.owner column) := by
      refine .mapM (R := Eq) ?_ (List.forall₂_same.mpr fun _ _ => rfl)
      rintro column _ rfl
      exact owner_likewise column
    exact howners.bind fun _ _ hids => joinSomeWith_likewise hcondition (L.distinct_like hids)

end

end Planner

end QueryPlan
