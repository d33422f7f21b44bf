import QueryPlan.TablePlan

/-!
# Whether two plans can be joined

* `clash`: whether a join of two plans would strand a link of one of them.
* `linkBetween`: the link that two plans have with each other, with its sides.
* `nullPaddedFromOutside?`: which of two plans waits for an outer join with a
  plan outside the pair.
* `nextJoin`: what has to happen first when two plans are to be joined.
-/

namespace QueryPlan

/-- What keeps two plans from being joined at once. -/
inductive Clash where
  | safe
  /-- Both have a link on their left, with different partners. -/
  | left
  /-- Both have a link on their right, with different partners. -/
  | right
deriving DecidableEq

/-- Whether both are given and differ. -/
def differ (a b : Option PlanId) : Bool :=
  match a, b with
  | some a, some b => a != b
  | _, _ => false

/-- Whether a join of two plans would strand a link of one of them. Linked plans never
clash. -/
def clash (a b : TablePlan) : Clash :=
  if a.isLinkedTo b.id || b.isLinkedTo a.id then .safe
  else if differ a.leftTarget? b.leftTarget? then .left
  else if differ a.rightTarget? b.rightTarget? then .right
  else .safe

/-- The link if it is aimed at `id`. -/
def aimedAt (id : PlanId) (link : Option JoinLink) : Option JoinLink :=
  link.filter fun l => l.target = id

/-- A link of two plans with its left and its right side. -/
structure SidedLink where
  link : JoinLink
  left : PlanId
  right : PlanId

/-- The link that two plans have with each other: the first found of the right and the left
link of `a`, and the right and the left link of `b`. -/
def linkBetween (a b : TablePlan) : Option SidedLink :=
  (aimedAt b.id a.right).map (⟨·, a.id, b.id⟩)
    <|> (aimedAt b.id a.left).map (⟨·, b.id, a.id⟩)
    <|> (aimedAt a.id b.right).map (⟨·, b.id, a.id⟩)
    <|> (aimedAt a.id b.left).map (⟨·, a.id, b.id⟩)

/-- Which of two plans waits for an outer join with a plan outside the pair, `a` before `b`. -/
def nullPaddedFromOutside? (a b : TablePlan) : Option PlanId :=
  if a.nullPaddedBy?.any fun partner => partner != b.id then some a.id
  else if b.nullPaddedBy?.any fun partner => partner != a.id then some b.id
  else none

/-- What has to happen first when two plans are to be joined. -/
inductive NextJoin where
  /-- A plan that an outer join with a plan outside the pair pads with nulls is joined until
  none does. -/
  | resolve (padded : PlanId)
  /-- The first plan is joined with this one. -/
  | join (partner : PlanId)
deriving DecidableEq

/-- What has to happen first when two plans are to be joined. Where the join would strand a link
of `a`, it is joined with the partner of that link. -/
def nextJoin (a b : TablePlan) : NextJoin :=
  match clash a b with
  | .safe =>
    match nullPaddedFromOutside? a b with
    | some padded => .resolve padded
    | none => .join b.id
  | .left => .join (a.leftTarget?.getD b.id)
  | .right => .join (a.rightTarget?.getD b.id)

end QueryPlan
