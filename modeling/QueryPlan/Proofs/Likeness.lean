import QueryPlan.Proofs.Moving

/-!
# Planning runs that are alike

Two runs over sets that are alike go alike: both fail for the same reason, or both succeed, and
what they leave is alike again.

- `Likeness`: how two runs may differ: in their handles, in their marks, in the
  ids of their caches, or in that the second has no caches.
- `PlanNode.Like`, `TablePlan.Like`, `Workspace.Like`, `PlanError.Like`: what is
  alike in that way.
- `Likewise`: two computations that go alike on all workspaces that are alike.
- `Likewise.bind`: computations in sequence do if each of them does.
- `TableSet.Like.get?`, `owner`, `copyAs`: what is looked up in two sets, and
  copies of them, are alike.
-/

namespace QueryPlan

/-! ## What is alike -/

/-- How two planning runs may differ. -/
structure Likeness where
  /-- The handles that stand for one another. -/
  handles : PlanId → PlanId → Prop
  oneToOne : ∀ {i i' j j' : PlanId}, handles i i' → handles j j' → (i = j ↔ i' = j')
  /-- The marks that stand for one another. -/
  marks : String → String → Prop
  /-- The cache ids that stand for one another. None is given where the second run has no caches. -/
  caches? : Option (Nat → Nat → Prop)
  /-- What holds of the nested queries that rows are compared with. -/
  queries : PlanNode → Prop
  /-- Whether ORs may come up. -/
  ors : Prop

/-- The same trees, up to marks and caches. -/
inductive PlanNode.Like (L : Likeness) : PlanNode → PlanNode → Prop where
  | source (name : String) : Like L (.source name) (.source name)
  | naturalJoin {l l' r r' : PlanNode} (left : Like L l l') (right : Like L r r') :
    Like L (.naturalJoin l r) (.naturalJoin l' r')
  | join {l l' r r' : PlanNode} (left : Like L l l') (right : Like L r r') (column : ColumnName)
    (op : BinaryOp) (value : Expr) :
    Like L (.join l r column op value) (.join l' r' column op value)
  | outerJoin {n n' : PlanNode} {m m' : String} (input : Like L n n') (mark : L.marks m m') :
    Like L (.outerJoin n m) (.outerJoin n' m')
  | union {l l' r r' : PlanNode} (left : Like L l l') (right : Like L r r') :
    Like L (.union l r) (.union l' r')
  | project {n n' : PlanNode} (input : Like L n n') (columns : List ColumnName) :
    Like L (.project n columns) (.project n' columns)
  | cache {n n' : PlanNode} {same : Nat → Nat → Prop} {i i' : Nat} (caches : L.caches? = some same)
    (input : Like L n n') (id : same i i') : Like L (.cache n i) (.cache n' i')
  /-- A cache in the first tree alone. -/
  | bared {n n' : PlanNode} (bare : L.caches? = none) (input : Like L n n') (i : Nat) :
    Like L (.cache n i) n'
  | cacheMark {n n' : PlanNode} {m m' : String} (input : Like L n n') (mark : L.marks m m') :
    Like L (.cacheMark n m) (.cacheMark n' m')
  | constantSelect {n n' : PlanNode} (input : Like L n n') (predicate : Expr) :
    Like L (.constantSelect n predicate) (.constantSelect n' predicate)
  | simpleSelect {n n' : PlanNode} (input : Like L n n') (column : ColumnName) (op : BinaryOp)
    (value : Expr) : Like L (.simpleSelect n column op value) (.simpleSelect n' column op value)
  | patternSelect {n n' : PlanNode} (input : Like L n n') (column : ColumnName) (op : MatchOp)
    (pattern : Expr) (escape : Option Expr) :
    Like L (.patternSelect n column op pattern escape) (.patternSelect n' column op pattern escape)
  | exhaustiveSelect {n n' : PlanNode} (input : Like L n n') (predicate : Expr) :
    Like L (.exhaustiveSelect n predicate) (.exhaustiveSelect n' predicate)
  | anyAllSelect {n n' query : PlanNode} (input : Like L n n') (nested : L.queries query)
    (columns : List ColumnName) (op : BinaryOp) (quantifier : Quantifier) :
    Like L (.anyAllSelect n query columns op quantifier)
      (.anyAllSelect n' query columns op quantifier)

/-- The same links with partners that stand for one another. -/
structure JoinLink.Like (L : Likeness) (a b : JoinLink) : Prop where
  target : L.handles a.target b.target
  joinType : b.joinType = a.joinType
  on : b.on = a.on
  admitted : Admits L.queries L.ors a.on

/-- The same plans under handles that stand for one another. -/
structure TablePlan.Like (L : Likeness) (p q : TablePlan) : Prop where
  id : L.handles p.id q.id
  executable : p.executable.Like L q.executable
  columns : q.columns = p.columns
  uniqueKeys : q.uniqueKeys = p.uniqueKeys
  left : Option.Rel (JoinLink.Like L) p.left q.left
  right : Option.Rel (JoinLink.Like L) p.right q.right
  touched : q.touched = p.touched

/-- The same plans, position by position. -/
structure TableSet.Like (L : Likeness) (s t : TableSet) : Prop where
  tables : List.Forall₂ (TablePlan.Like L) s.tables t.tables
  hasJoins : t.hasJoins = s.hasJoins

/-- Plans get caches for the sides of an OR in both runs, or in none, or not in the second one if
that has no caches. Cache ids still to come stand for one another. -/
def Likeness.Caching (L : Likeness) (c d : Context) : Prop :=
  match L.caches? with
  | none => d.cacheOrBranches = false
  | some same => d.cacheOrBranches = c.cacheOrBranches ∧
    ∀ k, same (c.cacheIds + (k + 1)) (d.cacheIds + (k + 1))

/-- What is still to be handed out is alike. -/
structure Context.Like (L : Likeness) (c d : Context) : Prop where
  issued : d.markers.issued = c.markers.issued
  names : ∀ n, c.markers.issued < n → L.marks (c.markers.nameAt n) (d.markers.nameAt n)
  supply : ∀ k, L.handles ⟨c.supply.next + k⟩ ⟨d.supply.next + k⟩
  caching : L.ors → L.Caching c d

/-- Sets that are alike in contexts that are. -/
structure Workspace.Like (L : Likeness) (w v : Workspace) : Prop where
  set : w.set.Like L v.set
  context : w.context.Like L v.context

/-- The same errors about handles that stand for one another. -/
inductive PlanError.Like (L : Likeness) : PlanError → PlanError → Prop where
  /-- An error that tells of no handle. -/
  | plain {e : PlanError} (noIds : ∀ f, e.mapIds f = e) : Like L e e
  | danglingLink {i i' : PlanId} (id : L.handles i i') : Like L (.danglingLink i) (.danglingLink i')
  | joinClash {i i' j j' : PlanId} (left : L.handles i i') (right : L.handles j j') (side : Side) :
    Like L (.joinClash i j side) (.joinClash i' j' side)
  | unanswered {i i' j j' : PlanId} (plan : L.handles i i') (side : Side)
    (partner : L.handles j j') :
    Like L (.contradictoryLinks (.unanswered i side j))
      (.contradictoryLinks (.unanswered i' side j'))

variable {L : Likeness} {α β γ δ : Type} {R : α → β → Prop} {S : γ → δ → Prop}

/-! ## Results that are alike -/

/-- Both give what `R` relates, or both fail for the same reason. -/
inductive ExceptLike (L : Likeness) (R : α → β → Prop) :
    Except PlanError α → Except PlanError β → Prop where
  | ok {a : α} {b : β} (value : R a b) : ExceptLike L R (.ok a) (.ok b)
  | error {e e' : PlanError} (cause : e.Like L e') : ExceptLike L R (.error e) (.error e')

/-- Results one after another are alike if each of them is. -/
theorem ExceptLike.bind {x : Except PlanError α} {x' : Except PlanError β}
    {f : α → Except PlanError γ} {f' : β → Except PlanError δ} (hx : ExceptLike L R x x')
    (hf : ∀ a b, R a b → ExceptLike L S (f a) (f' b)) : ExceptLike L S (x >>= f) (x' >>= f') := by
  cases hx with
  | ok value => exact hf _ _ value
  | error cause => exact .error cause

/-- What is made of results that are alike is alike. -/
theorem ExceptLike.map {x : Except PlanError α} {x' : Except PlanError β} {f : α → γ} {f' : β → δ}
    (hx : ExceptLike L R x x') (hf : ∀ a b, R a b → S (f a) (f' b)) :
    ExceptLike L S (x.map f) (x'.map f') := by
  cases hx with
  | ok value => exact .ok (hf _ _ value)
  | error cause => exact .error cause

/-- Both give what `R` relates and leave what is alike, or both fail for the same reason. -/
inductive ResultLike (L : Likeness) (R : α → β → Prop) :
    EStateM.Result PlanError Workspace α → EStateM.Result PlanError Workspace β → Prop where
  | ok {a : α} {b : β} {w v : Workspace} (value : R a b) (spaces : w.Like L v) :
    ResultLike L R (.ok a w) (.ok b v)
  | error {e e' : PlanError} {w v : Workspace} (cause : e.Like L e') :
    ResultLike L R (.error e w) (.error e' v)

/-- Two computations go alike: on workspaces that are alike, both give what `R` relates and leave
what is alike, or both fail for the same reason. -/
def Likewise (L : Likeness) (R : α → β → Prop) (act : Planner α) (act' : Planner β) : Prop :=
  ∀ w v, w.Like L v → ResultLike L R (act w) (act' v)

namespace Likewise

theorem pure {a : α} {b : β} (h : R a b) : Likewise L R (Pure.pure a) (Pure.pure b) :=
  fun _ _ hw => .ok h hw

theorem throw {e e' : PlanError} (h : e.Like L e') :
    Likewise L R (throw e : Planner α) (throw e' : Planner β) :=
  fun _ _ _ => .error h

/-- Computations in sequence go alike if each of them does. -/
theorem bind {x : Planner α} {x' : Planner β} {f : α → Planner γ} {f' : β → Planner δ}
    (hx : Likewise L R x x') (hf : ∀ a b, R a b → Likewise L S (f a) (f' b)) :
    Likewise L S (x >>= f) (x' >>= f') := by
  intro w v hw
  show ResultLike L S (EStateM.bind x f w) (EStateM.bind x' f' v)
  unfold EStateM.bind
  have hresult := hx w v hw
  generalize x w = result at hresult
  generalize x' v = result' at hresult
  cases hresult with
  | ok value spaces => exact hf _ _ value _ _ spaces
  | error cause => exact .error cause

/-- Lists that are alike, worked through one after the other. -/
theorem mapM {f : α → Planner γ} {f' : β → Planner δ}
    (hf : ∀ a b, R a b → Likewise L S (f a) (f' b)) {as : List α} {bs : List β}
    (h : List.Forall₂ R as bs) : Likewise L (List.Forall₂ S) (as.mapM f) (bs.mapM f') := by
  induction h with
  | nil => exact .pure .nil
  | cons hab _ ih =>
    rw [List.mapM_cons, List.mapM_cons]
    exact (hf _ _ hab).bind fun _ _ hfirst => ih.bind fun _ _ hrest => .pure (.cons hfirst hrest)

theorem current : Likewise L (TableSet.Like L) Planner.current Planner.current :=
  fun _ _ hw => .ok hw.set hw

/-- To read two sets that are alike gives what is alike. -/
theorem ask {f : TableSet → Except PlanError α} {f' : TableSet → Except PlanError β}
    (h : ∀ s t, TableSet.Like L s t → ExceptLike L R (f s) (f' t)) :
    Likewise L R (Planner.ask f) (Planner.ask f') := by
  refine current.bind fun s t hset => ?_
  have hread := h s t hset
  generalize f s = read at hread
  generalize f' t = read' at hread
  cases hread with
  | ok value => exact .pure value
  | error cause => exact .throw cause

/-- Changes that keep sets alike. -/
theorem change {f f' : TableSet → TableSet} (h : ∀ s t, s.Like L t → (f s).Like L (f' t)) :
    Likewise L Eq (Planner.change f) (Planner.change f') :=
  fun _ _ hw => .ok rfl ⟨h _ _ hw.set, hw.context⟩

/-- Two sets that are alike take the place of the old ones. -/
theorem replaceSet {s t : TableSet} (h : s.Like L t) :
    Likewise L Eq (Planner.replaceSet s) (Planner.replaceSet t) :=
  fun _ _ hw => .ok rfl ⟨h, hw.context⟩

/-- Computations on other sets that are alike. -/
theorem within {s t : TableSet} {act : Planner α} {act' : Planner β} (h : s.Like L t)
    (hact : Likewise L R act act') :
    Likewise L (fun x y => R x.1 y.1 ∧ x.2.Like L y.2) (Planner.within s act)
      (Planner.within t act') := by
  intro w v hw
  unfold Planner.within
  have hresult := hact ⟨s, w.context⟩ ⟨t, v.context⟩ ⟨h, hw.context⟩
  generalize act ⟨s, w.context⟩ = result at hresult
  generalize act' ⟨t, v.context⟩ = result' at hresult
  cases hresult with
  | ok value spaces => exact .ok ⟨value, spaces.set⟩ ⟨hw.set, spaces.context⟩
  | error cause => exact .error cause

/-! ## Handles and names -/

/-- Both runs give out as many handles, and pair them in their order. -/
theorem freshIds (count : Nat) :
    Likewise L (List.Forall₂ L.handles) (Planner.freshIds count) (Planner.freshIds count) := by
  intro w v hw
  refine .ok ?_ ⟨hw.set, ⟨hw.context.issued, hw.context.names, fun k => ?_, hw.context.caching⟩⟩
  · show List.Forall₂ _ ((List.range count).map _) ((List.range count).map _)
    rw [List.forall₂_map_left_iff, List.forall₂_map_right_iff, List.forall₂_same]
    exact fun k _ => hw.context.supply k
  · show L.handles ⟨w.context.supply.next + count + k⟩ ⟨v.context.supply.next + count + k⟩
    rw [Nat.add_assoc, Nat.add_assoc]
    exact hw.context.supply (count + k)

/-- Both runs give out a handle, and pair the two. -/
theorem freshId : Likewise L L.handles Planner.freshId Planner.freshId := by
  intro w v hw
  refine .ok (hw.context.supply 0)
    ⟨hw.set, ⟨hw.context.issued, hw.context.names, fun k => ?_, hw.context.caching⟩⟩
  show L.handles ⟨w.context.supply.next + 1 + k⟩ ⟨v.context.supply.next + 1 + k⟩
  rw [Nat.add_assoc, Nat.add_assoc]
  exact hw.context.supply (1 + k)

/-- The next marks of both runs are paired. -/
theorem nextMarker : Likewise L L.marks Planner.nextMarker Planner.nextMarker := by
  intro w v hw
  refine .ok ?_ ⟨hw.set, ⟨congrArg (· + 1) hw.context.issued,
    fun n hn => hw.context.names n (Nat.lt_of_succ_lt hn), hw.context.supply, hw.context.caching⟩⟩
  show L.marks (w.context.markers.nameAt (w.context.markers.issued + 1))
    (v.context.markers.nameAt (v.context.markers.issued + 1))
  rw [hw.context.issued]
  exact hw.context.names _ (Nat.lt_succ_self _)

end Likewise

/-! ## Lists and options -/

section

variable {o p : Option α} {o' p' : Option β}

/-- Options that are related, mapped. -/
theorem rel_map {f : α → γ} {f' : β → δ} (h : Option.Rel R o o')
    (hf : ∀ a b, R a b → S (f a) (f' b)) : Option.Rel S (o.map f) (o'.map f') := by
  cases h with
  | some value => exact .some (hf _ _ value)
  | none => exact .none

/-- Options that are related, filtered by what they agree on. -/
theorem rel_filter {f : α → Bool} {f' : β → Bool} (h : Option.Rel R o o')
    (hf : ∀ a b, R a b → f a = f' b) : Option.Rel R (o.filter f) (o'.filter f') := by
  cases h with
  | none => exact .none
  | @some a b value =>
    rw [Option.filter_some, Option.filter_some, hf a b value]
    split
    · exact .some value
    · exact .none

/-- The first of two options that is there. -/
theorem rel_orElse (h : Option.Rel R o o') (h' : Option.Rel R p p') :
    Option.Rel R (o <|> p) (o' <|> p') := by
  cases h with
  | some value => exact .some value
  | none => exact h'

/-- Related options agree on what related elements agree on. -/
theorem any_eq_of_rel {f : α → Bool} {f' : β → Bool} (h : Option.Rel R o o')
    (hf : ∀ a b, R a b → f a = f' b) : o.any f = o'.any f' := by
  cases h with
  | some value => exact hf _ _ value
  | none => rfl

end

section

variable {f : α → Bool} {f' : β → Bool} (hf : ∀ a b, R a b → f a = f' b)
include hf

/-- The first elements with a property are at one position. -/
theorem rel_find {as : List α} {bs : List β} (h : List.Forall₂ R as bs) :
    Option.Rel R (as.find? f) (bs.find? f') := by
  induction h with
  | nil => exact .none
  | @cons a b _ _ hab _ ih =>
    rw [List.find?_cons, List.find?_cons, hf a b hab]
    cases f' b with
    | true => exact .some hab
    | false => exact ih

/-- Filters keep the same positions. -/
theorem forall₂_filter {as : List α} {bs : List β} (h : List.Forall₂ R as bs) :
    List.Forall₂ R (as.filter f) (bs.filter f') := by
  induction h with
  | nil => exact .nil
  | @cons a b _ _ hab _ ih =>
    rw [List.filter_cons, List.filter_cons, hf a b hab]
    split
    · exact .cons hab ih
    · exact ih

/-- The first elements with a property are taken out at one position. -/
theorem forall₂_eraseP {as : List α} {bs : List β} (h : List.Forall₂ R as bs) :
    List.Forall₂ R (as.eraseP f) (bs.eraseP f') := by
  induction h with
  | nil => exact .nil
  | @cons a b _ _ hab hrest ih =>
    rw [List.eraseP_cons, List.eraseP_cons, hf a b hab]
    cases f' b with
    | true => exact hrest
    | false => exact .cons hab ih

end

theorem forall₂_zip {as : List α} {bs : List β} {cs : List γ} {ds : List δ}
    (h : List.Forall₂ R as bs) (h' : List.Forall₂ S cs ds) :
    List.Forall₂ (fun x y => R x.1 y.1 ∧ S x.2 y.2) (as.zip cs) (bs.zip ds) := by
  induction h generalizing cs ds with
  | nil => exact .nil
  | cons hab _ ih =>
    cases h' with
    | nil => exact .nil
    | cons hcd hrest => exact .cons ⟨hab, hcd⟩ (ih hrest)

/-! ## Plans -/

namespace Likeness

variable {i i' j j' : PlanId}

/-- Handles are equal in one run just if they are in the other. -/
theorem decide_eq (hi : L.handles i i') (hj : L.handles j j') :
    decide (i = j) = decide (i' = j') :=
  decide_eq_decide.mpr (L.oneToOne hi hj)

theorem beq_eq (hi : L.handles i i') (hj : L.handles j j') : (i == j) = (i' == j') := by
  show decide (i = j) = decide (i' = j')
  exact L.decide_eq hi hj

/-- Among handles, those that stand for members are members. -/
theorem mem_iff {is is' : List PlanId} (h : List.Forall₂ L.handles is is')
    (hi : L.handles i i') : i ∈ is ↔ i' ∈ is' := by
  induction h with
  | nil => simp only [List.not_mem_nil]
  | cons hfirst _ ih => rw [List.mem_cons, List.mem_cons, L.oneToOne hi hfirst, ih]

/-- The distinct handles of two lists stand for one another. -/
theorem distinct_like {is is' : List PlanId} (h : List.Forall₂ L.handles is is') :
    List.Forall₂ L.handles (distinct is) (distinct is') := by
  induction h with
  | nil => exact .nil
  | cons hfirst _ ih =>
    refine .cons hfirst (forall₂_filter (fun j j' hj => ?_) ih)
    rw [decide_not, decide_not, L.decide_eq hj hfirst]

end Likeness

/-- Links that are alike are so when handles that are alike are renamed in them. -/
theorem JoinLink.Like.retarget {ids ids' : List PlanId} {id id' : PlanId} {a b : JoinLink}
    (h : a.Like L b) (hids : List.Forall₂ L.handles ids ids') (hid : L.handles id id') :
    (a.retarget ids id).Like L (b.retarget ids' id') := by
  unfold JoinLink.retarget
  by_cases hmem : a.target ∈ ids
  · rw [if_pos hmem, if_pos ((L.mem_iff hids h.target).mp hmem)]
    exact ⟨hid, h.joinType, h.on, h.admitted⟩
  · rw [if_neg hmem, if_neg fun hmem' => hmem ((L.mem_iff hids h.target).mpr hmem')]
    exact h

namespace TablePlan.Like

variable {p q p' q' : TablePlan} {i i' : PlanId}

theorem leftTarget (h : p.Like L q) : Option.Rel L.handles p.leftTarget? q.leftTarget? :=
  rel_map h.left fun _ _ hlink => hlink.target

theorem rightTarget (h : p.Like L q) : Option.Rel L.handles p.rightTarget? q.rightTarget? :=
  rel_map h.right fun _ _ hlink => hlink.target

theorem exposes (h : p.Like L q) (c : ColumnName) : p.exposes c = q.exposes c := by
  unfold TablePlan.exposes
  rw [h.columns]

/-- Plans that are alike are linked to the same plans. -/
theorem isLinkedTo (h : p.Like L q) (hi : L.handles i i') : p.isLinkedTo i = q.isLinkedTo i' := by
  have hsame : ∀ {o o' : Option PlanId}, Option.Rel L.handles o o' →
      (o == some i) = (o' == some i') := by
    intro o o' ho
    cases ho with
    | some hj => exact L.beq_eq hj hi
    | none => rfl
  unfold TablePlan.isLinkedTo
  rw [hsame h.leftTarget, hsame h.rightTarget]

/-- Plans that are alike are padded by the same plans. -/
theorem nullPaddedBy (h : p.Like L q) : Option.Rel L.handles p.nullPaddedBy? q.nullPaddedBy? := by
  have hleft : Option.Rel (JoinLink.Like L)
      (p.left.filter fun link => link.joinType = .left ∨ link.joinType = .full)
      (q.left.filter fun link => link.joinType = .left ∨ link.joinType = .full) :=
    rel_filter h.left fun a b hlink => by rw [hlink.joinType]
  have hright : Option.Rel (JoinLink.Like L)
      (p.right.filter fun link => link.joinType = .right ∨ link.joinType = .full)
      (q.right.filter fun link => link.joinType = .right ∨ link.joinType = .full) :=
    rel_filter h.right fun a b hlink => by rw [hlink.joinType]
  unfold TablePlan.nullPaddedBy?
  generalize p.left.filter _ = o at hleft
  generalize q.left.filter _ = o' at hleft
  cases hleft with
  | some hlink => exact .some hlink.target
  | none => exact rel_map hright fun _ _ hlink => hlink.target

/-- Trees that are alike may take the place of the old ones. -/
theorem update {f f' : PlanNode → PlanNode} (h : p.Like L q)
    (hf : (f p.executable).Like L (f' q.executable)) : (p.update f).Like L (q.update f') :=
  ⟨h.id, hf, h.columns, h.uniqueKeys, h.left, h.right, rfl⟩

theorem detached (h : p.Like L q) (hi : L.handles i i') :
    (p.detached i).Like L (q.detached i') :=
  ⟨hi, h.executable, h.columns, h.uniqueKeys, .none, .none, rfl⟩

theorem retarget {ids ids' : List PlanId} (h : p.Like L q)
    (hids : List.Forall₂ L.handles ids ids') (hi : L.handles i i') :
    (p.retarget ids i).Like L (q.retarget ids' i') :=
  ⟨h.id, h.executable, h.columns, h.uniqueKeys,
    rel_map h.left fun _ _ hlink => hlink.retarget hids hi,
    rel_map h.right fun _ _ hlink => hlink.retarget hids hi, h.touched⟩

/-- Two merges of plans are alike. -/
theorem merged {build build' : PlanNode → PlanNode → PlanNode} (h : p.Like L q) (h' : p'.Like L q')
    (hi : L.handles i i')
    (hbuild : (build p.executable p'.executable).Like L (build' q.executable q'.executable)) :
    (mergedPlan i p p' build).Like L (mergedPlan i' q q' build') := by
  have hpair : List.Forall₂ L.handles [p.id, p'.id] [q.id, q'.id] := .cons h.id (.cons h'.id .nil)
  have houtside : ∀ {o o' u u' : Option JoinLink}, Option.Rel (JoinLink.Like L) o o' →
      Option.Rel (JoinLink.Like L) u u' →
      Option.Rel (JoinLink.Like L) (outsideLink [p.id, p'.id] o u)
        (outsideLink [q.id, q'.id] o' u') := by
    intro o o' u u' ho hu
    unfold outsideLink
    refine rel_orElse (rel_filter ho fun a b hlink => ?_) (rel_filter hu fun a b hlink => ?_)
    · exact decide_eq_decide.mpr (not_congr (L.mem_iff hpair hlink.target))
    · exact decide_eq_decide.mpr (not_congr (L.mem_iff hpair hlink.target))
  refine ⟨hi, hbuild, ?_, ?_, houtside h.left h'.left, houtside h.right h'.right, rfl⟩
  · show q.columns ++ q'.columns = p.columns ++ p'.columns
    rw [h.columns, h'.columns]
  · show q.uniqueKeys ++ q'.uniqueKeys = p.uniqueKeys ++ p'.uniqueKeys
    rw [h.uniqueKeys, h'.uniqueKeys]

end TablePlan.Like

/-! ## Sets -/

namespace TableSet.Like

variable {s t : TableSet} {i i' : PlanId}

theorem ids (h : s.Like L t) : List.Forall₂ L.handles s.ids t.ids := by
  unfold TableSet.ids
  rw [List.forall₂_map_left_iff, List.forall₂_map_right_iff]
  exact h.tables.imp fun _ _ hpq => hpq.id

/-- The plans under one handle are alike. -/
theorem get? (h : s.Like L t) (hi : L.handles i i') :
    Option.Rel (TablePlan.Like L) (s.get? i) (t.get? i') :=
  rel_find (fun _ _ hpq => L.decide_eq hpq.id hi) h.tables

theorem contains (h : s.Like L t) (hi : L.handles i i') : s.contains i = t.contains i' := by
  have hget := h.get? hi
  unfold TableSet.contains
  generalize s.get? i = o at hget
  generalize t.get? i' = o' at hget
  cases hget with
  | some => rfl
  | none => rfl

/-- Such a plan is in both sets or in neither. -/
theorem require (h : s.Like L t) (hi : L.handles i i') :
    ExceptLike L (TablePlan.Like L) (s.require i) (t.require i') := by
  have hget := h.get? hi
  unfold TableSet.require
  generalize s.get? i = o at hget
  generalize t.get? i' = o' at hget
  cases hget with
  | some hpq => exact .ok hpq
  | none => exact .error (.danglingLink hi)

/-- The owners of a column are alike, and so are the failures to find one. -/
theorem owner (h : s.Like L t) (column : ColumnName) :
    ExceptLike L L.handles (s.owner column) (t.owner column) := by
  have hall : List.Forall₂ (TablePlan.Like L) (s.tables.filter fun plan => plan.exposes column)
      (t.tables.filter fun plan => plan.exposes column) :=
    forall₂_filter (fun _ _ hpq => hpq.exposes column) h.tables
  unfold TableSet.owner
  generalize s.tables.filter _ = ps at hall
  generalize t.tables.filter _ = qs at hall
  cases hall with
  | nil => exact .error (.plain fun _ => rfl)
  | cons hpq hrest =>
    cases hrest with
    | nil => exact .ok hpq.id
    | cons _ hrest =>
      simp only [List.length_cons, hrest.length_eq]
      exact .error (.plain fun _ => rfl)

/-- Whether a plan owns some columns is answered alike. -/
theorem allOwnedBy (h : s.Like L t) (hi : L.handles i i') (columns : List ColumnName) :
    ExceptLike L Eq (s.allOwnedBy i columns) (t.allOwnedBy i' columns) := by
  induction columns with
  | nil => exact .ok rfl
  | cons column rest ih =>
    refine (h.owner column).bind fun j j' hj => ?_
    by_cases hsame : j = i
    · rw [if_pos hsame, if_pos ((L.oneToOne hj hi).mp hsame)]
      exact ih
    · rw [if_neg hsame, if_neg fun hsame' => hsame ((L.oneToOne hj hi).mpr hsame')]
      exact .ok rfl

/-- The plans that own all of some columns are alike. -/
theorem commonOwner (h : s.Like L t) (columns : List ColumnName) :
    ExceptLike L (Option.Rel L.handles) (s.commonOwner columns) (t.commonOwner columns) := by
  cases columns with
  | nil => exact .ok .none
  | cons column rest =>
    refine (h.owner column).bind fun i i' hi => (h.allOwnedBy hi rest).bind ?_
    rintro all _ rfl
    cases all with
    | true => exact .ok (.some hi)
    | false => exact .ok .none

/-- The plans under one handle are changed alike. -/
theorem modify {f f' : TablePlan → TablePlan} (h : s.Like L t) (hi : L.handles i i')
    (hf : ∀ p q, p.Like L q → (f p).Like L (f' q)) : (s.modify i f).Like L (t.modify i' f') := by
  refine ⟨?_, h.hasJoins⟩
  unfold TableSet.modify
  rw [List.forall₂_map_left_iff, List.forall₂_map_right_iff]
  refine h.tables.imp fun p q hpq => ?_
  by_cases hid : p.id = i
  · rw [if_pos hid, if_pos ((L.oneToOne hpq.id hi).mp hid)]
    exact hf p q hpq
  · rw [if_neg hid, if_neg fun hid' => hid ((L.oneToOne hpq.id hi).mpr hid')]
    exact hpq

/-- The plans under one handle are taken out. -/
theorem erase (h : s.Like L t) (hi : L.handles i i') : (s.erase i).Like L (t.erase i') :=
  ⟨forall₂_eraseP (fun _ _ hpq => L.decide_eq hpq.id hi) h.tables, h.hasJoins⟩

end TableSet.Like

/-- The new names of one handle are alike. -/
theorem rel_lookup {names names' : List (PlanId × PlanId)}
    (h : List.Forall₂ (fun x y => L.handles x.1 y.1 ∧ L.handles x.2 y.2) names names')
    {i i' : PlanId} (hi : L.handles i i') :
    Option.Rel L.handles (names.lookup i) (names'.lookup i') := by
  induction h with
  | nil => exact .none
  | @cons x y _ _ hxy _ ih =>
    rw [List.lookup_cons, List.lookup_cons, L.beq_eq hi hxy.1]
    split
    · exact .some hxy.2
    · exact ih

/-- Links are renamed alike, and fail alike where a target has no new name. -/
theorem renameLink_like {names names' : List (PlanId × PlanId)} {o o' : Option JoinLink}
    (hnames : List.Forall₂ (fun x y => L.handles x.1 y.1 ∧ L.handles x.2 y.2) names names')
    (h : Option.Rel (JoinLink.Like L) o o') :
    ExceptLike L (Option.Rel (JoinLink.Like L)) (TableSet.renameLink names o)
      (TableSet.renameLink names' o') := by
  cases h with
  | none => exact .ok .none
  | @some link link' hlink =>
    have hlookup := rel_lookup hnames hlink.target
    unfold TableSet.renameLink
    simp only
    generalize names.lookup link.target = found at hlookup
    generalize names'.lookup link'.target = found' at hlookup
    cases hlookup with
    | some hi => exact .ok (.some ⟨hi, hlink.joinType, hlink.on, hlink.admitted⟩)
    | none => exact .error (.danglingLink hlink.target)

/-- Results for lists that are alike are alike. -/
theorem ExceptLike.mapM {f : α → Except PlanError γ} {f' : β → Except PlanError δ}
    (hf : ∀ a b, R a b → ExceptLike L S (f a) (f' b)) {as : List α} {bs : List β}
    (h : List.Forall₂ R as bs) : ExceptLike L (List.Forall₂ S) (as.mapM f) (bs.mapM f') := by
  induction h with
  | nil => exact .ok .nil
  | cons hab _ ih =>
    rw [List.mapM_cons, List.mapM_cons]
    exact (hf _ _ hab).bind fun _ _ hfirst => ih.bind fun _ _ hrest => .ok (.cons hfirst hrest)

/-- Copies under handles that stand for one another are alike. -/
theorem TableSet.Like.copyAs {s t : TableSet} (h : s.Like L t) {ids ids' : List PlanId}
    (hids : List.Forall₂ L.handles ids ids') :
    ExceptLike L (TableSet.Like L) (s.copyAs ids) (t.copyAs ids') := by
  refine (ExceptLike.mapM ?_ (forall₂_zip h.tables hids)).bind fun _ _ htables => .ok ⟨htables, rfl⟩
  rintro ⟨p, i⟩ ⟨q, i'⟩ ⟨hpq, hi⟩
  have hnames := forall₂_zip h.ids hids
  refine (renameLink_like hnames hpq.left).bind fun _ _ hleft => ?_
  refine (renameLink_like hnames hpq.right).bind fun _ _ hright => ?_
  exact .ok ⟨hi, hpq.executable, hpq.columns, hpq.uniqueKeys, hleft, hright, rfl⟩

end QueryPlan
