import QueryPlan.Planning
import QueryPlan.Proofs.Kinds
import QueryPlan.Proofs.SoundJoins

/-!
# Filters over sound sets

Over a sound set a filter is planned by steps, or planning fails for want of a
single owner of a column, or for a full join. The sides of an OR never fall
apart: each has the columns of the set, in some order.

- `Expr.isPlain`: a filter without nested queries and without an OR to plan.
- `Plannable`: a computation that takes steps from every sound set.
- `meets_applyWith`: so does a predicate.
- `meets_planOrWith`: so does an OR, if both sides do.
- `meets_planExpressionWith`, `meets_planWholeWith`: so does a filter.
- `conditionLaw_planCondition`: conditions are planned as is required of them.
-/

namespace QueryPlan

/-- Whether the outermost operator is OR. -/
def Expr.isOr : Expr → Bool
  | .binary _ .or _ => Bool.true
  | _ => Bool.false

/-- Whether the expression has no nested query, and no OR among the parts that AND joins. -/
def Expr.isPlain (e : Expr) : Bool := !e.hasSubQuery && e.conjuncts.all fun part => !part.isOr

theorem Expr.isPlain_and {left right : Expr} :
    (Expr.binary left .and right).isPlain = (left.isPlain && right.isPlain) := by
  unfold isPlain
  simp only [hasSubQuery, conjuncts, List.all_append, Bool.not_or]
  ac_rfl

/-- An OR is not plain. -/
theorem Expr.not_isPlain_or {left right : Expr} :
    (Expr.binary left .or right).isPlain = Bool.false := by
  simp [isPlain, conjuncts, isOr]

/-- A plain filter has no nested queries. -/
theorem Expr.hasSubQuery_of_isPlain {e : Expr} (h : e.isPlain = Bool.true) :
    e.hasSubQuery = Bool.false := by
  unfold isPlain at h
  rw [Bool.and_eq_true, Bool.not_eq_true'] at h
  exact h.1

variable {plain : Prop} {P : Option Expr → Prop} {condition : ConditionPlanner}
  {w w' : Workspace}

/-- A computation that takes steps from every sound set, or fails with an expected error. -/
def Plannable (plain : Prop) (P : Option Expr → Prop) (act : Planner Unit) : Prop :=
  ∀ w, Sound P w → Planner.Meets act w fun _ w' => Steps plain w w'

theorem Plannable.pure : Plannable plain P (Pure.pure ()) := fun w _ => .refl w

/-! ## Selects -/

/-- To put nodes on the trees of all plans is a step. -/
theorem Steps.cover_map {f : TablePlan → TablePlan} (hf : ∀ p : TablePlan, p.Covers plain (f p)) :
    Steps plain w ⟨⟨w.set.tables.map f, w.set.hasJoins⟩, w.context⟩ := by
  refine .cover ?_
  rw [List.forall₂_map_right_iff, List.forall₂_same]
  exact fun p _ => hf p

/-- A node that filters the rows of a tree covers a plan. -/
theorem TablePlan.Covers.update {select : PlanNode → PlanNode}
    (hcovered : ∀ t, (select t).covered? = some t)
    (hone : plain → ∀ t, (select t).children = [t]) (p : TablePlan) :
    p.Covers plain (p.update select) :=
  ⟨rfl, rfl, rfl, rfl, Or.inr ⟨hcovered _, fun h => hone h _⟩⟩

/-- Nodes are put on the trees of some plans. -/
theorem TablePlan.Covers.update_if {select : PlanNode → PlanNode}
    (hcovered : ∀ t, (select t).covered? = some t)
    (hone : plain → ∀ t, (select t).children = [t]) (chosen : Prop) [Decidable chosen]
    (p : TablePlan) : p.Covers plain (if chosen then p.update select else p) := by
  by_cases h : chosen
  · rw [if_pos h]
    exact .update hcovered hone p
  · rw [if_neg h]
    exact .refl plain p

namespace Planner

/-- To select rows of a plan of the set is a step. -/
theorem meets_selectOn {select : PlanNode → PlanNode} {id : PlanId} (hw : Sound P w)
    (hid : id ∈ w.set.ids) (hcovered : ∀ t, (select t).covered? = some t)
    (hone : plain → ∀ t, (select t).children = [t]) :
    Meets (selectOn id select) w fun _ w' => Steps plain w w' := by
  obtain ⟨p, hp, rfl⟩ := TableSet.exists_of_mem_ids hid
  exact (meets_changePlan (hw.get? hp)).mpr (Steps.cover_map fun q =>
    .update_if hcovered hone (q.id = p.id) q)

/-- To select the rows of which an expression is true is a step. -/
theorem meets_selectRows {id : PlanId} (hw : Sound P w) (hid : id ∈ w.set.ids) (expr : Expr) :
    Meets (selectRows id expr) w fun _ w' => Steps plain w w' :=
  meets_selectOn hw hid (fun _ => rfl) fun _ _ => rfl

/-! ## Predicates -/

/-- A column's owner is resolved, and a select is put on it. -/
theorem meets_selectOwner (hlaw : ConditionLaw plain P condition) {select : PlanNode → PlanNode}
    (hw : Sound P w) (column : ColumnName) (hcovered : ∀ t, (select t).covered? = some t)
    (hone : plain → ∀ t, (select t).children = [t]) :
    Meets (do selectOn (← ownerWith condition column) select) w fun _ w' => Steps plain w w' := by
  refine (meets_ownerWith hlaw hw column).bind fun id w₁ ⟨hsteps, hid⟩ => ?_
  exact (meets_selectOn (hsteps.sound hw) hid hcovered hone).imp fun _ _ h => hsteps.trans h

/-- The owners of columns are joined, and a predicate is evaluated row by row on the result. -/
theorem meets_selectReaders (hlaw : ConditionLaw plain P condition) (hw : Sound P w)
    (columns : List ColumnName) (expr : Expr) :
    Meets (do selectRows (← joinReadersWith condition columns) expr) w
      fun _ w' => Steps plain w w' := by
  refine (meets_joinReadersWith hlaw hw columns).bind fun id w₁ ⟨hsteps, hid⟩ => ?_
  exact (meets_selectRows (hsteps.sound hw) hid expr).imp fun _ _ h => hsteps.trans h

/-- To join two plans and then select rows takes steps. -/
theorem meets_joinThenSelectWith (hlaw : ConditionLaw plain P condition) {lhs rhs : PlanId}
    (hw : Sound P w) (hl : lhs ∈ w.set.ids) (hr : rhs ∈ w.set.ids) (hne : lhs ≠ rhs) (expr : Expr) :
    Meets (joinThenSelectWith condition lhs rhs expr) w fun _ w' => Steps plain w w' := by
  unfold joinThenSelectWith
  have hnodup : [lhs, rhs].Nodup := by simp [hne]
  have hmem : ∀ i ∈ [lhs, rhs], i ∈ w.set.ids := by
    simp only [List.forall_mem_cons]
    exact ⟨hl, hr, List.forall_mem_nil _⟩
  refine (meets_joinSomeWith hlaw hw (List.cons_ne_nil _ _) hnodup hmem).bind fun id w₁ hg => ?_
  exact (meets_selectRows (hg.steps.sound hw) hg.mem expr).imp fun _ _ h => hg.steps.trans h

/-- Plans that need not be joined by their links have none with each other, and do not clash. -/
theorem meets_mustJoinByLinks {l r : TablePlan} (hw : Sound P w) (hl : l ∈ w.set.tables)
    (hr : r ∈ w.set.tables) :
    Meets (mustJoinByLinks l.id r.id) w fun must w' => w' = w ∧ (must = false →
      l.isLinkedTo r.id = false ∧ r.isLinkedTo l.id = false ∧ clash l r = .safe) := by
  unfold mustJoinByLinks
  simp only [meets_bind, meets_require (hw.get? hl), meets_require (hw.get? hr), meets_pure,
    Bool.or_eq_false_iff, bne_eq_false_iff_eq]
  exact ⟨trivial, fun h => ⟨h.1.1, h.1.2, h.2⟩⟩

/-- A comparison is put on two plans by steps. -/
theorem meets_compareWith (hlaw : ConditionLaw plain P condition) (hw : Sound P w)
    {lhs rhs : PlanId} (hlhs : lhs ∈ w.set.ids) (hrhs : rhs ∈ w.set.ids) (left : Expr)
    (op : BinaryOp) (right : Expr) :
    Meets (compareWith condition left op right lhs rhs) w fun _ w' => Steps plain w w' := by
  unfold compareWith
  -- Two different plans are joined by the comparison only if nothing links them; otherwise they are
  -- joined first, and the comparison selects rows.
  by_cases hsame : lhs = rhs
  · rw [if_pos hsame]
    exact meets_selectRows hw hlhs _
  · rw [if_neg hsame]
    obtain ⟨l, hl, rfl⟩ := TableSet.exists_of_mem_ids hlhs
    obtain ⟨r, hr, rfl⟩ := TableSet.exists_of_mem_ids hrhs
    refine (meets_mustJoinByLinks hw hl hr).bind ?_
    rintro must w ⟨rfl, hunlinked⟩
    cases must with
    | true => exact meets_joinThenSelectWith hlaw hw hlhs hrhs hsame _
    | false =>
      obtain ⟨hlr, hrl, hsafe⟩ := hunlinked rfl
      simp only [Bool.false_eq_true, if_false]
      cases left.asReference? with
      | some column =>
        exact (meets_merge_unlinked hw hl hr hsame hsafe hlr hrl fun _ _ => rfl).bind
          fun _ _ h => h.steps
      | none =>
        cases right.asReference? with
        | some column =>
          exact (meets_merge_unlinked hw hr hl (Ne.symm hsame) (clash_safe_comm hsafe) hrl hlr
            fun _ _ => rfl).bind fun _ _ h => h.steps
        | none => exact meets_joinThenSelectWith hlaw hw hlhs hrhs hsame _

/-- A comparison is applied by joining its sides. -/
theorem meets_applyStandardJoinWith (hlaw : ConditionLaw plain P condition) (hw : Sound P w)
    (left : Expr) (op : BinaryOp) (right : Expr) :
    Meets (applyStandardJoinWith condition (.binary left op right)) w
      fun _ w' => Steps plain w w' := by
  rcases Expr.constant_or_reads left right with hconstant | ⟨first, -, hleft, hright⟩
  · rw [applyStandardJoinWith_of_constant hconstant]
    exact meets_selectReaders hlaw hw _ _
  · rw [applyStandardJoinWith_of_reads hleft hright]
    refine (meets_joinReadersWith hlaw hw _).bind fun _ w₁ ⟨hsteps₁, _⟩ => ?_
    have hw₁ := hsteps₁.sound hw
    refine (meets_joinReadersWith hlaw hw₁ _).bind fun rhs w₂ ⟨hsteps₂, hrhs⟩ => ?_
    have hw₂ := hsteps₂.sound hw₁
    refine (meets_owner first).bind ?_
    rintro lhs w₂ ⟨rfl, hlhs⟩
    exact (meets_compareWith hlaw hw₂ hlhs hrhs left op right).imp
      fun _ _ hsteps => (hsteps₁.trans hsteps₂).trans hsteps

end Planner

/-- Whether a predicate can be applied: a join predicate is a comparison, and in `plain` steps no
predicate compares with a nested query. -/
def Predicate.Applicable (plain : Prop) : Predicate → Prop
  | .standardJoin (.binary ..) _ => True
  | .standardJoin _ _ => False
  | .simpleSubQuery .. => ¬ plain
  | _ => True

namespace Planner

/-- A predicate is applied by steps. -/
theorem meets_applyWith (hlaw : ConditionLaw plain P condition) {planOr : Planner Unit}
    (hor : Plannable plain P planOr) (hw : Sound P w) {predicate : Predicate}
    (happlicable : predicate.Applicable plain) :
    Meets (applyWith condition planOr predicate) w fun _ w' => Steps plain w w' := by
  unfold applyWith
  cases predicate with
  | constant expr => exact Steps.cover_map (TablePlan.Covers.update (fun _ => rfl) fun _ _ => rfl)
  | simpleSingle column op value =>
    exact meets_selectOwner hlaw hw column (fun _ => rfl) fun _ _ => rfl
  | complexSingle column expr =>
    exact meets_selectOwner hlaw hw column (fun _ => rfl) fun _ _ => rfl
  | simplePattern column op pattern escape =>
    exact meets_selectOwner hlaw hw column (fun _ => rfl) fun _ _ => rfl
  | complexPattern expr references => exact meets_selectReaders hlaw hw references expr
  | exhaustiveJoin expr references => exact meets_selectReaders hlaw hw references expr
  | exhaustiveSubQuery expr references => exact meets_selectReaders hlaw hw references expr
  | simpleSubQuery column op quantifier query =>
    exact meets_selectOwner hlaw hw column (fun _ => rfl) fun h => absurd h happlicable
  | standardJoin expr mixed =>
    cases expr with
    | binary left op right => exact meets_applyStandardJoinWith hlaw hw left op right
    | _ => exact happlicable.elim
  | subLogic expr joinable => exact hor w hw

end Planner

/-! ## Classified conjuncts -/

namespace TableSet

variable {set : TableSet} {e : Expr}

/-- A pattern is classified, or a column has no single owner. -/
theorem classifyPattern_answerable (set : TableSet) (e : Expr) :
    Answerable (set.classifyPattern e) := by
  unfold classifyPattern
  simp only
  split
  · exact .ok _
  · split
    · exact .ok _
    · refine (set.commonOwner_answerable _).bind fun owner _ => ?_
      cases owner <;> exact .ok _

/-- An OR is classified, or a column has no single owner. -/
theorem classifySubLogic_answerable (set : TableSet) (e : Expr) :
    Answerable (set.classifySubLogic e) := by
  unfold classifySubLogic
  split
  · exact (set.readOnePlan_answerable _ _).bind fun _ _ => .ok _
  · exact .ok _

/-- A conjunct is classified, or a column has no single owner. -/
theorem classifyOne_answerable (set : TableSet) (e : Expr) : Answerable (set.classifyOne e) := by
  unfold classifyOne
  split
  · exact .ok _
  · split
    · exact .ok _
    · split
      · exact (set.classifySubLogic_answerable e).map _
      · split
        · exact .ok _
        · split
          · exact (set.classifyPattern_answerable e).map _
          · exact .ok _

/-- What a conjunct is classified as can be applied. -/
theorem applicable_of_classifyOne {placed : Bucket × Predicate}
    (hsub : plain → e.hasSubQuery = false) (h : set.classifyOne e = .ok (some placed)) :
    placed.2.Applicable plain := by
  obtain ⟨bucket, predicate⟩ := placed
  rcases kind_of_classifyOne h with ⟨-, joinable, rfl⟩ | ⟨-, hkind⟩
  · trivial
  · cases hkind with
    | standardJoin shape =>
      subst shape
      trivial
    | simpleSubQuery shape =>
      subst shape
      exact fun hplain => Bool.noConfusion (hsub hplain)
    | _ => trivial

variable {α : Type} {agenda : List (Expr × α)}

/-- A list of conjuncts is classified, or a column has no single owner. -/
theorem classifyListed_answerable (set : TableSet) (agenda : List (Expr × α)) :
    Answerable (set.classifyListed agenda) := by
  induction agenda with
  | nil => exact .ok _
  | cons x rest ih =>
    unfold classifyListed
    refine (set.classifyOne_answerable x.1).bind fun first _ => ih.bind fun others _ => ?_
    cases first <;> exact .ok _

/-- The conjuncts of a filter are classified and sorted, or a column has no single owner. -/
theorem classifyAll_answerable (set : TableSet) (agenda : List (Expr × α)) :
    Answerable (set.classifyAll agenda) := by
  unfold classifyAll
  exact (set.classifyListed_answerable agenda).bind fun _ _ => .ok _

end TableSet

/-! ## Copies for the sides of an OR -/

/-- What succeeds in both parts succeeds. -/
theorem exists_bind_ok {ε α β : Type} {x : Except ε α} {f : α → Except ε β} (hx : ∃ a, x = .ok a)
    (hf : ∀ a, ∃ b, f a = .ok b) : ∃ b, (x >>= f) = .ok b := by
  obtain ⟨a, ha⟩ := hx
  obtain ⟨b, hb⟩ := hf a
  exact ⟨b, except_bind_ok.mpr ⟨a, ha, hb⟩⟩

/-- A list is mapped if each of its members is. -/
theorem exists_mapM {ε α β : Type} {f : α → Except ε β} {as : List α}
    (h : ∀ a ∈ as, ∃ b, f a = .ok b) : ∃ bs, as.mapM f = .ok bs := by
  induction as with
  | nil => exact ⟨[], rfl⟩
  | cons a rest ih =>
    rw [List.forall_mem_cons] at h
    obtain ⟨⟨b, hb⟩, hrest⟩ := h
    obtain ⟨bs, hbs⟩ := ih hrest
    exact ⟨b :: bs, by rw [List.mapM_cons, hb, hbs]; rfl⟩

/-- A member of a list is found in what it is paired with. -/
theorem exists_lookup_zip {α β : Type} [DecidableEq α] {as : List α} {bs : List β}
    (hlen : as.length = bs.length) {a : α} (ha : a ∈ as) : ∃ b, (as.zip bs).lookup a = some b := by
  induction as generalizing bs with
  | nil => cases ha
  | cons x rest ih =>
    cases bs with
    | nil => cases hlen
    | cons y bs =>
      rw [List.zip_cons_cons, List.lookup_cons]
      by_cases hax : a = x
      · exact ⟨y, by rw [beq_iff_eq.mpr hax]⟩
      · rw [beq_false_of_ne hax]
        exact ih (Nat.succ.inj hlen) ((List.mem_cons.mp ha).resolve_left hax)

/-- Links that are answered are aimed at plans of the set. -/
theorem Answered.target_mem_ids {set : TableSet} (h : Answered set.tables) :
    ∀ p ∈ set.tables, ∀ side link, p.linkOn side = some link → link.target ∈ set.ids := by
  intro p hp side link hlink
  obtain ⟨q, hq, hid, -⟩ := h.back side p hp link hlink
  exact hid ▸ TableSet.mem_ids hq

/-- A set whose links are aimed at its own plans can be copied. -/
theorem exists_copyAs {set : TableSet} {ids : List PlanId}
    (htargets : ∀ p ∈ set.tables, ∀ side link, p.linkOn side = some link → link.target ∈ set.ids)
    (hlen : set.tables.length = ids.length) : ∃ copy, set.copyAs ids = .ok copy := by
  have hlink : ∀ p ∈ set.tables, ∀ side,
      ∃ o, TableSet.renameLink (set.ids.zip ids) (p.linkOn side) = .ok o := by
    intro p hp side
    cases hlink : p.linkOn side with
    | none => exact ⟨none, rfl⟩
    | some link =>
      have hkeys : set.ids.length = ids.length := by
        rw [TableSet.ids, List.length_map, hlen]
      obtain ⟨target, htarget⟩ := exists_lookup_zip hkeys (htargets p hp side link hlink)
      refine ⟨some { link with target }, ?_⟩
      unfold TableSet.renameLink
      simp only [htarget]
  unfold TableSet.copyAs
  refine exists_bind_ok (exists_mapM ?_) fun tables => ⟨_, rfl⟩
  rintro ⟨p, id⟩ hmem
  have hp := (List.of_mem_zip hmem).1
  obtain ⟨left, hleft⟩ := hlink p hp .left
  obtain ⟨right, hright⟩ := hlink p hp .right
  rw [TablePlan.linkOn_left] at hleft
  rw [TablePlan.linkOn_right] at hright
  exact exists_bind_ok ⟨left, hleft⟩ fun _ => exists_bind_ok ⟨right, hright⟩ fun _ => ⟨_, rfl⟩

namespace Planner

/-- A set is copied under fresh handles. -/
theorem meets_copy (hw : Sound P w) :
    Meets copy w fun set w' => w'.set = w.set ∧ w.context.Extends w'.context ∧
      w.set.Copied set w'.context := by
  unfold copy
  simp only [meets_bind, meets_current, meets_freshIds]
  obtain ⟨set, hset⟩ : ∃ set, w.set.copyAs ((List.range w.set.tables.length).map
      fun i => (⟨w.context.supply.next + i⟩ : PlanId)) = .ok set :=
    exists_copyAs hw.answered.target_mem_ids (by simp)
  refine (meets_ask (f := fun set' => set'.copyAs _) fun e he => ?_).imp ?_
  · rw [hset] at he
    cases he
  rintro copy w' ⟨rfl, hcopy⟩
  obtain ⟨g, hinj, hjoins, hall, hgiven⟩ := copyAs_fresh hw.answered.nodup hcopy
  exact ⟨rfl, Context.extends_supply _ _, ⟨g, hinj, hall⟩, hjoins, hgiven⟩

end Planner

/-- A set that steps lead to from a copy of the set of `w`, in a context after that. -/
def SideOf (plain : Prop) (w : Workspace) (side : TableSet) (c : Context) : Prop :=
  ∃ copy c₀, w.context.Extends c₀ ∧ w.set.Copied copy c₀ ∧ Steps plain ⟨copy, c₀⟩ ⟨side, c⟩

namespace SideOf

variable {side : TableSet} {c c' : Context}

/-- A side of an OR is sound. -/
theorem sound (h : SideOf plain w side c) (hw : Sound P w) : Sound P ⟨side, c⟩ := by
  obtain ⟨copy, c₀, -, hcopy, hsteps⟩ := h
  exact hsteps.sound (hw.copied hcopy)

/-- Steps of a side lead to a side. -/
theorem step (h : SideOf plain w side c) (hsteps : Steps plain ⟨side, c⟩ w') :
    SideOf plain w w'.set w'.context := by
  obtain ⟨copy, c₀, hext, hcopy, hbefore⟩ := h
  exact ⟨copy, c₀, hext, hcopy, hbefore.trans hsteps⟩

/-- A side stays one while more names are used up. -/
theorem extend (h : SideOf plain w side c) (hor : ¬ plain) (hc : c.Extends c') :
    SideOf plain w side c' :=
  h.step (.spend hc fun hplain => absurd hplain hor)

/-- A side has the columns of the set. -/
theorem columns_perm (h : SideOf plain w side c) (hw : Sound P w) :
    (side.tables.flatMap TablePlan.columns).Perm (w.set.tables.flatMap TablePlan.columns) := by
  obtain ⟨copy, c₀, -, hcopy, hsteps⟩ := h
  have hsame : copy.tables.flatMap TablePlan.columns = w.set.tables.flatMap TablePlan.columns :=
    flatMap_columns_of_forall₂ (hcopy.copies.imp fun _ _ h => h.alike.columns)
  exact hsame ▸ hsteps.columns_perm (hw.copied hcopy)

/-- A side without joined plans has as many as the set. -/
theorem length_eq (h : SideOf plain w side c) (hjoins : side.hasJoins = false) :
    side.tables.length = w.set.tables.length := by
  obtain ⟨copy, c₀, -, hcopy, hsteps⟩ := h
  rw [← (hsteps.positions hjoins).2.length_eq, ← hcopy.copies.length_eq]

end SideOf

/-! ## ORs -/

/-- Two sides that were joined to one plan each are united. -/
theorem unites_unitePair (l r : TablePlan) : l.Unites (unitePair l r) := by
  unfold unitePair
  split
  · exact ⟨rfl, rfl, rfl, rfl, Or.inr (Or.inr ⟨_, rfl⟩)⟩
  · exact ⟨rfl, rfl, rfl, rfl, Or.inl rfl⟩

/-- The plans at one position are united. -/
theorem unites_unitePosition (cached : Bool) (before l r : TablePlan) :
    l.Unites (unitePosition cached before l r) := by
  unfold unitePosition
  split
  · exact unites_unitePair l r
  · cases cached with
    | true => exact ⟨rfl, rfl, rfl, rfl, Or.inr (Or.inl rfl)⟩
    | false => exact ⟨rfl, rfl, rfl, rfl, Or.inl rfl⟩

/-- As many plans of both sides as before are united position by position. -/
theorem unites_unitePositions {before : List (Bool × TablePlan)} {ls rs : List TablePlan}
    (hl : ls.length = before.length) (hr : rs.length = before.length) :
    List.Forall₂ TablePlan.Unites ls (unitePositions before ls rs) := by
  induction before generalizing ls rs with
  | nil =>
    obtain rfl := List.eq_nil_of_length_eq_zero hl
    exact .nil
  | cons x rest ih =>
    obtain ⟨l, ls, rfl⟩ := List.exists_cons_of_length_eq_add_one hl
    obtain ⟨r, rs, rfl⟩ := List.exists_cons_of_length_eq_add_one hr
    exact .cons (unites_unitePosition _ _ _ _) (ih (Nat.succ.inj hl) (Nat.succ.inj hr))

/-- The caches for the sides of an OR are put on the trees. -/
theorem covers_cachePlans (last : Nat) (tables : List TablePlan) :
    List.Forall₂ (TablePlan.Covers plain) tables ((cachePlans last tables).1.map Prod.snd) := by
  rw [List.forall₂_map_right_iff]
  refine (sheltered_cachePlans last tables).imp ?_
  rintro p ⟨cached, q⟩ h
  unfold TablePlan.Sheltered at h
  cases cached with
  | true =>
    obtain ⟨k, rfl⟩ := h
    exact ⟨rfl, rfl, rfl, rfl, Or.inr ⟨rfl, fun _ => rfl⟩⟩
  | false =>
    obtain rfl := h
    exact .refl plain _

namespace Planner

/-- To put caches on the trees is a step. -/
theorem meets_cacheForSides (hor : ¬ plain) :
    Meets cacheForSides w fun cached w' => Steps plain w w' ∧
      cached.length = w'.set.tables.length := by
  by_cases hcache : w.context.cacheOrBranches = true
  · refine .of_ok ((cacheForSides_eq w).trans (if_pos hcache)) ⟨?_, by simp⟩
    refine .trans (.cover (covers_cachePlans w.context.cacheIds w.set.tables)) (.spend ?_ ?_)
    · exact ⟨le_rfl, ⟨_, le_rfl, rfl⟩, rfl⟩
    · exact fun hplain => absurd hplain hor
  · exact .of_ok ((cacheForSides_eq w).trans (if_neg hcache)) ⟨.refl w, by simp⟩

/-- The only plan gets its columns in another order. -/
theorem meets_reorderColumns {x : TablePlan} {order : List ColumnName}
    (hx : w.set.tables = [x]) (horder : x.columns.Perm order) :
    Meets (reorderColumns order) w
      fun _ w' => w' = { w with set := ⟨[x.reordered order], w.set.hasJoins⟩ } := by
  obtain ⟨⟨tables, hasJoins⟩, c⟩ := w
  obtain rfl : tables = [x] := hx
  unfold reorderColumns
  have hsingle : TableSet.single ⟨[x], hasJoins⟩ = .ok x := rfl
  refine (meets_ask fun e he => ?_).bind ?_
  · rw [hsingle] at he
    cases he
  rintro plan w ⟨rfl, hplan⟩
  rw [hsingle] at hplan
  obtain rfl := Except.ok.inj hplan
  have hmatch : (x.columns.length != order.length || !order.all x.columns.contains) = false := by
    rw [Bool.or_eq_false_iff, bne_eq_false_iff_eq, Bool.not_eq_false', List.all_eq_true]
    exact ⟨horder.length_eq, fun c hc => List.contains_iff_mem.mpr (horder.mem_iff.mpr hc)⟩
  have hget : (⟨[x], hasJoins⟩ : TableSet).get? x.id = some x := by simp [TableSet.get?]
  unfold TablePlan.reordered
  by_cases hsame : x.columns = order
  · rw [if_pos hsame, if_pos hsame]
    exact rfl
  · rw [if_neg hsame, if_neg hsame, hmatch]
    refine (meets_changePlan (by exact hget)).mpr ?_
    simp [TableSet.modify]

/-- Both sides of an OR are planned over copies. -/
theorem meets_planSides {planLeft planRight : Planner Unit} (hor : ¬ plain) (hw : Sound P w)
    (hl : Plannable plain P planLeft) (hr : Plannable plain P planRight) :
    Meets (planSides planLeft planRight) w fun sides w' => w'.set = w.set ∧
      SideOf plain w sides.1 w'.context ∧ SideOf plain w sides.2 w'.context := by
  unfold planSides
  refine (meets_copy hw).bind fun left w₁ ⟨hset₁, hext₁, hcopy₁⟩ => ?_
  have hw₁ : Sound P w₁ := by
    have := hw.extend hext₁
    rwa [← hset₁] at this
  refine (meets_copy hw₁).bind fun right w₂ ⟨hset₂, hext₂, hcopy₂⟩ => ?_
  have hleft : SideOf plain w left w₂.context :=
    SideOf.extend ⟨left, _, hext₁, hcopy₁, .refl _⟩ hor hext₂
  have hright : SideOf plain w right w₂.context :=
    ⟨right, _, hext₁.trans hext₂, hset₁ ▸ hcopy₂, .refl _⟩
  rw [meets_bind, meets_within]
  refine (hl _ (hleft.sound hw)).imp fun _ w₃ hsteps₃ => ?_
  have hright₃ := hright.extend hor hsteps₃.extends
  rw [meets_bind, meets_within]
  refine (hr _ (hright₃.sound hw)).imp fun _ w₄ hsteps₄ => ?_
  refine ⟨hset₂.trans hset₁, ?_, hright₃.step hsteps₄⟩
  exact (hleft.step hsteps₃).extend hor hsteps₄.extends

/-- A side becomes one plan, whose columns are then put in their order before. -/
theorem meets_joinSidesWith (hlaw : ConditionLaw plain P condition) (hor : ¬ plain)
    {left right : TableSet} {c : Context} {now : TableSet} (hw : Sound P w)
    (hl : SideOf plain w left c) (hr : SideOf plain w right c) :
    Meets (joinSidesWith condition (w.set.tables.flatMap TablePlan.columns) left right) ⟨now, c⟩
      fun sides w' => ∃ (side₁ side₂ : TableSet) (x y : TablePlan),
        SideOf plain w side₁ w'.context ∧ side₁.tables = [x] ∧
        sides.1 = ⟨[x.reordered (w.set.tables.flatMap TablePlan.columns)], side₁.hasJoins⟩ ∧
        side₂.tables = [y] ∧
        sides.2 = ⟨[y.reordered (w.set.tables.flatMap TablePlan.columns)], side₂.hasJoins⟩ := by
  -- The columns of a side that is one plan are those of the set.
  have hcolumns : ∀ {side : TableSet} {c : Context} {x : TablePlan}, SideOf plain w side c →
      side.tables = [x] → x.columns.Perm (w.set.tables.flatMap TablePlan.columns) := by
    intro side c x hside hx
    have := hside.columns_perm hw
    rwa [hx, List.flatMap_singleton] at this
  unfold joinSidesWith
  rw [meets_bind, meets_within]
  refine (meets_joinEverythingWith hlaw (hl.sound hw)).imp ?_
  rintro _ w₁ ⟨hsteps₁, x, hx, -⟩
  have hl₁ := hl.step hsteps₁
  have hr₁ := hr.extend hor hsteps₁.extends
  rw [meets_bind, meets_within]
  refine (meets_joinEverythingWith hlaw (hr₁.sound hw)).imp ?_
  rintro _ w₂ ⟨hsteps₂, y, hy, -⟩
  have hr₂ := hr₁.step hsteps₂
  rw [meets_bind, meets_within]
  refine (meets_reorderColumns (by exact hx) (hcolumns hl₁ hx)).imp ?_
  rintro _ w₃ rfl
  rw [meets_bind, meets_within]
  refine (meets_reorderColumns (by exact hy) (hcolumns hr₂ hy)).imp ?_
  rintro _ w₄ rfl
  exact ⟨w₁.set, w₂.set, x, y, hl₁.extend hor hsteps₂.extends, hx, rfl, hy, rfl⟩

/-- An OR is planned by steps if both of its sides are. -/
theorem meets_planOrWith (hlaw : ConditionLaw plain P condition) (hor : ¬ plain)
    {planLeft planRight : Planner Unit} (hl : Plannable plain P planLeft)
    (hr : Plannable plain P planRight) :
    Plannable plain P (planOrWith condition planLeft planRight) := by
  intro w hw
  unfold planOrWith
  refine (meets_cacheForSides hor).bind fun cached w₁ ⟨hcache, hlen⟩ => ?_
  have hw₁ := hcache.sound hw
  rw [meets_bind, meets_current]
  refine (meets_planSides hor hw₁ hl hr).bind ?_
  rintro ⟨left, right⟩ w₂ ⟨hset, hleft, hright⟩
  -- Both sides are planned over copies. Either they are joined into one plan each, or they have
  -- kept the positions of the set.
  by_cases hshape : mustReshape left right = true
  · simp only [if_pos hshape]
    refine (meets_joinSidesWith hlaw hor hw₁ hleft hright).bind ?_
    rintro ⟨left', right'⟩ w₃ ⟨side₁, side₂, x, y, ⟨copy, c₀, hext, hcopy, hsteps⟩, hx, rfl, -, rfl⟩
    refine hcache.trans (.uniteJoined hor hext hcopy hsteps hx (unites_unitePair _ _) ?_ (.refl _))
    simp only [Bool.or_eq_false_iff]
    exact fun h => h.1
  · simp only [if_neg hshape]
    obtain ⟨-, -, hleftJoins, hrightJoins⟩ :=
      mustReshape_eq_false_iff.mp (Bool.eq_false_iff.mpr hshape)
    have hzip : (cached.zip w₁.set.tables).length = w₁.set.tables.length := by
      rw [List.length_zip, hlen, Nat.min_self]
    have hunited : List.Forall₂ TablePlan.Unites left.tables
        (unitePositions (cached.zip w₁.set.tables) left.tables right.tables) :=
      unites_unitePositions ((hleft.length_eq hleftJoins).trans hzip.symm)
      ((hright.length_eq hrightJoins).trans hzip.symm)
    obtain ⟨copy, c₀, hext, hcopy, hsteps⟩ := hleft
    exact hcache.trans (.unite hor hext hcopy hsteps hleftJoins hunited (.refl _))

/-! ## Filters -/

/-- Predicates are applied one after another, by steps. -/
theorem meets_applyAllWith (hlaw : ConditionLaw plain P condition)
    {placed : List (Predicate × Planner Unit)}
    (hplaced : ∀ y ∈ placed, y.1.Applicable plain ∧ Plannable plain P y.2) :
    Plannable plain P (applyAllWith condition placed) := by
  induction placed with
  | nil => exact .pure
  | cons y rest ih =>
    intro w hw
    rw [List.forall_mem_cons] at hplaced
    obtain ⟨⟨happlicable, hact⟩, hrest⟩ := hplaced
    unfold applyAllWith
    refine (meets_applyWith hlaw hact hw happlicable).bind fun _ w₁ hsteps => ?_
    exact (ih hrest w₁ (hsteps.sound hw)).imp fun _ _ h => hsteps.trans h

/-- Conjuncts are classified and applied by steps. -/
theorem meets_planAgendaWith (hlaw : ConditionLaw plain P condition)
    {agenda : List (Expr × Planner Unit)}
    (hagenda : ∀ x ∈ agenda, (plain → x.1.hasSubQuery = false) ∧ Plannable plain P x.2) :
    Plannable plain P (planAgendaWith condition agenda) := by
  intro w hw
  unfold planAgendaWith
  refine (meets_ask (w.set.classifyAll_answerable agenda)).bind ?_
  rintro placed w ⟨rfl, hplaced⟩
  refine meets_applyAllWith hlaw (fun y hy => ?_) w hw
  obtain ⟨x, hx, bucket, hclass, hact⟩ := TableSet.mem_of_classifyAll hplaced hy
  obtain ⟨hsub, hplannable⟩ := hagenda x hx
  exact ⟨TableSet.applicable_of_classifyOne hsub hclass, hact ▸ hplannable⟩

/-- An agenda is planned by steps, be it a single OR or several conjuncts. -/
theorem meets_runAgendaWith (hlaw : ConditionLaw plain P condition)
    {agenda : List (Expr × Planner Unit)}
    (hagenda : ∀ x ∈ agenda, (plain → x.1.hasSubQuery = false) ∧ Plannable plain P x.2) :
    Plannable plain P (runAgendaWith condition agenda) := by
  unfold runAgendaWith
  split
  · rename_i planOr
    exact (hagenda _ (List.mem_singleton_self _)).2
  · exact meets_planAgendaWith hlaw hagenda

/-- The conjuncts of a filter are planned by steps. -/
theorem plannable_agendaWith (hlaw : ConditionLaw plain P condition) {filter : Expr}
    (hfilter : plain → filter.isPlain = true) :
    ∀ x ∈ agendaWith condition filter, (plain → x.1.hasSubQuery = false) ∧
      Plannable plain P x.2 := by
  fun_induction agendaWith condition filter with
  | case1 left right ihLeft ihRight =>
    rw [List.forall_mem_append]
    refine ⟨ihLeft fun h => ?_, ihRight fun h => ?_⟩
    · have := hfilter h
      rw [Expr.isPlain_and, Bool.and_eq_true] at this
      exact this.1
    · have := hfilter h
      rw [Expr.isPlain_and, Bool.and_eq_true] at this
      exact this.2
  | case2 left right ihLeft ihRight =>
    have hor : ¬ plain := by
      intro h
      have := hfilter h
      rw [Expr.not_isPlain_or] at this
      cases this
    rw [List.forall_mem_singleton]
    refine ⟨fun h => absurd h hor, meets_planOrWith hlaw hor ?_ ?_⟩
    · exact meets_runAgendaWith hlaw (ihLeft fun h => absurd h hor)
    · exact meets_runAgendaWith hlaw (ihRight fun h => absurd h hor)
  | case3 e =>
    rw [List.forall_mem_singleton]
    exact ⟨fun h => Expr.hasSubQuery_of_isPlain (hfilter h), .pure⟩

/-- A filter is planned by steps. -/
theorem meets_planExpressionWith (hlaw : ConditionLaw plain P condition) {filter : Expr}
    (hfilter : plain → filter.isPlain = true) :
    Plannable plain P (planExpressionWith condition filter) :=
  meets_runAgendaWith hlaw (plannable_agendaWith hlaw hfilter)

/-- A filter is planned, and what is left is joined into one plan. -/
theorem meets_planWholeWith (hlaw : ConditionLaw plain P condition) {filter : Option Expr}
    (hfilter : ∀ e, filter = some e → plain → e.isPlain = true) (hw : Sound P w) :
    Meets (planWholeWith condition filter) w
      fun plan w' => ∃ w₁, Steps plain w w₁ ∧ w₁.set.tables = [plan] ∧
        w'.context = w₁.context := by
  unfold planWholeWith
  have hne : w.set.tables.isEmpty = false := by
    rw [Bool.eq_false_iff, Ne, List.isEmpty_iff]
    exact hw.nonempty
  rw [meets_bind, meets_current]
  simp only [hne, Bool.false_eq_true, if_false]
  -- What is left after the filter is joined.
  have hrest : ∀ w₁, Steps plain w w₁ →
      Meets (do
        let id ← joinEverythingWith condition
        let plan ← ask fun set => set.require id
        change fun set => set.erase id
        return plan) w₁
        fun plan w' => ∃ w₁, Steps plain w w₁ ∧ w₁.set.tables = [plan] ∧
          w'.context = w₁.context := by
    intro w₁ hsteps
    refine (meets_joinEverythingWith hlaw (hsteps.sound hw)).bind ?_
    rintro id w₂ ⟨hsteps₂, x, hx, rfl⟩
    have hget := ((hsteps.trans hsteps₂).sound hw).get? (hx ▸ List.mem_singleton_self x)
    rw [meets_bind, meets_require hget]
    exact ⟨w₂, hsteps.trans hsteps₂, hx, rfl⟩
  cases filter with
  | none => exact hrest w (.refl w)
  | some filter =>
    exact (meets_planExpressionWith hlaw (hfilter filter rfl) w hw).bind fun _ w₁ h => hrest w₁ h

end Planner

/-- The planner of conditions does what is required of it: a pair has no links, so that no further
condition comes up. -/
theorem conditionLaw_planCondition (plain : Prop) :
    ConditionLaw plain (fun on => ∀ e, on = some e → plain → e.isPlain = true) planCondition := by
  intro on hon w hw
  unfold planCondition
  refine (Planner.meets_planWholeWith (conditionLaw_unlinked plain noCondition) hon hw).bind ?_
  rintro plan w' ⟨w₁, hsteps, hsingle, hcontext⟩
  exact ⟨w₁, plan, hsteps, hsingle, rfl, hcontext⟩

/-- Where all steps are allowed, any condition may be planned. -/
theorem conditionLaw_any : ConditionLaw False (fun _ => True) planCondition :=
  fun on _ => conditionLaw_planCondition False on nofun

end QueryPlan
