import QueryPlan.Proofs.Lookups
import QueryPlan.Proofs.Runs

/-!
# Light predicates

Over plans that no outer join pads, the predicates that come first leave the plans
apart: they only put selects on the plans that own their columns.

- `HasShape`: sets of plans with given columns, of which no outer join pads one.
- `HasOneOwner`: whether several columns have one owner in the sets of a shape.
- `keeps_applyWith_of_light`: light predicates keep such a set.
- `TableSet.pairwise_of_classifyAll`: they come before the heavy ones.
- `TableSet.countP_isHeavy_le`: a conjunct that is no OR and reads one column at
  most has no heavy predicate.
-/

namespace QueryPlan

variable {P : Option Expr → Prop} {condition : ConditionPlanner} {w w' : Workspace}
  {c : ColumnName} {shape : List (List ColumnName)} {set : TableSet}

/-! ## Sets of a shape -/

/-- The plans have the columns `shape`, in its order, and no pending outer join pads one of them. -/
def HasShape (shape : List (List ColumnName)) (set : TableSet) : Prop :=
  set.tables.map TablePlan.columns = shape ∧ ∀ p ∈ set.tables, p.nullPaddedBy? = none

/-- Whether just one of the plans of a shape exposes a column. -/
def Sole (shape : List (List ColumnName)) (c : ColumnName) : Prop :=
  (shape.countP fun columns => columns.any fun column => c.resolvesTo column) = 1

theorem sole_iff : Sole (set.tables.map TablePlan.columns) c ↔
    (set.tables.countP fun p => p.exposes c) = 1 := by
  unfold Sole
  rw [List.countP_map]
  rfl

theorem TablePlan.Covers.nullPaddedBy {plain : Prop} {p q : TablePlan} (h : p.Covers plain q) :
    q.nullPaddedBy? = p.nullPaddedBy? := by
  unfold nullPaddedBy?
  rw [h.left, h.right]

theorem lasting_hasShape (shape : List (List ColumnName)) : Lasting (HasShape shape) where
  covered h hcovers := by
    obtain ⟨hshape, hnone⟩ := h
    refine ⟨?_, fun q hq => ?_⟩
    · rw [← hshape]
      exact map_eq_of_forall₂ hcovers fun _ _ h => h.columns
    · obtain ⟨p, hp, hpq⟩ := exists_left_of_forall₂ hcovers hq
      rw [hpq.nullPaddedBy]
      exact hnone p hp
  copied h hcopied := by
    obtain ⟨hshape, hnone⟩ := h
    refine ⟨?_, fun q hq => ?_⟩
    · rw [← hshape]
      exact map_eq_of_forall₂ hcopied.copies fun _ _ h => h.alike.columns
    · obtain ⟨p, hp, hpq⟩ := exists_left_of_forall₂ hcopied.copies hq
      have hpad := padding_eq_none_iff.mpr (hnone p hp)
      exact padding_eq_none_iff.mp (hpq.alike.padding_eq_none hpad)

/-! ## Owners -/

/-- A column that has an owner is exposed by one plan. -/
theorem countP_exposes_of_owner {id : PlanId} (h : set.owner c = .ok id) :
    (set.tables.countP fun p => p.exposes c) = 1 := by
  obtain ⟨p, hsole, -⟩ := owner_ok_iff.mp h
  rw [List.countP_eq_length_filter, hsole, List.length_singleton]

/-- A plan that alone exposes a column is its owner. -/
theorem owner_eq_of_sole {p : TablePlan} (hp : p ∈ set.tables) (hexposes : p.exposes c = true)
    (hone : (set.tables.countP fun p => p.exposes c) = 1) : set.owner c = .ok p.id := by
  rw [List.countP_eq_length_filter, List.length_eq_one_iff] at hone
  obtain ⟨q, hq⟩ := hone
  have hpq : p ∈ set.tables.filter fun p => p.exposes c := List.mem_filter.mpr ⟨hp, hexposes⟩
  rw [hq, List.mem_singleton] at hpq
  exact owner_ok_iff.mpr ⟨q, hq, congrArg _ hpq.symm⟩

theorem lookup_sole (c : ColumnName) :
    Lookup (Over P (HasShape shape)) (Sole shape c) c := by
  rintro w id w' ⟨-, rfl, -⟩ h
  exact sole_iff.mpr (countP_exposes_of_owner (Planner.ask_ok.mp h).1)

/-- One of the plans of a shape exposes all of the columns, and no other one exposes any. -/
def HasOneOwner (shape : List (List ColumnName)) (columns : List ColumnName) : Prop :=
  columns ≠ [] ∧ ∃ exposed ∈ shape, ∀ c ∈ columns,
    (exposed.any fun column => c.resolvesTo column) = true ∧ Sole shape c

theorem owner_of_allOwnedBy {id : PlanId} {columns : List ColumnName}
    (h : set.allOwnedBy id columns = .ok true) : ∀ c ∈ columns, set.owner c = .ok id := by
  induction columns with
  | nil => exact List.forall_mem_nil _
  | cons column rest ih =>
    unfold TableSet.allOwnedBy at h
    obtain ⟨owner, howner, h⟩ := except_bind_ok.mp h
    by_cases hid : owner = id
    · rw [if_pos hid] at h
      exact List.forall_mem_cons.mpr ⟨hid ▸ howner, ih h⟩
    · rw [if_neg hid] at h
      cases h

theorem owner_of_commonOwner {id : PlanId} {columns : List ColumnName}
    (h : set.commonOwner columns = .ok (some id)) :
    columns ≠ [] ∧ ∀ c ∈ columns, set.owner c = .ok id := by
  cases columns with
  | nil => cases h
  | cons column rest =>
    unfold TableSet.commonOwner at h
    obtain ⟨owner, howner, h⟩ := except_bind_ok.mp h
    obtain ⟨all, hall, h⟩ := except_bind_ok.mp h
    cases all with
    | false => cases h
    | true =>
      cases h
      exact ⟨List.cons_ne_nil _ _, List.forall_mem_cons.mpr ⟨howner, owner_of_allOwnedBy hall⟩⟩

theorem hasOneOwner_of_commonOwner {id : PlanId} {columns : List ColumnName}
    (hids : (set.tables.map TablePlan.id).Nodup) (h : set.commonOwner columns = .ok (some id)) :
    HasOneOwner (set.tables.map TablePlan.columns) columns := by
  obtain ⟨hne, howner⟩ := owner_of_commonOwner h
  obtain ⟨first, hfirst⟩ := List.exists_mem_of_ne_nil columns hne
  obtain ⟨⟨p, hp, hid, -⟩, -⟩ := owner_ok (howner first hfirst)
  refine ⟨hne, p.columns, List.mem_map_of_mem hp, fun c hc => ⟨?_, ?_⟩⟩
  · obtain ⟨⟨q, hq, hqid, hexposes⟩, -⟩ := owner_ok (howner c hc)
    obtain rfl := eq_of_id_of_nodup hids hq hp (hqid.trans hid.symm)
    exact hexposes
  · exact sole_iff.mpr (countP_exposes_of_owner (howner c hc))

/-- Columns that have one owner in some set of a shape have one in all of them. -/
theorem HasOneOwner.owner_eq {columns : List ColumnName}
    (h : HasOneOwner (set.tables.map TablePlan.columns) columns) :
    ∃ id, ∀ c ∈ columns, set.owner c = .ok id := by
  obtain ⟨-, exposed, hexposed, hall⟩ := h
  obtain ⟨p, hp, rfl⟩ := List.mem_map.mp hexposed
  exact ⟨p.id, fun c hc => owner_eq_of_sole hp (hall c hc).1 (sole_iff.mp (hall c hc).2)⟩

/-! ## Light predicates -/

namespace Planner

/-- No plan is joined with another where no outer join pads one. -/
theorem resolveWith_of_unpadded {id id' : PlanId}
    (hnone : ∀ p ∈ w.set.tables, p.nullPaddedBy? = none)
    (h : resolveWith condition id w = .ok id' w') : w' = w ∧ id' = id := by
  obtain ⟨pairings, hrun⟩ := exists_resolution_of_ok h
  cases hrun with
  | unpadded => exact ⟨rfl, rfl⟩
  | joins found padded =>
    rw [hnone _ (TableSet.mem_of_get? found).1] at padded
    cases padded

theorem ownerWith_of_unpadded {column : ColumnName} {id : PlanId}
    (hnone : ∀ p ∈ w.set.tables, p.nullPaddedBy? = none)
    (h : ownerWith condition column w = .ok id w') : w' = w ∧ w.set.owner column = .ok id := by
  unfold ownerWith at h
  rw [bind_ok] at h
  obtain ⟨owner, _, hask, h⟩ := h
  obtain ⟨howner, rfl⟩ := ask_ok.mp hask
  obtain ⟨rfl, rfl⟩ := resolveWith_of_unpadded hnone h
  exact ⟨rfl, howner⟩

theorem resolveOwnersWith_of_unpadded {columns : List ColumnName} {u : Unit}
    (hnone : ∀ p ∈ w.set.tables, p.nullPaddedBy? = none)
    (h : resolveOwnersWith condition columns w = .ok u w') : w' = w := by
  induction columns with
  | nil => exact (pure_ok.mp h).2
  | cons column rest ih =>
    rw [resolveOwnersWith_cons, bind_ok] at h
    obtain ⟨id, _, howner, h⟩ := h
    obtain ⟨rfl, -⟩ := ownerWith_of_unpadded hnone howner
    exact ih h

theorem owners_of_same {columns : List ColumnName} {owner : PlanId} {owners : List PlanId}
    (howner : ∀ c ∈ columns, w.set.owner c = .ok owner)
    (h : (columns.mapM fun column => ask fun set => set.owner column) w = .ok owners w') :
    w' = w ∧ owners = columns.map fun _ => owner := by
  induction columns generalizing owners with
  | nil =>
    rw [List.mapM_nil, pure_ok] at h
    exact ⟨h.2, h.1⟩
  | cons column rest ih =>
    rw [List.forall_mem_cons] at howner
    rw [List.mapM_cons] at h
    simp only [bind_ok, ask_ok, pure_ok] at h
    obtain ⟨id, _, ⟨hid, rfl⟩, others, _, hrest, rfl, rfl⟩ := h
    obtain ⟨rfl, rfl⟩ := ih howner.2 hrest
    rw [howner.1] at hid
    cases hid
    exact ⟨rfl, rfl⟩

/-- What is all the same is one. -/
theorem distinct_map_const {columns : List ColumnName} {owner : PlanId} (hne : columns ≠ []) :
    distinct (columns.map fun _ => owner) = [owner] := by
  obtain ⟨column, rest, rfl⟩ := List.exists_cons_of_ne_nil hne
  have hall : ∀ i ∈ distinct (rest.map fun _ => owner), i = owner := by
    intro i hi
    obtain ⟨_, -, rfl⟩ := List.mem_map.mp (mem_distinct.mp hi)
    rfl
  rw [List.map_cons, distinct, List.filter_eq_nil_iff.mpr fun i hi => by simp [hall i hi]]

/-- No plans are joined for several columns of one owner. -/
theorem joinReadersWith_of_unpadded {columns : List ColumnName} {id owner : PlanId}
    (hnone : ∀ p ∈ w.set.tables, p.nullPaddedBy? = none) (hne : columns ≠ [])
    (howner : ∀ c ∈ columns, w.set.owner c = .ok owner)
    (h : joinReadersWith condition columns w = .ok id w') : w' = w := by
  obtain ⟨column, rest, rfl⟩ := List.exists_cons_of_ne_nil hne
  unfold joinReadersWith at h
  simp only [List.isEmpty_cons, Bool.false_eq_true, if_false] at h
  rw [bind_ok] at h
  obtain ⟨_, _, hresolve, h⟩ := h
  obtain rfl := resolveOwnersWith_of_unpadded hnone hresolve
  rw [bind_ok] at h
  obtain ⟨owners, _, howners, h⟩ := h
  obtain ⟨rfl, rfl⟩ := owners_of_same howner howners
  rw [distinct_map_const hne] at h
  exact (joinSomeWith_singleton_ok h).2

theorem keeps_ownerWith (column : ColumnName) :
    Keeps (Over P (HasShape shape)) (ownerWith condition column) := by
  intro w id w' hI h
  obtain ⟨rfl, -⟩ := ownerWith_of_unpadded hI.2.2 h
  exact hI

theorem keeps_joinReadersWith {columns : List ColumnName} (hone : HasOneOwner shape columns) :
    Keeps (Over P (HasShape shape)) (joinReadersWith condition columns) := by
  rintro w id w' ⟨hw, rfl, hnone⟩ h
  obtain ⟨owner, howner⟩ := hone.owner_eq
  obtain rfl := joinReadersWith_of_unpadded hnone hone.1 howner h
  exact ⟨hw, rfl, hnone⟩

/-- One column has one owner, if any. -/
theorem keeps_joinReadersWith_single (column : ColumnName) :
    Keeps (Over P (HasShape shape)) (joinReadersWith condition [column]) := by
  intro w id w' hI h
  have howner : ∃ owner, w.set.owner column = .ok owner := by
    unfold joinReadersWith at h
    simp only [List.isEmpty_cons, Bool.false_eq_true, if_false] at h
    rw [resolveOwnersWith_cons] at h
    simp only [bind_ok] at h
    obtain ⟨_, _, ⟨owner, _, howner, -⟩, -⟩ := h
    exact ⟨owner, (ownerWith_of_unpadded hI.2.2 howner).2⟩
  obtain ⟨owner, howner⟩ := howner
  obtain rfl := joinReadersWith_of_unpadded hI.2.2 (List.cons_ne_nil _ _)
    (List.forall_mem_singleton.mpr howner) h
  exact hI

end Planner

section

variable {Q : TableSet → Prop}

/-- Nodes that filter rows are put on plans. -/
theorem Over.cover_map (hQ : Lasting Q) {f : TablePlan → TablePlan} (h : Over P Q w)
    (hf : ∀ p : TablePlan, p.Covers False (f p)) :
    Over P Q ⟨⟨w.set.tables.map f, w.set.hasJoins⟩, w.context⟩ := by
  refine ⟨(Steps.cover_map hf).sound h.1, hQ.covered h.2 ?_⟩
  rw [List.forall₂_map_right_iff, List.forall₂_same]
  exact fun p _ => hf p

namespace Planner

theorem keeps_selectOn (hQ : Lasting Q) {select : PlanNode → PlanNode} {id : PlanId}
    (hcovered : ∀ t, (select t).covered? = some t) :
    Keeps (Over P Q) (selectOn id select) := by
  intro w u w' hI h
  obtain ⟨-, rfl⟩ := changePlan_ok.mp h
  exact hI.cover_map hQ fun p => .update_if hcovered False.elim (p.id = id) p

theorem keeps_selectConstant (hQ : Lasting Q) (expr : Expr) :
    Keeps (Over P Q) (selectConstant expr) := by
  intro w u w' hI h
  obtain rfl := change_ok.mp h
  exact hI.cover_map hQ fun p => .update (fun _ => rfl) False.elim p

/-- No plans are joined for a light predicate, if the columns of a pattern match on several have one
owner. -/
theorem keeps_applyWith_of_light {planOr : Planner Unit} {predicate : Predicate}
    (hlight : predicate.isHeavy = false)
    (hone : ∀ expr columns, predicate = .complexPattern expr columns → HasOneOwner shape columns) :
    Keeps (Over P (HasShape shape)) (applyWith condition planOr predicate) := by
  have hselect : ∀ {select : PlanNode → PlanNode} (column : ColumnName),
      (∀ t, (select t).covered? = some t) → Keeps (Over P (HasShape shape))
        (ownerWith condition column >>= fun id => selectOn id select) :=
    fun column hcovered => (keeps_ownerWith column).bind fun _ =>
      keeps_selectOn (lasting_hasShape shape) hcovered
  unfold applyWith
  cases predicate with
  | constant expr => exact keeps_selectConstant (lasting_hasShape shape) expr
  | simpleSingle column op value => exact hselect column fun _ => rfl
  | complexSingle column expr => exact hselect column fun _ => rfl
  | simplePattern column op pattern escape => exact hselect column fun _ => rfl
  | complexPattern expr columns =>
    exact (keeps_joinReadersWith (hone expr columns rfl)).bind fun _ =>
      keeps_selectOn (lasting_hasShape shape) fun _ => rfl
  | simpleSubQuery => cases hlight
  | standardJoin expr mixed => cases mixed <;> cases hlight
  | exhaustiveJoin => cases hlight
  | subLogic expr joinable => cases joinable <;> cases hlight
  | exhaustiveSubQuery => cases hlight

end Planner

end

/-! ## The order of predicates -/

namespace Predicate

theorem comesBefore_iff {a b : Bucket × Predicate} : comesBefore a b = true ↔
    a.2.weight < b.2.weight ∨ a.2.weight = b.2.weight ∧ a.1.index ≤ b.1.index := by
  simp only [comesBefore, Bool.or_eq_true, Bool.and_eq_true, decide_eq_true_eq, beq_iff_eq]

theorem comesBefore_total (a b : Bucket × Predicate) :
    comesBefore a b = true ∨ comesBefore b a = true := by
  simp only [comesBefore_iff]
  omega

theorem comesBefore_trans {a b d : Bucket × Predicate} (hab : comesBefore a b = true)
    (hbd : comesBefore b d = true) : comesBefore a d = true := by
  simp only [comesBefore_iff] at hab hbd ⊢
  omega

end Predicate

/-- Whether plans may be joined for a conjunct: it is an OR, or reads several columns. -/
def Expr.isLoud (e : Expr) : Bool := e.isLogical || decide (1 < e.references.length)

theorem Reading.isLoud_of_isHeavy {e : Expr} {predicate : Predicate} (h : Reading e predicate)
    (hheavy : predicate.isHeavy = true) : e.isLoud = true := by
  by_contra hquiet
  unfold Expr.isLoud at hquiet
  rw [Bool.not_eq_true, Bool.or_eq_false_iff, decide_eq_false_iff_not, not_lt] at hquiet
  rw [h.light hquiet.2 hquiet.1] at hheavy
  cases hheavy

namespace TableSet

variable {α : Type} {agenda : List (Expr × α)} {placed : List (Predicate × α)}

/-- Predicates are applied in the order of their weights. -/
theorem pairwise_of_classifyAll (h : set.classifyAll agenda = .ok placed) :
    placed.Pairwise fun y z => y.1.weight ≤ z.1.weight := by
  obtain ⟨listed, -, rfl⟩ := places_of_classifyAll h
  rw [List.pairwise_map]
  have : Std.Total fun a b : (Bucket × Predicate) × α => Predicate.comesBefore a.1 b.1 = true :=
    ⟨fun a b => Predicate.comesBefore_total a.1 b.1⟩
  have : IsTrans _ fun a b : (Bucket × Predicate) × α => Predicate.comesBefore a.1 b.1 = true :=
    ⟨fun _ _ _ => Predicate.comesBefore_trans⟩
  refine (List.pairwise_insertionSort _ listed).imp fun hab => ?_
  rcases Predicate.comesBefore_iff.mp hab with hlt | ⟨heq, -⟩
  · exact hlt.le
  · exact heq.le

/-- At most as many predicates are heavy as conjuncts are loud. -/
theorem countP_isHeavy_le (hsub : ∀ x ∈ agenda, x.1.hasSubQuery = false)
    (h : set.classifyAll agenda = .ok placed) :
    (placed.countP fun y => y.1.isHeavy) ≤ agenda.countP fun x => x.1.isLoud := by
  obtain ⟨listed, hplaces, rfl⟩ := places_of_classifyAll h
  rw [List.countP_map, (List.perm_insertionSort _ listed).countP_eq]
  refine le_trans ?_ (List.filter_sublist (p := fun x => !x.1.isTrue)).countP_le
  have hsub' : ∀ x ∈ agenda.filter fun x => !x.1.isTrue, x.1.hasSubQuery = false :=
    fun x hx => hsub x (List.mem_of_mem_filter hx)
  clear h
  generalize agenda.filter (fun x => !x.1.isTrue) = kept at hplaces hsub'
  induction hplaces with
  | nil => exact le_rfl
  | @cons x y kept listed hxy _ ih =>
    rw [List.forall_mem_cons] at hsub'
    rw [List.countP_cons, List.countP_cons]
    refine Nat.add_le_add (ih hsub'.2) ?_
    have hreading : Reading x.1 y.1.2 := .of_classifyOne hsub'.1 hxy.1
    by_cases hheavy : y.1.2.isHeavy = true
    · simp [hheavy, hreading.isLoud_of_isHeavy hheavy]
    · simp [hheavy]

/-- The columns of a pattern match on several have one owner. -/
theorem exists_commonOwner_of_classifyOne {e expr : Expr} {columns : List ColumnName}
    {bucket : Bucket} (h : set.classifyOne e = .ok (some (bucket, .complexPattern expr columns))) :
    ∃ id, set.commonOwner columns = .ok (some id) := by
  rcases kind_of_classifyOne h with ⟨-, _, ⟨⟩⟩ | ⟨-, hkind⟩
  cases hkind with
  | complexPattern owned => exact ⟨_, owned⟩

end TableSet

end QueryPlan
