import QueryPlan.Proofs.Twins

/-!
# Predicates over twin sets

- `inStep_selectOn`, `inStep_applyWith`: rows are selected, and predicates with one
  outline are applied, in step.
- `Twins.classifyAll`: conjuncts with one outline each are classified alike.
- `Parallel`: computations that go in step from all twins.
- `parallel_runAgendaWith`: the conjuncts of a filter are planned in step.
-/

namespace QueryPlan

variable {read : List ColumnName} {w v w' v' : Workspace} {condition : ConditionPlanner}

/-- How two computations end that only change their workspaces. -/
def Done (read : List ColumnName) (_ : Unit) (w : Workspace) (_ : Unit) (v : Workspace) : Prop :=
  Twins read w v

/-! ## Selects -/

/-- Twins stay twins when the plans at one position change alike. -/
theorem Twins.map {f g : TablePlan → TablePlan} (h : Twins read w v)
    (hf : ∀ p : TablePlan, p.Covers False (f p)) (hg : ∀ q : TablePlan, q.Covers False (g q))
    (htouched : ∀ p : TablePlan, p.touched = true → (f p).touched = true)
    (hfg : ∀ p q, SamePlace w v p.id q.id → p.Twin read q → (f p).Twin read (g q)) :
    Twins read ⟨⟨w.set.tables.map f, w.set.hasJoins⟩, w.context⟩
      ⟨⟨v.set.tables.map g, v.set.hasJoins⟩, v.context⟩ := by
  refine ⟨⟨?_, h.sets.hasJoins, ?_, fun hjoins x hx => ?_⟩, (Steps.cover_map hf).sound h.left,
    (Steps.cover_map hg).sound h.right⟩
  · rw [List.forall₂_map_left_iff, List.forall₂_map_right_iff]
    exact h.places.imp fun p q hpq => hfg p q hpq.2 hpq.1
  · rw [List.length_map]
    exact h.sets.few
  · obtain ⟨p, hp, rfl⟩ := List.map_eq_singleton_iff.mp hx
    exact htouched p (h.sets.joined hjoins p hp)

/-- The trees of twins may change as they like. -/
theorem TablePlan.Twin.update {p q : TablePlan} (h : p.Twin read q) (f g : PlanNode → PlanNode) :
    (p.update f).Twin read (q.update g) := ⟨h.exposes, rfl⟩

namespace Planner

/-- Rows are selected on the plans at one position. -/
theorem inStep_selectOn {i j : PlanId} {select select' : PlanNode → PlanNode} (h : Twins read w v)
    (hplace : SamePlace w v i j) (hselect : ∀ t, (select t).covered? = some t)
    (hselect' : ∀ t, (select' t).covered? = some t) :
    InStep (selectOn i select) (selectOn j select') w v (Done read) := by
  intro _ w' hw
  refine ⟨.changePlan _ _, fun _ v' hv => ?_⟩
  obtain ⟨-, rfl⟩ := changePlan_ok.mp hw
  obtain ⟨-, rfl⟩ := changePlan_ok.mp hv
  refine h.map (fun p => .update_if hselect False.elim (p.id = i) p)
    (fun q => .update_if hselect' False.elim (q.id = j) q) (fun p htouched => ?_)
    fun p q hpq htwin => ?_
  · split
    · rfl
    · exact htouched
  by_cases hid : p.id = i
  · rw [if_pos hid, if_pos ((h.eq_iff hpq hplace).mp hid)]
    exact htwin.update _ _
  · rw [if_neg hid, if_neg fun hid' => hid ((h.eq_iff hpq hplace).mpr hid')]
    exact htwin

/-- Rows are selected on all plans. -/
theorem inStep_selectConstant (h : Twins read w v) (expr expr' : Expr) :
    InStep (selectConstant expr) (selectConstant expr') w v (Done read) := by
  intro _ w' hw
  refine ⟨.modify _, fun _ v' hv => ?_⟩
  obtain rfl := change_ok.mp hw
  obtain rfl := change_ok.mp hv
  exact h.map (.update (fun _ => rfl) False.elim) (.update (fun _ => rfl) False.elim)
    (fun _ _ => rfl) fun p q _ htwin => htwin.update _ _

/-- Rows are selected on the owners of a column. -/
theorem inStep_selectOwner {c : ColumnName} {select select' : PlanNode → PlanNode}
    (h : Twins read w v) (hc : c ∈ read) (hselect : ∀ t, (select t).covered? = some t)
    (hselect' : ∀ t, (select' t).covered? = some t) :
    InStep (do selectOn (← ownerWith condition c) select)
      (do selectOn (← ownerWith condition c) select') w v (Done read) := by
  refine (inStep_ownerWith h hc).bind ?_
  rintro i w j v ⟨rfl, rfl, hplace⟩
  exact inStep_selectOn h hplace hselect hselect'

/-- Rows are selected on the owners of some columns, which are joined first. -/
theorem inStep_selectReaders {columns : List ColumnName} (h : Twins read w v)
    (hcolumns : ∀ c ∈ columns, c ∈ read) (expr expr' : Expr) :
    InStep (do selectRows (← joinReadersWith condition columns) expr)
      (do selectRows (← joinReadersWith condition columns) expr') w v (Done read) :=
  (inStep_joinReadersWith h hcolumns).bind fun _ _ _ _ hfound =>
    inStep_selectOn hfound.1 hfound.2 (fun _ => rfl) fun _ => rfl

/-! ## Comparisons -/

/-- The plans at two positions are merged, into what is found at one position again. -/
theorem inStep_merge {i i' j j' : PlanId} {build build' : PlanNode → PlanNode → PlanNode}
    (h : Twins read w v) (hi : SamePlace w v i i') (hj : SamePlace w v j j')
    (hbuild : ∀ s t, (build s t).joined? = some (s, t))
    (hbuild' : ∀ s t, (build' s t).joined? = some (s, t)) :
    InStep (merge i j build) (merge i' j' build') w v (Found read) :=
  fun _ _ hw => ⟨.merge _ _ _, fun _ _ hv => h.merged hi hj hbuild hbuild' hw hv⟩

/-- Two plans are joined, and rows selected of what they become. -/
theorem inStep_joinThenSelectWith {i i' j j' : PlanId} (h : Twins read w v)
    (hi : SamePlace w v i i') (hj : SamePlace w v j j') (hne : i ≠ j) (expr expr' : Expr) :
    InStep (joinThenSelectWith condition i j expr) (joinThenSelectWith condition i' j' expr') w v
      (Done read) := by
  have hnodup : [i, j].Nodup := by simp [hne]
  exact (inStep_joinSomeWith h (.cons hi (.cons hj .nil)) hnodup).bind fun _ _ _ _ hfound =>
    inStep_selectOn hfound.1 hfound.2 (fun _ => rfl) fun _ => rfl

/-- Plans without links need not be joined by them. -/
theorem mustJoinByLinks_unlinked (hw : Unlinked w) {i j : PlanId} {must : Bool}
    (h : mustJoinByLinks i j w = .ok must w') : must = false ∧ w' = w := by
  obtain ⟨rfl, l, r, hl, hr, rfl⟩ := mustJoinByLinks_ok h
  obtain ⟨hlmem, rfl⟩ := TableSet.mem_of_get? hl
  obtain ⟨hrmem, rfl⟩ := TableSet.mem_of_get? hr
  have hloose := hw.loose hlmem hrmem
  rw [hloose.not_linked, hloose.not_linked', hloose.clash]
  exact ⟨rfl, rfl⟩

/-- Unlinked plans do not have to be joined by links. -/
theorem inStep_mustJoinByLinks (h : Twins read w v) (i i' j j' : PlanId) :
    InStep (mustJoinByLinks i j) (mustJoinByLinks i' j') w v
      fun must w' must' v' => must = false ∧ w' = w ∧ must' = false ∧ v' = v := by
  intro must w' hw
  obtain ⟨rfl, rfl⟩ := mustJoinByLinks_unlinked h.left hw
  refine ⟨?_, fun must' v' hv => ⟨rfl, rfl, mustJoinByLinks_unlinked h.right hv⟩⟩
  exact (Spares.require _).bind fun _ _ _ => (Spares.require _).bind fun _ _ _ => .pure _

/-- Comparisons with one outline are put on plans of one place in step. -/
theorem inStep_compareWith {left right left' right' : Expr} {op : BinaryOp}
    {lhs lhs' rhs rhs' : PlanId} (h : Twins read w v) (hleft : left.outline = left'.outline)
    (hright : right.outline = right'.outline) (hlhs : SamePlace w v lhs lhs')
    (hrhs : SamePlace w v rhs rhs') :
    InStep (compareWith condition left op right lhs rhs)
      (compareWith condition left' op right' lhs' rhs') w v (Done read) := by
  unfold compareWith
  rw [Expr.asReference_eq_of_outline hleft, Expr.asReference_eq_of_outline hright]
  by_cases hsame : lhs = rhs
  · rw [if_pos hsame, if_pos ((h.eq_iff hlhs hrhs).mp hsame)]
    exact inStep_selectOn h hlhs (fun _ => rfl) fun _ => rfl
  · rw [if_neg hsame, if_neg fun hsame' => hsame ((h.eq_iff hlhs hrhs).mpr hsame')]
    refine (inStep_mustJoinByLinks h _ _ _ _).bind ?_
    rintro _ _ _ _ ⟨rfl, rfl, rfl, rfl⟩
    simp only [Bool.false_eq_true, if_false]
    cases left.asReference? with
    | some column =>
      exact (inStep_merge h hlhs hrhs (fun _ _ => rfl) fun _ _ => rfl).bind
        fun _ _ _ _ hfound => .pure hfound.1
    | none =>
      cases right.asReference? with
      | some column =>
        exact (inStep_merge h hrhs hlhs (fun _ _ => rfl) fun _ _ => rfl).bind
          fun _ _ _ _ hfound => .pure hfound.1
      | none => exact inStep_joinThenSelectWith h hlhs hrhs hsame _ _

/-- Comparisons with one outline are applied in step. -/
theorem inStep_applyStandardJoinWith {left right left' right' : Expr} {op : BinaryOp}
    (h : Twins read w v) (hleft : left.outline = left'.outline)
    (hright : right.outline = right'.outline)
    (hreads : ∀ c ∈ (Expr.binary left op right).references, c ∈ read) :
    InStep (applyStandardJoinWith condition (.binary left op right))
      (applyStandardJoinWith condition (.binary left' op right')) w v (Done read) := by
  have hl : ∀ c ∈ left.references, c ∈ read :=
    fun c hc => hreads c (Expr.mem_references_binary.mpr (Or.inl hc))
  have hr : ∀ c ∈ right.references, c ∈ read :=
    fun c hc => hreads c (Expr.mem_references_binary.mpr (Or.inr hc))
  have hl' : left'.references = left.references := Expr.references_eq_of_outline hleft
  have hr' : right'.references = right.references := Expr.references_eq_of_outline hright
  have hwhole : (Expr.binary left' op right').references = (Expr.binary left op right).references :=
    Expr.references_eq_of_outline (by rw [Expr.outline, Expr.outline, hleft, hright])
  -- Sides that read nothing are alike in both; otherwise the first column that is read says which
  -- plan is the left one.
  rcases Expr.constant_or_reads left right with hconstant | ⟨first, hfirst, hhead, hne⟩
  · rw [applyStandardJoinWith_of_constant hconstant,
      applyStandardJoinWith_of_constant (by rwa [hl', hr']), hwhole]
    exact inStep_selectReaders h hreads _ _
  · rw [applyStandardJoinWith_of_reads hhead hne,
      applyStandardJoinWith_of_reads (by rwa [hl']) (by rwa [hr']), hl', hr']
    refine (inStep_joinReadersWith h hl).bind ?_
    rintro _ w₁ _ v₁ ⟨h₁, -⟩
    refine (inStep_joinReadersWith h₁ hr).bind ?_
    rintro rhs w₂ rhs' v₂ ⟨h₂, hrhs⟩
    refine (inStep_owner h₂ (hl first hfirst)).bind ?_
    rintro lhs _ lhs' _ ⟨rfl, rfl, hlhs⟩
    exact inStep_compareWith h₂ hleft hright hlhs hrhs

/-- Predicates with one outline are applied in step, where their columns are among `read`. -/
theorem inStep_applyWith {planOr planOr' : Planner Unit} {predicate predicate' : Predicate}
    (hor : ∀ w v, Twins read w v → InStep planOr planOr' w v (Done read)) (h : Twins read w v)
    (houtline : predicate.outline = predicate'.outline) (happlicable : predicate.Applicable False)
    (hreads : ∀ c ∈ predicate.reads, c ∈ read) :
    InStep (applyWith condition planOr predicate) (applyWith condition planOr' predicate') w v
      (Done read) := by
  have hsingle : ∀ {column : ColumnName}, (∀ c ∈ [column], c ∈ read) → column ∈ read :=
    fun h => h _ (List.mem_singleton_self _)
  -- Predicates with one outline are of one kind and read the same columns. What they compare these
  -- with may differ.
  unfold applyWith
  cases predicate with
  | constant expr =>
    cases predicate' <;> simp only [Predicate.outline, reduceCtorEq] at houtline
    exact inStep_selectConstant h _ _
  | simpleSingle column op value =>
    cases predicate' <;>
      simp only [Predicate.outline, reduceCtorEq, Predicate.simpleSingle.injEq] at houtline
    obtain ⟨rfl, -, -⟩ := houtline
    exact inStep_selectOwner h (hsingle hreads) (fun _ => rfl) fun _ => rfl
  | complexSingle column expr =>
    cases predicate' <;>
      simp only [Predicate.outline, reduceCtorEq, Predicate.complexSingle.injEq] at houtline
    obtain ⟨rfl, -⟩ := houtline
    exact inStep_selectOwner h (hsingle hreads) (fun _ => rfl) fun _ => rfl
  | simplePattern column op pattern escape =>
    cases predicate' <;>
      simp only [Predicate.outline, reduceCtorEq, Predicate.simplePattern.injEq] at houtline
    obtain ⟨rfl, -, -, -⟩ := houtline
    exact inStep_selectOwner h (hsingle hreads) (fun _ => rfl) fun _ => rfl
  | simpleSubQuery column op quantifier query =>
    cases predicate' <;>
      simp only [Predicate.outline, reduceCtorEq, Predicate.simpleSubQuery.injEq] at houtline
    obtain ⟨rfl, -, -, -⟩ := houtline
    exact inStep_selectOwner h (hsingle hreads) (fun _ => rfl) fun _ => rfl
  | complexPattern expr references =>
    cases predicate' <;>
      simp only [Predicate.outline, reduceCtorEq, Predicate.complexPattern.injEq] at houtline
    obtain ⟨-, rfl⟩ := houtline
    exact inStep_selectReaders h hreads _ _
  | exhaustiveJoin expr references =>
    cases predicate' <;>
      simp only [Predicate.outline, reduceCtorEq, Predicate.exhaustiveJoin.injEq] at houtline
    obtain ⟨-, rfl⟩ := houtline
    exact inStep_selectReaders h hreads _ _
  | exhaustiveSubQuery expr references =>
    cases predicate' <;>
      simp only [Predicate.outline, reduceCtorEq, Predicate.exhaustiveSubQuery.injEq] at houtline
    obtain ⟨-, rfl⟩ := houtline
    exact inStep_selectReaders h hreads _ _
  | standardJoin expr mixed =>
    cases predicate' <;>
      simp only [Predicate.outline, reduceCtorEq, Predicate.standardJoin.injEq] at houtline
    cases expr with
    | binary left op right =>
      obtain ⟨left', right', rfl, hleft, hright⟩ := Expr.exists_of_outline_binary houtline.1
      exact inStep_applyStandardJoinWith h hleft hright hreads
    | _ => exact happlicable.elim
  | subLogic expr joinable =>
    cases predicate' <;> simp only [Predicate.outline, reduceCtorEq] at houtline
    exact hor w v h

end Planner

/-! ## Conjuncts -/

namespace Twins

variable {columns : List ColumnName} {e : Expr}

/-- Whether a plan owns some columns is answered alike. -/
theorem allOwnedBy (h : Twins read w v) (hcolumns : ∀ c ∈ columns, c ∈ read) {i j : PlanId}
    (hplace : SamePlace w v i j) {all : Bool} (hw : w.set.allOwnedBy i columns = .ok all) :
    v.set.allOwnedBy j columns = .ok all := by
  induction columns with
  | nil => exact hw
  | cons column rest ih =>
    rw [List.forall_mem_cons] at hcolumns
    unfold TableSet.allOwnedBy at hw ⊢
    obtain ⟨i', hi', hw⟩ := except_bind_ok.mp hw
    obtain ⟨j', hj', hplace'⟩ := h.exists_owner hcolumns.1 hi'
    refine except_bind_ok.mpr ⟨j', hj', ?_⟩
    by_cases hsame : i' = i
    · rw [if_pos hsame] at hw
      rw [if_pos ((h.eq_iff hplace' hplace).mp hsame)]
      exact ih hcolumns.2 hw
    · rw [if_neg hsame] at hw
      rwa [if_neg fun hsame' => hsame ((h.eq_iff hplace' hplace).mpr hsame')]

/-- The plans at one position own the same columns. -/
theorem commonOwner (h : Twins read w v) (hcolumns : ∀ c ∈ columns, c ∈ read)
    {owner : Option PlanId} (hw : w.set.commonOwner columns = .ok owner) :
    ∃ owner', v.set.commonOwner columns = .ok owner' ∧
      Option.Rel (SamePlace w v) owner owner' := by
  cases columns with
  | nil =>
    cases hw
    exact ⟨none, rfl, .none⟩
  | cons column rest =>
    rw [List.forall_mem_cons] at hcolumns
    unfold TableSet.commonOwner at hw ⊢
    obtain ⟨i, hi, hw⟩ := except_bind_ok.mp hw
    obtain ⟨all, hall, hw⟩ := except_bind_ok.mp hw
    obtain ⟨j, hj, hplace⟩ := h.exists_owner hcolumns.1 hi
    cases hw
    refine ⟨if all then some j else none, ?_, ?_⟩
    · exact except_bind_ok.mpr ⟨j, hj,
        except_bind_ok.mpr ⟨all, h.allOwnedBy hcolumns.2 hplace hall, rfl⟩⟩
    · cases all with
      | true => exact .some hplace
      | false => exact .none

/-- Whether some sides read one plan is answered alike. -/
theorem readOnePlan (h : Twins read w v) {sides : List Expr}
    (hsides : ∀ side ∈ sides, ∀ c ∈ side.references, c ∈ read) {common common' : Option PlanId}
    (hcommon : Option.Rel (SamePlace w v) common common') {one : Bool}
    (hw : w.set.readOnePlan common sides = .ok one) :
    v.set.readOnePlan common' sides = .ok one := by
  induction sides generalizing common common' with
  | nil => exact hw
  | cons side rest ih =>
    rw [List.forall_mem_cons] at hsides
    unfold TableSet.readOnePlan at hw ⊢
    -- A side without columns is passed over; any other one has a single owner, the same as before
    -- or a second one.
    by_cases hempty : side.references.isEmpty = true
    · simp only [hempty, if_true] at hw ⊢
      exact ih hsides.2 hcommon hw
    · simp only [hempty] at hw ⊢
      obtain ⟨owner, howner, hw⟩ := except_bind_ok.mp hw
      obtain ⟨owner', howner', hrel⟩ := h.commonOwner hsides.1 howner
      refine except_bind_ok.mpr ⟨owner', howner', ?_⟩
      cases hrel with
      | none => exact hw
      | @some owner owner' hplace =>
        cases hcommon with
        | none => exact ih hsides.2 (.some hplace) hw
        | @some seen seen' hseen =>
          by_cases hsame : owner = seen
          · simp only [if_pos hsame] at hw
            simp only [if_pos ((h.eq_iff hplace hseen).mp hsame)]
            exact ih hsides.2 (.some hseen) hw
          · simp only [if_neg hsame] at hw
            simp only [if_neg fun hsame' => hsame ((h.eq_iff hplace hseen).mpr hsame')]
            exact hw

/-- A pattern is classified alike. -/
theorem classifyPattern (h : Twins read w v) (hreads : ∀ c ∈ e.references, c ∈ read)
    {predicate : Predicate} (hw : w.set.classifyPattern e = .ok predicate) :
    v.set.classifyPattern e = .ok predicate := by
  unfold TableSet.classifyPattern at hw ⊢
  dsimp only at hw ⊢
  split at hw
  · rename_i hempty
    rwa [if_pos hempty]
  · rename_i hempty
    rw [if_neg hempty]
    split at hw
    · exact hw
    · obtain ⟨owner, howner, hw⟩ := except_bind_ok.mp hw
      obtain ⟨owner', howner', hrel⟩ := h.commonOwner hreads howner
      refine except_bind_ok.mpr ⟨owner', howner', ?_⟩
      cases hrel with
      | none => exact hw
      | some _ => exact hw

/-- An OR is classified alike. -/
theorem classifySubLogic (h : Twins read w v) (hreads : ∀ c ∈ e.references, c ∈ read)
    {predicate : Predicate} (hw : w.set.classifySubLogic e = .ok predicate) :
    v.set.classifySubLogic e = .ok predicate := by
  unfold TableSet.classifySubLogic at hw ⊢
  split at hw
  · obtain ⟨one, hone, hw⟩ := except_bind_ok.mp hw
    refine except_bind_ok.mpr ⟨one, h.readOnePlan ?_ .none hone, hw⟩
    simp only [List.forall_mem_cons]
    exact ⟨fun c hc => hreads c (Expr.mem_references_binary.mpr (Or.inl hc)),
      fun c hc => hreads c (Expr.mem_references_binary.mpr (Or.inr hc)), List.forall_mem_nil _⟩
  · exact hw

/-- A conjunct is classified alike over both sets. -/
theorem classifyOne (h : Twins read w v) (hreads : ∀ c ∈ e.references, c ∈ read)
    {placed : Option (Bucket × Predicate)} (hw : w.set.classifyOne e = .ok placed) :
    v.set.classifyOne e = .ok placed := by
  have hmap : ∀ {x y : Except PlanError Predicate} {f : Predicate → Option (Bucket × Predicate)},
      (∀ p, x = .ok p → y = .ok p) → x.map f = .ok placed → y.map f = .ok placed := by
    intro x y f hxy hx
    cases x with
    | error _ => cases hx
    | ok p => rwa [hxy p rfl]
  unfold TableSet.classifyOne at hw ⊢
  -- The kinds are tried in their order. What each of them asks of the set is answered alike.
  by_cases htrue : e.isTrue = true
  · rwa [if_pos htrue] at hw ⊢
  rw [if_neg htrue] at hw ⊢
  by_cases hopaque : e.isOpaque = true
  · rwa [if_pos hopaque] at hw ⊢
  rw [if_neg hopaque] at hw ⊢
  by_cases hlogical : e.isLogical = true
  · rw [if_pos hlogical] at hw ⊢
    exact hmap (fun _ => h.classifySubLogic hreads) hw
  rw [if_neg hlogical] at hw ⊢
  by_cases hquery : e.hasSubQuery = true
  · rwa [if_pos hquery] at hw ⊢
  rw [if_neg hquery] at hw ⊢
  by_cases hpattern : e.isPattern = true
  · rw [if_pos hpattern] at hw ⊢
    exact hmap (fun _ => h.classifyPattern hreads) hw
  · rwa [if_neg hpattern] at hw ⊢

/-- Conjuncts with one outline are classified alike. -/
theorem classifyOne_of_outline (h : Twins read w v) {e' : Expr} (houtline : e.outline = e'.outline)
    (hreads : ∀ c ∈ e.references, c ∈ read) {placed : Option (Bucket × Predicate)}
    (hw : w.set.classifyOne e = .ok placed) : ∃ placed', v.set.classifyOne e' = .ok placed' ∧
      placed.map (Prod.map id Predicate.outline) = placed'.map (Prod.map id Predicate.outline) := by
  have he := v.set.classifyOne_outline e
  rw [h.classifyOne hreads hw, houtline, v.set.classifyOne_outline e'] at he
  cases hplaced : v.set.classifyOne e' with
  | error _ =>
    rw [hplaced] at he
    cases he
  | ok placed' =>
    rw [hplaced] at he
    exact ⟨placed', rfl, (Except.ok.inj he).symm⟩

end Twins

/-! ## Agendas -/

/-- Computations that go in step from all twins. -/
def Parallel (read : List ColumnName) (act act' : Planner Unit) : Prop :=
  ∀ w v, Twins read w v → InStep act act' w v (Done read)

/-- Conjuncts with one outline, whose columns are among `read`, with computations in step. -/
structure AgendaTwin (read : List ColumnName) (x x' : Expr × Planner Unit) : Prop where
  outline : x.1.outline = x'.1.outline
  reads : ∀ c ∈ Predicate.readsWithOuter x.1, c ∈ read
  parallel : Parallel read x.2 x'.2

/-- Predicates of one bucket and one outline, whose columns are among `read`, with computations in
step. -/
structure PlacedTwin (read : List ColumnName) (y y' : (Bucket × Predicate) × Planner Unit) :
    Prop where
  bucket : y.1.1 = y'.1.1
  outline : y.1.2.outline = y'.1.2.outline
  applicable : y.1.2.Applicable False
  reads : ∀ c ∈ y.1.2.reads, c ∈ read
  parallel : Parallel read y.2 y'.2

variable {agenda agenda' : List (Expr × Planner Unit)}

/-- Conjuncts with one outline each are placed in the same buckets, as predicates with one outline
each. -/
theorem Twins.classifyListed (h : Twins read w v)
    (hagenda : List.Forall₂ (AgendaTwin read) agenda agenda')
    {placed : List ((Bucket × Predicate) × Planner Unit)}
    (hw : w.set.classifyListed agenda = .ok placed) : ∃ placed',
      v.set.classifyListed agenda' = .ok placed' ∧
        List.Forall₂ (PlacedTwin read) placed placed' := by
  induction hagenda generalizing placed with
  | nil =>
    cases hw
    exact ⟨[], rfl, .nil⟩
  | @cons x x' rest rest' hx hrest ih =>
    unfold TableSet.classifyListed at hw ⊢
    obtain ⟨first, hfirst, hw⟩ := except_bind_ok.mp hw
    obtain ⟨others, hothers, hw⟩ := except_bind_ok.mp hw
    obtain ⟨others', hothers', hall⟩ := ih hothers
    obtain ⟨first', hfirst', houtline⟩ := h.classifyOne_of_outline hx.outline
      (fun c hc => hx.reads c (Predicate.mem_readsWithOuter.mpr (Or.inl hc))) hfirst
    -- A conjunct TRUE is dropped in both.
    cases first with
    | none =>
      cases hw
      obtain rfl : first' = none := Option.map_eq_none_iff.mp houtline.symm
      exact ⟨others', except_bind_ok.mpr ⟨_, hfirst', except_bind_ok.mpr ⟨_, hothers', rfl⟩⟩, hall⟩
    | some y =>
      cases hw
      obtain ⟨y', rfl, hy⟩ := Option.map_eq_some_iff.mp houtline.symm
      obtain ⟨hbucket, hpredicate⟩ := Prod.mk.inj hy
      refine ⟨(y', x'.2) :: others',
        except_bind_ok.mpr ⟨_, hfirst', except_bind_ok.mpr ⟨_, hothers', rfl⟩⟩, .cons ?_ hall⟩
      refine ⟨hbucket.symm, hpredicate.symm, TableSet.applicable_of_classifyOne False.elim hfirst,
        fun c hc => ?_, hx.parallel⟩
      exact hx.reads c ((TableSet.ofConjunct_of_classifyOne hfirst).reads c hc)

/-- Twins among the predicates are applied in the same places. -/
theorem PlacedTwin.comesBefore_eq {y y' z z' : (Bucket × Predicate) × Planner Unit}
    (hy : PlacedTwin read y y') (hz : PlacedTwin read z z') :
    Predicate.comesBefore y.1 z.1 = Predicate.comesBefore y'.1 z'.1 := by
  have hweight : y.1.2.weight = y'.1.2.weight := by
    rw [← Predicate.weight_outline, hy.outline, Predicate.weight_outline]
  have hweight' : z.1.2.weight = z'.1.2.weight := by
    rw [← Predicate.weight_outline, hz.outline, Predicate.weight_outline]
  unfold Predicate.comesBefore
  rw [hy.bucket, hz.bucket, hweight, hweight']

/-- Predicates with computations in step, in the order in which they are applied. -/
theorem Twins.classifyAll (h : Twins read w v)
    (hagenda : List.Forall₂ (AgendaTwin read) agenda agenda')
    {placed : List (Predicate × Planner Unit)} (hw : w.set.classifyAll agenda = .ok placed) :
    ∃ placed', v.set.classifyAll agenda' = .ok placed' ∧ ∃ listed listed',
      List.Forall₂ (PlacedTwin read) listed listed' ∧
        placed = listed.map (fun y => (y.1.2, y.2)) ∧
        placed' = listed'.map fun y => (y.1.2, y.2) := by
  unfold TableSet.classifyAll at hw ⊢
  obtain ⟨listed, hlisted, hw⟩ := except_bind_ok.mp hw
  cases hw
  obtain ⟨listed', hlisted', hall⟩ := h.classifyListed hagenda hlisted
  refine ⟨_, except_bind_ok.mpr ⟨listed', hlisted', rfl⟩, _, _, ?_, rfl, rfl⟩
  exact forall₂_sortBy (fun _ _ _ _ hy hz => hy.comesBefore_eq hz) hall

namespace Planner

/-- Predicates with one outline each are applied in step. -/
theorem parallel_applyAllWith {listed listed' : List ((Bucket × Predicate) × Planner Unit)}
    (h : List.Forall₂ (PlacedTwin read) listed listed') :
    Parallel read (applyAllWith condition (listed.map fun y => (y.1.2, y.2)))
      (applyAllWith condition (listed'.map fun y => (y.1.2, y.2))) := by
  induction h with
  | nil => exact fun w v h => .pure h
  | cons hfirst _ ih =>
    intro w v h
    exact (inStep_applyWith hfirst.parallel h hfirst.outline hfirst.applicable hfirst.reads).bind
      fun _ w₁ _ v₁ => ih w₁ v₁

/-- Agendas with one outline each are planned in step. -/
theorem parallel_planAgendaWith (hagenda : List.Forall₂ (AgendaTwin read) agenda agenda') :
    Parallel read (planAgendaWith condition agenda) (planAgendaWith condition agenda') := by
  intro w v h
  unfold planAgendaWith
  refine (InStep.ask fun placed hplaced => h.classifyAll hagenda hplaced).bind ?_
  rintro _ _ _ _ ⟨rfl, rfl, listed, listed', hall, rfl, rfl⟩
  exact parallel_applyAllWith hall _ _ h

/-- An agenda that is not one OR is classified. -/
theorem runAgendaWith_eq (h : ¬ ∃ l r planOr, agenda = [(.binary l .or r, planOr)]) :
    runAgendaWith condition agenda = planAgendaWith condition agenda := by
  unfold runAgendaWith
  split
  · rename_i l r planOr
    exact absurd ⟨l, r, planOr, rfl⟩ h
  · rfl

/-- Agendas whose conjuncts have one outline each are planned in step. -/
theorem parallel_runAgendaWith (hagenda : List.Forall₂ (AgendaTwin read) agenda agenda') :
    Parallel read (runAgendaWith condition agenda) (runAgendaWith condition agenda') := by
  by_cases hor : ∃ l r planOr, agenda = [(.binary l .or r, planOr)]
  · obtain ⟨l, r, planOr, rfl⟩ := hor
    obtain ⟨⟨e', planOr'⟩, _, hx, hnil, rfl⟩ := List.forall₂_cons_left_iff.mp hagenda
    rw [List.forall₂_nil_left_iff] at hnil
    subst hnil
    obtain ⟨l', r', rfl, -, -⟩ := Expr.exists_of_outline_binary hx.outline
    exact hx.parallel
  · have hor' : ¬ ∃ l r planOr, agenda' = [(.binary l .or r, planOr)] := by
      rintro ⟨l', r', planOr', rfl⟩
      obtain ⟨⟨e, planOr⟩, _, hx, hnil, rfl⟩ := List.forall₂_cons_right_iff.mp hagenda
      rw [List.forall₂_nil_right_iff] at hnil
      subst hnil
      obtain ⟨l, r, rfl, -, -⟩ := Expr.exists_of_outline_binary hx.outline.symm
      exact hor ⟨l, r, planOr, rfl⟩
    rw [runAgendaWith_eq hor, runAgendaWith_eq hor']
    exact parallel_planAgendaWith hagenda

end Planner

end QueryPlan
