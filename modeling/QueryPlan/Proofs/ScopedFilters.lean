import QueryPlan.Proofs.OfConjunct
import QueryPlan.Proofs.Scoped

/-!
# Filters over scoped sets

A filter whose columns have owners is planned over every scoped set.

- `TableSet.exists_classifyAll`: conjuncts whose columns have owners are classified.
- `Spared`: a computation that does not fail as expected over any scoped set.
- `spares_applyWith`, `spared_planOrWith`, `spared_planExpressionWith`: predicates,
  ORs and filters do not, if their columns have owners.
- `Scoped.planWholeWith_ok`: planning succeeds over every scoped set.
-/

namespace QueryPlan

variable {P : Option Expr → Prop} {condition : ConditionPlanner} {w w' : Workspace}
  {c : ColumnName} {read : List ColumnName}

/-! ## Conjuncts that are classified -/

theorem exists_ok_bind {ε α β : Type} {x : Except ε α} {f : α → Except ε β}
    (hx : ∃ a, x = .ok a) (hf : ∀ a, ∃ b, f a = .ok b) : ∃ b, x >>= f = .ok b := by
  obtain ⟨a, rfl⟩ := hx
  exact hf a

theorem exists_ok_map {ε α β : Type} {x : Except ε α} (f : α → β) (hx : ∃ a, x = .ok a) :
    ∃ b, x.map f = .ok b := by
  obtain ⟨a, rfl⟩ := hx
  exact ⟨f a, rfl⟩

namespace TableSet

variable {set : TableSet} {columns : List ColumnName} {e : Expr}

theorem exists_allOwnedBy (id : PlanId) (h : ∀ c ∈ columns, ∃ id, set.owner c = .ok id) :
    ∃ all, set.allOwnedBy id columns = .ok all := by
  induction columns with
  | nil => exact ⟨true, rfl⟩
  | cons column rest ih =>
    rw [List.forall_mem_cons] at h
    unfold allOwnedBy
    refine exists_ok_bind h.1 fun owner => ?_
    by_cases hid : owner = id
    · rw [if_pos hid]
      exact ih h.2
    · rw [if_neg hid]
      exact ⟨false, rfl⟩

theorem exists_commonOwner (h : ∀ c ∈ columns, ∃ id, set.owner c = .ok id) :
    ∃ common, set.commonOwner columns = .ok common := by
  cases columns with
  | nil => exact ⟨none, rfl⟩
  | cons column rest =>
    rw [List.forall_mem_cons] at h
    unfold commonOwner
    exact exists_ok_bind h.1 fun id =>
      exists_ok_bind (exists_allOwnedBy id h.2) fun _ => ⟨_, rfl⟩

theorem exists_readOnePlan {sides : List Expr} (common : Option PlanId)
    (h : ∀ side ∈ sides, ∀ c ∈ side.references, ∃ id, set.owner c = .ok id) :
    ∃ one, set.readOnePlan common sides = .ok one := by
  induction sides generalizing common with
  | nil => exact ⟨true, rfl⟩
  | cons side rest ih =>
    rw [List.forall_mem_cons] at h
    unfold readOnePlan
    dsimp only
    split
    · exact ih common h.2
    · refine exists_ok_bind (exists_commonOwner h.1) fun owner => ?_
      rcases owner with _ | owner
      · exact ⟨false, rfl⟩
      · rcases common with _ | seen
        · exact ih _ h.2
        · by_cases hsame : owner = seen
          · simp only [hsame, if_true]
            exact ih _ h.2
          · simp only [hsame, if_false]
            exact ⟨false, rfl⟩

theorem exists_classifyPattern (h : ∀ c ∈ e.references, ∃ id, set.owner c = .ok id) :
    ∃ predicate, set.classifyPattern e = .ok predicate := by
  unfold classifyPattern
  dsimp only
  split
  · exact ⟨_, rfl⟩
  · split
    · exact ⟨_, rfl⟩
    · refine exists_ok_bind (exists_commonOwner h) fun owner => ?_
      cases owner <;> exact ⟨_, rfl⟩

theorem exists_classifySubLogic (h : ∀ c ∈ e.references, ∃ id, set.owner c = .ok id) :
    ∃ predicate, set.classifySubLogic e = .ok predicate := by
  unfold classifySubLogic
  split
  · refine exists_ok_bind (exists_readOnePlan none ?_) fun _ => ⟨_, rfl⟩
    simp only [List.forall_mem_cons]
    exact ⟨fun c hc => h c (Expr.mem_references_binary.mpr (Or.inl hc)),
      fun c hc => h c (Expr.mem_references_binary.mpr (Or.inr hc)), List.forall_mem_nil _⟩
  · exact ⟨_, rfl⟩

theorem exists_classifyOne (h : ∀ c ∈ e.references, ∃ id, set.owner c = .ok id) :
    ∃ placed, set.classifyOne e = .ok placed := by
  unfold classifyOne
  split
  · exact ⟨_, rfl⟩
  · split
    · exact ⟨_, rfl⟩
    · split
      · exact exists_ok_map _ (exists_classifySubLogic h)
      · split
        · exact ⟨_, rfl⟩
        · split
          · exact exists_ok_map _ (exists_classifyPattern h)
          · exact ⟨_, rfl⟩

/-- Conjuncts whose columns have owners are classified. -/
theorem exists_classifyAll {α : Type} {agenda : List (Expr × α)}
    (h : ∀ x ∈ agenda, ∀ c ∈ x.1.references, ∃ id, set.owner c = .ok id) :
    ∃ placed, set.classifyAll agenda = .ok placed := by
  have hlisted : ∃ placed, set.classifyListed agenda = .ok placed := by
    induction agenda with
    | nil => exact ⟨[], rfl⟩
    | cons x rest ih =>
      rw [List.forall_mem_cons] at h
      unfold classifyListed
      refine exists_ok_bind (exists_classifyOne h.1) fun first => ?_
      refine exists_ok_bind (ih h.2) fun others => ?_
      cases first <;> exact ⟨_, rfl⟩
  unfold classifyAll
  exact exists_ok_bind hlisted fun _ => ⟨_, rfl⟩

end TableSet

namespace Scoped

/-- A side of an OR is scoped if the set is. -/
theorem side {side : TableSet} {c : Context} (h : Scoped P condition read w)
    (hside : SideOf False w side c) : Scoped P condition read ⟨side, c⟩ := by
  obtain ⟨copy, c₀, hext, hcopy, hsteps⟩ := hside
  exact (h.copied hcopy).step hsteps

end Scoped

/-! ## Predicates -/

/-- A computation that does not fail as expected over any scoped set. -/
def Spared (P : Option Expr → Prop) (condition : ConditionPlanner) (read : List ColumnName)
    (act : Planner Unit) : Prop :=
  ∀ w, Scoped P condition read w → Planner.Spares act w

namespace Planner

variable (hlaw : ConditionLaw False P condition)

include hlaw

theorem spares_selectOwner {select : PlanNode → PlanNode} (hw : Scoped P condition read w)
    (hc : c ∈ read) : Spares (do selectOn (← ownerWith condition c) select) w :=
  (spares_ownerWith hlaw hw hc).bind fun _ _ _ => .changePlan _ _

theorem spares_selectReaders {columns : List ColumnName} (hw : Scoped P condition read w)
    (hcolumns : ∀ c ∈ columns, c ∈ read) (expr : Expr) :
    Spares (do selectRows (← joinReadersWith condition columns) expr) w :=
  (spares_joinReadersWith hlaw hw hcolumns).bind fun _ _ _ => .changePlan _ _

theorem spares_joinThenSelectWith {lhs rhs : PlanId} (hw : Scoped P condition read w)
    (hl : lhs ∈ w.set.ids) (hr : rhs ∈ w.set.ids) (hne : lhs ≠ rhs) (expr : Expr) :
    Spares (joinThenSelectWith condition lhs rhs expr) w := by
  have hnodup : [lhs, rhs].Nodup := by simp [hne]
  have hmem : ∀ i ∈ [lhs, rhs], i ∈ w.set.ids := by
    simp only [List.forall_mem_cons]
    exact ⟨hl, hr, List.forall_mem_nil _⟩
  exact (spares_joinSomeWith hlaw hw hnodup hmem).bind fun _ _ _ => .changePlan _ _

/-- A comparison is put on two plans of a scoped set. -/
theorem spares_compareWith {lhs rhs : PlanId} (hw : Scoped P condition read w)
    (hlhs : lhs ∈ w.set.ids) (hrhs : rhs ∈ w.set.ids) (left : Expr) (op : BinaryOp)
    (right : Expr) : Spares (compareWith condition left op right lhs rhs) w := by
  unfold compareWith
  by_cases hsame : lhs = rhs
  · rw [if_pos hsame]
    exact .changePlan _ _
  · rw [if_neg hsame]
    refine Spares.bind ?_ fun must w₁ hmust => ?_
    · exact (Spares.require _).bind fun _ _ _ => (Spares.require _).bind fun _ _ _ => .pure _
    obtain ⟨rfl, -⟩ := mustJoinByLinks_ok hmust
    have hjoin := spares_joinThenSelectWith hlaw hw hlhs hrhs hsame (.binary left op right)
    cases must with
    | true => exact hjoin
    | false =>
      simp only [Bool.false_eq_true, if_false]
      cases left.asReference? with
      | some column => exact (Spares.merge _ _ _).bind fun _ _ _ => .pure _
      | none =>
        cases right.asReference? with
        | some column => exact (Spares.merge _ _ _).bind fun _ _ _ => .pure _
        | none => exact hjoin

/-- A comparison is applied if its columns have owners. -/
theorem spares_applyStandardJoinWith {left right : Expr} {op : BinaryOp}
    (hw : Scoped P condition read w)
    (hreads : ∀ c ∈ (Expr.binary left op right).references, c ∈ read) :
    Spares (applyStandardJoinWith condition (.binary left op right)) w := by
  have hl : ∀ c ∈ left.references, c ∈ read :=
    fun c hc => hreads c (Expr.mem_references_binary.mpr (Or.inl hc))
  have hr : ∀ c ∈ right.references, c ∈ read :=
    fun c hc => hreads c (Expr.mem_references_binary.mpr (Or.inr hc))
  rcases Expr.constant_or_reads left right with hconstant | ⟨first, hfirst, hleft, hright⟩
  · rw [applyStandardJoinWith_of_constant hconstant]
    exact spares_selectReaders hlaw hw hreads _
  · rw [applyStandardJoinWith_of_reads hleft hright]
    refine (spares_joinReadersWith hlaw hw hl).bind fun _ w₁ hok₁ => ?_
    have hw₁ := hw.step ((meets_joinReadersWith hlaw hw.sound _).ok hok₁).1
    refine (spares_joinReadersWith hlaw hw₁ hr).bind fun rhs w₂ hok₂ => ?_
    obtain ⟨hsteps₂, hrhs⟩ := (meets_joinReadersWith hlaw hw₁.sound _).ok hok₂
    have hw₂ := hw₁.step hsteps₂
    refine (spares_owner hw₂ (hl first hfirst)).bind fun lhs w₂ hok₃ => ?_
    obtain ⟨rfl, hlhs⟩ := (meets_owner first).ok hok₃
    exact spares_compareWith hlaw hw₂ hlhs hrhs left op right

/-- A predicate is applied if the columns that it looks up have owners. -/
theorem spares_applyWith {planOr : Planner Unit} (hor : Spared P condition read planOr)
    (hw : Scoped P condition read w) {predicate : Predicate}
    (happlicable : predicate.Applicable False) (hreads : ∀ c ∈ predicate.reads, c ∈ read) :
    Spares (applyWith condition planOr predicate) w := by
  unfold applyWith
  cases predicate with
  | constant expr => exact .modify _
  | simpleSingle column op value =>
    exact spares_selectOwner hlaw hw (hreads _ (List.mem_singleton_self _))
  | complexSingle column expr =>
    exact spares_selectOwner hlaw hw (hreads _ (List.mem_singleton_self _))
  | simplePattern column op pattern escape =>
    exact spares_selectOwner hlaw hw (hreads _ (List.mem_singleton_self _))
  | simpleSubQuery column op quantifier query =>
    exact spares_selectOwner hlaw hw (hreads _ (List.mem_singleton_self _))
  | complexPattern expr references => exact spares_selectReaders hlaw hw hreads expr
  | exhaustiveJoin expr references => exact spares_selectReaders hlaw hw hreads expr
  | exhaustiveSubQuery expr references => exact spares_selectReaders hlaw hw hreads expr
  | standardJoin expr mixed =>
    cases expr with
    | binary left op right => exact spares_applyStandardJoinWith hlaw hw hreads
    | _ => exact happlicable.elim
  | subLogic expr joinable => exact hor w hw

/-! ## ORs -/

omit hlaw in
/-- A set whose links are answered is copied. -/
theorem spares_copy (hw : Sound P w) : Spares copy w := by
  unfold copy
  refine .bind_current ?_
  intro e w' h
  rcases bind_error.mp h with h | ⟨ids, w₁, hids, h⟩
  · cases h
  · cases hids
    have hlen : w.set.tables.length = ((List.range w.set.tables.length).map
        fun i => (⟨w.context.supply.next + i⟩ : PlanId)).length := by simp
    obtain ⟨set, hset⟩ := exists_copyAs hw.answered.target_mem_ids hlen
    refine Spares.ask (f := fun set => set.copyAs _) (fun e he => ?_) e w' h
    rw [hset] at he
    cases he

omit hlaw in
/-- Caches are put on, or nothing is done. -/
theorem spares_cacheForSides : Spares cacheForSides w := by
  intro e w' h
  rw [cacheForSides_eq] at h
  split at h <;> cases h

omit hlaw in
/-- Columns that are not those of the only plan are a failure of another kind. -/
theorem spares_reorderColumns (order : List ColumnName) : Spares (reorderColumns order) w := by
  unfold reorderColumns
  refine Spares.bind (.ask fun e he => ?_) fun plan _ _ => ?_
  · unfold TableSet.single at he
    split at he
    · cases he
    · cases he
      rintro ⟨⟩
  · dsimp only
    split
    · exact .pure _
    · split
      · refine .throw ?_
        rintro ⟨⟩
      · exact .changePlan _ _

omit hlaw in
theorem spares_planSides {planLeft planRight : Planner Unit} (hw : Scoped P condition read w)
    (hl : Plannable False P planLeft) (hspareLeft : Spared P condition read planLeft)
    (hspareRight : Spared P condition read planRight) :
    Spares (planSides planLeft planRight) w := by
  unfold planSides
  refine (spares_copy hw.sound).bind fun left w₁ hcopy₁ => ?_
  obtain ⟨hset₁, hext₁, hcopied₁⟩ := (meets_copy hw.sound).ok hcopy₁
  have hw₁ : Scoped P condition read w₁ := by
    have := hw.extend hext₁
    rwa [← hset₁] at this
  refine (spares_copy hw₁.sound).bind fun right w₂ hcopy₂ => ?_
  obtain ⟨-, hext₂, hcopied₂⟩ := (meets_copy hw₁.sound).ok hcopy₂
  have hleft : Scoped P condition read ⟨left, w₂.context⟩ := (hw.copied hcopied₁).extend hext₂
  have hright : Scoped P condition read ⟨right, w₂.context⟩ := hw₁.copied hcopied₂
  refine .bind_within (hspareLeft _ hleft) fun _ w₃ hact => ?_
  have hext₃ := ((hl _ hleft.sound).ok hact).extends
  exact .bind_within (hspareRight _ (hright.extend hext₃)) fun _ _ _ => .pure _

/-- The sides of an OR are joined, each into one plan. -/
theorem spares_joinSidesWith {order : List ColumnName} {left right now : TableSet} {c : Context}
    (hl : Scoped P condition read ⟨left, c⟩) (hr : Scoped P condition read ⟨right, c⟩) :
    Spares (joinSidesWith condition order left right) ⟨now, c⟩ := by
  unfold joinSidesWith
  refine .bind_within (spares_joinEverythingWith hlaw hl) fun _ w₁ hact => ?_
  have hext := ((meets_joinEverythingWith hlaw hl.sound).ok hact).1.extends
  refine .bind_within (spares_joinEverythingWith hlaw (hr.extend hext)) fun _ _ _ => ?_
  refine .bind_within (spares_reorderColumns order) fun _ _ _ => ?_
  exact .bind_within (spares_reorderColumns order) fun _ _ _ => .pure _

/-- An OR is planned if both of its sides are. -/
theorem spared_planOrWith {planLeft planRight : Planner Unit} (hl : Plannable False P planLeft)
    (hr : Plannable False P planRight) (hspareLeft : Spared P condition read planLeft)
    (hspareRight : Spared P condition read planRight) :
    Spared P condition read (planOrWith condition planLeft planRight) := by
  intro w hw
  unfold planOrWith
  refine spares_cacheForSides.bind fun cached w₁ hcache => .bind_current ?_
  have hw₁ := hw.step ((meets_cacheForSides not_false).ok hcache).1
  refine (spares_planSides hw₁ hl hspareLeft hspareRight).bind fun sides w₂ hsides => ?_
  obtain ⟨left, right⟩ := sides
  obtain ⟨-, hleft, hright⟩ := (meets_planSides not_false hw₁.sound hl hr).ok hsides
  by_cases hshape : mustReshape left right = true
  · simp only [if_pos hshape]
    refine Spares.bind ?_ fun _ _ _ => .modify _
    exact spares_joinSidesWith hlaw (hw₁.side hleft) (hw₁.side hright)
  · simp only [if_neg hshape]
    exact .modify _

/-! ## Filters -/

theorem spared_applyAllWith {placed : List (Predicate × Planner Unit)}
    (hplaced : ∀ y ∈ placed, y.1.Applicable False ∧ (∀ c ∈ y.1.reads, c ∈ read) ∧
      Plannable False P y.2 ∧ Spared P condition read y.2) :
    Spared P condition read (applyAllWith condition placed) := by
  induction placed with
  | nil => exact fun _ _ => .pure _
  | cons y rest ih =>
    intro w hw
    rw [List.forall_mem_cons] at hplaced
    obtain ⟨⟨happlicable, hreads, hplannable, hspared⟩, hrest⟩ := hplaced
    unfold applyAllWith
    refine (spares_applyWith hlaw hspared hw happlicable hreads).bind fun _ w₁ hok => ?_
    exact ih hrest w₁ (hw.step ((meets_applyWith hlaw hplannable hw.sound happlicable).ok hok))

/-- What an agenda is required to list: conjuncts whose columns are among those that are owned,
each with a computation that plans it. -/
def Listed (P : Option Expr → Prop) (condition : ConditionPlanner) (read : List ColumnName)
    (agenda : List (Expr × Planner Unit)) : Prop :=
  ∀ x ∈ agenda, (∀ c ∈ Predicate.readsWithOuter x.1, c ∈ read) ∧ Plannable False P x.2 ∧
    Spared P condition read x.2

theorem spared_planAgendaWith {agenda : List (Expr × Planner Unit)}
    (hagenda : Listed P condition read agenda) :
    Spared P condition read (planAgendaWith condition agenda) := by
  intro w hw
  have howner : ∀ x ∈ agenda, ∀ c ∈ x.1.references, ∃ id, w.set.owner c = .ok id :=
    fun x hx c hc => (hw.owned c ((hagenda x hx).1 c
      (Predicate.mem_readsWithOuter.mpr (Or.inl hc)))).owner hw.sound.answered.nodup
  obtain ⟨placed, hplaced⟩ := TableSet.exists_classifyAll howner
  unfold planAgendaWith
  refine Spares.bind (.ask fun e he => ?_) fun placed' w₁ hask => ?_
  · rw [hplaced] at he
    cases he
  · obtain ⟨hplaced, rfl⟩ := ask_ok.mp hask
    refine spared_applyAllWith hlaw (fun y hy => ?_) w₁ hw
    obtain ⟨x, hx, bucket, hclass, hact⟩ := TableSet.mem_of_classifyAll hplaced hy
    obtain ⟨hreads, hplannable⟩ := hagenda x hx
    refine ⟨TableSet.applicable_of_classifyOne nofun hclass, fun c hc => ?_, hact ▸ hplannable⟩
    exact hreads c ((TableSet.ofConjunct_of_classifyOne hclass).reads c hc)

theorem spared_runAgendaWith {agenda : List (Expr × Planner Unit)}
    (hagenda : Listed P condition read agenda) :
    Spared P condition read (runAgendaWith condition agenda) := by
  unfold runAgendaWith
  split
  · rename_i planOr
    exact (hagenda _ (List.mem_singleton_self _)).2.2
  · exact spared_planAgendaWith hlaw hagenda

theorem listed_agendaWith {filter : Expr}
    (hreads : ∀ c ∈ Predicate.readsWithOuter filter, c ∈ read) :
    Listed P condition read (agendaWith condition filter) := by
  fun_induction agendaWith condition filter with
  | case1 left right ihLeft ihRight =>
    rw [Listed, List.forall_mem_append]
    exact ⟨ihLeft fun c hc => hreads c (Predicate.mem_readsWithOuter_binary.mpr (Or.inl hc)),
      ihRight fun c hc => hreads c (Predicate.mem_readsWithOuter_binary.mpr (Or.inr hc))⟩
  | case2 left right ihLeft ihRight =>
    have hplannable : ∀ e, Plannable False P (runAgendaWith condition (agendaWith condition e)) :=
      fun e => meets_planExpressionWith hlaw False.elim
    have hl := spared_runAgendaWith hlaw
      (ihLeft fun c hc => hreads c (Predicate.mem_readsWithOuter_binary.mpr (Or.inl hc)))
    have hr := spared_runAgendaWith hlaw
      (ihRight fun c hc => hreads c (Predicate.mem_readsWithOuter_binary.mpr (Or.inr hc)))
    refine List.forall_mem_singleton.mpr ⟨hreads, ?_, ?_⟩
    · exact meets_planOrWith hlaw not_false (hplannable left) (hplannable right)
    · exact spared_planOrWith hlaw (hplannable left) (hplannable right) hl hr
  | case3 e =>
    exact List.forall_mem_singleton.mpr ⟨hreads, .pure, fun _ _ => .pure _⟩

/-- A filter is planned if its columns have owners. -/
theorem spared_planExpressionWith {filter : Expr}
    (hreads : ∀ c ∈ Predicate.readsWithOuter filter, c ∈ read) :
    Spared P condition read (planExpressionWith condition filter) :=
  spared_runAgendaWith hlaw (listed_agendaWith hlaw hreads)

/-- Planning over a scoped set does not fail, if the columns of the filter have owners. -/
theorem spares_planWholeWith {filter : Option Expr} (hw : Scoped P condition (readsOf filter) w) :
    Spares (planWholeWith condition filter) w := by
  unfold planWholeWith
  have hne : w.set.tables.isEmpty = false := by
    rw [Bool.eq_false_iff, Ne, List.isEmpty_iff]
    exact hw.sound.nonempty
  refine .bind_current ?_
  simp only [hne, Bool.false_eq_true, if_false]
  -- What is left after the filter is joined.
  have hrest : ∀ w₁, Steps False w w₁ → Spares (do
      let id ← joinEverythingWith condition
      let plan ← ask fun set => set.require id
      change fun set => set.erase id
      return plan) w₁ := fun w₁ hsteps =>
    (spares_joinEverythingWith hlaw (hw.step hsteps)).bind fun _ _ _ =>
      (Spares.require _).bind fun _ _ _ => (Spares.modify _).bind fun _ _ _ => .pure _
  cases filter with
  | none => exact hrest w (.refl w)
  | some filter =>
    refine (spared_planExpressionWith hlaw (fun _ hc => hc) w hw).bind fun _ w₁ hok => ?_
    exact hrest w₁ ((meets_planExpressionWith hlaw nofun w hw.sound).ok hok)

end Planner

end QueryPlan
