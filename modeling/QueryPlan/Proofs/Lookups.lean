import QueryPlan.Proofs.SoundFilters

/-!
# Which columns are looked up

- `Finds`: a computation that succeeds only if something holds, such as that a
  column was looked up.
- `finds_applyWith`: to apply a predicate finds the columns that it looks up first.
- `Reading`: a predicate that reads all columns of its conjunct.
- `finds_planOrWith`: an OR finds what one of its sides does.
- `exposed_of_planWholeWith`: planning finds all columns of a filter among those of
  the plans.
-/

namespace QueryPlan

variable {α β : Type} {I : Workspace → Prop} {Found : Prop} {plain : Prop}
  {P : Option Expr → Prop} {condition : ConditionPlanner} {c : ColumnName}

/-! ## Runs that succeed -/

/-- Runs that succeed keep the invariant. -/
def Keeps (I : Workspace → Prop) (act : Planner α) : Prop :=
  ∀ w a w', I w → act w = .ok a w' → I w'

/-- Runs succeed, from workspaces with the invariant, only if something is so. -/
def Finds (I : Workspace → Prop) (Found : Prop) (act : Planner α) : Prop :=
  ∀ w a w', I w → act w = .ok a w' → Found

theorem Keeps.bind {x : Planner α} {f : α → Planner β} (hx : Keeps I x)
    (hf : ∀ a, Keeps I (f a)) : Keeps I (x >>= f) := by
  intro w b w' hI h
  obtain ⟨a, w₁, hxa, hfb⟩ := Planner.bind_ok.mp h
  exact hf a w₁ b w' (hx w a w₁ hI hxa) hfb

namespace Finds

variable {x : Planner α} {f : α → Planner β}

theorem first (hx : Finds I Found x) : Finds I Found (x >>= f) := by
  intro w b w' hI h
  obtain ⟨a, w₁, hxa, -⟩ := Planner.bind_ok.mp h
  exact hx w a w₁ hI hxa

theorem after (hx : Keeps I x) (hf : ∀ a, Finds I Found (f a)) : Finds I Found (x >>= f) := by
  intro w b w' hI h
  obtain ⟨a, w₁, hxa, hfb⟩ := Planner.bind_ok.mp h
  exact hf a w₁ b w' (hx w a w₁ hI hxa) hfb

end Finds

/-! ## Owners -/

/-- Whether `Found` is so where the column has an owner. -/
def Lookup (I : Workspace → Prop) (Found : Prop) (column : ColumnName) : Prop :=
  Finds I Found (Planner.ask fun set => set.owner column)

namespace Planner

theorem finds_ownerWith (hfound : Lookup I Found c) : Finds I Found (ownerWith condition c) :=
  Finds.first hfound

/-- The owners of columns are looked up and resolved one after another. -/
theorem resolveOwnersWith_cons (column : ColumnName) (rest : List ColumnName) :
    resolveOwnersWith condition (column :: rest) =
      ownerWith condition column >>= fun _ => resolveOwnersWith condition rest := by
  unfold ownerWith
  rw [bind_assoc]
  rfl

theorem finds_resolveOwnersWith (howner : ∀ column, Keeps I (ownerWith condition column))
    {columns : List ColumnName} (hc : c ∈ columns) (hfound : Lookup I Found c) :
    Finds I Found (resolveOwnersWith condition columns) := by
  induction columns with
  | nil => cases hc
  | cons column rest ih =>
    rw [resolveOwnersWith_cons]
    rcases List.mem_cons.mp hc with rfl | hc
    · exact (finds_ownerWith hfound).first
    · exact .after (howner column) fun _ => ih hc

theorem finds_joinReadersWith (howner : ∀ column, Keeps I (ownerWith condition column))
    {columns : List ColumnName} (hc : c ∈ columns) (hfound : Lookup I Found c) :
    Finds I Found (joinReadersWith condition columns) := by
  cases columns with
  | nil => cases hc
  | cons column rest => exact (finds_resolveOwnersWith howner hc hfound).first

end Planner

/-! ## Predicates -/

namespace Planner

/-- A comparison finds the columns of its left side, and those of its right side if the plans of the
left side are joined without a loss. -/
theorem finds_applyStandardJoinWith (howner : ∀ column, Keeps I (ownerWith condition column))
    {left right : Expr} {op : BinaryOp} (hc : c ∈ (Expr.binary left op right).references)
    (hlate : c ∈ left.references ∨ left.references = [] ∨
      Keeps I (joinReadersWith condition left.references))
    (hfound : Lookup I Found c) :
    Finds I Found (applyStandardJoinWith condition (.binary left op right)) := by
  rcases Expr.constant_or_reads left right with hconstant | ⟨first, hfirst, hleft, hright⟩
  · rw [applyStandardJoinWith_of_constant hconstant]
    exact (finds_joinReadersWith howner hc hfound).first
  · rw [applyStandardJoinWith_of_reads hleft hright]
    by_cases hin : c ∈ left.references
    · exact (finds_joinReadersWith howner hin hfound).first
    · have hkeeps := (hlate.resolve_left hin).resolve_left (List.ne_nil_of_mem hfirst)
      have hin' := (Expr.mem_references_binary.mp hc).resolve_left hin
      exact .after hkeeps fun _ => (finds_joinReadersWith howner hin' hfound).first

/-- To apply a predicate finds the columns that it reads; an OR finds what planning it does. -/
theorem finds_applyWith (howner : ∀ column, Keeps I (ownerWith condition column))
    {planOr : Planner Unit} {predicate : Predicate} (hc : c ∈ predicate.reads)
    (hlate : ∀ left op right mixed, predicate = .standardJoin (.binary left op right) mixed →
      c ∈ left.references ∨ left.references = [] ∨
        Keeps I (joinReadersWith condition left.references))
    (hor : ∀ expr joinable, predicate = .subLogic expr joinable → Finds I Found planOr)
    (hfound : Lookup I Found c) : Finds I Found (applyWith condition planOr predicate) := by
  have hone : ∀ {column : ColumnName}, c ∈ [column] →
      Finds I Found (ownerWith condition column) := by
    intro column hc
    obtain rfl := List.mem_singleton.mp hc
    exact finds_ownerWith hfound
  unfold applyWith
  cases predicate with
  | constant _ => cases hc
  | simpleSingle column _ _ => exact (hone hc).first
  | complexSingle column _ => exact (hone hc).first
  | simplePattern column _ _ _ => exact (hone hc).first
  | complexPattern _ _ => exact (finds_joinReadersWith howner hc hfound).first
  | simpleSubQuery column _ _ _ => exact (hone hc).first
  | standardJoin expr mixed =>
    cases expr with
    | binary left op right =>
      exact finds_applyStandardJoinWith howner hc (hlate left op right mixed rfl) hfound
    | _ =>
      rintro w a w' - ⟨⟩
  | exhaustiveJoin _ _ => exact (finds_joinReadersWith howner hc hfound).first
  | subLogic expr joinable => exact hor expr joinable rfl
  | exhaustiveSubQuery _ _ => exact (finds_joinReadersWith howner hc hfound).first

end Planner

/-! ## Conjuncts -/

namespace Expr

/-- What is neither an AND nor an OR is not logical. -/
theorem isLogical_eq_false {e : Expr} (hand : ∀ left right, e = .binary left .and right → False)
    (hor : ∀ left right, e = .binary left .or right → False) : e.isLogical = Bool.false := by
  cases e with
  | binary left op right =>
    cases op with
    | and => exact (hand left right rfl).elim
    | or => exact (hor left right rfl).elim
    | _ => rfl
  | _ => rfl

end Expr

/-- Whether plans may be joined to apply the predicate: it weighs more than a pattern match within
one plan. -/
def Predicate.isHeavy (predicate : Predicate) : Bool := decide (27 < predicate.weight)

/-- The predicate reads all columns of the conjunct `e`. It is a join on `e` only if that compares a
column, an OR just if `e` is logical, and light if `e` reads one column at most. -/
structure Reading (e : Expr) (predicate : Predicate) : Prop where
  reads : ∀ c ∈ e.references, c ∈ predicate.reads
  joins : ∀ expr mixed, predicate = .standardJoin expr mixed → expr = e ∧ e.comparesColumn = true
  logic : (∃ expr joinable, predicate = .subLogic expr joinable) ↔ e.isLogical = true
  light : e.references.length ≤ 1 → e.isLogical = false → predicate.isHeavy = false

namespace Reading

variable {e : Expr} {set : TableSet} {predicate : Predicate}

/-- A predicate that is neither a join on a comparison nor an OR and reads what `e` does is light,
or `e` reads several columns. -/
theorem of_reads (hlogic : e.isLogical = false) (hordinary : predicate.isOrdinary = true)
    (hreads : e.references = predicate.reads)
    (hlight : predicate.isHeavy = false ∨ 1 < e.references.length) : Reading e predicate := by
  refine ⟨fun c hc => hreads ▸ hc, ?_, ?_, fun h _ => hlight.resolve_right (Nat.not_lt.mpr h)⟩
  · rintro expr mixed rfl
    cases hordinary
  · rw [hlogic]
    refine iff_of_false ?_ Bool.false_ne_true
    rintro ⟨expr, joinable, rfl⟩
    cases hordinary

theorem of_kind (hsub : e.hasSubQuery = false) (hlogic : e.isLogical = false)
    (h : predicate.KindOf set e) : Reading e predicate := by
  cases h with
  | constant _ unread =>
    exact of_reads hlogic rfl (Predicate.references_eq_nil unread) (Or.inl rfl)
  | columnLeft _ read | columnRight _ _ read | complexSingle _ read | simplePattern _ read =>
    exact of_reads hlogic rfl read (Or.inl rfl)
  | complexPattern => exact of_reads hlogic rfl rfl (Or.inl rfl)
  | simpleSubQuery shape =>
    subst shape
    cases hsub
  | standardJoin _ _ compares several =>
    refine ⟨fun c hc => hc, ?_, ?_, fun h _ => absurd h (Nat.not_le.mpr several)⟩
    · rintro expr mixed ⟨⟩
      exact ⟨rfl, compares⟩
    · rw [hlogic]
      exact iff_of_false (by rintro ⟨_, _, ⟨⟩⟩) Bool.false_ne_true
  | exhaustiveJoin _ several => exact of_reads hlogic rfl rfl (Or.inr several)
  | exhaustiveSubQuery _ nested =>
    rw [hsub] at nested
    cases nested

theorem of_subLogic (hlogic : e.isLogical = true) (joinable : Bool) :
    Reading e (.subLogic e joinable) := by
  refine ⟨fun c hc => hc, by rintro _ _ ⟨⟩, iff_of_true ⟨_, _, rfl⟩ hlogic, fun _ hnot => ?_⟩
  rw [hlogic] at hnot
  cases hnot

/-- What a conjunct is classified as reads its columns. -/
theorem of_classifyOne {placed : Bucket × Predicate} (hsub : e.hasSubQuery = false)
    (h : set.classifyOne e = .ok (some placed)) : Reading e placed.2 := by
  rcases TableSet.kind_of_classifyOne h with ⟨hlogic, joinable, hplaced⟩ | ⟨hlogic, hkind⟩
  · rw [hplaced]
    exact of_subLogic hlogic joinable
  · exact of_kind hsub hlogic hkind

end Reading

/-! ## Conjuncts in turn -/

namespace Planner

/-- Of predicates that are applied in turn, one finds something if those before it keep the
invariant. -/
theorem finds_applyAllWith {before after : List (Predicate × Planner Unit)}
    {y : Predicate × Planner Unit}
    (hbefore : ∀ z ∈ before, Keeps I (applyWith condition z.2 z.1))
    (hy : Finds I Found (applyWith condition y.2 y.1)) :
    Finds I Found (applyAllWith condition (before ++ y :: after)) := by
  induction before with
  | nil => exact hy.first
  | cons z rest ih =>
    rw [List.forall_mem_cons] at hbefore
    exact .after hbefore.1 fun _ => ih hbefore.2

end Planner

/-! ## ORs -/

/-- The workspaces with sound sets that satisfy `Q`. -/
def Over (P : Option Expr → Prop) (Q : TableSet → Prop) (w : Workspace) : Prop :=
  Sound P w ∧ Q w.set

/-- What holds of a set holds with nodes on its trees, and of its copies. -/
structure Lasting (Q : TableSet → Prop) : Prop where
  covered : ∀ {set : TableSet} {tables : List TablePlan} {hasJoins : Bool}, Q set →
    List.Forall₂ (TablePlan.Covers False) set.tables tables → Q ⟨tables, hasJoins⟩
  copied : ∀ {set copy : TableSet} {c : Context}, Q set → set.Copied copy c → Q copy

namespace Planner

variable {Q : TableSet → Prop}

theorem keeps_cacheForSides (hQ : Lasting Q) : Keeps (Over P Q) cacheForSides := by
  intro w cached w' ⟨hw, hset⟩ h
  have hsteps : Steps False w w' := ((meets_cacheForSides id).ok h).1
  refine ⟨hsteps.sound hw, ?_⟩
  rw [cacheForSides_eq] at h
  split at h <;> cases h
  · exact hQ.covered hset (covers_cachePlans _ _)
  · exact hset

/-- Both sides are planned over copies: what one of them finds is found. -/
theorem finds_planSides (hQ : Lasting Q) {planLeft planRight : Planner Unit}
    (hleft : Plannable False P planLeft)
    (hfinds : Finds (Over P Q) Found planLeft ∨ Finds (Over P Q) Found planRight) :
    Finds (Over P Q) Found (planSides planLeft planRight) := by
  intro w sides w' ⟨hw, hset⟩ h
  unfold planSides at h
  obtain ⟨left, w₁, hcopy₁, h⟩ := bind_ok.mp h
  obtain ⟨right, w₂, hcopy₂, h⟩ := bind_ok.mp h
  obtain ⟨l, _, hwithin, h⟩ := bind_ok.mp h
  obtain ⟨w₃, hl, -, rfl⟩ := within_ok.mp hwithin
  obtain ⟨r, _, hwithin', -⟩ := bind_ok.mp h
  obtain ⟨w₄, hr, -, -⟩ := within_ok.mp hwithin'
  obtain ⟨hset₁, hext₁, hcopied₁⟩ := (meets_copy hw).ok hcopy₁
  have hw₁ : Sound P w₁ := by
    have := hw.extend hext₁
    rwa [← hset₁] at this
  obtain ⟨hset₂, hext₂, hcopied₂⟩ := (meets_copy hw₁).ok hcopy₂
  have hleftSide : Over P Q ⟨left, w₂.context⟩ :=
    ⟨(hw.copied hcopied₁).extend hext₂, hQ.copied hset hcopied₁⟩
  rcases hfinds with hfinds | hfinds
  · exact hfinds _ _ _ hleftSide hl
  · have hsteps := (hleft _ hleftSide.1).ok hl
    have hrightSide : Over P Q ⟨right, w₃.context⟩ :=
      ⟨(hw₁.copied hcopied₂).extend hsteps.extends, hQ.copied (hset₁ ▸ hset) hcopied₂⟩
    exact hfinds _ _ _ hrightSide hr

/-- An OR finds what one of its sides does. -/
theorem finds_planOrWith (hQ : Lasting Q) {planLeft planRight : Planner Unit}
    (hleft : Plannable False P planLeft)
    (hfinds : Finds (Over P Q) Found planLeft ∨ Finds (Over P Q) Found planRight) :
    Finds (Over P Q) Found (planOrWith condition planLeft planRight) := by
  unfold planOrWith
  refine .after (keeps_cacheForSides hQ) fun cached => ?_
  refine .after ?_ fun whole => (finds_planSides hQ hleft hfinds).first
  intro w set w' hI h
  obtain ⟨-, rfl⟩ := current_ok.mp h
  exact hI

end Planner

namespace Planner

/-- What is joined after the filter adds nothing to what the filter finds. -/
theorem finds_planWholeWith {filter : Expr}
    (hfinds : Finds I Found (planExpressionWith condition filter)) :
    Finds I Found (planWholeWith condition (some filter)) := by
  intro w plan w' hI h
  unfold planWholeWith at h
  obtain ⟨set, w₁, hcurrent, h⟩ := bind_ok.mp h
  obtain ⟨rfl, rfl⟩ := current_ok.mp hcurrent
  by_cases hempty : w₁.set.tables.isEmpty = true
  · simp only [hempty, if_true] at h
    obtain ⟨_, _, hthrow, -⟩ := bind_ok.mp h
    exact (throw_ok.mp hthrow).elim
  · simp only [hempty] at h
    exact hfinds.first w₁ plan w' hI h

end Planner

/-! ## Columns of a filter -/

/-- Whether a column resolves to one of `cols`. -/
def Exposed (cols : List ColumnName) (c : ColumnName) : Prop :=
  ∃ column ∈ cols, c.resolvesTo column = true

/-- The sets whose plans have the columns `cols`, in some order. -/
def HasColumns (cols : List ColumnName) (set : TableSet) : Prop :=
  (set.tables.flatMap TablePlan.columns).Perm cols

variable {cols : List ColumnName}

theorem lasting_hasColumns (cols : List ColumnName) : Lasting (HasColumns cols) where
  covered h hcovers := by
    unfold HasColumns at h ⊢
    rwa [flatMap_columns_of_forall₂ (hcovers.imp fun _ _ h => h.columns)]
  copied h hcopied := by
    unfold HasColumns at h ⊢
    rwa [flatMap_columns_of_forall₂ (hcopied.copies.imp fun _ _ h => h.alike.columns)]

/-- Steps neither lose a column nor add one. -/
theorem keeps_of_steps {act : Planner α}
    (h : ∀ w, Sound P w → Planner.Meets act w fun _ w' => Steps False w w') :
    Keeps (Over P (HasColumns cols)) act := by
  rintro w a w' ⟨hw, hcols⟩ hact
  have hsteps := (h w hw).ok hact
  exact ⟨hsteps.sound hw, (hsteps.columns_perm hw).trans hcols⟩

/-- The owner of a column exposes it. -/
theorem lookup_exposed (c : ColumnName) :
    Lookup (Over P (HasColumns cols)) (Exposed cols c) c := by
  rintro w id w' ⟨-, hcols⟩ h
  obtain ⟨howner, -⟩ := Planner.ask_ok.mp h
  obtain ⟨⟨p, hp, -, hexposes⟩, -⟩ := owner_ok howner
  obtain ⟨column, hcolumn, hresolves⟩ := List.any_eq_true.mp hexposes
  exact ⟨column, hcols.mem_iff.mp (List.mem_flatMap.mpr ⟨p, hp, hcolumn⟩), hresolves⟩

namespace Planner

/-- An agenda finds the columns of its conjuncts, if the ORs among them do. -/
theorem finds_planAgendaWith (hlaw : ConditionLaw False P condition)
    {agenda : List (Expr × Planner Unit)} {x : Expr × Planner Unit} (hx : x ∈ agenda)
    (hplannable : ∀ x ∈ agenda, Plannable False P x.2) (hsub : x.1.hasSubQuery = false)
    (hor : x.1.isLogical = true → Finds (Over P (HasColumns cols)) (Exposed cols c) x.2)
    (hc : c ∈ x.1.references) :
    Finds (Over P (HasColumns cols)) (Exposed cols c) (planAgendaWith condition agenda) := by
  intro w u w' hI h
  unfold planAgendaWith at h
  obtain ⟨placed, _, hask, h⟩ := bind_ok.mp h
  obtain ⟨hplaced, rfl⟩ := ask_ok.mp hask
  obtain ⟨y, hy, bucket, hclass, hcarry⟩ :=
    TableSet.exists_of_classifyAll hplaced hx (Expr.isTrue_of_reads hc)
  have hreading : Reading x.1 y.1 := .of_classifyOne hsub hclass
  obtain ⟨before, after, rfl⟩ := List.append_of_mem hy
  refine finds_applyAllWith (fun z hz => ?_) ?_ _ _ _ hI h
  · obtain ⟨x', hx', bucket', hclass', hcarry'⟩ :=
      TableSet.mem_of_classifyAll hplaced (List.mem_append_left _ hz)
    exact keeps_of_steps fun w hw => meets_applyWith hlaw (hcarry' ▸ hplannable x' hx') hw
      (TableSet.applicable_of_classifyOne False.elim hclass')
  · refine finds_applyWith (fun column => ?_) (hreading.reads c hc) ?_ ?_ (lookup_exposed c)
    · exact keeps_of_steps fun w hw => (meets_ownerWith hlaw hw column).imp fun _ _ h => h.1
    · intro left op right mixed _
      refine Or.inr (Or.inr (keeps_of_steps fun w hw => ?_))
      exact (meets_joinReadersWith hlaw hw _).imp fun _ _ h => h.1
    · intro expr joinable hpredicate
      rw [hcarry]
      exact hor (hreading.logic.mp ⟨expr, joinable, hpredicate⟩)

/-- A filter that is an OR is not classified. -/
theorem finds_runAgendaWith (hlaw : ConditionLaw False P condition)
    {agenda : List (Expr × Planner Unit)} {x : Expr × Planner Unit} (hx : x ∈ agenda)
    (hplannable : ∀ x ∈ agenda, Plannable False P x.2) (hsub : x.1.hasSubQuery = false)
    (hor : x.1.isLogical = true → Finds (Over P (HasColumns cols)) (Exposed cols c) x.2)
    (hc : c ∈ x.1.references) :
    Finds (Over P (HasColumns cols)) (Exposed cols c) (runAgendaWith condition agenda) := by
  unfold runAgendaWith
  split
  · obtain rfl := List.mem_singleton.mp hx
    exact hor rfl
  · exact finds_planAgendaWith hlaw hx hplannable hsub hor hc

theorem exists_of_mem_references {filter : Expr} (hc : c ∈ filter.references) :
    ∃ x ∈ agendaWith condition filter, c ∈ x.1.references := by
  fun_induction agendaWith condition filter with
  | case1 left right ihLeft ihRight =>
    simp only [List.mem_append]
    rcases Expr.mem_references_binary.mp hc with hc | hc
    · obtain ⟨x, hx, hcx⟩ := ihLeft hc
      exact ⟨x, Or.inl hx, hcx⟩
    · obtain ⟨x, hx, hcx⟩ := ihRight hc
      exact ⟨x, Or.inr hx, hcx⟩
  | case2 => exact ⟨_, List.mem_singleton_self _, hc⟩
  | case3 e => exact ⟨_, List.mem_singleton_self _, hc⟩

/-- The ORs of a filter find their columns. -/
theorem finds_of_mem_agendaWith (hlaw : ConditionLaw False P condition) {filter : Expr}
    (hsub : filter.hasSubQuery = false) :
    ∀ x ∈ agendaWith condition filter, x.1.hasSubQuery = false ∧ (x.1.isLogical = true →
      ∀ c ∈ x.1.references, Finds (Over P (HasColumns cols)) (Exposed cols c) x.2) := by
  have hplannable : ∀ e, ∀ x ∈ agendaWith condition e, Plannable False P x.2 :=
    fun e x hx => (plannable_agendaWith hlaw False.elim x hx).2
  -- The induction is on the filter as it is taken apart. A column of an OR is read on one of the
  -- sides, where it is looked up by the conjunct that reads it or by an OR further inside.
  fun_induction agendaWith condition filter with
  | case1 left right ihLeft ihRight =>
    rw [Expr.hasSubQuery, Bool.or_eq_false_iff] at hsub
    rw [List.forall_mem_append]
    exact ⟨ihLeft hsub.1, ihRight hsub.2⟩
  | case2 left right ihLeft ihRight =>
    rw [List.forall_mem_singleton]
    refine ⟨hsub, fun _ c hc => ?_⟩
    rw [Expr.hasSubQuery, Bool.or_eq_false_iff] at hsub
    have hleft : Plannable False P (runAgendaWith condition (agendaWith condition left)) :=
      meets_planExpressionWith hlaw False.elim
    refine finds_planOrWith (lasting_hasColumns cols) hleft ?_
    rcases Expr.mem_references_binary.mp hc with hc | hc
    · obtain ⟨x, hx, hcx⟩ := exists_of_mem_references hc
      obtain ⟨hsubx, hor⟩ := ihLeft hsub.1 x hx
      exact Or.inl (finds_runAgendaWith hlaw hx (hplannable left) hsubx (fun h => hor h c hcx) hcx)
    · obtain ⟨x, hx, hcx⟩ := exists_of_mem_references hc
      obtain ⟨hsubx, hor⟩ := ihRight hsub.2 x hx
      exact Or.inr (finds_runAgendaWith hlaw hx (hplannable right) hsubx (fun h => hor h c hcx) hcx)
  | case3 e hand hor =>
    rw [List.forall_mem_singleton]
    refine ⟨hsub, fun hlogic => ?_⟩
    rw [Expr.isLogical_eq_false hand hor] at hlogic
    cases hlogic

/-- A filter finds its columns. -/
theorem finds_planExpressionWith (hlaw : ConditionLaw False P condition) {filter : Expr}
    (hsub : filter.hasSubQuery = false) (hc : c ∈ filter.references) :
    Finds (Over P (HasColumns cols)) (Exposed cols c) (planExpressionWith condition filter) := by
  obtain ⟨x, hx, hcx⟩ := exists_of_mem_references hc
  obtain ⟨hsubx, hor⟩ := finds_of_mem_agendaWith hlaw hsub x hx
  exact finds_runAgendaWith hlaw hx
    (fun x hx => (plannable_agendaWith hlaw False.elim x hx).2) hsubx (fun h => hor h c hcx) hcx

end Planner

/-- A filter that is planned reads only columns of the plans. -/
theorem exposed_of_planWholeWith (hlaw : ConditionLaw False P condition) {filter : Expr}
    (hsub : filter.hasSubQuery = false) {w w' : Workspace} {plan : TablePlan} (hw : Sound P w)
    (h : Planner.planWholeWith condition (some filter) w = .ok plan w')
    (hc : c ∈ filter.references) : ∃ p ∈ w.set.tables, p.exposes c = true := by
  have hfinds : Finds (Over P (HasColumns (w.set.tables.flatMap TablePlan.columns)))
      (Exposed (w.set.tables.flatMap TablePlan.columns) c)
      (Planner.planWholeWith condition (some filter)) :=
    Planner.finds_planWholeWith (Planner.finds_planExpressionWith hlaw hsub hc)
  obtain ⟨column, hcolumn, hresolves⟩ := hfinds w plan w' ⟨hw, .refl _⟩ h
  obtain ⟨p, hp, hcolumn⟩ := List.mem_flatMap.mp hcolumn
  exact ⟨p, hp, List.any_eq_true.mpr ⟨column, hcolumn, hresolves⟩⟩

end QueryPlan
