import QueryPlan.Proofs.LightPredicates

/-!
# Columns with one owner

Light predicates leave the plans of a set apart. Their columns are looked up among
the plans as they were given, and so are those of the first predicate after them.

- `Expr.readsEarly`: the columns of a filter that are looked up before any plans
  are joined.
- `sole_of_planWholeWith`: such a column is exposed by just one of the plans, if no
  outer join pads one.
- `exposes_of_planQuery`: every column of a filter that is planned is exposed, and
  by just one plan if the plans tell it apart.
- `not_sole_of_planQuery`: a column that is looked up late may be ambiguous.
-/

namespace QueryPlan

variable {P : Option Expr → Prop} {condition : ConditionPlanner} {w w' : Workspace}
  {c : ColumnName} {shape : List (List ColumnName)} {set : TableSet}

/-! ## Columns that are looked up early -/

namespace Expr

/-- The columns of a conjunct that are looked up before any plans are joined for it. Of a comparison
of several columns with one alone, these are the columns on the left. -/
def firstColumns : Expr → List ColumnName
  | .binary left op right =>
    if op.isComparison && right.asReference?.isSome && decide (1 < left.references.length) then
      left.references
    else (Expr.binary left op right).references
  | e => e.references

/-- Of conjuncts that are planned together, each with its own early columns, the columns that are
looked up before any plans are joined: all of those for which none are joined, and of one more. -/
def earlyColumns (parts : List (Expr × List ColumnName)) : List ColumnName :=
  (parts.filter fun part => !part.1.isLoud ||
    decide (parts.countP (fun part => part.1.isLoud) ≤ 1)).flatMap Prod.snd

/-- The conjuncts of a filter, each with the columns that are looked up before any plans are joined
for it. Both sides of an OR are planned over plans of their own. -/
def firstReads : Expr → List (Expr × List ColumnName)
  | .binary left .and right => firstReads left ++ firstReads right
  | .binary left .or right =>
    [(.binary left .or right, earlyColumns (firstReads left) ++ earlyColumns (firstReads right))]
  | e => [(e, e.firstColumns)]

/-- The columns of a filter that are looked up before any plans are joined. -/
def readsEarly (filter : Expr) : List ColumnName := earlyColumns (firstReads filter)

variable {e : Expr} {parts : List (Expr × List ColumnName)}

theorem mem_earlyColumns (h : c ∈ earlyColumns parts) :
    ∃ part ∈ parts, c ∈ part.2 ∧
      (part.1.isLoud = Bool.false ∨ parts.countP (fun part => part.1.isLoud) ≤ 1) := by
  obtain ⟨part, hpart, hc⟩ := List.mem_flatMap.mp h
  obtain ⟨hpart, hearly⟩ := List.mem_filter.mp hpart
  rw [Bool.or_eq_true, Bool.not_eq_true', decide_eq_true_eq] at hearly
  exact ⟨part, hpart, hc, hearly⟩

theorem mem_references_of_mem_firstColumns (h : c ∈ e.firstColumns) : c ∈ e.references := by
  unfold firstColumns at h
  split at h
  · split at h
    · exact mem_references_binary.mpr (Or.inl h)
    · exact h
  · exact h

/-- What is looked up for a conjunct is read by it and by the filter. -/
theorem mem_references_of_mem_firstReads {filter : Expr} {part : Expr × List ColumnName}
    (hpart : part ∈ filter.firstReads) (hc : c ∈ part.2) :
    c ∈ part.1.references ∧ c ∈ filter.references := by
  fun_induction firstReads filter generalizing part with
  | case1 left right ihLeft ihRight =>
    rw [mem_references_binary]
    rcases List.mem_append.mp hpart with hpart | hpart
    · exact ⟨(ihLeft hpart hc).1, Or.inl (ihLeft hpart hc).2⟩
    · exact ⟨(ihRight hpart hc).1, Or.inr (ihRight hpart hc).2⟩
  | case2 left right ihLeft ihRight =>
    obtain rfl := List.mem_singleton.mp hpart
    rw [mem_references_binary, and_self]
    rcases List.mem_append.mp hc with hc | hc
    · obtain ⟨part, hpart, hc, -⟩ := mem_earlyColumns hc
      exact Or.inl (ihLeft hpart hc).2
    · obtain ⟨part, hpart, hc, -⟩ := mem_earlyColumns hc
      exact Or.inr (ihRight hpart hc).2
  | case3 e =>
    obtain rfl := List.mem_singleton.mp hpart
    exact ⟨mem_references_of_mem_firstColumns hc, mem_references_of_mem_firstColumns hc⟩

/-- A column alone is the only one that it reads. -/
theorem references_of_asReference {column : ColumnName} (h : e.asReference? = some column) :
    e.references = [column] := by
  obtain rfl := eq_of_asReference h
  rfl

/-- Of a comparison with a column alone, all columns are looked up early, or those on the left. -/
theorem mem_left_of_mem_firstColumns {left right : Expr} {op : BinaryOp}
    (hcompares : (Expr.binary left op right).comparesColumn = Bool.true)
    (h : c ∈ (Expr.binary left op right).firstColumns) :
    c ∈ left.references ∨ left.references.length ≤ 1 := by
  by_cases hseveral : 1 < left.references.length
  · obtain ⟨hcmp, hside⟩ := Bool.and_eq_true_iff.mp hcompares
    -- What reads several columns is no column alone, so that the right side is.
    have hright : right.asReference?.isSome = Bool.true := by
      refine ((Bool.or_eq_true _ _).mp hside).resolve_left fun hleft => ?_
      obtain ⟨column, hcolumn⟩ := Option.isSome_iff_exists.mp hleft
      rw [references_of_asReference hcolumn] at hseveral
      exact absurd hseveral (lt_irrefl 1)
    simp only [firstColumns, hcmp, hright, hseveral, decide_true, Bool.and_self, if_true] at h
    exact Or.inl h
  · exact Or.inr (Nat.not_lt.mp hseveral)

end Expr

/-! ## Conjuncts in turn -/

/-- A conjunct with its early columns, and with the computation that plans it: they are looked up
early when the conjunct is applied to plans that are still apart. -/
structure Early (P : Option Expr → Prop) (shape : List (List ColumnName))
    (part : Expr × List ColumnName) (x : Expr × Planner Unit) : Prop where
  same : part.1 = x.1
  plain : x.1.hasSubQuery = false
  reads : ∀ c ∈ part.2, c ∈ x.1.references
  first : x.1.isLogical = false → ∀ c ∈ part.2, c ∈ x.1.firstColumns
  logic : x.1.isLogical = true → ∀ c ∈ part.2, Finds (Over P (HasShape shape)) (Sole shape c) x.2

variable {parts : List (Expr × List ColumnName)} {agenda : List (Expr × Planner Unit)}

theorem countP_isLoud_eq (h : List.Forall₂ (Early P shape) parts agenda) :
    (agenda.countP fun x => x.1.isLoud) = parts.countP fun part => part.1.isLoud := by
  have hsame : agenda.map Prod.fst = parts.map Prod.fst :=
    map_eq_of_forall₂ h fun _ _ h => h.same.symm
  have hcount := congrArg (List.countP Expr.isLoud) hsame
  rwa [List.countP_map, List.countP_map] at hcount

/-- What comes before a light predicate, or before the only heavy one, is light. -/
theorem light_before {before after : List (Predicate × Planner Unit)}
    {y : Predicate × Planner Unit}
    (hsorted : (before ++ y :: after).Pairwise fun y z => y.1.weight ≤ z.1.weight)
    (h : y.1.isHeavy = false ∨ ((before ++ y :: after).countP fun y => y.1.isHeavy) ≤ 1) :
    ∀ z ∈ before, z.1.isHeavy = false := by
  intro z hz
  have hle : z.1.weight ≤ y.1.weight :=
    (List.pairwise_append.mp hsorted).2.2 z hz y List.mem_cons_self
  rw [Bool.eq_false_iff]
  intro hzheavy
  have hyheavy : y.1.isHeavy = true := decide_eq_true ((of_decide_eq_true hzheavy).trans_le hle)
  rcases h with hlight | hone
  · rw [hyheavy] at hlight
    cases hlight
  · have hpos : 0 < before.countP fun y => y.1.isHeavy := List.countP_pos_iff.mpr ⟨z, hz, hzheavy⟩
    rw [List.countP_append, List.countP_cons, if_pos hyheavy] at hone
    omega

namespace Planner

/-- The predicate of a conjunct finds the owners of its early columns. -/
theorem finds_sole_applyWith {part : Expr × List ColumnName} {x : Expr × Planner Unit}
    {predicate : Predicate} (hearly : Early P shape part x) (hreading : Reading x.1 predicate)
    (hc : c ∈ part.2) :
    Finds (Over P (HasShape shape)) (Sole shape c) (applyWith condition x.2 predicate) := by
  cases hlogic : x.1.isLogical with
  | true =>
    obtain ⟨expr, joinable, rfl⟩ := hreading.logic.mpr hlogic
    exact hearly.logic hlogic c hc
  | false =>
    refine finds_applyWith keeps_ownerWith (hreading.reads c (hearly.reads c hc)) ?_ ?_
      (lookup_sole c)
    · -- The plans of a left side with one column are not joined with others.
      intro left op right mixed hpredicate
      obtain ⟨heq, hcompares⟩ := hreading.joins _ _ hpredicate
      have hfirst := hearly.first hlogic c hc
      rw [← heq] at hcompares hfirst
      refine (Expr.mem_left_of_mem_firstColumns hcompares hfirst).imp_right fun hlength => ?_
      rcases hleft : left.references with _ | ⟨column, _ | ⟨second, rest⟩⟩
      · exact Or.inl rfl
      · exact Or.inr (keeps_joinReadersWith_single column)
      · rw [hleft] at hlength
        exact absurd hlength (by simp)
    · intro expr joinable hpredicate
      have := hreading.logic.mp ⟨expr, joinable, hpredicate⟩
      rw [hlogic] at this
      cases this

/-- The predicates before that of a conjunct leave the plans apart, if it is quiet or the only loud
one. -/
theorem keeps_before {before after : List (Predicate × Planner Unit)} {y : Predicate × Planner Unit}
    {x : Expr × Planner Unit} (hids : (set.tables.map TablePlan.id).Nodup)
    (hsub : ∀ x ∈ agenda, x.1.hasSubQuery = false) (hreading : Reading x.1 y.1)
    (hplaced : set.classifyAll agenda = .ok (before ++ y :: after))
    (hquiet : x.1.isLoud = false ∨ (agenda.countP fun x => x.1.isLoud) ≤ 1) :
    ∀ z ∈ before, Keeps (Over P (HasShape (set.tables.map TablePlan.columns)))
      (applyWith condition z.2 z.1) := by
  have hlight : ∀ z ∈ before, z.1.isHeavy = false := by
    refine light_before (TableSet.pairwise_of_classifyAll hplaced) ?_
    rcases hquiet with hquiet | hone
    · refine Or.inl (Bool.eq_false_iff.mpr fun hheavy => ?_)
      rw [hreading.isLoud_of_isHeavy hheavy] at hquiet
      cases hquiet
    · exact Or.inr ((TableSet.countP_isHeavy_le hsub hplaced).trans hone)
  intro z hz
  refine keeps_applyWith_of_light (hlight z hz) fun expr columns hpattern => ?_
  obtain ⟨x', hx', bucket, hclass, -⟩ :=
    TableSet.mem_of_classifyAll hplaced (List.mem_append_left _ hz)
  rw [hpattern] at hclass
  obtain ⟨id, hcommon⟩ := TableSet.exists_commonOwner_of_classifyOne hclass
  exact hasOneOwner_of_commonOwner hids hcommon

/-- What is looked up early has just one owner. -/
theorem finds_sole_planAgendaWith (hparts : List.Forall₂ (Early P shape) parts agenda)
    (hc : c ∈ Expr.earlyColumns parts) :
    Finds (Over P (HasShape shape)) (Sole shape c) (planAgendaWith condition agenda) := by
  rintro w u w' ⟨hw, rfl, hnone⟩ h
  unfold planAgendaWith at h
  rw [bind_ok] at h
  obtain ⟨placed, w, hask, h⟩ := h
  obtain ⟨hplaced, rfl⟩ := ask_ok.mp hask
  have hsub : ∀ x ∈ agenda, x.1.hasSubQuery = false := by
    intro x hx
    obtain ⟨part, -, hearly⟩ := exists_left_of_forall₂ hparts hx
    exact hearly.plain
  obtain ⟨part, hpart, hcpart, hquiet⟩ := Expr.mem_earlyColumns hc
  obtain ⟨x, hx, hearly⟩ := exists_right_of_forall₂ hparts hpart
  rw [hearly.same, ← countP_isLoud_eq hparts] at hquiet
  obtain ⟨y, hy, bucket, hclass, hcarry⟩ :=
    TableSet.exists_of_classifyAll hplaced hx (Expr.isTrue_of_reads (hearly.reads c hcpart))
  have hreading : Reading x.1 y.1 := .of_classifyOne hearly.plain hclass
  obtain ⟨before, after, rfl⟩ := List.append_of_mem hy
  have hbefore : ∀ z ∈ before, Keeps (Over P (HasShape (w.set.tables.map TablePlan.columns)))
      (applyWith condition z.2 z.1) :=
    keeps_before hw.answered.nodup hsub hreading hplaced hquiet
  refine finds_applyAllWith hbefore ?_ w u w' ⟨hw, rfl, hnone⟩ h
  rw [hcarry]
  exact finds_sole_applyWith hearly hreading hcpart

theorem finds_sole_runAgendaWith (hparts : List.Forall₂ (Early P shape) parts agenda)
    (hc : c ∈ Expr.earlyColumns parts) :
    Finds (Over P (HasShape shape)) (Sole shape c) (runAgendaWith condition agenda) := by
  unfold runAgendaWith
  split
  · obtain ⟨part, hpart, hcpart, -⟩ := Expr.mem_earlyColumns hc
    obtain ⟨x, hx, hearly⟩ := exists_right_of_forall₂ hparts hpart
    obtain rfl := List.mem_singleton.mp hx
    exact hearly.logic rfl c hcpart
  · exact finds_sole_planAgendaWith hparts hc

/-- The conjuncts of a filter look up their early columns. -/
theorem early_agendaWith (hlaw : ConditionLaw False P condition) {filter : Expr}
    (hsub : filter.hasSubQuery = false) :
    List.Forall₂ (Early P shape) filter.firstReads (agendaWith condition filter) := by
  fun_induction agendaWith condition filter with
  | case1 left right ihLeft ihRight =>
    rw [Expr.hasSubQuery, Bool.or_eq_false_iff] at hsub
    exact List.rel_append (ihLeft hsub.1) (ihRight hsub.2)
  | case2 left right ihLeft ihRight =>
    have hreads : ∀ c ∈ Expr.earlyColumns left.firstReads ++ Expr.earlyColumns right.firstReads,
        c ∈ (Expr.binary left .or right).references := fun c hc =>
      (Expr.mem_references_of_mem_firstReads (List.mem_singleton_self _) hc).2
    refine .cons ⟨rfl, hsub, hreads, by rintro ⟨⟩, fun _ c hc => ?_⟩ .nil
    rw [Expr.hasSubQuery, Bool.or_eq_false_iff] at hsub
    have hleft : Plannable False P (runAgendaWith condition (agendaWith condition left)) :=
      meets_planExpressionWith hlaw False.elim
    refine finds_planOrWith (lasting_hasShape shape) hleft ?_
    exact (List.mem_append.mp hc).imp (finds_sole_runAgendaWith (ihLeft hsub.1))
      (finds_sole_runAgendaWith (ihRight hsub.2))
  | case3 e hand hor =>
    have hparts : e.firstReads = [(e, e.firstColumns)] := by
      unfold Expr.firstReads
      split
      · exact (hand _ _ rfl).elim
      · exact (hor _ _ rfl).elim
      · rfl
    rw [hparts]
    refine .cons ⟨rfl, hsub, fun c => Expr.mem_references_of_mem_firstColumns, fun _ c hc => hc,
      fun hlogic => ?_⟩ .nil
    rw [Expr.isLogical_eq_false hand hor] at hlogic
    cases hlogic

end Planner

/-! ## Filters -/

/-- A column that is looked up early has one owner. -/
theorem sole_of_planWholeWith (hlaw : ConditionLaw False P condition) {filter : Expr}
    (hsub : filter.hasSubQuery = false) (hw : Sound P w)
    (hnone : ∀ p ∈ w.set.tables, p.nullPaddedBy? = none) {plan : TablePlan}
    (h : Planner.planWholeWith condition (some filter) w = .ok plan w')
    (hc : c ∈ filter.readsEarly) : (w.set.tables.countP fun p => p.exposes c) = 1 := by
  have hfinds : Finds (Over P (HasShape (w.set.tables.map TablePlan.columns)))
      (Sole (w.set.tables.map TablePlan.columns) c)
      (Planner.planWholeWith condition (some filter)) :=
    Planner.finds_planWholeWith
      (Planner.finds_sole_runAgendaWith (Planner.early_agendaWith hlaw hsub) hc)
  exact sole_iff.mp (hfinds w plan w' ⟨hw, rfl, hnone⟩ h)

/-- No plan with inner links only is padded by an outer join. -/
theorem nullPaddedBy_eq_none_of_inner {tables : List TablePlan} (h : Answered tables)
    (hinner : ∀ p ∈ tables, ∀ link, p.right = some link → link.joinType = .inner) :
    ∀ p ∈ tables, p.nullPaddedBy? = none := by
  intro p hp
  rw [← padding_eq_none_iff]
  cases hpad : p.padding? with
  | none => rfl
  | some link =>
    obtain ⟨side, hlink, hpads⟩ := TablePlan.exists_side_of_padding hpad
    -- A link on the left is answered by one of the same type on the right.
    have htype : link.joinType = .inner := by
      cases side with
      | right => exact hinner p hp link hlink
      | left =>
        obtain ⟨q, hq, -, -, back, hback, -, hsame⟩ := h.back .left p hp link hlink
        exact hsame ▸ hinner q hq back hback
    rw [htype] at hpads
    cases side <;> cases hpads

/-- A name with a table resolves to itself only. -/
theorem ColumnName.eq_of_resolvesTo {column : ColumnName} (htable : c.table ≠ none)
    (h : c.resolvesTo column = true) : column = c := by
  obtain ⟨table, name⟩ := c
  obtain ⟨table', name'⟩ := column
  unfold resolvesTo at h
  cases table with
  | none => exact absurd rfl htable
  | some t =>
    simp only [Bool.and_eq_true, beq_iff_eq] at h
    obtain ⟨rfl, rfl⟩ := h
    rfl

theorem TablePlan.mem_columns_of_exposes {p : TablePlan} (htable : c.table ≠ none)
    (h : p.exposes c = true) : c ∈ p.columns := by
  obtain ⟨column, hcolumn, hresolves⟩ := List.any_eq_true.mp h
  rwa [ColumnName.eq_of_resolvesTo htable hresolves] at hcolumn

/-- A column with a table is exposed by one of several plans that have no columns in common. -/
theorem countP_exposes_of_disjoint {tables : List TablePlan}
    (hids : (tables.map TablePlan.id).Nodup)
    (hdisjoint : ∀ p ∈ tables, ∀ q ∈ tables, p.id ≠ q.id → ∀ column ∈ p.columns,
      column ∉ q.columns)
    (htable : c.table ≠ none) {p : TablePlan} (hp : p ∈ tables) (hexposes : p.exposes c = true) :
    (tables.countP fun p => p.exposes c) = 1 := by
  refine countP_exposes_of_id hids hp hexposes fun q hq hqc => ?_
  by_contra hne
  exact hdisjoint q hq p hp hne c (TablePlan.mem_columns_of_exposes htable hqc)
    (TablePlan.mem_columns_of_exposes htable hexposes)

/-- Whether the plans tell a column of a filter apart: the column names its table, and no two plans
have a column in common; or all links are inner, and the filter reads the column early. -/
def TableSet.TellsApart (set : TableSet) (filter : Expr) (c : ColumnName) : Prop :=
  (c.table ≠ none ∧ ∀ p ∈ set.tables, ∀ q ∈ set.tables, p.id ≠ q.id → ∀ column ∈ p.columns,
    column ∉ q.columns) ∨
  ((∀ p ∈ set.tables, ∀ link, p.right = some link → link.joinType = .inner) ∧
    c ∈ filter.readsEarly)

/-- Each column of a filter that is planned is exposed by some plan, and by just one if the plans
tell it apart. -/
theorem exposes_of_planQuery {uuids : Identifiers} {settings : Settings}
    {supply supply' : PlanId.Supply} {filter : Expr} {plan : TablePlan}
    (hids : (set.tables.map TablePlan.id).Nodup)
    (hgiven : ∀ p ∈ set.tables, p.id.number < supply.next) (hvalid : set.validateLinks = .ok ())
    (hsub : filter.hasSubQuery = false)
    (h : planQuery uuids settings set (some filter) supply = .ok plan supply') :
    ∀ c ∈ filter.references, (∃ p ∈ set.tables, p.exposes c = true) ∧
      (set.TellsApart filter c → (set.tables.countP fun p => p.exposes c) = 1) := by
  intro c hc
  obtain ⟨w, hplan⟩ := planQuery_ok h
  have hw : Sound (fun on => ∀ e, on = some e → False → e.isPlain = true)
      ⟨set, .start uuids settings supply⟩ :=
    sound_of_validateLinks (nonempty_of_planQuery h) hids hgiven hvalid
      fun _ _ _ _ _ _ _ h => h.elim
  have hlaw := conditionLaw_planCondition False
  obtain ⟨p, hp, hexposes⟩ := exposed_of_planWholeWith hlaw hsub hw hplan hc
  refine ⟨⟨p, hp, hexposes⟩, ?_⟩
  rintro (⟨htable, hdisjoint⟩ | ⟨hinner, hearly⟩)
  · exact countP_exposes_of_disjoint hids hdisjoint htable hp hexposes
  · have hnone := nullPaddedBy_eq_none_of_inner hw.answered hinner
    exact sole_of_planWholeWith hlaw hsub hw hnone hplan hearly

/-- The plan of a table with a column `k` and another one. -/
def TablePlan.keyed (number : Nat) (table column : String) : TablePlan :=
  .base ⟨number⟩ table ["k", column]

/-- An inner link that compares the columns that both tables have, and a filter that reads others
without their tables. -/
theorem exposes_of_planQuery_pair :
    let on := Expr.binary (.reference (.qualified "a" "k")) .eq (.reference (.qualified "b" "k"))
    let set : TableSet := ⟨[(TablePlan.keyed 1 "a" "x").withRight ⟨⟨2⟩, .inner, some on⟩,
      (TablePlan.keyed 2 "b" "y").withLeft ⟨⟨1⟩, .inner, some on⟩], false⟩
    let x := ColumnName.unqualified "x"
    let y := ColumnName.unqualified "y"
    let filter := Expr.binary (.binary (.reference x) .lt (.reference y)) .and
      (.unary .isNotNull (.reference y))
    ∃ plan supply', planQuery .blank default set (some filter) ⟨3⟩ = .ok plan supply' ∧
      filter.references = [x, y] ∧ ∀ c ∈ filter.references,
        (set.tables.countP fun p => p.exposes c) = 1 := by
  intro on set x y filter
  have hok : resultWith (fun _ _ => ())
      (planQuery .blank default set (some filter) ⟨3⟩) = some () := by
    decide +kernel
  obtain ⟨plan, supply', h, -⟩ := exists_of_resultWith hok
  have hinner : ∀ p ∈ set.tables, ∀ link, p.right = some link → link.joinType = .inner := by
    simp only [set, List.forall_mem_cons]
    exact ⟨by rintro _ ⟨⟩; rfl, by rintro _ ⟨⟩, List.forall_mem_nil _⟩
  have hearly : ∀ c ∈ filter.references, c ∈ filter.readsEarly := by decide +kernel
  have hids : (set.tables.map TablePlan.id).Nodup := by
    show [(⟨1⟩ : PlanId), ⟨2⟩].Nodup
    decide
  have hgiven : ∀ p ∈ set.tables, p.id.number < 3 := by
    simp only [set, List.forall_mem_cons]
    exact ⟨(by decide : 1 < 3), (by decide : 2 < 3), List.forall_mem_nil _⟩
  have hvalid : set.validateLinks = .ok () := by decide +kernel
  refine ⟨plan, supply', h, by decide +kernel, fun c hc => ?_⟩
  exact (exposes_of_planQuery hids hgiven hvalid (by decide) h c hc).2
    (Or.inr ⟨hinner, hearly c hc⟩)

/-- A comparison of several columns with one alone looks that up after the plans of the others were
joined, and does not find that it is ambiguous. With its sides exchanged, the comparison is
rejected. -/
theorem not_sole_of_planQuery :
    let set : TableSet := ⟨[TablePlan.keyed 1 "a" "x", TablePlan.keyed 2 "b" "y"], false⟩
    let k := ColumnName.unqualified "k"
    let sum := Expr.binary (.reference (.qualified "a" "x")) .add (.reference (.qualified "b" "y"))
    let filter := Expr.binary sum .eq (.reference k)
    set.validateLinks = .ok () ∧ filter.hasSubQuery = false ∧ k ∈ filter.references ∧
      (set.tables.countP fun p => p.exposes k) = 2 ∧
      (∃ plan supply', planQuery .blank default set (some filter) ⟨3⟩ = .ok plan supply') ∧
      ∃ supply', planQuery .blank default set (some (.binary (.reference k) .eq sum)) ⟨3⟩ =
        .error (.ambiguousColumn k 2) supply' := by
  intro set k sum filter
  have hok : resultWith (fun _ _ => ())
      (planQuery .blank default set (some filter) ⟨3⟩) = some () := by
    decide +kernel
  obtain ⟨plan, supply', h, -⟩ := exists_of_resultWith hok
  refine ⟨by decide +kernel, by decide, by decide +kernel, by decide, ⟨plan, supply', h⟩, ⟨⟨3⟩, ?_⟩⟩
  rfl

end QueryPlan
