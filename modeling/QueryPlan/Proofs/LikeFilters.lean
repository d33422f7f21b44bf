import QueryPlan.Proofs.LikePredicates

/-!
# Filters over sets that are alike

- `cacheForSides_likewise`: the plans that both sides of an OR read are cached
  alike, or in the first run alone.
- `PlanNode.Like.takeOff`: these caches are taken off alike.
- `planOrWith_likewise`, `planExpressionWith_likewise`: ORs and filters are planned
  alike.
- `plan_likewise`: so are filters with what is left as one plan.
-/

namespace QueryPlan

variable {L : Likeness} {s t : TableSet} {condition condition' : ConditionPlanner}

/-! ## Caches for the sides of an OR -/

/-- Whether a plan was cached is the same in both runs, unless the second has no caches. -/
def Likeness.Cached (L : Likeness) (cached cached' : Bool) : Prop :=
  match L.caches? with
  | none => cached' = false
  | some _ => cached' = cached

namespace Likeness

variable {same : Nat → Nat → Prop} {cached cached' : Bool} {c d : Context}

theorem cached_of_none (h : L.caches? = none) : L.Cached cached cached' ↔ cached' = false := by
  unfold Cached
  rw [h]

theorem cached_of_some (h : L.caches? = some same) :
    L.Cached cached cached' ↔ cached' = cached := by
  unfold Cached
  rw [h]

theorem caching_of_none (h : L.caches? = none) : L.Caching c d ↔ d.cacheOrBranches = false := by
  unfold Caching
  rw [h]

theorem caching_of_some (h : L.caches? = some same) :
    L.Caching c d ↔ d.cacheOrBranches = c.cacheOrBranches ∧
      ∀ k, same (c.cacheIds + (k + 1)) (d.cacheIds + (k + 1)) := by
  unfold Caching
  rw [h]

end Likeness

namespace PlanNode.Like

variable {n n' : PlanNode}

theorem isCache_eq {same : Nat → Nat → Prop} (hcaches : L.caches? = some same) (h : n.Like L n') :
    n.isCache = n'.isCache := by
  cases h with
  | bared bare =>
    rw [hcaches] at bare
    cases bare
  | _ => rfl

/-- A cache in the first tree alone does not matter. -/
theorem of_cache {i : Nat} (hbare : L.caches? = none) (h : (PlanNode.cache n i).Like L n') :
    n.Like L n' := by
  cases h with
  | cache caches =>
    rw [hbare] at caches
    cases caches
  | bared _ input => exact input

/-- Trees stay alike when the caches that were put on them are taken off. -/
theorem takeOff {cached cached' : Bool} (hcached : L.Cached cached cached') (h : n.Like L n') :
    ((if cached then PlanNode.withoutCache else id) n).Like L
      ((if cached' then PlanNode.withoutCache else id) n') := by
  cases hcaches : L.caches? with
  | none =>
    obtain rfl := (Likeness.cached_of_none hcaches).mp hcached
    cases cached with
    | false => exact h
    | true =>
      cases n with
      | cache m i => exact h.of_cache hcaches
      | _ => exact h
  | some same =>
    obtain rfl := (Likeness.cached_of_some hcaches).mp hcached
    cases cached' with
    | false => exact h
    | true =>
      have hsame := h.isCache_eq hcaches
      cases n with
      | cache m i =>
        cases h with
        | cache _ input => exact input
        | bared bare =>
          rw [hcaches] at bare
          cases bare
      | _ =>
        cases n' with
        | cache => cases hsame
        | _ => exact h

end PlanNode.Like

/-- Plans without caches are like the same plans with some. -/
theorem cachePlans_bare (hbare : L.caches? = none) (last : Nat) {ps qs : List TablePlan}
    (h : List.Forall₂ (TablePlan.Like L) ps qs) :
    List.Forall₂ (fun x q => x.2.Like L q) (cachePlans last ps).1 qs := by
  induction h generalizing last with
  | nil => exact .nil
  | @cons p q ps qs hpq _ ih =>
    unfold cachePlans
    by_cases hcache : p.executable.isCache = true
    · rw [if_pos hcache]
      exact .cons hpq (ih last)
    · rw [if_neg hcache]
      refine .cons ?_ (ih (last + 1))
      exact ⟨hpq.id, .bared hbare hpq.executable _, hpq.columns, hpq.uniqueKeys, hpq.left,
        hpq.right, hpq.touched⟩

/-- Plans are cached alike where the ids still to come stand for one another. -/
theorem cachePlans_like {same : Nat → Nat → Prop} (hcaches : L.caches? = some same)
    {last last' : Nat} (hids : ∀ k, same (last + (k + 1)) (last' + (k + 1)))
    {ps qs : List TablePlan} (h : List.Forall₂ (TablePlan.Like L) ps qs) :
    List.Forall₂ (fun x y => y.1 = x.1 ∧ x.2.Like L y.2) (cachePlans last ps).1
        (cachePlans last' qs).1 ∧
      ∀ k, same ((cachePlans last ps).2 + (k + 1)) ((cachePlans last' qs).2 + (k + 1)) := by
  induction h generalizing last last' with
  | nil => exact ⟨.nil, hids⟩
  | @cons p q ps qs hpq _ ih =>
    unfold cachePlans
    rw [hpq.executable.isCache_eq hcaches]
    by_cases hcache : q.executable.isCache = true
    · rw [if_pos hcache, if_pos hcache]
      obtain ⟨hrest, hlast⟩ := ih hids
      exact ⟨.cons ⟨rfl, hpq⟩ hrest, hlast⟩
    · rw [if_neg hcache, if_neg hcache]
      have hnext : ∀ k, same (last + 1 + (k + 1)) (last' + 1 + (k + 1)) := by
        intro k
        rw [Nat.add_right_comm last, Nat.add_right_comm last']
        exact hids (k + 1)
      obtain ⟨hrest, hlast⟩ := ih hnext
      refine ⟨.cons ⟨rfl, ?_⟩ hrest, hlast⟩
      exact ⟨hpq.id, .cache hcaches hpq.executable (hids 0), hpq.columns, hpq.uniqueKeys, hpq.left,
        hpq.right, hpq.touched⟩

namespace Planner

/-- The plans that both sides of an OR read are cached alike. -/
theorem cacheForSides_likewise (hors : L.ors) :
    Likewise L (List.Forall₂ L.Cached) cacheForSides cacheForSides := by
  intro w v hw
  have hcontext := hw.context
  have hcaching := hcontext.caching hors
  rw [cacheForSides_eq, cacheForSides_eq]
  -- Either only the first run puts caches on the trees, or both do under ids that are paired.
  cases hcaches : L.caches? with
  | none =>
    rw [Likeness.caching_of_none hcaches] at hcaching
    rw [if_neg (Bool.eq_false_iff.mp hcaching)]
    split
    · have hall := cachePlans_bare hcaches w.context.cacheIds hw.set.tables
      refine .ok ?_ ⟨⟨?_, hw.set.hasJoins⟩, ⟨hcontext.issued, hcontext.names, hcontext.supply,
        fun _ => (Likeness.caching_of_none hcaches).mpr hcaching⟩⟩
      · rw [List.forall₂_map_left_iff, List.forall₂_map_right_iff]
        exact hall.imp fun _ _ _ => (Likeness.cached_of_none hcaches).mpr rfl
      · rw [List.forall₂_map_left_iff]
        exact hall
    · refine .ok ?_ hw
      rw [List.forall₂_map_left_iff, List.forall₂_map_right_iff]
      exact hw.set.tables.imp fun _ _ _ => (Likeness.cached_of_none hcaches).mpr rfl
  | some same =>
    obtain ⟨hon, hids⟩ := (Likeness.caching_of_some hcaches).mp hcaching
    rw [hon]
    split
    · obtain ⟨hall, hnext⟩ := cachePlans_like hcaches hids hw.set.tables
      refine .ok ?_ ⟨⟨?_, hw.set.hasJoins⟩, ⟨hcontext.issued, hcontext.names, hcontext.supply,
        fun _ => (Likeness.caching_of_some hcaches).mpr ⟨hon, hnext⟩⟩⟩
      · rw [List.forall₂_map_left_iff, List.forall₂_map_right_iff]
        exact hall.imp fun _ _ hxy => (Likeness.cached_of_some hcaches).mpr hxy.1
      · rw [List.forall₂_map_left_iff, List.forall₂_map_right_iff]
        exact hall.imp fun _ _ hxy => hxy.2
    · refine .ok ?_ hw
      rw [List.forall₂_map_left_iff, List.forall₂_map_right_iff]
      exact hw.set.tables.imp fun _ _ _ => (Likeness.cached_of_some hcaches).mpr rfl

end Planner

/-! ## The sides of an OR -/

theorem TablePlan.Like.unitePair {l l' r r' : TablePlan} (hl : l.Like L l') (hr : r.Like L r') :
    (unitePair l r).Like L (unitePair l' r') := by
  unfold QueryPlan.unitePair
  rw [hl.touched, hr.touched]
  split
  · exact hl.update (.union hl.executable hr.executable)
  · exact hl

theorem TablePlan.Like.unitePosition {cached cached' : Bool} {p p' l l' r r' : TablePlan}
    (hcached : L.Cached cached cached') (hp : p.Like L p') (hl : l.Like L l') (hr : r.Like L r') :
    (unitePosition cached p l r).Like L (unitePosition cached' p' l' r') := by
  unfold QueryPlan.unitePosition
  rw [hl.touched, hr.touched]
  split
  · exact hl.unitePair hr
  · exact ⟨hl.id, hl.executable.takeOff hcached, hl.columns, hl.uniqueKeys, hl.left, hl.right,
      hp.touched⟩

theorem unitePositions_like {before before' : List (Bool × TablePlan)}
    {ls ls' rs rs' : List TablePlan}
    (hbefore : List.Forall₂ (fun x y => L.Cached x.1 y.1 ∧ x.2.Like L y.2) before before')
    (hl : List.Forall₂ (TablePlan.Like L) ls ls') (hr : List.Forall₂ (TablePlan.Like L) rs rs') :
    List.Forall₂ (TablePlan.Like L) (unitePositions before ls rs)
      (unitePositions before' ls' rs') := by
  induction hbefore generalizing ls ls' rs rs' with
  | nil => exact .nil
  | cons hx _ ih =>
    cases hl with
    | nil => exact .nil
    | cons hlone hl =>
      cases hr with
      | nil => exact .nil
      | cons hrone hr => exact .cons (.unitePosition hx.1 hx.2 hlone hrone) (ih hl hr)

theorem zipWith_unitePair_like {ls ls' rs rs' : List TablePlan}
    (hl : List.Forall₂ (TablePlan.Like L) ls ls') (hr : List.Forall₂ (TablePlan.Like L) rs rs') :
    List.Forall₂ (TablePlan.Like L) (ls.zipWith unitePair rs) (ls'.zipWith unitePair rs') := by
  rw [← List.map_uncurry_zip_eq_zipWith, ← List.map_uncurry_zip_eq_zipWith,
    List.forall₂_map_left_iff, List.forall₂_map_right_iff]
  exact (forall₂_zip hl hr).imp fun _ _ hxy => hxy.1.unitePair hxy.2

/-- The sides of an OR have to be reshaped in both runs or neither. -/
theorem mustReshape_like {l l' r r' : TableSet} (hl : l.Like L l') (hr : r.Like L r') :
    mustReshape l r = mustReshape l' r' := by
  have htouched : List.Forall₂ (fun x y => x.1.Like L y.1 ∧ x.2.Like L y.2)
      ((l.tables.zip r.tables).filter fun x => x.1.touched || x.2.touched)
      ((l'.tables.zip r'.tables).filter fun x => x.1.touched || x.2.touched) :=
    forall₂_filter (fun x y hxy => by rw [hxy.1.touched, hxy.2.touched])
      (forall₂_zip hl.tables hr.tables)
  unfold mustReshape
  simp only [List.countP_eq_length_filter, htouched.length_eq, hl.hasJoins, hr.hasJoins,
    hl.tables.length_eq, hr.tables.length_eq]

theorem columns_like (h : s.Like L t) :
    s.tables.flatMap TablePlan.columns = t.tables.flatMap TablePlan.columns := by
  rw [List.flatMap_def, List.flatMap_def]
  exact congrArg List.flatten (map_eq_of_forall₂ h.tables fun _ _ hpq => hpq.columns).symm

namespace Planner

theorem copy_likewise : Likewise L (TableSet.Like L) copy copy := by
  unfold copy
  refine Likewise.current.bind fun s t hset => ?_
  rw [hset.tables.length_eq]
  exact (Likewise.freshIds _).bind fun _ _ hids => .ask fun _ _ hset => hset.copyAs hids

theorem reorderColumns_likewise (order : List ColumnName) :
    Likewise L Eq (reorderColumns order) (reorderColumns order) := by
  have hsingle : Likewise L (TablePlan.Like L) (ask TableSet.single) (ask TableSet.single) := by
    refine .ask fun s t hset => ?_
    have htables := hset.tables
    unfold TableSet.single
    generalize s.tables = ps at htables
    generalize t.tables = qs at htables
    cases htables with
    | nil => exact .error (.plain fun _ => rfl)
    | cons hpq hrest =>
      cases hrest with
      | nil => exact .ok hpq
      | cons _ hrest =>
        simp only [List.length_cons, hrest.length_eq]
        exact .error (.plain fun _ => rfl)
  unfold reorderColumns
  refine hsingle.bind fun p q hpq => ?_
  rw [hpq.columns]
  split
  · exact .pure rfl
  · split
    · exact .throw (.plain fun _ => rfl)
    · refine changePlan_likewise hpq.id fun p q hpq => ?_
      exact ⟨hpq.id, .project hpq.executable order, rfl, hpq.uniqueKeys, hpq.left, hpq.right, rfl⟩

theorem planSides_likewise {planLeft planLeft' planRight planRight' : Planner Unit}
    (hleft : Likewise L Eq planLeft planLeft') (hright : Likewise L Eq planRight planRight') :
    Likewise L (fun x y => x.1.Like L y.1 ∧ x.2.Like L y.2) (planSides planLeft planRight)
      (planSides planLeft' planRight') := by
  unfold planSides
  refine copy_likewise.bind fun left left' hl => copy_likewise.bind fun right right' hr => ?_
  refine (Likewise.within hl hleft).bind fun _ _ hl => ?_
  exact (Likewise.within hr hright).bind fun _ _ hr => .pure ⟨hl.2, hr.2⟩

section

variable (hcondition : ConditionsLikewise L condition condition')
include hcondition

theorem joinSidesWith_likewise (order : List ColumnName) {left left' right right' : TableSet}
    (hl : left.Like L left') (hr : right.Like L right') :
    Likewise L (fun x y => x.1.Like L y.1 ∧ x.2.Like L y.2)
      (joinSidesWith condition order left right)
      (joinSidesWith condition' order left' right') := by
  unfold joinSidesWith
  refine (Likewise.within hl (joinEverythingWith_likewise hcondition)).bind fun _ _ hl => ?_
  refine (Likewise.within hr (joinEverythingWith_likewise hcondition)).bind fun _ _ hr => ?_
  refine (Likewise.within hl.2 (reorderColumns_likewise order)).bind fun _ _ hl => ?_
  refine (Likewise.within hr.2 (reorderColumns_likewise order)).bind fun _ _ hr => ?_
  exact .pure ⟨hl.2, hr.2⟩

/-- ORs are planned alike if their sides are. -/
theorem planOrWith_likewise (hors : L.ors) {planLeft planLeft' planRight planRight' : Planner Unit}
    (hleft : Likewise L Eq planLeft planLeft') (hright : Likewise L Eq planRight planRight') :
    Likewise L Eq (planOrWith condition planLeft planRight)
      (planOrWith condition' planLeft' planRight') := by
  unfold planOrWith
  refine (cacheForSides_likewise hors).bind fun cached cached' hcached => ?_
  refine Likewise.current.bind fun whole whole' hwhole => ?_
  refine (planSides_likewise hleft hright).bind ?_
  rintro ⟨left, right⟩ ⟨left', right'⟩ ⟨hl, hr⟩
  simp only [mustReshape_like hl hr]
  split
  · rw [columns_like hwhole]
    refine (joinSidesWith_likewise hcondition _ hl hr).bind ?_
    rintro ⟨left, right⟩ ⟨left', right'⟩ ⟨hl, hr⟩
    dsimp only at hl hr
    refine .replaceSet ⟨zipWith_unitePair_like hl.tables hr.tables, ?_⟩
    simp only [hwhole.hasJoins, hl.hasJoins, hr.hasJoins]
  · refine .replaceSet ⟨?_, hwhole.hasJoins⟩
    exact unitePositions_like (forall₂_zip hcached hwhole.tables) hl.tables hr.tables

/-! ## Filters -/

theorem applyAllWith_likewise {placed placed' : List (Predicate × Planner Unit)}
    (h : List.Forall₂ (PredicateLike L (Likewise L Eq)) placed placed') :
    Likewise L Eq (applyAllWith condition placed) (applyAllWith condition' placed') := by
  induction h with
  | nil => exact .pure rfl
  | @cons x y _ _ hxy _ ih =>
    obtain ⟨predicate, planOr⟩ := x
    obtain ⟨_, planOr'⟩ := y
    obtain ⟨rfl, hquery, hor⟩ := hxy
    exact (applyWith_likewise hcondition hor hquery).bind fun _ _ _ => ih

theorem planAgendaWith_likewise {agenda agenda' : List (Expr × Planner Unit)}
    (h : List.Forall₂ (ConjunctLike L (Likewise L Eq)) agenda agenda') :
    Likewise L Eq (planAgendaWith condition agenda) (planAgendaWith condition' agenda') := by
  unfold planAgendaWith
  exact (Likewise.ask fun _ _ hset => hset.classifyAll h).bind
    fun _ _ hplaced => applyAllWith_likewise hcondition hplaced

theorem runAgendaWith_likewise {agenda agenda' : List (Expr × Planner Unit)}
    (h : List.Forall₂ (ConjunctLike L (Likewise L Eq)) agenda agenda') :
    Likewise L Eq (runAgendaWith condition agenda) (runAgendaWith condition' agenda') := by
  by_cases hone : ∃ l r planOr, agenda = [(.binary l .or r, planOr)]
  · obtain ⟨l, r, planOr, rfl⟩ := hone
    obtain ⟨y, _, hxy, hnil, rfl⟩ := List.forall₂_cons_left_iff.mp h
    obtain rfl := List.forall₂_nil_left_iff.mp hnil
    obtain ⟨e, planOr'⟩ := y
    obtain ⟨rfl, -, hor⟩ := hxy
    exact hor
  · have hone' : ¬ ∃ l r planOr, agenda' = [(.binary l .or r, planOr)] := by
      rintro ⟨l, r, planOr', rfl⟩
      obtain ⟨x, _, hxy, hnil, rfl⟩ := List.forall₂_cons_right_iff.mp h
      obtain rfl := List.forall₂_nil_right_iff.mp hnil
      obtain ⟨e, planOr⟩ := x
      obtain ⟨rfl, -, -⟩ := hxy
      exact hone ⟨l, r, planOr, rfl⟩
    rw [runAgendaWith_eq hone, runAgendaWith_eq hone']
    exact planAgendaWith_likewise hcondition h

/-- The conjuncts of a filter are planned alike. -/
theorem agendaWith_likewise {filter : Expr} (hquery : ∀ plan ∈ filter.queries, L.queries plan)
    (hor : ¬ L.ors → ∀ part ∈ filter.conjuncts, part.isOr = false) :
    List.Forall₂ (ConjunctLike L (Likewise L Eq)) (agendaWith condition filter)
      (agendaWith condition' filter) := by
  fun_induction agendaWith condition filter with
  | case1 left right ihLeft ihRight =>
    simp only [Expr.queries, Expr.conjuncts, List.forall_mem_append] at hquery hor
    show List.Forall₂ _ _ (agendaWith condition' left ++ agendaWith condition' right)
    exact List.rel_append (ihLeft hquery.1 fun h => (hor h).1) (ihRight hquery.2 fun h => (hor h).2)
  | case2 left right ihLeft ihRight =>
    have hors : L.ors := by
      by_contra hnot
      have := hor hnot _ (List.mem_singleton_self _)
      cases this
    refine .cons ⟨rfl, hquery, ?_⟩ .nil
    simp only [Expr.queries, List.forall_mem_append] at hquery
    refine planOrWith_likewise hcondition hors (runAgendaWith_likewise hcondition ?_)
      (runAgendaWith_likewise hcondition ?_)
    · exact ihLeft hquery.1 fun hnot => absurd hors hnot
    · exact ihRight hquery.2 fun hnot => absurd hors hnot
  | case3 e hnotAnd hnotOr =>
    rw [agendaWith.eq_3 condition' e hnotAnd hnotOr]
    exact .cons ⟨rfl, hquery, .pure rfl⟩ .nil

/-- Filters are planned alike. -/
theorem planExpressionWith_likewise {filter : Expr} (h : Admits L.queries L.ors (some filter)) :
    Likewise L Eq (planExpressionWith condition filter) (planExpressionWith condition' filter) :=
  runAgendaWith_likewise hcondition
    (agendaWith_likewise hcondition (h filter rfl).1 (h filter rfl).2)

/-- Filters are planned alike, with what is left as one plan. -/
theorem planWholeWith_likewise {filter : Option Expr} (h : Admits L.queries L.ors filter) :
    Likewise L (TablePlan.Like L) (planWholeWith condition filter)
      (planWholeWith condition' filter) := by
  -- With or without a filter, what is left is joined into one plan and taken out.
  have hrest : Likewise L (TablePlan.Like L) (do
      let id ← joinEverythingWith condition
      let plan ← ask fun set => set.require id
      change fun set => set.erase id
      return plan) (do
      let id ← joinEverythingWith condition'
      let plan ← ask fun set => set.require id
      change fun set => set.erase id
      return plan) := by
    refine (joinEverythingWith_likewise hcondition).bind fun id id' hid => ?_
    refine (require_likewise hid).bind fun plan plan' hplan => ?_
    exact (Likewise.change fun _ _ hset => hset.erase hid).bind fun _ _ _ => .pure hplan
  have hempty : ∀ s t : TableSet, s.Like L t → s.tables.isEmpty = t.tables.isEmpty := by
    intro s t hset
    rw [Bool.eq_iff_iff, List.isEmpty_iff_length_eq_zero, List.isEmpty_iff_length_eq_zero,
      hset.tables.length_eq]
  unfold planWholeWith
  refine Likewise.current.bind fun s t hset => ?_
  rw [hempty s t hset]
  by_cases hnil : t.tables.isEmpty = true
  · rw [if_pos hnil, if_pos hnil]
    show Likewise L (TablePlan.Like L) (throw .emptyTableSet) (throw .emptyTableSet)
    exact .throw (.plain fun _ => rfl)
  · rw [if_neg hnil, if_neg hnil]
    cases filter with
    | none => exact hrest
    | some filter =>
      exact (planExpressionWith_likewise hcondition h).bind fun _ _ _ => hrest

end

end Planner

/-- The planner of conditions goes alike with itself. -/
theorem planCondition_likewise (L : Likeness) :
    ConditionsLikewise L planCondition planCondition := by
  have hnone : ConditionsLikewise L noCondition noCondition := fun _ _ =>
    .throw (.plain fun _ => rfl)
  intro on hon
  unfold planCondition
  exact (Planner.planWholeWith_likewise hnone hon).bind fun _ _ hplan => .pure hplan.executable

/-- Filters are planned alike over sets that are alike. -/
theorem plan_likewise {filter : Option Expr} (h : Admits L.queries L.ors filter) :
    Likewise L (TablePlan.Like L) (Planner.plan filter) (Planner.plan filter) :=
  Planner.planWholeWith_likewise (planCondition_likewise L) h

end QueryPlan
