import QueryPlan.Proofs.Conserved
import QueryPlan.Proofs.ScopedFilters

/-!
# Queries that are always planned

- `resolvable_of_owned`: a condition is planned over copies of two plans, if just
  one of the two exposes each column that it reads.
- `planQuery_complete`: without full joins, a filter is planned over any set where
  just one plan exposes each column that is read, and conditions only read the
  plans that they join.
-/

namespace QueryPlan

/-- A condition is planned over copies of two plans, of which just one exposes each column that it
reads. -/
theorem resolvable_of_owned {on : Option Expr} {l r : TablePlan}
    (h : ∀ c ∈ readsOf on, l.exposes c = true ∧ r.exposes c = false ∨
      l.exposes c = false ∧ r.exposes c = true) : Resolvable planCondition on l r := by
  intro x y c hxy
  have hpair : Unlinked (pairOf x y c) := Sound.pair
  have howned : ∀ column ∈ readsOf on, Owned (pairOf x y c).set.tables column := by
    intro column hc
    rw [owned_iff hpair.answered.nodup]
    obtain ⟨hx, hy⟩ := hxy column hc
    have hcount : ((pairOf x y c).set.tables.countP fun p => p.exposes column) =
        [x.exposes column, y.exposes column].countP id := rfl
    rw [hcount, hx, hy]
    rcases h column hc with ⟨hl, hr⟩ | ⟨hl, hr⟩ <;> rw [hl, hr] <;> rfl
  have hscoped : Scoped _ noCondition (readsOf on) (pairOf x y c) := .of_unlinked hpair howned
  unfold planCondition
  exact (Planner.spares_planWholeWith (conditionLaw_unlinked False noCondition) hscoped).bind
    fun _ _ _ => .pure _

/-- A query is planned over a scoped set whose links pass their check. -/
theorem planQuery_ok_of_scoped {uuids : Identifiers} {settings : Settings} {set : TableSet}
    {supply : PlanId.Supply} {filter : Option Expr} (hvalid : set.validateLinks = .ok ())
    (hscoped : Scoped (fun _ => True) planCondition (readsOf filter)
      ⟨set, .start uuids settings supply⟩) :
    ∃ plan supply', planQuery uuids settings set filter supply = .ok plan supply' := by
  have hlaw := conditionLaw_any
  obtain ⟨plan, w', hplan, -⟩ := (Planner.meets_planWholeWith hlaw nofun hscoped.sound).succeeds
    (Planner.spares_planWholeWith hlaw hscoped)
  have hcheck :
      (if settings.planning.validateLinks then set.validateLinks else .ok ()) = .ok () := by
    rw [hvalid, ite_self]
  refine ⟨plan, w'.context.supply, ?_⟩
  unfold planQuery
  simp only [hcheck, Planner.plan, hplan]

/-- A link fits if each column of its condition has an owner, which is one of the two plans. -/
theorem JoinLink.Between.fits {tables : List TablePlan} {link : JoinLink} {l r : TablePlan}
    (h : link.Between l r) (hanswered : Answered tables) (hl : l ∈ tables) (hr : r ∈ tables)
    (hfull : link.joinType ≠ .full)
    (howner : ∀ c ∈ readsOf link.on, Owned tables c ∧
      ∃ q ∈ tables, q.exposes c = true ∧ (q.id = l.id ∨ q.id = r.id)) :
    link.Fits planCondition tables l r := by
  have hne := h.ne hanswered hl hr
  refine ⟨hfull, fun c hc p hp hexposes => ?_, resolvable_of_owned fun c hc => ?_⟩
  · obtain ⟨howned, q, hq, hqc, hid⟩ := howner c hc
    rwa [howned.id_eq hp hexposes hq hqc]
  · obtain ⟨howned, q, hq, hqc, hid | hid⟩ := howner c hc
    · obtain rfl := hanswered.eq_of_id hq hl hid
      refine Or.inl ⟨hqc, Bool.eq_false_iff.mpr fun hrc => ?_⟩
      exact hne (howned.id_eq hl hqc hr hrc)
    · obtain rfl := hanswered.eq_of_id hq hr hid
      refine Or.inr ⟨Bool.eq_false_iff.mpr fun hlc => ?_, hqc⟩
      exact hne (howned.id_eq hl hlc hr hqc)

/-- A filter is planned over plans under handles of their own, which were given out before, with
links that pass their check and are no full joins, if just one plan exposes each column of the
filter, and just one each column of a condition, one of the two that the condition joins. -/
theorem planQuery_complete {uuids : Identifiers} {settings : Settings} {set : TableSet}
    {supply : PlanId.Supply} {filter : Option Expr} (hne : set.tables ≠ [])
    (hids : (set.tables.map TablePlan.id).Nodup)
    (hgiven : ∀ p ∈ set.tables, p.id.number < supply.next) (hvalid : set.validateLinks = .ok ())
    (hfull : ∀ p ∈ set.tables, ∀ side link, p.linkOn side = some link → link.joinType ≠ .full)
    (hconditions : ∀ p ∈ set.tables, ∀ side link, p.linkOn side = some link →
      ∀ c ∈ readsOf link.on, (set.tables.countP fun q => q.exposes c) = 1 ∧
        ∃ q ∈ set.tables, q.exposes c = true ∧ (q.id = p.id ∨ q.id = link.target))
    (hfilter : ∀ c ∈ readsOf filter, (set.tables.countP fun p => p.exposes c) = 1) :
    ∃ plan supply', planQuery uuids settings set filter supply = .ok plan supply' := by
  have hw : Sound (fun _ => True) ⟨set, .start uuids settings supply⟩ :=
    sound_of_validateLinks hne hids hgiven hvalid fun _ _ _ _ _ => trivial
  have hfits : ∀ l ∈ set.tables, ∀ r ∈ set.tables, ∀ link : JoinLink, link.Between l r →
      link.Fits planCondition set.tables l r := by
    intro l hl r hr link hbetween
    rcases id hbetween with ⟨hlink, htarget⟩ | ⟨hlink, htarget⟩
    · refine hbetween.fits hw.answered hl hr (hfull l hl _ link hlink) fun c hc => ?_
      obtain ⟨hone, q, hq, hexposes, hid⟩ := hconditions l hl _ link hlink c hc
      exact ⟨(owned_iff hids).mpr hone, q, hq, hexposes, htarget ▸ hid⟩
    · refine hbetween.fits hw.answered hl hr (hfull r hr _ link hlink) fun c hc => ?_
      obtain ⟨hone, q, hq, hexposes, hid⟩ := hconditions r hr _ link hlink c hc
      exact ⟨(owned_iff hids).mpr hone, q, hq, hexposes, htarget ▸ hid.symm⟩
  have hscoped : Scoped _ planCondition (readsOf filter) ⟨set, .start uuids settings supply⟩ :=
    ⟨hw, fun c hc => (owned_iff hids).mpr (hfilter c hc), hfits⟩
  exact planQuery_ok_of_scoped hvalid hscoped

/-- A chain of left joins with an OR as a filter. -/
theorem planQuery_complete_chain :
    let set : TableSet := ⟨chainOfOnes .left (.binary (columnOf "a") .eq (columnOf "b"))
      (.binary (columnOf "b") .lt (columnOf "c")), false⟩
    let filter := Expr.binary (.binary (columnOf "a") .eq (columnOf "c")) .or
      (.unary .isNull (columnOf "b"))
    ∃ plan supply', planQuery .blank default set (some filter) ⟨4⟩ = .ok plan supply' := by
  intro set filter
  have hset : CheckedTables ones literals ⟨4⟩ set .left :=
    chainOfOnes_checked (.refl _) rfl ⟨rfl, by decide⟩ ⟨rfl, by decide⟩
  refine planQuery_complete (List.cons_ne_nil _ _) hset.base.ids hset.base.given hset.valid
    ?_ ?_ (by decide)
  all_goals
    simp only [set, chainOfOnes, List.forall_mem_cons]
    refine ⟨?_, ?_, ?_, List.forall_mem_nil _⟩
    all_goals rintro (_ | _) link hlink <;> cases hlink <;> decide

end QueryPlan
