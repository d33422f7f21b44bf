import Mathlib
import QueryPlan.Proofs.Completeness
import QueryPlan.Proofs.LinksPlanned

/-!
# Filters over queries that can be planned

A filter joins some plans earlier than planning without a filter does. The
condition of a link is then planned over copies of smaller plans.

- `planQuery_resolvable`: if a query can be planned without a filter, it can be
  planned with one whose columns have one owner each, where conditions read no
  columns of other plans than the two that they join, and no link is lost.
- `not_planQuery_resolvable`: a condition that reads a third table may keep a filter
  from being planned.
-/

namespace QueryPlan

/-- Links that agree have one condition, up to constants. -/
theorem JoinLink.outline_of_agrees {a b : JoinLink} (h : a.agrees b = true) :
    outlineOfEscape a.on = outlineOfEscape b.on := by
  unfold agrees at h
  have hon : (a.on == b.on) = true := (Bool.and_eq_true_iff.mp h).2
  cases ha : a.on with
  | none =>
    cases hb : b.on with
    | none => rfl
    | some _ =>
      rw [ha, hb] at hon
      cases hon
  | some x =>
    cases hb : b.on with
    | none =>
      rw [ha, hb] at hon
      cases hon
    | some y =>
      rw [ha, hb] at hon
      have hxy : x.same y = true := hon
      exact congrArg some (Expr.outline_of_same hxy)

variable {uuids uuids' : Identifiers} {settings : Settings} {set : TableSet}
  {supply supply' later : PlanId.Supply} {plan : TablePlan} {pairings : List Pairing}
  {result : EStateM.Result PlanError Workspace (Option PlanId)}

/-- The links of a set that passes its check are confined, if no condition reads columns of other
plans than the two that it joins. -/
theorem confined_of_validateLinks (hvalid : set.validateLinks = .ok ())
    (hlocal : ∀ p ∈ set.tables, ∀ side link, p.linkOn side = some link → ∀ c ∈ readsOf link.on,
      ∀ q ∈ set.tables, q.exposes c = true → q.id = p.id ∨ q.id = link.target)
    (hids : (set.tables.map TablePlan.id).Nodup) {l r : TablePlan} (hl : l ∈ set.tables)
    (hr : r ∈ set.tables) {a b : JoinLink} (hab : LinkSides l r a b) :
    Confined set.tables l r a b := by
  obtain ⟨q, hget, back, hback, -, hagrees⟩ := (validateLinks_ok hvalid).1 l hl .right a hab.right
  obtain ⟨hq, hid⟩ := TableSet.mem_of_get? hget
  obtain rfl := eq_of_id_of_nodup hids hq hr (hid.trans hab.target)
  obtain rfl := Option.some.inj (hback.symm.trans hab.left)
  refine ⟨JoinLink.joinType_eq_of_agrees hagrees, (JoinLink.outline_of_agrees hagrees).symm, ?_⟩
  intro c hc p hp hexposes
  rw [← hab.target]
  exact hlocal l hl .right a hab.right c hc p hp hexposes

/-- Where each plan has a table that is named for it, a plan without a node that joins across two
links tells that no link was lost. -/
theorem not_losesLink_of_joinsSeveral {own : PlanId → String}
    (hids : (set.tables.map TablePlan.id).Nodup)
    (hgiven : ∀ p ∈ set.tables, p.id.number < supply.next) (hvalid : set.validateLinks = .ok ())
    (hown : ∀ p ∈ set.tables, own p.id ∈ p.executable.sources)
    (hplan : planQuery uuids settings set none supply = .ok plan supply')
    (hsingly : plan.executable.joinsSeveral (set.linkEndsOf own) = false)
    (hrun : JoinRun planCondition set.ids ⟨set, .start uuids settings supply⟩ pairings result) :
    ∀ x ∈ pairings, ¬ x.LosesLink := by
  have hw : Sound (fun _ => True) ⟨set, .start uuids settings supply⟩ :=
    sound_of_validateLinks (nonempty_of_planQuery hplan) hids hgiven hvalid fun _ _ _ _ _ => trivial
  obtain ⟨w, hwhole⟩ := planQuery_ok hplan
  obtain ⟨id, w₁, hall, hsingle⟩ := Planner.joinAllWith_of_planWholeWith hw hwhole
  obtain rfl := hrun.eq_joinAllWith.symm.trans hall
  intro x hx hlost
  obtain ⟨t, ht, hseveral⟩ := hrun.joinsSeveral hw (.of_own hown hw.answered) ⟨x, hx, hlost⟩
  rw [hsingle, List.mem_singleton] at ht
  rw [ht, hsingly] at hseveral
  cases hseveral

/-- If a query is planned without a filter, it is planned with a filter, of which just one plan
exposes each column: over a set whose links pass their check, where conditions read no columns of
other plans than the two that they join, and no two plans that are merged without the filter have
two links with each other. The run with the filter may take other handles, and it draws random marks
of its own. -/
theorem planQuery_resolvable {filter : Expr} (hids : (set.tables.map TablePlan.id).Nodup)
    (hgiven : ∀ p ∈ set.tables, p.id.number < supply.next) (hlater : supply.next ≤ later.next)
    (hvalid : set.validateLinks = .ok ())
    (hlocal : ∀ p ∈ set.tables, ∀ side link, p.linkOn side = some link → ∀ c ∈ readsOf link.on,
      ∀ q ∈ set.tables, q.exposes c = true → q.id = p.id ∨ q.id = link.target)
    (hplan : planQuery uuids settings set none supply = .ok plan supply')
    (hrun : JoinRun planCondition set.ids ⟨set, .start uuids settings supply⟩ pairings result)
    (honce : ∀ x ∈ pairings, ¬ x.LosesLink)
    (hfilter : ∀ c ∈ readsOf (some filter), (set.tables.countP fun p => p.exposes c) = 1) :
    ∃ plan' supply'', planQuery uuids' settings set (some filter) later = .ok plan' supply'' := by
  have hsound : ∀ (uuids : Identifiers) {supply : PlanId.Supply},
      (∀ p ∈ set.tables, p.id.number < supply.next) →
        Sound (fun _ => True) ⟨set, .start uuids settings supply⟩ := fun _ _ hgiven =>
    sound_of_validateLinks (nonempty_of_planQuery hplan) hids hgiven hvalid fun _ _ _ _ _ => trivial
  have hw := hsound uuids hgiven
  have hconfined : ∀ l ∈ set.tables, ∀ r ∈ set.tables, ∀ a b, LinkSides l r a b →
      Confined set.tables l r a b := fun l hl r hr a b hab =>
    confined_of_validateLinks hvalid hlocal hids hl hr hab
  -- The run without the filter plans every link.
  obtain ⟨w, hwhole⟩ := planQuery_ok hplan
  obtain ⟨id, w₁, hall, hsingle⟩ := Planner.joinAllWith_of_planWholeWith hw hwhole
  obtain rfl := hrun.eq_joinAllWith.symm.trans hall
  have htried := tried_of_joinRun hids hconfined rfl hw hrun ⟨plan, hsingle⟩ honce
  have hfits : ∀ l ∈ set.tables, ∀ r ∈ set.tables, ∀ link : JoinLink, link.Between l r →
      link.Fits planCondition set.tables l r := by
    intro l hl r hr link hbetween
    obtain ⟨a, b, hab, hlink, htype⟩ := hbetween.sides hw.answered hl hr
    obtain ⟨hfull, hright, hleft⟩ := htried l hl r hr a b hab
    have hab' := hconfined l hl r hr a b hab
    rw [htype] at hfull
    rcases hlink with rfl | rfl
    · exact ⟨hfull, hab'.only, hright⟩
    · refine ⟨hfull, fun c hc => hab'.only c ?_, hleft⟩
      rwa [readsOf_eq_of_outline hab'.outline] at hc
  exact planQuery_ok_of_scoped hvalid ⟨hsound _ fun p hp => (hgiven p hp).trans_le hlater,
    fun c hc => (owned_iff hids).mpr (hfilter c hc), hfits⟩

/-- A chain of left joins can be planned without a filter, and then with an OR as a filter. -/
theorem planQuery_resolvable_chain :
    let set : TableSet := ⟨chainOfOnes .left (.binary (columnOf "a") .eq (columnOf "b"))
      (.binary (columnOf "b") .lt (columnOf "c")), false⟩
    let filter := Expr.binary (.binary (columnOf "a") .eq (columnOf "c")) .or
      (.unary .isNull (columnOf "b"))
    ∃ plan supply', planQuery .blank default set none ⟨4⟩ = .ok plan supply' ∧
      ∃ plan' supply'',
        planQuery .blank default set (some filter) supply' = .ok plan' supply'' := by
  intro set filter
  let own : PlanId → String := fun id => (["a", "b", "c"].getD (id.number - 1) "")
  have hset : CheckedTables ones literals ⟨4⟩ set .left :=
    chainOfOnes_checked (.refl _) rfl ⟨rfl, by decide⟩ ⟨rfl, by decide⟩
  have hok : resultWith (fun plan supply => (plan.executable.joinsSeveral (set.linkEndsOf own),
      decide (4 ≤ supply.next))) (planQuery .blank default set none ⟨4⟩) = some (false, true) := by
    decide +kernel
  obtain ⟨plan, supply', h, hresult⟩ := exists_of_resultWith hok
  obtain ⟨hsingly, hlater⟩ := Prod.mk.inj hresult
  obtain ⟨pairings, result, hrun⟩ := exists_joinRun planCondition set.ids
    ⟨set, .start .blank default ⟨4⟩⟩
  have honce := not_losesLink_of_joinsSeveral hset.base.ids hset.base.given hset.valid
    (by decide) h hsingly hrun
  refine ⟨plan, supply', h, planQuery_resolvable hset.base.ids hset.base.given
    (of_decide_eq_true hlater) hset.valid ?_ h hrun honce (by decide)⟩
  simp only [set, chainOfOnes, List.forall_mem_cons]
  refine ⟨?_, ?_, ?_, List.forall_mem_nil _⟩
  all_goals rintro (_ | _) link hlink <;> cases hlink <;> decide

/-- If a link is lost without a filter, its condition is not looked at, and need not be one that can
be planned. -/
example :
    let ab := Expr.binary (columnOf "a") .eq (columnOf "b")
    let bd := Expr.binary (columnOf "b") .lt (columnOf "d")
    let set : TableSet := ⟨[(TablePlan.one 1 "a").withRight ⟨⟨2⟩, .inner, some ab⟩,
      (TablePlan.one 3 "c").withLeft ⟨⟨2⟩, .inner, some bd⟩,
      ((TablePlan.one 2 "b").withLeft ⟨⟨1⟩, .inner, some ab⟩).withRight ⟨⟨3⟩, .inner, some bd⟩],
      false⟩
    let filter := Expr.binary (columnOf "b") .eq (columnOf "c")
    (resultWith (fun plan _ => plan.executable.joinsSeveral set.linkEnds)
        (planQuery .blank default set none ⟨4⟩), resultWith (fun _ _ => true)
        (planQuery .blank default set (some filter) ⟨4⟩)) = (some true, none) := by
  decide +kernel

/-- A chain whose second condition reads its first table can be planned without a filter, which
joins the first two tables before. A filter that compares the last two joins these first, over
copies that have no such column. -/
theorem not_planQuery_resolvable :
    let set : TableSet := ⟨chainOfOnes .inner (.binary (columnOf "a") .eq (columnOf "b"))
      (.binary (columnOf "a") .eq (columnOf "c")), false⟩
    let filter := Expr.binary (columnOf "b") .eq (columnOf "c")
    set.validateLinks = .ok () ∧ filter.hasSubQuery = false ∧
      (∀ c ∈ filter.references, (set.tables.countP fun p => p.exposes c) = 1) ∧
      (∃ plan supply', planQuery .blank default set none ⟨4⟩ = .ok plan supply') ∧
      ∃ supply', planQuery .blank default set (some filter) ⟨4⟩ =
        .error (.unresolvedColumn (.qualified "a" "x")) supply' := by
  intro set filter
  have hok : resultWith (fun _ _ => true) (planQuery .blank default set none ⟨4⟩) = some true := by
    decide +kernel
  obtain ⟨plan, supply', h, -⟩ := exists_of_resultWith hok
  exact ⟨rfl, rfl, by decide, ⟨plan, supply', h⟩, _, by cbv⟩

end QueryPlan
