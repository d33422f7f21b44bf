import Mathlib.Logic.Relation
import QueryPlan.Proofs.Moving
import QueryPlan.Proofs.SoundFilters

/-!
# Links stay consistent

A set of plans is worked on by joins and filters, one call after the other.
Links that were consistent at the start are so after every call: merges and
copies aim both sides of a link anew.

- `Agreeing`: links that answer each other have the same type and condition.
- `Agreeing.follow`, `Agreeing.merged`: so they do under other handles, and after
  a merge.
- `Steps.agreeing`: and after any steps.
- `Moves.eq_nil`: moves make no plans where there are none.
- `TableSet.Consistent`: what is wanted of the links of a set.
- `Call`: a call of planning that succeeds.
- `Call.coherent`: what one call preserves.
- `consistent_of_calls`: after any calls, the links of a set are consistent that
  passed their check at the start.
-/

namespace QueryPlan

variable {plain : Prop} {w w' : Workspace} {tables tables' : List TablePlan} {l r : TablePlan}
  {m : PlanId} {tree : PlanNode}

/-! ## Links that agree -/

/-- Two links that answer each other have the same type, and equal conditions. -/
def Agreeing (tables : List TablePlan) : Prop :=
  ∀ side, ∀ p ∈ tables, ∀ q ∈ tables, ∀ link back, p.linkOn side = some link →
    q.linkOn side.other = some back → link.target = q.id → back.target = p.id →
    link.agrees back = true

/-- Links agree after a change of handles. -/
theorem Agreeing.follow {g : PlanId → PlanId} (h : Agreeing tables) (ht : Answered tables)
    (hf : FollowsAll g tables tables') (hinj : Set.InjOn g {id | id ∈ tables.map TablePlan.id}) :
    Agreeing tables' := by
  have hid : ∀ p ∈ tables, p.id ∈ {id | id ∈ tables.map TablePlan.id} :=
    fun p hp => List.mem_map_of_mem hp
  have htarget : ∀ side, ∀ p ∈ tables, ∀ link, p.linkOn side = some link →
      link.target ∈ {id | id ∈ tables.map TablePlan.id} := by
    intro side p hp link hlink
    obtain ⟨q, hq, hqid, -⟩ := ht.back side p hp link hlink
    exact hqid ▸ hid q hq
  intro side p' hp' q' hq' link' back' hlink' hback' hto hfrom
  obtain ⟨p, hp, hpp'⟩ := exists_left_of_forall₂ hf hp'
  obtain ⟨q, hq, hqq'⟩ := exists_left_of_forall₂ hf hq'
  rw [hpp'.links, Option.map_eq_some_iff] at hlink'
  obtain ⟨link, hlink, rfl⟩ := hlink'
  rw [hqq'.links, Option.map_eq_some_iff] at hback'
  obtain ⟨back, hback, rfl⟩ := hback'
  rw [hqq'.id_eq] at hto
  rw [hpp'.id_eq] at hfrom
  exact h side p hp q hq link back hlink hback (hinj (htarget _ p hp _ hlink) (hid q hq) hto)
    (hinj (htarget _ q hq _ hback) (hid p hp) hfrom)

/-- Links agree after a merge of two plans without competing links. -/
theorem Agreeing.merged (h : Agreeing tables) (ht : Answered tables) (hl : l ∈ tables)
    (hr : r ∈ tables) (hclear : Clear l r) (hfresh : ∀ p ∈ tables, p.id ≠ m) :
    Agreeing (mergedTables tables l r m tree) := by
  intro side p' hp' q' hq' link' back' hlink' hback' hto hfrom
  obtain ⟨p, hp, hpid, link, hlink, rfl, hpout⟩ := exists_link_of_merged hl hr hclear hp' hlink'
  obtain ⟨q, hq, hqid, back, hback, rfl, hqout⟩ := exists_link_of_merged hl hr hclear hq' hback'
  obtain ⟨s, hs, hsid, -, b, hb, hbp, -⟩ := ht.back side p hp link hlink
  -- The plan that answered before is the one whose link answers now.
  suffices hsame : s = q by
    subst hsame
    obtain rfl := Option.some.inj (hb.symm.trans hback)
    exact h side p hp s hs link b hlink hb hsid.symm hbp
  have hcollapse : collapse l.id r.id m s.id = collapse l.id r.id m q.id := by
    rw [hsid, hqid, ← hto]
    rfl
  rcases collapse_eq_collapse hs hq hfresh hcollapse with hid | ⟨hsin, hqin⟩
  · exact ht.eq_of_id hs hq hid
  · have hpnot : p.id ∉ [l.id, r.id] := fun hpin => hpout hpin (hsid ▸ hsin)
    have hbout : b.target ∉ [l.id, r.id] := hbp ▸ hpnot
    -- Neither link points into the pair, so that they would compete if they were of two plans.
    have hcompete : ∀ a b, l.linkOn side.other = some a → r.linkOn side.other = some b →
        a.target ∉ [l.id, r.id] → b.target ∉ [l.id, r.id] → False := by
      intro a b ha hb haout hbout
      rcases hclear _ _ _ ha hb with h | h
      · exact haout (by simp [h])
      · exact hbout (by simp [h])
    rcases List.mem_pair.mp hsin with hid | hid <;> rcases List.mem_pair.mp hqin with hid' | hid'
    · exact ht.eq_of_id hs hq (hid.trans hid'.symm)
    · obtain rfl := ht.eq_of_id hs hl hid
      obtain rfl := ht.eq_of_id hq hr hid'
      exact (hcompete _ _ hb hback hbout (hqout hqin)).elim
    · obtain rfl := ht.eq_of_id hs hr hid
      obtain rfl := ht.eq_of_id hq hl hid'
      exact (hcompete _ _ hback hb (hqout hqin) hbout).elim
    · exact ht.eq_of_id hs hq (hid.trans hid'.symm)

/-! ## Steps -/

/-- Steps keep links agreeing. -/
theorem Steps.agreeing {P : Option Expr → Prop} (h : Steps plain w w') (hw : Sound P w)
    (ha : Agreeing w.set.tables) : Agreeing w'.set.tables := by
  -- Copies that are followed under the same handles.
  have hstay : ∀ {tables tables' : List TablePlan}, Answered tables → Agreeing tables →
      FollowsAll (fun i => i) tables tables' → Agreeing tables' := fun ht ha hf =>
    ha.follow ht hf fun _ _ _ _ heq => heq
  have hcopied : ∀ {w : Workspace} {copy : TableSet} {c : Context}, Sound P w →
      Agreeing w.set.tables → w.set.Copied copy c → Agreeing copy.tables := by
    intro w copy c hw ha hcopy
    obtain ⟨g, hinj, hall⟩ := hcopy.renamed
    exact ha.follow hw.answered (hall.imp fun _ _ hpq => .of_mirrors hpq.1) hinj
  induction h with
  | refl => exact ha
  | trans first _ ih ih' => exact ih' (first.sound hw) (ih hw ha)
  | spend => exact ha
  | cover covers =>
    exact hstay hw.answered ha (covers.imp fun _ _ => TablePlan.Covers.follows)
  | join left right ne safe =>
    exact ha.merged hw.answered left right (clear_of_safe hw.answered left right ne safe)
      fun p hp => hw.id_ne hp le_rfl
  | joinLinked left right ne linked target marks pair _ =>
    have hext := (newMark_extends marks).trans ((Context.extends_supply _ 2).trans pair.extends)
    exact ha.merged hw.answered left right (hw.clear_of_right left right ne linked target)
      fun p hp => hw.id_ne hp hext.supply
  | unite _ _ copied planned _ united _ ih =>
    have hside := planned.sound (hw.copied copied)
    exact hstay hside.answered (ih (hw.copied copied) (hcopied hw ha copied))
      (united.imp fun _ _ => TablePlan.Unites.follows)
  | uniteJoined _ _ copied planned single united _ _ ih =>
    have hside := (planned.sound (hw.copied copied)).answered
    have hagree := ih (hw.copied copied) (hcopied hw ha copied)
    rw [single] at hside hagree
    exact hstay hside hagree
      (.cons ((TablePlan.follows_reordered _ _).trans united.follows) .nil)

/-- Without plans, handles are apart. -/
theorem Handled.of_nil {P : Option Expr → Prop} (hw : w.set.tables = []) : Handled P w := by
  refine ⟨?_, ?_, ?_⟩ <;> rw [hw]
  · exact List.nodup_nil
  · exact List.forall_mem_nil _
  · exact fun _ => List.forall_mem_nil _

/-- Moves do not make plans where there are none. -/
theorem Moves.eq_nil {Q : PlanNode → Prop} {or : Prop} (h : Moves Q or w w')
    (hw : w.set.tables = []) : w'.set.tables = [] := by
  have hcopy : ∀ {set copy : TableSet} {c : Context}, set.Copied copy c → set.tables = [] →
      copy.tables = [] := fun hcopied hset =>
    List.eq_nil_of_length_eq_zero (by rw [hcopied.length_eq, hset]; rfl)
  -- Every move but the trivial ones needs a plan to work on.
  induction h with
  | refl => exact hw
  | trans _ _ ih ih' => exact ih' (ih hw)
  | filter filtered =>
    rw [hw, List.forall₂_nil_left_iff] at filtered
    exact filtered
  | join left =>
    rw [hw] at left
    cases left
  | joinLinked left =>
    rw [hw] at left
    cases left
  | unite _ opened _ _ _ _ _ =>
    have hnone := List.eq_nil_of_length_eq_zero
      (by rw [(opened.sides (P := fun _ => True) (.of_nil hw)).length_eq, hw]; rfl)
    show unitePositions _ _ _ = []
    rw [hnone, List.zip_nil_right]
    rfl
  | uniteJoined _ opened _ _ _ _ single _ _ ih₁ _ ih₃ _ =>
    have hs := opened.sides (P := fun _ => True) (.of_nil hw)
    have hnone := List.eq_nil_of_length_eq_zero (by rw [hs.length_eq, hw]; rfl)
    have := ih₃ (ih₁ (hcopy hs.copiedLeft hnone))
    rw [single] at this
    cases this

/-! ## Consistent links -/

/-- Handles are apart, each link leads to another plan of the set, and a plan has a link to another
on its right exactly if that has one to it on its left. The two links have the same type and equal
conditions. -/
structure TableSet.Consistent (set : TableSet) : Prop where
  nodup : set.ids.Nodup
  members : ∀ p ∈ set.tables, ∀ side link, p.linkOn side = some link →
    link.target ∈ set.ids ∧ link.target ≠ p.id
  right_iff_left : ∀ p ∈ set.tables, ∀ q ∈ set.tables,
    p.rightTarget? = some q.id ↔ q.leftTarget? = some p.id
  agreeing : ∀ p ∈ set.tables, ∀ q ∈ set.tables, ∀ link back, p.right = some link →
    link.target = q.id → q.left = some back → link.joinType = back.joinType ∧
      (link.on == back.on) = true ∧ (back.on == link.on) = true

/-- There are no plans, or they have links that are answered and agree. -/
def Coherent (w : Workspace) : Prop :=
  w.set.tables = [] ∨ Sound (fun _ => True) w ∧ Agreeing w.set.tables

namespace Coherent

theorem consistent (h : Coherent w) : w.set.Consistent := by
  rcases h with hnone | ⟨hw, hagree⟩
  · refine ⟨?_, ?_, ?_, ?_⟩
    · unfold TableSet.ids
      rw [hnone]
      exact List.nodup_nil
    all_goals
      rw [hnone]
      exact List.forall_mem_nil _
  -- Every link is answered, by a link that agrees with it.
  · have hback := hw.answered.back
    have hright : ∀ p ∈ w.set.tables, ∀ q ∈ w.set.tables, ∀ side link, p.linkOn side = some link →
        link.target = q.id → ∃ back, q.linkOn side.other = some back ∧ back.target = p.id := by
      intro p hp q hq side link hlink htarget
      obtain ⟨s, hs, hsid, -, back, hlink', hto, -⟩ := hback side p hp link hlink
      obtain rfl := hw.answered.eq_of_id hs hq (hsid.trans htarget)
      exact ⟨back, hlink', hto⟩
    refine ⟨hw.answered.nodup, fun p hp side link hlink => ?_, fun p hp q hq => ?_,
      fun p hp q hq link back hlink htarget hleft => ?_⟩
    · obtain ⟨q, hq, hid, hne, -⟩ := hback side p hp link hlink
      exact hid ▸ ⟨TableSet.mem_ids hq, hne⟩
    · unfold TablePlan.rightTarget? TablePlan.leftTarget?
      rw [Option.map_eq_some_iff, Option.map_eq_some_iff]
      constructor
      · rintro ⟨link, hlink, htarget⟩
        exact hright p hp q hq .right link hlink htarget
      · rintro ⟨link, hlink, htarget⟩
        exact hright q hq p hp .left link hlink htarget
    · obtain ⟨_, hlink', hto⟩ := hright p hp q hq .right link hlink htarget
      obtain rfl := Option.some.inj (hleft.symm.trans hlink')
      have hagrees := hagree .right p hp q hq link back hlink hleft htarget hto
      have hagrees' := hagree .left q hq p hp back link hleft hlink hto htarget
      unfold JoinLink.agrees at hagrees hagrees'
      rw [Bool.and_eq_true, beq_iff_eq] at hagrees hagrees'
      exact ⟨hagrees.1, hagrees.2, hagrees'.2⟩

/-- Links that pass their check are answered and agree. -/
theorem of_validateLinks {set : TableSet} {context : Context} (hids : set.ids.Nodup)
    (hgiven : ∀ p ∈ set.tables, p.id.number < context.supply.next)
    (hvalid : set.validateLinks = .ok ()) : Coherent ⟨set, context⟩ := by
  by_cases hnone : set.tables = []
  · exact Or.inl hnone
  · refine Or.inr ⟨sound_of_validateLinks hnone hids hgiven hvalid fun _ _ _ _ _ => trivial, ?_⟩
    intro side p hp q hq link back hlink hback hto hfrom
    obtain ⟨s, hget, answer, hanswer, -, hagrees⟩ :=
      (validateLinks_ok hvalid).1 q hq side.other back hback
    obtain ⟨hs, hsid⟩ := TableSet.mem_of_get? hget
    obtain rfl := eq_of_id_of_nodup hids hs hp (hsid.trans hfrom)
    rw [side.other_other, hlink] at hanswer
    exact Option.some.inj hanswer ▸ hagrees

/-- Steps keep links consistent. -/
theorem of_steps (hw : Sound (fun _ => True) w) (hagree : Agreeing w.set.tables)
    (h : Steps False w w') : Coherent w' :=
  Or.inr ⟨h.sound hw, h.agreeing hw hagree⟩

/-- A computation that takes steps keeps links coherent, if it does not make plans where there are
none. -/
theorem of_moving {α : Type} {act : Planner α} {a : α} {Q : PlanNode → Prop} {or : Prop}
    {P : Option Expr → Prop} (hw : Coherent w) (hmoves : Moving Q or P act)
    (hsteps : Sound (fun _ => True) w → Steps False w w') (hok : act w = .ok a w') :
    Coherent w' := by
  rcases hw with hnone | ⟨hw, hagree⟩
  · exact Or.inl ((hmoves w a w' (.of_nil hnone) hok).eq_nil hnone)
  · exact .of_steps hw hagree (hsteps hw)

/-- The same plans when handles and names were given out for other ones. -/
theorem with_context (h : Coherent w) {c : Context} (hc : w.context.supply.next ≤ c.supply.next) :
    Coherent ⟨w.set, c⟩ := by
  rcases h with hnone | ⟨hw, hagree⟩
  · exact Or.inl hnone
  · exact Or.inr ⟨⟨hw.nonempty, hw.answered, hw.conditions,
      fun p hp => (hw.given p hp).trans_le hc⟩, hagree⟩

end Coherent

/-! ## Calls -/

/-- A call of planning that succeeds, or planning of other sets in between. -/
inductive Call : Workspace → Workspace → Prop where
  /-- Two different plans of the set are joined. -/
  | joinPair {w w' : Workspace} {first second id : PlanId} (left : first ∈ w.set.ids)
    (right : second ∈ w.set.ids) (ne : first ≠ second)
    (done : Planner.joinPair first second w = .ok id w') : Call w w'
  /-- Different plans of the set are joined into one. -/
  | joinAll {w w' : Workspace} {ids : List PlanId} {joined : Option PlanId} (nodup : ids.Nodup)
    (members : ∀ id ∈ ids, id ∈ w.set.ids) (done : Planner.joinAll ids w = .ok joined w') :
    Call w w'
  /-- The plans that own columns are joined into one. -/
  | joinReaders {w w' : Workspace} {columns : List ColumnName} {id : PlanId}
    (done : Planner.joinReaders columns w = .ok id w') : Call w w'
  /-- A classified predicate is applied. -/
  | apply {w w' : Workspace} {predicate : Predicate}
    (done : Planner.apply predicate w = .ok () w') : Call w w'
  /-- A filter is planned. -/
  | planExpression {w w' : Workspace} {filter : Expr}
    (done : Planner.planExpression filter w = .ok () w') : Call w w'
  /-- The next call has another context, in which no handle is given out again. -/
  | turn {w : Workspace} {c : Context} (later : w.context.supply.next ≤ c.supply.next) :
    Call w ⟨w.set, c⟩

namespace Call

/-- Plans that were joined are linked or do not clash. -/
theorem joinable_of_joinPair {P : Option Expr → Prop} {p q : TablePlan} {id : PlanId}
    (hw : Sound P w) (hp : p ∈ w.set.tables) (hq : q ∈ w.set.tables)
    (done : Planner.joinPair p.id q.id w = .ok id w') :
    p.isLinkedTo q.id = true ∨ clash p q = .safe := by
  obtain ⟨a, ha, b, hb, hap, hbq, hcases⟩ := Planner.joinPairWith_mem hw.answered.nodup done
  obtain rfl := hw.answered.eq_of_id ha hp hap
  obtain rfl := hw.answered.eq_of_id hb hq hbq
  rcases hcases with ⟨sided, hbetween, -⟩ | ⟨-, hsafe, -⟩
  · obtain ⟨l, r, link, hsides, -, -, hlink, htarget, -⟩ :=
      Planner.exists_of_linkBetween hw ha hb hbetween
    have hlinked := isLinkedTo_of_right hlink htarget
    rcases hsides with ⟨rfl, rfl⟩ | ⟨rfl, rfl⟩
    · exact Or.inl hlinked
    · exact Or.inl (isLinkedTo_symm hw.answered hb ha hlinked)
  · exact Or.inr hsafe

/-- Every call keeps links answered and agreeing. -/
theorem coherent (h : Call w w') (hw : Coherent w) : Coherent w' := by
  have hmoves : MoveLaw (fun _ => True) True (Admits (fun _ => True) True) planCondition :=
    moveLaw_planCondition _ _
  -- Filters are planned by moves, whatever they are.
  have hfilter : ∀ filter, Moving (fun _ => True) True (Admits (fun _ => True) True)
      (Planner.planExpression filter) := fun filter =>
    Planner.moving_planExpressionWith hmoves fun _ _ =>
      ⟨fun _ _ => trivial, fun hnot => absurd trivial hnot⟩
  cases h with
  | turn later => exact hw.with_context later
  | joinPair left right ne done =>
    obtain ⟨p, hp, rfl⟩ := TableSet.exists_of_mem_ids left
    obtain ⟨q, hq, rfl⟩ := TableSet.exists_of_mem_ids right
    -- Joins need the two plans to be in the set, so it has some.
    rcases hw with hnone | ⟨hw, hagree⟩
    · rw [hnone] at hp
      cases hp
    · have hmerges := (Planner.meets_joinPairWith conditionLaw_any hw hp hq ne
        (joinable_of_joinPair hw hp hq done)).ok done
      exact .of_steps hw hagree hmerges.steps
  | @joinAll _ ids _ nodup members done =>
    -- To join no plans does nothing.
    by_cases hids : ids = []
    · subst hids
      obtain ⟨pairings, hrun⟩ := Planner.exists_joinRun_of_ok done
      cases hrun
      exact hw
    · rcases hw with hnone | ⟨hw, hagree⟩
      · obtain ⟨id, hid⟩ := List.exists_mem_of_ne_nil ids hids
        obtain ⟨p, hp, -⟩ := TableSet.exists_of_mem_ids (members id hid)
        rw [hnone] at hp
        cases hp
      · obtain ⟨_, -, hgathers⟩ := (Planner.meets_joinAllWithin conditionLaw_any _ hw hids nodup
          members le_rfl).ok done
        exact .of_steps hw hagree hgathers.steps
  | joinReaders done =>
    exact hw.of_moving (Planner.moving_joinReadersWith hmoves _)
      (fun hw => ((Planner.meets_joinReadersWith conditionLaw_any hw _).ok done).1) done
  | @apply _ predicate done =>
    have hcompares : predicate.Comparing fun _ => True := by cases predicate <;> trivial
    -- A predicate that could be applied is one of those that can be.
    have happlicable : predicate.Applicable False := by
      cases predicate with
      | standardJoin expr mixed =>
        cases expr with
        | binary => trivial
        | _ => exact (Planner.throw_ok.mp done).elim
      | simpleSubQuery => exact not_false
      | _ => trivial
    refine hw.of_moving (Planner.moving_applyWith hmoves (hfilter _) hcompares) (fun hw => ?_) done
    exact (Planner.meets_applyWith conditionLaw_any
      (Planner.meets_planExpressionWith conditionLaw_any False.elim) hw happlicable).ok done
  | planExpression done =>
    exact hw.of_moving (hfilter _)
      (fun hw => (Planner.meets_planExpressionWith conditionLaw_any False.elim _ hw).ok done) done

end Call

/-- A set whose links pass their check has consistent links after any calls. -/
theorem consistent_of_calls {set : TableSet} {context : Context} (hids : set.ids.Nodup)
    (hgiven : ∀ p ∈ set.tables, p.id.number < context.supply.next)
    (hvalid : set.validateLinks = .ok ())
    (h : Relation.ReflTransGen Call ⟨set, context⟩ w) : w.set.Consistent := by
  suffices hw : Coherent w from hw.consistent
  induction h with
  | refl => exact .of_validateLinks hids hgiven hvalid
  | tail _ call ih => exact call.coherent ih

/-- The ends of a chain are joined, which closes a loop of two plans, and then an OR over the plan
in the middle is planned over copies of both. -/
theorem consistent_of_closed_loop :
    let set : TableSet := ⟨chainOfOnes .inner (.binary (columnOf "a") .eq (columnOf "b"))
      (.binary (columnOf "b") .lt (columnOf "c")), false⟩
    ∃ w, Relation.ReflTransGen Call ⟨set, .start .blank default ⟨4⟩⟩ w ∧
      w.set.tables.map (fun p => (p.leftTarget?, p.id, p.rightTarget?)) =
        [(some ⟨6⟩, ⟨5⟩, some ⟨6⟩), (some ⟨5⟩, ⟨6⟩, some ⟨5⟩)] ∧ w.set.Consistent := by
  intro set
  let filter := Expr.binary (.binary (columnOf "b") .eq (.constant (.int 1))) .or
    (.binary (columnOf "b") .eq (.constant (.int 2)))
  have hrun : resultWith
      (fun _ w => w.set.tables.map fun p => (p.leftTarget?, p.id, p.rightTarget?))
      ((do let _ ← Planner.joinPair ⟨1⟩ ⟨3⟩; Planner.planExpression filter)
        ⟨set, .start .blank default ⟨4⟩⟩) =
      some [(some ⟨6⟩, ⟨5⟩, some ⟨6⟩), (some ⟨5⟩, ⟨6⟩, some ⟨5⟩)] := by
    decide +kernel
  obtain ⟨_, w, hok, hlinks⟩ := exists_of_resultWith hrun
  obtain ⟨id, w₁, hjoin, hfilter⟩ := Planner.bind_ok.mp hok
  have hcalls : Relation.ReflTransGen Call ⟨set, .start .blank default ⟨4⟩⟩ w :=
    .tail (.single (.joinPair (by decide) (by decide) (by decide) hjoin)) (.planExpression hfilter)
  exact ⟨w, hcalls, hlinks,
    consistent_of_calls (by decide) (by decide) (by decide +kernel) hcalls⟩

end QueryPlan
