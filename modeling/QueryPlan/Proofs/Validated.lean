import Mathlib.Data.Set.Finite.Lemmas
import QueryPlan.Proofs.Evaluation
import QueryPlan.Proofs.Start
import QueryPlan.TableSet.Links

/-!
# Links of one type

- `validateLinks_ok`: the links that pass their check are answered and close no
  cycle.
- `exists_height`: edges that close no cycle all go one step up in some height of
  the points.
- `answered_of_validateLinks`: so no plan is linked to itself.
- `OneType`: a set whose links are in order and all of one type.
- `OneType.linked`: the links of such a set are in order for planning.
- `CheckedTables`: base tables with links of one type that pass their check.
-/

namespace QueryPlan

universe u

variable {V : Type u} {db : Database V} {val : Valuation V}

/-! ## Answered links -/

/-- The target of a link has a link back on its other side, which agrees with it. -/
def TableSet.Answers (set : TableSet) (id : PlanId) (side : Side) (link : JoinLink) : Prop :=
  ∃ q, set.get? link.target = some q ∧ ∃ back, q.linkOn side.other = some back ∧
    back.target = id ∧ back.agrees link = true

/-- Links that agree have one type. -/
theorem JoinLink.joinType_eq_of_agrees {a b : JoinLink} (h : a.agrees b = true) :
    a.joinType = b.joinType := by
  unfold agrees at h
  exact eq_of_beq (Bool.and_eq_true_iff.mp h).1

/-- A link that passes its check is answered. -/
theorem checkLink_ok {set : TableSet} {plan : TablePlan} {side : Side} {link : JoinLink}
    (h : set.checkLink plan side (some link) = .ok ()) : set.Answers plan.id side link := by
  rw [TablePlan.checkLink_some] at h
  obtain ⟨q, hq, h⟩ := except_bind_ok.mp h
  refine ⟨q, Planner.require_ok.mp hq, ?_⟩
  cases hback : q.linkOn side.other with
  | none =>
    rw [hback] at h
    cases h
  | some back =>
    rw [hback, Option.elim_some] at h
    by_cases hagrees : back.target = plan.id ∧ back.agrees link
    · exact ⟨back, rfl, hagrees⟩
    · rw [if_neg hagrees] at h
      cases h

/-- The links of plans that pass their check are answered. -/
theorem checkPlans_ok {set : TableSet} {plans : List TablePlan}
    (h : set.checkPlans plans = .ok ()) :
    ∀ p ∈ plans, ∀ side link, p.linkOn side = some link → set.Answers p.id side link := by
  induction plans with
  | nil => exact List.forall_mem_nil _
  | cons p rest ih =>
    unfold TableSet.checkPlans TableSet.checkPlan at h
    obtain ⟨_, hp, hrest⟩ := except_bind_ok.mp h
    obtain ⟨_, hleft, hright⟩ := except_bind_ok.mp hp
    rw [List.forall_mem_cons]
    refine ⟨?_, ih hrest⟩
    intro side link hlink
    cases side with
    | left =>
      rw [TablePlan.linkOn_left] at hlink
      rw [hlink] at hleft
      exact checkLink_ok hleft
    | right =>
      rw [TablePlan.linkOn_right] at hlink
      rw [hlink] at hright
      exact checkLink_ok hright

/-- Links that pass their check are answered and close no cycle. -/
theorem validateLinks_ok {set : TableSet} (h : set.validateLinks = .ok ()) :
    (∀ p ∈ set.tables, ∀ side link, p.linkOn side = some link → set.Answers p.id side link) ∧
      closesCycle (set.ids.map fun id => (id, id)) set.linkEdges = false := by
  unfold TableSet.validateLinks at h
  obtain ⟨_, hplans, h⟩ := except_bind_ok.mp h
  refine ⟨checkPlans_ok hplans, ?_⟩
  by_cases hcycle : closesCycle (set.ids.map fun id => (id, id)) set.linkEdges = true
  · rw [if_pos hcycle] at h
    cases h
  · exact Bool.eq_false_iff.mpr hcycle

/-! ## Heights -/

/-- The label of a point after each label was changed. -/
theorem labelOf_map {labels : List (PlanId × PlanId)} {f : PlanId → PlanId} {x : PlanId}
    (hx : x ∈ labels.map Prod.fst) :
    labelOf (labels.map fun (id, l) => (id, f l)) x = f (labelOf labels x) := by
  unfold labelOf
  induction labels with
  | nil => cases hx
  | cons y rest ih =>
    obtain ⟨id, l⟩ := y
    rw [List.map_cons, List.lookup_cons, List.lookup_cons]
    by_cases hid : x = id
    · rw [beq_iff_eq.mpr hid]
      rfl
    · rw [beq_false_of_ne hid]
      rw [List.map_cons, List.mem_cons] at hx
      exact ih (hx.resolve_left hid)

/-- If edges close no cycle, then any heights of the points can be shifted, points of one label
alike, so that every edge goes one step up. -/
theorem exists_shift {edges labels : List (PlanId × PlanId)}
    (hclosed : closesCycle labels edges = false)
    (hkeys : ∀ e ∈ edges, e.1 ∈ labels.map Prod.fst ∧ e.2 ∈ labels.map Prod.fst)
    (height : PlanId → Int) :
    ∃ shift : PlanId → Int, ∀ e ∈ edges,
      height e.2 + shift (labelOf labels e.2) = height e.1 + shift (labelOf labels e.1) + 1 := by
  induction edges generalizing labels height with
  | nil => exact ⟨fun _ => 0, List.forall_mem_nil _⟩
  | cons e rest ih =>
    obtain ⟨a, b⟩ := e
    rw [List.forall_mem_cons] at hkeys
    obtain ⟨⟨ha, hb⟩, hrest⟩ := hkeys
    unfold closesCycle at hclosed
    obtain ⟨hne, hclosed⟩ := Bool.or_eq_false_iff.mp hclosed
    have hne : labelOf labels a ≠ labelOf labels b := ne_of_beq_false hne
    -- The points that are now labelled as `b` are lifted to one step above `a`.
    let lift : PlanId → Int :=
      fun l => if l = labelOf labels b then height a + 1 - height b else 0
    let relabel : PlanId → PlanId :=
      fun l => if l = labelOf labels b then labelOf labels a else l
    have hrelabel : ∀ x ∈ labels.map Prod.fst, labelOf (labels.map fun (id, l) =>
        (id, if l = labelOf labels b then labelOf labels a else l)) x =
          relabel (labelOf labels x) :=
      fun x hx => labelOf_map (f := relabel) hx
    have hsame :
        (labels.map fun (id, l) => (id, relabel l)).map Prod.fst = labels.map Prod.fst := by
      rw [List.map_map]
      rfl
    obtain ⟨shift, hshift⟩ := ih hclosed (by rw [hsame]; exact hrest)
      fun x => height x + lift (labelOf labels x)
    refine ⟨fun l => lift l + shift (relabel l), ?_⟩
    rw [List.forall_mem_cons]
    constructor
    · have hla : relabel (labelOf labels a) = labelOf labels a := if_neg hne
      have hlb : relabel (labelOf labels b) = labelOf labels a := if_pos rfl
      have hua : lift (labelOf labels a) = 0 := if_neg hne
      have hub : lift (labelOf labels b) = height a + 1 - height b := if_pos rfl
      simp only [hla, hlb, hua, hub]
      omega
    · intro e he
      have := hshift e he
      show height e.2 + (lift _ + shift (relabel _)) = height e.1 + (lift _ + shift (relabel _)) + 1
      rw [hrelabel _ (hrest e he).1, hrelabel _ (hrest e he).2] at this
      omega

/-- The links of a set that pass their check go one step up in some height of the plans. -/
theorem exists_height {set : TableSet} (h : set.validateLinks = .ok ()) :
    ∃ height : PlanId → Int, ∀ p ∈ set.tables, ∀ link, p.right = some link →
      height link.target = height p.id + 1 := by
  obtain ⟨hanswers, hclosed⟩ := validateLinks_ok h
  -- Every link to the right is an edge,
  have hedge : ∀ p ∈ set.tables, ∀ link, p.right = some link →
      (p.id, link.target) ∈ set.linkEdges := by
    intro p hp link hlink
    refine List.mem_filterMap.mpr ⟨p, hp, ?_⟩
    unfold TablePlan.rightTarget?
    rw [hlink]
    rfl
  have hids : (set.ids.map fun id => (id, id)).map Prod.fst = set.ids := by
    rw [List.map_map]
    exact List.map_id _
  -- and both its ends are plans of the set, which start with a label each.
  obtain ⟨shift, hshift⟩ := exists_shift hclosed (by
    intro e he
    obtain ⟨p, hp, he⟩ := List.mem_filterMap.mp he
    unfold TablePlan.rightTarget? at he
    rw [Option.map_map, Option.map_eq_some_iff] at he
    obtain ⟨link, hlink, rfl⟩ := he
    obtain ⟨q, hget, -⟩ := hanswers p hp .right link hlink
    obtain ⟨hq, hid⟩ := TableSet.mem_of_get? hget
    rw [hids]
    exact ⟨List.mem_map_of_mem hp, List.mem_map.mpr ⟨q, hq, hid⟩⟩) fun _ => 0
  refine ⟨fun x => shift (labelOf (set.ids.map fun id => (id, id)) x), ?_⟩
  intro p hp link hlink
  have := hshift _ (hedge p hp link hlink)
  simp only [zero_add] at this
  exact this

/-- Links that pass their check are answered by other plans: a link of a plan to itself would
close a cycle. -/
theorem answered_of_validateLinks {set : TableSet} (hids : (set.tables.map TablePlan.id).Nodup)
    (h : set.validateLinks = .ok ()) : Answered set.tables := by
  obtain ⟨height, hheight⟩ := exists_height h
  refine ⟨hids, fun side p hp link hlink => ?_⟩
  obtain ⟨q, hget, back, hback, htarget, hagrees⟩ := (validateLinks_ok h).1 p hp side link hlink
  obtain ⟨hq, hid⟩ := TableSet.mem_of_get? hget
  refine ⟨q, hq, hid, fun heq => ?_, back, hback, htarget, JoinLink.joinType_eq_of_agrees hagrees⟩
  -- The two ends of the link differ in height.
  cases side with
  | left =>
    have := hheight q hq back hback
    rw [htarget, heq] at this
    omega
  | right =>
    have := hheight p hp link hlink
    rw [← hid, heq] at this
    omega

/-! ## Links of one type -/

/-- The tables that links were recorded between, by left and right side. -/
def TableSet.linkEnds (set : TableSet) : List (String × String) :=
  set.tables.flatMap fun p => (p.right.bind fun link => set.get? link.target).elim [] fun q =>
    p.executable.sources ×ˢ q.executable.sources

/-- A link to the right has the tables of its two plans for its ends. -/
theorem TableSet.mem_linkEnds {set : TableSet} {p q : TablePlan} {link : JoinLink} {s t : String}
    (hp : p ∈ set.tables) (hlink : p.right = some link) (hq : set.get? link.target = some q)
    (hs : s ∈ p.executable.sources) (ht : t ∈ q.executable.sources) : (s, t) ∈ set.linkEnds := by
  refine List.mem_flatMap.mpr ⟨p, hp, ?_⟩
  rw [hlink, Option.bind_some, hq]
  exact List.mem_product.mpr ⟨hs, ht⟩

/-- Between which tables the links of a set were recorded, if all are of one type. -/
def TableSet.wiring (set : TableSet) (joinType : JoinType) (rejecting : Prop) : Wiring :=
  match joinType with
  | .inner => ⟨set.linkEnds, [], rejecting⟩
  | .left => ⟨[], set.linkEnds, rejecting⟩
  | .right => ⟨[], set.linkEnds.map Prod.swap, rejecting⟩
  | .full => ⟨[], [], rejecting⟩

/-- The links of a set are of one type and answered on the same condition, read only their two
plans, and go one step up in some height. -/
structure OneType (val : Valuation V) (set : TableSet) (joinType : JoinType) : Prop where
  typed : ∀ p ∈ set.tables, ∀ side link, p.linkOn side = some link → link.joinType = joinType
  answered : ∀ p ∈ set.tables, ∀ side link, p.linkOn side = some link →
    ∃ q ∈ set.tables, q.id = link.target ∧ ∃ back, q.linkOn side.other = some back ∧
      back.target = p.id ∧ ∀ r, val.meets back.on r ↔ val.meets link.on r
  reads : ∀ p ∈ set.tables, ∀ side link, p.linkOn side = some link →
    ∀ e, link.on = some e → ReadsOnly set.tables [p.id, link.target] e
  height : ∃ height : PlanId → Int, ∀ p ∈ set.tables, ∀ link, p.right = some link →
    height link.target = height p.id + 1

namespace OneType

variable {set : TableSet} {joinType : JoinType} {p : TablePlan} {link : JoinLink}

/-- What pads a plan is on the side of the join type. -/
theorem padding_eq_some_iff (h : OneType val set joinType) (hp : p ∈ set.tables)
    (hfull : joinType ≠ .full) : p.padding? = some link ↔
      joinType = .left ∧ p.left = some link ∨ joinType = .right ∧ p.right = some link := by
  constructor
  · intro hpad
    obtain ⟨side, hside, hpads⟩ := TablePlan.exists_side_of_padding hpad
    rw [h.typed p hp side link hside] at hpads
    -- A left link pads in a left join alone, and a right one in a right join.
    cases side with
    | left =>
      refine Or.inl ⟨?_, hside⟩
      simpa [TablePlan.padsOn, hfull] using hpads
    | right =>
      refine Or.inr ⟨?_, hside⟩
      simpa [TablePlan.padsOn, hfull] using hpads
  · have hfilter : ∀ side l, p.linkOn side = some l →
        (p.linkOn side).filter (fun l => TablePlan.padsOn side l.joinType) =
          if TablePlan.padsOn side joinType then some l else none := by
      intro side l hl
      rw [hl, Option.filter_some, h.typed p hp side l hl]
    rintro (⟨rfl, hlink⟩ | ⟨rfl, hlink⟩)
    · have := hfilter .left link hlink
      rw [TablePlan.padding?_eq_or]
      exact congrArg (Option.or · _) this
    · have hright := hfilter .right link hlink
      have hleft : (p.left.filter fun l => TablePlan.padsOn .left l.joinType) = none := by
        cases hl : p.left with
        | none => rfl
        | some l =>
          have := hfilter .left l hl
          rw [TablePlan.linkOn_left, hl] at this
          exact this
      rw [TablePlan.padding?_eq_or, hleft]
      exact hright

/-- In some height all links on the right go one step up, and all on the left one step down. -/
theorem exists_steps (h : OneType val set joinType) : ∃ height : PlanId → Int,
    ∀ p ∈ set.tables, (∀ link, p.right = some link → height link.target = height p.id + 1) ∧
      ∀ link, p.left = some link → height p.id = height link.target + 1 := by
  obtain ⟨height, hheight⟩ := h.height
  refine ⟨height, fun p hp => ⟨hheight p hp, fun link hlink => ?_⟩⟩
  -- The answer to the link goes one step up.
  obtain ⟨q, hq, hid, back, hback, hbt, -⟩ := h.answered p hp .left link hlink
  rw [← hid, ← hbt]
  exact hheight q hq back hback

/-- No plan is linked to itself. -/
theorem target_ne (h : OneType val set joinType) (hp : p ∈ set.tables) {side : Side}
    (hlink : p.linkOn side = some link) : link.target ≠ p.id := by
  obtain ⟨height, hsteps⟩ := h.exists_steps
  obtain ⟨hright, hleft⟩ := hsteps p hp
  intro heq
  cases side with
  | left =>
    have := hleft link hlink
    rw [heq] at this
    omega
  | right =>
    have := hright link hlink
    rw [heq] at this
    omega

/-- Padding goes round in no circle, as all of it goes up, or all of it down. -/
theorem grounded (h : OneType val set joinType) (hfull : joinType ≠ .full) (ids : Set PlanId)
    (hids : ∃ p ∈ set.tables, p.id ∈ ids) :
    ∃ p ∈ set.tables, p.id ∈ ids ∧ ∀ link, p.padding? = some link → link.target ∉ ids := by
  have hsteps : ∃ f : PlanId → Int, ∀ p ∈ set.tables, ∀ link, p.padding? = some link →
      f link.target < f p.id := by
    obtain ⟨height, hsteps⟩ := h.exists_steps
    -- What pads comes one step before what it pads: to the left of it in a left join, to the right
    -- of it in a right join.
    by_cases hleft : joinType = .left
    · refine ⟨height, fun p hp link hpad => ?_⟩
      rcases (h.padding_eq_some_iff hp hfull).mp hpad with ⟨-, hlink⟩ | ⟨ht, -⟩
      · have := (hsteps p hp).2 link hlink
        omega
      · rw [hleft] at ht
        cases ht
    · refine ⟨fun x => - height x, fun p hp link hpad => ?_⟩
      rcases (h.padding_eq_some_iff hp hfull).mp hpad with ⟨ht, -⟩ | ⟨-, hlink⟩
      · exact absurd ht hleft
      · have := (hsteps p hp).1 link hlink
        show - height link.target < - height p.id
        omega
  obtain ⟨f, hf⟩ := hsteps
  obtain ⟨p, hp, hid⟩ := hids
  -- The first of the plans in this order is padded from outside, if at all.
  have hfinite : {p | p ∈ set.tables ∧ p.id ∈ ids}.Finite :=
    set.tables.finite_toSet.subset fun _ h => h.1
  obtain ⟨q, ⟨hq, hqid⟩, hmin⟩ :=
    Set.exists_min_image _ (fun p : TablePlan => f p.id) hfinite ⟨p, hp, hid⟩
  refine ⟨q, hq, hqid, fun link hpad hin => ?_⟩
  obtain ⟨side, hside, -⟩ := TablePlan.exists_side_of_padding hpad
  obtain ⟨s, hs, hsid, -⟩ := h.answered q hq side link hside
  have hle := hmin s ⟨hs, hsid ▸ hin⟩
  have hlt := hf q hq link hpad
  rw [← hsid] at hlt
  omega

/-- The links of such a set are in order for planning, unless they are full joins. -/
theorem linked (h : OneType val set joinType) (hfull : joinType ≠ .full)
    (hids : (set.tables.map TablePlan.id).Nodup)
    (hsources : ∀ p ∈ set.tables, p.executable.sources ≠ []) {rejecting : Prop}
    (hrejects : rejecting → ∀ p ∈ set.tables, ∀ link, p.padding? = some link →
      ∀ q ∈ set.tables, q.id = link.target → q.padding? ≠ none →
        RejectsNulls val q.columns link.on) :
    Linked val (set.wiring joinType rejecting) set.tables := by
  -- Every link to the right has its two ends in the tables of its plans.
  have hends : ∀ p ∈ set.tables, ∀ link, p.right = some link → ∀ q ∈ set.tables,
      q.id = link.target → ∃ e ∈ set.linkEnds,
        e.1 ∈ p.executable.sources ∧ e.2 ∈ q.executable.sources := by
    intro p hp link hlink q hq hid
    obtain ⟨s, hs⟩ := List.exists_mem_of_ne_nil _ (hsources p hp)
    obtain ⟨t, ht⟩ := List.exists_mem_of_ne_nil _ (hsources q hq)
    have hget := (get?_eq_some_of_nodup hids).mpr ⟨hq, hid⟩
    exact ⟨_, TableSet.mem_linkEnds hp hlink hget hs ht, hs, ht⟩
  refine ⟨?_, fun side p hp => h.reads p hp side, ?_, ?_, ?_, h.grounded hfull, ?_, ?_, ?_⟩
  · intro side p hp link hlink
    obtain ⟨q, hq, hid, back, hback, hbt, hon⟩ := h.answered p hp side link hlink
    refine ⟨q, hq, hid, hid ▸ h.target_ne hp hlink, back, hback, hbt, ?_, hon⟩
    rw [h.typed p hp side link hlink, h.typed q hq side.other back hback]
  · intro side p hp link hlink
    rw [h.typed p hp side link hlink]
    exact hfull
  -- Inner links pad no plan, and all links are inner ones then.
  · intro side p hp link hlink htype
    rw [h.typed p hp side link hlink] at htype
    cases hpad : p.padding? with
    | none => rfl
    | some l =>
      rcases (h.padding_eq_some_iff hp hfull).mp hpad with ⟨ht, -⟩ | ⟨ht, -⟩
      · rw [htype] at ht
        cases ht
      · rw [htype] at ht
        cases ht
  -- No plan is padded from both sides, since that takes links of two types.
  · intro p hp l r hl hr htl htr
    have hsame := (h.typed p hp .left l hl).trans (h.typed p hp .right r hr).symm
    rw [htl, htr] at hsame
    cases hsame
  · intro p hp link hlink htype q hq hid
    rw [h.typed p hp .right link hlink] at htype
    rw [htype]
    exact hends p hp link hlink q hq hid
  -- The link that pads a plan is a left or a right one. The ends of its join come from the plan to
  -- the left.
  · intro p hp link hpad q hq hid
    rcases (h.padding_eq_some_iff hp hfull).mp hpad with ⟨rfl, hlink⟩ | ⟨rfl, hlink⟩
    · obtain ⟨s, hs, hsid, back, hback, hbt, -⟩ := h.answered p hp .left link hlink
      obtain rfl := eq_of_id_of_nodup hids hs hq (hsid.trans hid.symm)
      exact hends s hs back hback p hp hbt.symm
    · obtain ⟨e, he, hp', hq'⟩ := hends p hp link hlink q hq hid
      exact ⟨e.swap, List.mem_map_of_mem he, hq', hp'⟩
  · intro hrej p hp link hpad q hq hid hqpad
    refine hrejects ?_ p hp link hpad q hq hid hqpad
    cases joinType <;> exact hrej

end OneType

/-! ## Base tables with checked links -/

/-- Base tables with links that pass their check and are all of one type. Both plans of a link note
the same condition in effect, and it reads only the two. -/
structure CheckedTables (db : Database V) (val : Valuation V) (supply : PlanId.Supply)
    (set : TableSet) (joinType : JoinType) : Prop where
  base : BaseTables db supply set.tables
  valid : set.validateLinks = .ok ()
  typed : ∀ p ∈ set.tables, ∀ side link, p.linkOn side = some link → link.joinType = joinType
  alike : ∀ p ∈ set.tables, ∀ q ∈ set.tables, ∀ link back, p.right = some link →
    q.left = some back → link.target = q.id → back.target = p.id →
      ∀ r, val.meets back.on r ↔ val.meets link.on r
  reads : ∀ p ∈ set.tables, ∀ side link, p.linkOn side = some link →
    ∀ e, link.on = some e → ReadsOnly set.tables [p.id, link.target] e

/-- Base tables with checked links of one type are in order for planning. -/
theorem CheckedTables.oneType {supply : PlanId.Supply} {set : TableSet} {joinType : JoinType}
    (h : CheckedTables db val supply set joinType) : OneType val set joinType := by
  refine ⟨h.typed, ?_, h.reads, exists_height h.valid⟩
  intro p hp side link hlink
  obtain ⟨q, hget, back, hback, hbt, -⟩ := (validateLinks_ok h.valid).1 p hp side link hlink
  obtain ⟨hq, hid⟩ := TableSet.mem_of_get? hget
  refine ⟨q, hq, hid, back, hback, hbt, fun r => ?_⟩
  cases side with
  | left => exact (h.alike q hq p hp back link hback hlink hbt hid.symm r).symm
  | right => exact h.alike p hp q hq link back hlink hback hid.symm hbt r

/-! ## Tables of a single row -/

/-- Base tables are so in any order. -/
theorem BaseTables.perm {supply : PlanId.Supply} {tables order : List TablePlan}
    (h : BaseTables db supply tables) (horder : order.Perm tables) :
    BaseTables db supply order where
  base p hp := h.base p (horder.mem_iff.mp hp)
  names := (horder.flatMap_right _).nodup_iff.mpr h.names
  columns p hp := h.columns p (horder.mem_iff.mp hp)
  ids := (horder.map _).nodup_iff.mpr h.ids
  given p hp := h.given p (horder.mem_iff.mp hp)

/-- `p` is the plan of a table of a single row, under a number and a name, with any links. -/
def TablePlan.IsOne (p : TablePlan) (x : Nat × String) : Prop :=
  p = { TablePlan.one x.1 x.2 with left := p.left, right := p.right }

/-- Tables of a single row, under different numbers and names. -/
theorem BaseTables.of_ones {tables : List TablePlan} {supply : PlanId.Supply}
    {names : List (Nat × String)}
    (hones : List.Forall₂ TablePlan.IsOne tables names)
    (hids : (names.map Prod.fst).Nodup) (hnames : (names.map Prod.snd).Nodup)
    (hgiven : ∀ x ∈ names, x.1 < supply.next) : BaseTables ones supply tables := by
  have hsources : names.map (fun x => [x.2]) = tables.map fun p => p.executable.sources :=
    map_eq_of_forall₂ hones fun p x hp => by rw [hp]; rfl
  have hnumbers : names.map (fun x => (⟨x.1⟩ : PlanId)) = tables.map TablePlan.id :=
    map_eq_of_forall₂ hones fun p x hp => by rw [hp]; rfl
  refine ⟨fun p hp => ?_, ?_, fun p hp => ?_, ?_, fun p hp => ?_⟩
  · obtain ⟨x, -, hx⟩ := exists_right_of_forall₂ hones hp
    exact ⟨x.2, by rw [hx]; rfl⟩
  · rw [List.flatMap_def, ← hsources, ← List.flatMap_def, ← List.map_eq_flatMap]
    exact hnames
  · obtain ⟨x, -, hx⟩ := exists_right_of_forall₂ hones hp
    rw [hx]
    exact List.nodup_singleton _
  · have hmap : names.map (fun x => (⟨x.1⟩ : PlanId)) = (names.map Prod.fst).map PlanId.mk := by
      rw [List.map_map]
      rfl
    rw [← hnumbers, hmap]
    exact hids.map fun a b hab => PlanId.mk.inj hab
  · obtain ⟨x, hx, hpx⟩ := exists_right_of_forall₂ hones hp
    rw [hpx]
    exact hgiven x hx

/-! ## A chain of three tables -/

section

variable (joinType : JoinType) (ab bc : Expr)

/-- Tables of a single row, `a`, `b` and `c`, in a chain of joins on `ab` and `bc`. -/
def chainOfOnes : List TablePlan :=
  [(TablePlan.one 1 "a").withRight ⟨⟨2⟩, joinType, some ab⟩,
    ((TablePlan.one 2 "b").withLeft ⟨⟨1⟩, joinType, some ab⟩).withRight ⟨⟨3⟩, joinType, some bc⟩,
    (TablePlan.one 3 "c").withLeft ⟨⟨2⟩, joinType, some bc⟩]

variable {joinType ab bc}

theorem chainOfOnes_checked {order : List TablePlan}
    (horder : order.Perm (chainOfOnes joinType ab bc))
    (hvalid : TableSet.validateLinks ⟨order, false⟩ = .ok ())
    (hab : ReadsOnly order [⟨1⟩, ⟨2⟩] ab) (hbc : ReadsOnly order [⟨2⟩, ⟨3⟩] bc) :
    CheckedTables ones literals ⟨4⟩ ⟨order, false⟩ joinType := by
  have hall : ∀ {P : TablePlan → Prop}, (∀ p ∈ chainOfOnes joinType ab bc, P p) →
      ∀ p ∈ order, P p := fun h p hp => h p (horder.mem_iff.mp hp)
  have hswap : ∀ {a b : PlanId} {e : Expr}, ReadsOnly order [a, b] e →
      ReadsOnly order [b, a] e := by
    intro a b e h
    refine ⟨h.1, fun p hp hid => h.2 p hp ?_⟩
    rwa [List.mem_pair, or_comm, ← List.mem_pair]
  have hones : List.Forall₂ TablePlan.IsOne (chainOfOnes joinType ab bc)
      [(1, "a"), (2, "b"), (3, "c")] :=
    .cons rfl (.cons rfl (.cons rfl .nil))
  have hbase : BaseTables ones ⟨4⟩ order :=
    (BaseTables.of_ones hones (by decide) (by decide) (by decide)).perm horder
  refine ⟨hbase, hvalid, hall ?_, ?_, hall ?_⟩
  · simp only [chainOfOnes, List.forall_mem_cons]
    refine ⟨?_, ?_, ?_, List.forall_mem_nil _⟩
    all_goals rintro (_ | _) link hlink <;> cases hlink <;> rfl
  · refine hall fun p hp q hq => ?_
    -- Of all pairs of plans, only those next to each other are linked.
    have hpairs : ∀ p ∈ chainOfOnes joinType ab bc, ∀ q ∈ chainOfOnes joinType ab bc,
        ∀ link back, p.right = some link → q.left = some back → link.target = q.id →
          back.on = link.on := by
      simp only [chainOfOnes, List.forall_mem_cons]
      refine ⟨⟨?_, ?_, ?_, List.forall_mem_nil _⟩, ⟨?_, ?_, ?_, List.forall_mem_nil _⟩,
        ⟨?_, ?_, ?_, List.forall_mem_nil _⟩, List.forall_mem_nil _⟩
      all_goals intro link back hlink hback htarget; cases hlink <;> cases hback
      · rfl
      · cases htarget
      · cases htarget
      · rfl
    intro link back hlink hback htarget _ r
    rw [hpairs p hp q (horder.mem_iff.mp hq) link back hlink hback htarget]
  · simp only [chainOfOnes, List.forall_mem_cons]
    refine ⟨?_, ?_, ?_, List.forall_mem_nil _⟩
    all_goals rintro (_ | _) link hlink e he <;> cases hlink <;> cases he
    · exact hab
    · exact hswap hab
    · exact hbc
    · exact hswap hbc

end

end QueryPlan
