import Mathlib.Data.List.Nodup
import QueryPlan.Proofs.Fit

/-!
# Tidy lists of plans

What holds of the plans of a set at every point of a planning run.

- `TablePlan.Proper`: the reported columns of a plan are those of its rows.
- `Wiring`: the tables that the links of a set were recorded between.
- `Linked`: the links of the plans answer each other and read only their plans.
- `Tidy`: the plans are proper, share no columns and no tables, and are linked.
-/

namespace QueryPlan

universe u

variable {V : Type u} {db : Database V} {val : Valuation V}

/-- The columns that a plan reports are those of its tree and of each of its rows. -/
structure TablePlan.Proper (db : Database V) (val : Valuation V) (plan : TablePlan) : Prop where
  nodup : plan.columns.Nodup
  columns : ∀ c, c ∈ plan.executable.columns db ↔ c ∈ plan.columns
  rows_over : ∀ r ∈ plan.executable.rows db val, r.Over plan.columns

/-! ## Links -/

/-- Between which tables the links of a set were recorded: the inner ones by left and right side,
the outer ones by the side that keeps all rows and the padded side. With `rejecting`, a padded
side that is itself kept by a further outer join never meets the condition of that join with
nulls. -/
structure Wiring where
  inner : List (String × String)
  outer : List (String × String)
  rejecting : Prop

/-- Whether an expression without nested queries reads columns of no plans but `ids`. -/
def ReadsOnly (tables : List TablePlan) (ids : List PlanId) (e : Expr) : Prop :=
  e.hasSubQuery = false ∧
    ∀ p ∈ tables, p.id ∉ ids → ∀ ref ∈ e.references, p.exposes ref = false

/-- An expression that reads only some plans is true in both of two rows of the plans or in
neither, if they agree on the columns of those plans. -/
theorem ReadsOnly.holds_iff {tables : List TablePlan} {ids : List PlanId} {e : Expr}
    (h : ReadsOnly tables ids e) {r s : Row V} (hr : ∀ x ∈ r, ∃ p ∈ tables, x.1 ∈ p.columns)
    (hs : ∀ x ∈ s, ∃ p ∈ tables, x.1 ∈ p.columns)
    (hagree : ∀ p ∈ tables, p.id ∈ ids → ∀ c ∈ p.columns, ∀ v, (c, v) ∈ r ↔ (c, v) ∈ s) :
    val.holds e r ↔ val.holds e s := by
  refine val.holds_congr h.1 ?_
  intro ref href c hres v
  -- A column that the reference resolves to is one of the plans read.
  have hread : ∀ p ∈ tables, c ∈ p.columns → p.id ∈ ids := by
    intro p hp hc
    by_contra hnot
    have := h.2 p hp hnot ref href
    rw [TablePlan.exposes_iff.mpr ⟨c, hc, hres⟩] at this
    exact Bool.noConfusion this
  constructor
  · intro hx
    obtain ⟨p, hp, hc⟩ := hr (c, v) hx
    exact (hagree p hp (hread p hp hc) c hc v).mp hx
  · intro hx
    obtain ⟨p, hp, hc⟩ := hs (c, v) hx
    exact (hagree p hp (hread p hp hc) c hc v).mpr hx

/-- Whether a condition is false in every row that has nothing but nulls in some columns. -/
def RejectsNulls (val : Valuation V) (cols : List ColumnName) (on : Option Expr) : Prop :=
  ∀ r : Row V, (∀ x ∈ r, x.1 ∈ cols → x.2 = val.null) → ¬ val.meets on r

/-- The links of the plans: each is answered by its target and reads only the two plans; each
plan is padded by at most one, and not if it has an inner link; and padding goes round in no
circle. -/
structure Linked (val : Valuation V) (wiring : Wiring) (tables : List TablePlan) : Prop where
  answered : ∀ side, ∀ p ∈ tables, ∀ link, p.linkOn side = some link →
    ∃ q ∈ tables, q.id = link.target ∧ q.id ≠ p.id ∧
      ∃ back, q.linkOn side.other = some back ∧ back.target = p.id ∧
        back.joinType = link.joinType ∧ ∀ r, val.meets back.on r ↔ val.meets link.on r
  reads : ∀ side, ∀ p ∈ tables, ∀ link, p.linkOn side = some link →
    ∀ e, link.on = some e → ReadsOnly tables [p.id, link.target] e
  not_full : ∀ side, ∀ p ∈ tables, ∀ link, p.linkOn side = some link → link.joinType ≠ .full
  inner_unpadded : ∀ side, ∀ p ∈ tables, ∀ link, p.linkOn side = some link →
    link.joinType = .inner → p.padding? = none
  padded_once : ∀ p ∈ tables, ∀ l r, p.left = some l → p.right = some r →
    l.joinType = .left → r.joinType ≠ .right
  grounded : ∀ ids : Set PlanId, (∃ p ∈ tables, p.id ∈ ids) →
    ∃ p ∈ tables, p.id ∈ ids ∧ ∀ link, p.padding? = some link → link.target ∉ ids
  inner_ends : ∀ p ∈ tables, ∀ link, p.right = some link → link.joinType = .inner →
    ∀ q ∈ tables, q.id = link.target →
      ∃ e ∈ wiring.inner, e.1 ∈ p.executable.sources ∧ e.2 ∈ q.executable.sources
  outer_ends : ∀ p ∈ tables, ∀ link, p.padding? = some link → ∀ q ∈ tables, q.id = link.target →
    ∃ e ∈ wiring.outer, e.1 ∈ q.executable.sources ∧ e.2 ∈ p.executable.sources
  rejects : wiring.rejecting → ∀ p ∈ tables, ∀ link, p.padding? = some link →
    ∀ q ∈ tables, q.id = link.target → q.padding? ≠ none → RejectsNulls val q.columns link.on

namespace Linked

variable {wiring : Wiring} {tables : List TablePlan} {p : TablePlan} {link : JoinLink}

/-- The only link that can pad a plan is the one that does. -/
theorem padding_eq (h : Linked val wiring tables) (hp : p ∈ tables) {side : Side}
    (hside : p.linkOn side = some link) (hpads : TablePlan.padsOn side link.joinType = true) :
    p.padding? = some link := by
  unfold TablePlan.padding?
  cases side with
  | left =>
    rw [TablePlan.linkOn_left] at hside
    rw [hside, Option.filter_some, if_pos hpads]
  | right =>
    -- A link on the left that pads the plan too would be a second padding.
    have hleft : p.left.filter (fun l => TablePlan.padsOn .left l.joinType) = none := by
      cases hl : p.left with
      | none => rfl
      | some l =>
        rw [Option.filter_some, if_neg]
        intro hpadsl
        have hfull := h.not_full .left p hp l hl
        have hfull' := h.not_full .right p hp link hside
        have htype : l.joinType = .left := by simpa [TablePlan.padsOn, hfull] using hpadsl
        have htype' : link.joinType = .right := by simpa [TablePlan.padsOn, hfull'] using hpads
        exact h.padded_once p hp l link hl hside htype htype'
    rw [TablePlan.linkOn_right] at hside
    rw [hleft, hside, Option.filter_some, if_pos hpads]

/-- The plan that pads a plan. -/
theorem exists_keeper (h : Linked val wiring tables) (hp : p ∈ tables)
    (hpad : p.padding? = some link) : ∃ q ∈ tables, q.id = link.target ∧ q.id ≠ p.id := by
  obtain ⟨side, hside, -⟩ := TablePlan.exists_side_of_padding hpad
  obtain ⟨q, hq, hid, hne, -⟩ := h.answered side p hp link hside
  exact ⟨q, hq, hid, hne⟩

/-- Not all plans are padded. -/
theorem exists_unpadded (h : Linked val wiring tables) (hne : tables ≠ []) :
    ∃ p ∈ tables, p.padding? = none := by
  obtain ⟨p, hp⟩ := List.exists_mem_of_ne_nil tables hne
  obtain ⟨q, hq, -, hout⟩ := h.grounded Set.univ ⟨p, hp, trivial⟩
  refine ⟨q, hq, ?_⟩
  cases hpad : q.padding? with
  | none => rfl
  | some l => exact absurd trivial (hout l hpad)

/-- Plans without links. -/
theorem of_no_links (h : ∀ p ∈ tables, ∀ side, p.linkOn side = none) :
    Linked val wiring tables := by
  have hnot : ∀ side {p link} {P : Prop}, p ∈ tables → p.linkOn side = some link → P := by
    intro side p link P hp hlink
    rw [h p hp] at hlink
    cases hlink
  have hnotpad : ∀ {p link} {P : Prop}, p ∈ tables → p.padding? = some link → P := by
    intro p link P hp hpad
    obtain ⟨side, hside, -⟩ := TablePlan.exists_side_of_padding hpad
    exact hnot side hp hside
  refine ⟨fun side _ hp _ hl => hnot side hp hl, fun side _ hp _ hl => hnot side hp hl,
    fun side _ hp _ hl => hnot side hp hl, fun side _ hp _ hl => hnot side hp hl,
    fun _ hp _ _ hl => hnot .left hp hl, ?_, fun _ hp _ hl => hnot .right hp hl,
    fun _ hp _ hl => hnotpad hp hl, fun _ _ hp _ hl => hnotpad hp hl⟩
  rintro ids ⟨p, hp, hid⟩
  exact ⟨p, hp, hid, fun link hl => hnotpad hp hl⟩

end Linked

/-! ## Tidy lists -/

/-- The plans have handles, columns and tables of their own; their links are in order, and there
are none unless `linked`. -/
structure Tidy (db : Database V) (val : Valuation V) (wiring : Wiring) (linked : Bool)
    (tables : List TablePlan) : Prop where
  nonempty : tables ≠ []
  nodup_ids : (tables.map TablePlan.id).Nodup
  proper : ∀ p ∈ tables, p.Proper db val
  disjoint : ∀ p ∈ tables, ∀ q ∈ tables, p.id ≠ q.id → ∀ c ∈ p.columns, c ∉ q.columns
  apart : ∀ p ∈ tables, ∀ q ∈ tables, p.id ≠ q.id →
    ∀ t ∈ p.executable.sources, t ∉ q.executable.sources
  links : Linked val wiring tables
  unlinked : linked = false → ∀ p ∈ tables, ∀ side, p.linkOn side = none

theorem eq_of_id_of_nodup {tables : List TablePlan} (h : (tables.map TablePlan.id).Nodup)
    {p q : TablePlan} (hp : p ∈ tables) (hq : q ∈ tables) (hid : p.id = q.id) : p = q :=
  List.inj_on_of_nodup_map h hp hq hid

/-- A column is exposed just once if all plans that expose it have one handle. -/
theorem countP_exposes_of_id {tables : List TablePlan} {c : ColumnName} {p : TablePlan}
    (h : (tables.map TablePlan.id).Nodup) (hp : p ∈ tables) (hexposes : p.exposes c = true)
    (honly : ∀ q ∈ tables, q.exposes c = true → q.id = p.id) :
    (tables.countP fun q => q.exposes c) = 1 := by
  have hsame : ∀ q ∈ tables, q.exposes c = true ↔ (q.id == p.id) = true := by
    intro q hq
    rw [beq_iff_eq]
    refine ⟨honly q hq, fun hid => ?_⟩
    rwa [eq_of_id_of_nodup h hq hp hid]
  calc (tables.countP fun q => q.exposes c)
      = tables.countP fun q => q.id == p.id := List.countP_congr hsame
    _ = (tables.map TablePlan.id).count p.id := by rw [List.count, List.countP_map]; rfl
    _ = 1 := List.count_eq_one_of_mem h (List.mem_map_of_mem hp)

/-- What is found under a handle is a plan of the set with that handle. -/
theorem TableSet.mem_of_get? {set : TableSet} {id : PlanId} {p : TablePlan}
    (h : set.get? id = some p) : p ∈ set.tables ∧ p.id = id :=
  ⟨List.mem_of_find?_eq_some h, by simpa using List.find?_some h⟩

/-- The plan of a handle. -/
theorem get?_eq_some_of_nodup {set : TableSet} (h : (set.tables.map TablePlan.id).Nodup)
    {id : PlanId} {p : TablePlan} : set.get? id = some p ↔ p ∈ set.tables ∧ p.id = id := by
  constructor
  · exact TableSet.mem_of_get?
  · rintro ⟨hp, rfl⟩
    cases hget : set.get? p.id with
    | none =>
      have := List.find?_eq_none.mp hget p hp
      simp at this
    | some q =>
      obtain ⟨hq, hid⟩ := TableSet.mem_of_get? hget
      rw [eq_of_id_of_nodup h hq hp hid]

namespace Tidy

variable {wiring : Wiring} {linked : Bool} {tables : List TablePlan} {p q : TablePlan}

theorem eq_of_id (h : Tidy db val wiring linked tables) (hp : p ∈ tables) (hq : q ∈ tables)
    (hid : p.id = q.id) : p = q :=
  eq_of_id_of_nodup h.nodup_ids hp hq hid

theorem get?_eq_some_iff {set : TableSet} (h : Tidy db val wiring linked set.tables) {id : PlanId} :
    set.get? id = some p ↔ p ∈ set.tables ∧ p.id = id :=
  get?_eq_some_of_nodup h.nodup_ids

/-- Two plans do not pad each other. -/
theorem not_padding_back (h : Tidy db val wiring linked tables) {link back : JoinLink}
    (hp : p ∈ tables) (hq : q ∈ tables) (hpad : p.padding? = some link)
    (htarget : link.target = q.id) (hback : q.padding? = some back) : back.target ≠ p.id := by
  intro heq
  obtain ⟨s, hs, hmem, hout⟩ := h.links.grounded {id | id = p.id ∨ id = q.id} ⟨p, hp, Or.inl rfl⟩
  rcases hmem with hid | hid
  · obtain rfl := h.eq_of_id hs hp hid
    exact hout link hpad (Or.inr htarget)
  · obtain rfl := h.eq_of_id hs hq hid
    exact hout back hback (Or.inl heq)

end Tidy

end QueryPlan
