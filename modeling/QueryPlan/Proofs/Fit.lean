import QueryPlan.Clash
import QueryPlan.PlanError
import QueryPlan.Proofs.Meaning
import QueryPlan.TableSet.Links

/-!
# Rows of table plans with pending joins

The rows that table plans stand for while joins between them are pending. Each
plan constrains a row by itself, so that a join concerns only the two plans that
it merges.

- `TablePlan.checkLink_some`: what the check of a link compares.
- `TablePlan.padding?`: the link whose join pads the rows of a plan with nulls.
- `TablePlan.Present`, `TablePlan.Absent`: whether a row has a row of the plan in
  the columns of the plan, or nulls because none fits.
- `TablePlan.Fits`: what a plan demands of a row.
- `rowsOf`: the rows that all plans of a list agree to.
-/

namespace QueryPlan

universe u

variable {V : Type u}

namespace TablePlan

/-! ## Links by side -/

/-- The link of a plan on a side. -/
def linkOn (plan : TablePlan) : Side → Option JoinLink
  | .left => plan.left
  | .right => plan.right

@[simp] theorem linkOn_left (plan : TablePlan) : plan.linkOn .left = plan.left := rfl

@[simp] theorem linkOn_right (plan : TablePlan) : plan.linkOn .right = plan.right := rfl

/-- A link is checked against the link on the other side of its target. -/
theorem checkLink_some (set : TableSet) (plan : TablePlan) (side : Side) (link : JoinLink) :
    set.checkLink plan side (some link) = (do
      let partner ← set.require link.target
      (partner.linkOn side.other).elim
        (throw (.contradictoryLinks (.unanswered plan.id side link.target))) fun answer =>
          if answer.target = plan.id ∧ answer.agrees link then return
          else throw (.contradictoryLinks (.unanswered plan.id side link.target))) := by
  refine congrArg (set.require link.target >>= ·) (funext fun partner => ?_)
  cases side with
  | left =>
    show _ = partner.right.elim _ _
    cases partner.right <;> rfl
  | right =>
    show _ = partner.left.elim _ _
    cases partner.left <;> rfl

/-- Whether a join of a type pads the plan that has the link on a side. -/
def padsOn : Side → JoinType → Bool
  | .left, joinType => joinType = .left ∨ joinType = .full
  | .right, joinType => joinType = .right ∨ joinType = .full

/-- The link whose join pads the rows of the plan with nulls. -/
def padding? (plan : TablePlan) : Option JoinLink :=
  match plan.left.filter fun link => padsOn .left link.joinType with
  | some link => some link
  | none => plan.right.filter fun link => padsOn .right link.joinType

/-- The link that pads a plan is its left one or its right one, where that keeps the rows of the
plan. -/
theorem padding?_eq_or (plan : TablePlan) :
    plan.padding? = (plan.left.filter fun link => padsOn .left link.joinType).or
      (plan.right.filter fun link => padsOn .right link.joinType) := by
  unfold padding?
  cases plan.left.filter fun link => padsOn .left link.joinType <;> rfl

/-- A plan without links is not padded. -/
theorem padding?_eq_none {plan : TablePlan} (h : ∀ side, plan.linkOn side = none) :
    plan.padding? = none := by
  rw [padding?_eq_or, ← linkOn_left, ← linkOn_right, h, h]
  rfl

/-- The plan that pads another one is the target of the link that pads it. -/
theorem nullPaddedBy?_eq (plan : TablePlan) :
    plan.nullPaddedBy? = plan.padding?.map JoinLink.target := by
  unfold nullPaddedBy? padding? padsOn
  cases plan.left.filter fun link => link.joinType = .left ∨ link.joinType = .full <;> rfl

/-- A plan that is padded has a link on one side that pads it. -/
theorem exists_side_of_padding {plan : TablePlan} {link : JoinLink}
    (h : plan.padding? = some link) :
    ∃ side, plan.linkOn side = some link ∧ padsOn side link.joinType = true := by
  unfold padding? at h
  cases hl : plan.left.filter fun link => padsOn .left link.joinType with
  | some l =>
    rw [hl] at h
    obtain rfl : l = link := Option.some.inj h
    obtain ⟨hmem, hpads⟩ := Option.filter_eq_some_iff.mp hl
    exact ⟨.left, hmem, hpads⟩
  | none =>
    rw [hl] at h
    obtain ⟨hmem, hpads⟩ := Option.filter_eq_some_iff.mp h
    exact ⟨.right, hmem, hpads⟩

/-- A link that pads a plan makes it a padded one. -/
theorem padding_ne_none {plan : TablePlan} {side : Side} {link : JoinLink}
    (h : plan.linkOn side = some link) (hpads : padsOn side link.joinType = true) :
    plan.padding? ≠ none := by
  unfold padding?
  cases side with
  | left =>
    rw [linkOn_left] at h
    rw [h, Option.filter_some, if_pos hpads]
    simp
  | right =>
    rw [linkOn_right] at h
    cases plan.left.filter fun link => padsOn .left link.joinType with
    | some l => simp
    | none =>
      simp only
      rw [h, Option.filter_some, if_pos hpads]
      simp

/-- Whether a reference resolves to a column of the plan. -/
theorem exposes_iff {plan : TablePlan} {ref : ColumnName} :
    plan.exposes ref = true ↔ ∃ c ∈ plan.columns, ref.resolvesTo c = true :=
  List.any_eq_true

/-! ## What a plan demands of a row -/

section

variable (db : Database V) (val : Valuation V)

/-- The row has a row of the plan in the columns of the plan. -/
def Present (plan : TablePlan) (r : Row V) : Prop :=
  r.only plan.columns ∈ plan.executable.rows db val

/-- The row has nulls in the columns of the plan, and with any row of the plan in their place it
would not meet the condition. -/
def Absent (plan : TablePlan) (on : Option Expr) (r : Row V) : Prop :=
  r.only plan.columns = Row.nulls val.null plan.columns ∧
    ∀ a ∈ plan.executable.rows db val, ¬ val.meets on (r.without plan.columns ∪ a)

/-- What a plan demands of a row: a row of the plan in its columns, or nulls if a pending join
pads it and no row fits; and the condition of the inner join on its right. -/
structure Fits (plan : TablePlan) (r : Row V) : Prop where
  present : plan.padding? = none → plan.Present db val r
  padded : ∀ link, plan.padding? = some link →
    (plan.Present db val r ∧ val.meets link.on r) ∨ plan.Absent db val link.on r
  inner : ∀ link, plan.right = some link → link.joinType = .inner → val.meets link.on r

end

end TablePlan

/-! ## Rows of several plans -/

/-- The rows with values in columns of the plans alone, to which every plan agrees. -/
def rowsOf (db : Database V) (val : Valuation V) (tables : List TablePlan) : Set (Row V) :=
  {r | (∀ x ∈ r, ∃ plan ∈ tables, x.1 ∈ plan.columns) ∧ ∀ plan ∈ tables, plan.Fits db val r}

/-- The rows that a set of plans stands for. -/
def TableSet.rows (db : Database V) (val : Valuation V) (set : TableSet) : Set (Row V) :=
  rowsOf db val set.tables

variable {db : Database V} {val : Valuation V}

/-- A row of several plans assigns values to their columns alone and fits each of them. -/
theorem mem_rowsOf {tables : List TablePlan} {r : Row V} :
    r ∈ rowsOf db val tables ↔
      (∀ x ∈ r, ∃ plan ∈ tables, x.1 ∈ plan.columns) ∧ ∀ plan ∈ tables, plan.Fits db val r :=
  Iff.rfl

/-- What a plan without a padding join demands. -/
theorem TablePlan.fits_iff_of_unpadded {p : TablePlan} (hpad : p.padding? = none) {r : Row V} :
    p.Fits db val r ↔ p.Present db val r ∧
      ∀ link, p.right = some link → link.joinType = .inner → val.meets link.on r := by
  constructor
  · intro h
    exact ⟨h.present hpad, h.inner⟩
  · rintro ⟨hpresent, hinner⟩
    refine ⟨fun _ => hpresent, ?_, hinner⟩
    intro link hlink
    rw [hpad] at hlink
    cases hlink

/-- What a plan with a padding join and without an inner one demands. -/
theorem TablePlan.fits_iff_of_padded {p : TablePlan} {link : JoinLink}
    (hpad : p.padding? = some link)
    (hinner : ∀ link, p.right = some link → link.joinType ≠ .inner) {r : Row V} :
    p.Fits db val r ↔
      (p.Present db val r ∧ val.meets link.on r) ∨ p.Absent db val link.on r := by
  constructor
  · intro h
    exact h.padded link hpad
  · intro h
    refine ⟨?_, ?_, fun l hl htype => absurd htype (hinner l hl)⟩
    · intro hnone
      rw [hpad] at hnone
      cases hnone
    · intro l hl
      rw [hpad] at hl
      obtain rfl := Option.some.inj hl
      exact h

/-! ## Plans that demand the same -/

/-- The type and the condition of a link. -/
def JoinLink.terms (link : JoinLink) : JoinType × Option Expr := (link.joinType, link.on)

/-- Two plans with the same columns and tables and links on the same terms. -/
structure TablePlan.Alike (p q : TablePlan) : Prop where
  columns : q.columns = p.columns
  sources : ∀ t, t ∈ q.executable.sources ↔ t ∈ p.executable.sources
  terms : ∀ side, (q.linkOn side).map JoinLink.terms = (p.linkOn side).map JoinLink.terms

namespace TablePlan.Alike

variable {p q s : TablePlan}

theorem refl (p : TablePlan) : p.Alike p :=
  ⟨rfl, fun _ => Iff.rfl, fun _ => rfl⟩

theorem symm (h : p.Alike q) : q.Alike p :=
  ⟨h.columns.symm, fun t => (h.sources t).symm, fun side => (h.terms side).symm⟩

theorem trans (h : p.Alike q) (h' : q.Alike s) : p.Alike s :=
  ⟨h'.columns.trans h.columns, fun t => (h'.sources t).trans (h.sources t),
    fun side => (h'.terms side).trans (h.terms side)⟩

/-- Of plans with links on the same terms both or neither are padded, and on the same condition. -/
theorem padding (h : p.Alike q) :
    q.padding?.map JoinLink.on = p.padding?.map JoinLink.on := by
  have hkept : ∀ side, ((q.linkOn side).filter fun link => padsOn side link.joinType).map
      JoinLink.on = ((p.linkOn side).filter fun link => padsOn side link.joinType).map
      JoinLink.on := by
    intro side
    have hon : ∀ o : Option JoinLink, (o.filter fun link => padsOn side link.joinType).map
        JoinLink.on = ((o.map JoinLink.terms).filter fun t => padsOn side t.1).map Prod.snd := by
      intro o
      rw [Option.filter_map, Option.map_map]
      rfl
    rw [hon, hon, h.terms]
  have hl := hkept .left
  have hr := hkept .right
  simp only [linkOn_left, linkOn_right] at hl hr
  rw [padding?_eq_or, padding?_eq_or, Option.map_or, Option.map_or, hl, hr]

/-- Plans that demand the same are both padded or both not. -/
theorem padding_eq_none (h : p.Alike q)
    (hpad : p.padding? = none) : q.padding? = none := by
  have := h.padding
  rw [hpad, Option.map_none, Option.map_eq_none_iff] at this
  exact this

/-- Plans with links on the same terms have the same inner links. -/
theorem inner_iff (h : p.Alike q) {r : Row V} :
    (∀ link, q.right = some link → link.joinType = .inner → val.meets link.on r) ↔
      ∀ link, p.right = some link → link.joinType = .inner → val.meets link.on r := by
  have hterms : ∀ o : Option JoinLink,
      (∀ link, o = some link → link.joinType = .inner → val.meets link.on r) ↔
        ∀ t, o.map JoinLink.terms = some t → t.1 = .inner → val.meets t.2 r := by
    rintro (_ | link)
    · exact iff_of_true (by rintro link ⟨⟩) (by rintro t ⟨⟩)
    · constructor
      · rintro hall t ht
        obtain rfl := Option.some.inj ht
        exact hall link rfl
      · rintro hall link' hlink
        obtain rfl := Option.some.inj hlink
        exact hall _ rfl
  have := h.terms .right
  rw [linkOn_right, linkOn_right] at this
  rw [hterms, hterms, this]

/-- What a plan demands depends on its columns, its rows and the terms of its links. -/
theorem fits_of_fits (h : p.Alike q) (hrows : q.executable.rows db val = p.executable.rows db val)
    {r : Row V} (hp : p.Fits db val r) : q.Fits db val r := by
  have hpresent : p.Present db val r ↔ q.Present db val r := by
    unfold Present
    rw [h.columns, hrows]
  have habsent : ∀ on, p.Absent db val on r ↔ q.Absent db val on r := by
    intro on
    unfold Absent
    rw [h.columns, hrows]
  have hpad := h.padding
  constructor
  · intro hq
    rw [hq, Option.map_none, eq_comm, Option.map_eq_none_iff] at hpad
    exact hpresent.mp (hp.present hpad)
  · intro link hq
    rw [hq, Option.map_some, eq_comm, Option.map_eq_some_iff] at hpad
    obtain ⟨link', hlink', hon⟩ := hpad
    rw [← hon, ← hpresent, ← habsent]
    exact hp.padded link' hlink'
  · exact h.inner_iff.mpr hp.inner

/-- Plans that demand the same fit the same rows, if their trees have the same rows. -/
theorem fits (h : p.Alike q)
    (hrows : q.executable.rows db val = p.executable.rows db val) {r : Row V} :
    q.Fits db val r ↔ p.Fits db val r :=
  ⟨h.symm.fits_of_fits hrows.symm, h.fits_of_fits hrows⟩

end TablePlan.Alike

end QueryPlan
