import QueryPlan.Proofs.Joins
import QueryPlan.Proofs.Union

/-!
# The two sides of an OR

- `Plans`: a computation that keeps the rows that satisfy a predicate.
- `KeptBy`: what became of a set when a side was planned over a copy of it.
- `planSides_yields`: both sides are planned over copies of the set.
- `Position.At`: what stands at a position once both sides are planned.
-/

namespace QueryPlan

universe u

variable {V : Type u} {db : Database V} {val : Valuation V} {wiring : Wiring} {linked : Bool}

/-- Whether a computation keeps the rows that satisfy `e`. -/
def Plans (db : Database V) (val : Valuation V) (wiring : Wiring) (linked : Bool)
    (act : Planner Unit) (e : Row V → Prop) : Prop :=
  ∀ w w' u, Ready db val wiring linked w → act w = .ok u w' →
    Leads db val wiring linked e w w'

/-! ## A side of an OR -/

/-- What became of a copy of a set. -/
def KeptBy (set side : TableSet) : Prop :=
  ∃ copy, copy.hasJoins = false ∧ List.Forall₂ TablePlan.Copies set.tables copy.tables ∧
    Frame copy side

/-- `q` is like `p`, with the same tree if it was not touched. -/
def TablePlan.Kept (p q : TablePlan) : Prop :=
  p.Alike q ∧ (q.touched = false → q.executable = p.executable)

namespace KeptBy

variable {set side : TableSet}

/-- Where no merge made a plan of a side, its plans correspond to those of the set. -/
theorem positions (h : KeptBy set side) (hjoins : side.hasJoins = false) :
    List.Forall₂ TablePlan.Kept set.tables side.tables := by
  obtain ⟨copy, -, hcopies, hframe⟩ := h
  refine forall₂_trans ?_ hcopies (hframe.positions hjoins)
  rintro p q s hpq ⟨halike, htree⟩
  exact ⟨hpq.alike.trans halike, fun hs => (htree hs).trans hpq.executable⟩

/-- A touched plan of such a side is unpadded, unless all plans are touched. -/
theorem unpadded (h : KeptBy set side) (hjoins : side.hasJoins = false) :
    (∀ q ∈ side.tables, q.touched = true → q.padding? = none) ∨
      ∀ q ∈ side.tables, q.touched = true := by
  obtain ⟨copy, -, -, hframe⟩ := h
  exact hframe.unpadded hjoins

/-- A side of which a merge made a plan has a touched plan. -/
theorem joined (h : KeptBy set side) (hjoins : side.hasJoins = true) :
    ∃ q ∈ side.tables, q.touched = true := by
  obtain ⟨copy, hcopy, -, hframe⟩ := h
  rcases hframe.joined hjoins with hstart | htouched
  · rw [hcopy] at hstart
    cases hstart
  · exact htouched

end KeptBy

section

variable {planLeft planRight : Planner Unit} {e e' : Row V → Prop} {w w' : Workspace}

/-- A side that is planned over a copy of the set. -/
theorem side_yields {act : Planner Unit} {copy : TableSet} {c : Context} {u : Unit}
    (hact : Plans db val wiring linked act e)
    (hcopy : Yields db val wiring linked (fun _ => True) w ⟨copy, c⟩)
    (hjoins : copy.hasJoins = false)
    (hcopies : List.Forall₂ TablePlan.Copies w.set.tables copy.tables)
    (h : act ⟨copy, c⟩ = .ok u w') :
    Yields db val wiring linked e w w' ∧ KeptBy w.set w'.set ∧ c.Extends w'.context := by
  have hlead := hact _ _ _ hcopy.ready h
  refine ⟨hcopy.after hlead.toYields, ⟨copy, hjoins, hcopies, hlead.frame copy ?_⟩,
    hlead.context⟩
  refine Frame.start hjoins ?_
  intro q hq
  obtain ⟨p, -, hpq⟩ := exists_left_of_forall₂ hcopies hq
  exact hpq.untouched

/-- Both sides of an OR are planned over copies of the set, which stays as it is. -/
theorem planSides_yields {sides : TableSet × TableSet} (hw : Ready db val wiring linked w)
    (hl : Plans db val wiring linked planLeft e) (hr : Plans db val wiring linked planRight e')
    (h : Planner.planSides planLeft planRight w = .ok sides w') :
    w'.set = w.set ∧ Yields db val wiring linked e w ⟨sides.1, w'.context⟩ ∧
      Yields db val wiring linked e' w ⟨sides.2, w'.context⟩ ∧
      KeptBy w.set sides.1 ∧ KeptBy w.set sides.2 := by
  unfold Planner.planSides at h
  simp only [Planner.bind_ok, Planner.within_ok, Planner.pure_ok] at h
  obtain ⟨left, w₁, hleft, right, w₂, hright, ⟨_, L⟩, _, ⟨w₃, hL, hLset, rfl⟩, ⟨_, R⟩, _,
    ⟨w₄, hR, hRset, rfl⟩, rfl, rfl⟩ := h
  obtain ⟨hcopyl, hset₁, hjoinsl, hcopiesl⟩ := copy_yields hw hleft
  have hstay : Yields db val wiring linked (fun _ => True) w w₁ := by
    have := (Yields.refl hw).extend hcopyl.context
    rwa [← hset₁] at this
  obtain ⟨hcopyr, hset₂, hjoinsr, hcopiesr⟩ := copy_yields hstay.ready hright
  rw [hset₁] at hcopiesr
  obtain ⟨hyl, hkeptl, hextl⟩ := side_yields hl (hcopyl.extend hcopyr.context) hjoinsl hcopiesl hL
  obtain ⟨hyr, hkeptr, hextr⟩ := side_yields hr ((hstay.after hcopyr).extend hextl) hjoinsr
    hcopiesr hR
  simp only at hLset hRset
  subst hLset hRset
  exact ⟨hset₂.trans hset₁, hyl.extend hextr, hyr, hkeptl, hkeptr⟩

end

/-! ## Uniting positions -/

/-- What stands at a position: plans of both sides that were kept from the plan there, perhaps
with a cache put on before. -/
def Position.At (before : TablePlan) (p : Position) : Prop :=
  ∃ cached whole, before.Sheltered cached whole ∧ whole.Kept p.left ∧ whole.Kept p.right ∧
    p.united = unitePosition cached whole p.left p.right ∧
    p.differs = (p.left.touched || p.right.touched)

/-- The plans of both sides and those before stand position by position. -/
theorem exists_positions {before left right : List TablePlan} {xs : List (Bool × TablePlan)}
    (hb : List.Forall₂ (fun p x => p.Sheltered x.1 x.2) before xs)
    (hl : List.Forall₂ TablePlan.Kept (xs.map Prod.snd) left)
    (hr : List.Forall₂ TablePlan.Kept (xs.map Prod.snd) right) :
    ∃ ps : List Position, ps.map Position.left = left ∧ ps.map Position.right = right ∧
      ps.map Position.united = unitePositions xs left right ∧
      ps.countP Position.differs = (left.zip right).countP (fun x => x.1.touched || x.2.touched) ∧
      List.Forall₂ Position.At before ps := by
  induction hb generalizing left right with
  | nil =>
    cases hl
    cases hr
    exact ⟨[], rfl, rfl, rfl, rfl, .nil⟩
  | @cons p x before xs hpx _ ih =>
    rw [List.map_cons] at hl hr
    cases hl with
    | @cons _ l _ left hpl hl =>
      cases hr with
      | @cons _ r _ right hpr hr =>
        obtain ⟨ps, rfl, rfl, hunited, hcount, hat⟩ := ih hl hr
        refine ⟨⟨l, r, unitePosition x.1 x.2 l r, l.touched || r.touched⟩ :: ps, rfl, rfl, ?_, ?_,
          .cons ⟨x.1, x.2, hpx, hpl, hpr, rfl, rfl⟩ hat⟩
        · rw [List.map_cons, hunited]
          rfl
        · rw [List.zip_cons_cons, List.countP_cons, List.countP_cons, hcount]

/-- The union of two trees over the same tables. -/
theorem sound_union {l r : TablePlan} (h : l.Alike r) (hpad : l.padding? = none) :
    Position.Sound db val ⟨l, r, l.update (.union · r.executable), true⟩ := by
  refine ⟨h, ⟨rfl, rfl, ?_, ?_⟩, rfl, rfl, ?_, ?_, ?_, by rintro ⟨⟩, fun _ => hpad⟩
  · intro t
    show t ∈ l.executable.sources ++ r.executable.sources ↔ _
    rw [List.mem_append, h.sources, or_self]
  · intro side
    show l.linkOn side = _
    cases l.linkOn side <;> rfl
  · rintro P - (hl | hr)
    · exact hl.of_child List.mem_cons_self
    · exact hr.of_child (List.mem_cons_of_mem _ List.mem_cons_self)
  · intro mark tree
    exact List.mem_append
  · intro one other hl hr
    have hsources : ∀ t, t ∈ (PlanNode.union l.executable r.executable).sources ↔
        t ∈ l.executable.sources := by
      intro t
      rw [PlanNode.sources, List.mem_append, h.sources, or_self]
    rcases hl with hl | hl | hl
    · exact Or.inl fun t => (hsources t).trans (hl t)
    · exact Or.inr (Or.inl fun t => (hsources t).trans (hl t))
    · exact Or.inr (Or.inr (hl.of_child List.mem_cons_self))

/-- A position is sound if no padded plan differs there. -/
theorem Position.At.sound {before : TablePlan} {p : Position} (h : p.At before)
    (hpad : p.differs = true → p.left.padding? = none) : p.Sound db val := by
  obtain ⟨cached, whole, -, ⟨hl, hltree⟩, ⟨hr, hrtree⟩, hunited, hdiff⟩ := h
  obtain ⟨l, r, u, d⟩ := p
  simp only at hl hltree hr hrtree hunited hdiff hpad
  have halike : l.Alike r := hl.symm.trans hr
  unfold unitePosition at hunited
  -- Where the sides differ, their trees are united. Where they do not, they are the tree that both
  -- started with, and that of the left side stands for both.
  cases d with
  | true =>
    rw [if_pos hdiff.symm, unitePair, if_pos hdiff.symm] at hunited
    subst hunited
    exact sound_union halike (hpad rfl)
  | false =>
    rw [if_neg (by rw [← hdiff]; exact Bool.false_ne_true)] at hunited
    obtain ⟨hlt, hrt⟩ := Bool.or_eq_false_iff.mp hdiff.symm
    have htree : r.executable = l.executable := (hrtree hrt).trans (hltree hlt).symm
    have hwraps : l.executable.Wraps u.executable := by
      subst hunited
      cases cached
      · exact .refl _
      · exact .withoutCache _
    -- To take the cache off a tree changes neither its columns nor its rows.
    have hsame : u.executable.columns db = l.executable.columns db ∧
        u.executable.rows db val = l.executable.rows db val := by
      subst hunited
      cases cached
      · exact ⟨rfl, rfl⟩
      · show l.executable.withoutCache.columns db = _ ∧ l.executable.withoutCache.rows db val = _
        cases l.executable <;> exact ⟨rfl, rfl⟩
    refine ⟨halike, ⟨?_, ?_, hwraps.sources, ?_⟩, hsame.1, ?_, ?_, ?_, ?_, ?_, ?_⟩
    · subst hunited
      rfl
    · subst hunited
      rfl
    · intro side
      have : u.linkOn side = l.linkOn side := by
        subst hunited
        cases side <;> rfl
      show u.linkOn side = (l.linkOn side).map _
      rw [this]
      cases l.linkOn side <;> rfl
    · show u.executable.rows db val = l.executable.rows db val ∪ r.executable.rows db val
      rw [htree, Set.union_self, hsame.2]
    · rintro P hP (hh | hh)
      · exact hwraps.nodes P hP hh
      · exact hwraps.nodes P hP (htree ▸ hh)
    · intro mark tree
      show tree ∈ u.executable.marked mark ↔
        tree ∈ l.executable.marked mark ∨ tree ∈ r.executable.marked mark
      rw [htree, or_self]
      exact hwraps.marked mark tree
    · exact fun one other hsplit _ => hwraps.splitBy hsplit
    · exact fun _ => by
        show r.executable.rows db val = l.executable.rows db val
        rw [htree]
    · rintro ⟨⟩

end QueryPlan
