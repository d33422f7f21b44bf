import QueryPlan.Planner
import QueryPlan.Proofs.Contraction
import QueryPlan.Proofs.Growth

/-!
# What a step of planning does

- `Flawed`: whether a tree has a join across two links, of which it plans the
  condition of one alone, or an outer join too early.
- `Ready`: what holds of a workspace before and after every step.
- `Frame`: how the plans of a set correspond, position by position, to those that
  it started with.
- `Yields`: a workspace with the rows of another of which a predicate is true,
  unless one of its trees is flawed.
- `Leads`: a step that yields such rows and keeps the frame.

All of a run is a chain of such steps (`Leads.trans`).
-/

namespace QueryPlan

universe u

variable {V : Type u} {db : Database V} {val : Valuation V} {wiring : Wiring} {linked : Bool}

/-! ## Flaws -/

/-- Whether the node joins across two inner links, or adds rows back while a further outer join
may still add to them, unless no such row would matter. -/
def Wiring.Flaw (wiring : Wiring) (node : PlanNode) : Prop :=
  (∃ e ∈ wiring.inner, ∃ e' ∈ wiring.inner, e ≠ e' ∧
    node.Crosses {e.1} {e.2} ∧ node.Crosses {e'.1} {e'.2}) ∨
  (¬ wiring.rejecting ∧ node.Premature wiring.outer)

/-- Whether one of the trees has a flaw. -/
def Flawed (wiring : Wiring) (trees : List PlanNode) : Prop := ∃ t ∈ trees, t.Has wiring.Flaw

/-- A cache is no flaw. -/
theorem Wiring.not_flaw_cache (wiring : Wiring) (input : PlanNode) (id : Nat) :
    ¬ wiring.Flaw (.cache input id) := by
  rintro (⟨_, _, _, _, _, hcross, _⟩ | ⟨_, hpremature⟩)
  · exact PlanNode.not_crosses_cache _ _ _ _ hcross
  · exact PlanNode.not_premature_cache _ _ _ hpremature

/-- Trees built on flawed ones are flawed. -/
theorem Flawed.grow {fresh : Set String} {trees trees' : List PlanNode} (h : Flawed wiring trees)
    (hg : Grows fresh trees trees') : Flawed wiring trees' :=
  hg.nodes _ wiring.not_flaw_cache h

/-! ## Names still to come -/

namespace MarkerGenerator

/-- The names that were not made yet. -/
def future (markers : MarkerGenerator) : Set String :=
  {mark | ∃ n, markers.issued < n ∧ mark = markers.nameAt n}

/-- The next name has the next number, and one more is issued. -/
theorem next_eq (markers : MarkerGenerator) :
    markers.next = (markers.nameAt (markers.issued + 1),
      { markers with issued := markers.issued + 1 }) := by
  rfl

end MarkerGenerator

/-- A context with more handles and names used. -/
structure Context.Extends (c c' : Context) : Prop where
  supply : c.supply.next ≤ c'.supply.next
  markers : ∃ issued, c.markers.issued ≤ issued ∧ c'.markers = { c.markers with issued }
  cacheOrBranches : c'.cacheOrBranches = c.cacheOrBranches

namespace Context.Extends

variable {c c' c'' : Context}

theorem refl (c : Context) : c.Extends c := ⟨le_rfl, ⟨_, le_rfl, rfl⟩, rfl⟩

/-- A run and what follows it use up handles and names one after another. -/
theorem trans (h : c.Extends c') (h' : c'.Extends c'') : c.Extends c'' := by
  obtain ⟨n, hn, heq⟩ := h.markers
  obtain ⟨m, hm, heq'⟩ := h'.markers
  refine ⟨h.supply.trans h'.supply, ⟨m, ?_, ?_⟩, h'.cacheOrBranches.trans h.cacheOrBranches⟩
  · rw [heq] at hm
    exact hn.trans hm
  · rw [heq', heq]

/-- Names are the same, however many of them are issued. -/
theorem nameAt (h : c.Extends c') : c'.markers.nameAt = c.markers.nameAt := by
  obtain ⟨n, -, heq⟩ := h.markers
  rw [heq]
  rfl

/-- Names still to come become fewer. -/
theorem future (h : c.Extends c') : c'.markers.future ⊆ c.markers.future := by
  rintro mark ⟨n, hn, rfl⟩
  rw [h.nameAt]
  obtain ⟨m, hm, heq⟩ := h.markers
  rw [heq] at hn
  exact ⟨n, lt_of_le_of_lt hm hn, rfl⟩

end Context.Extends

/-! ## Before and after a step -/

/-- The trees of the plans. -/
def TableSet.trees (set : TableSet) : List PlanNode := set.tables.map TablePlan.executable

/-- What holds of a workspace before and after every step: its plans are tidy, and the handles
and marks still to come are new. Marks differ where there are outer joins. -/
structure Ready (db : Database V) (val : Valuation V) (wiring : Wiring) (linked : Bool)
    (w : Workspace) : Prop where
  tidy : Tidy db val wiring linked w.set.tables
  fresh : ∀ p ∈ w.set.tables, p.id.number < w.context.supply.next
  unmarked : ∀ mark ∈ w.context.markers.future, ∀ t ∈ w.set.trees, t.marked mark = []
  distinct : wiring.outer ≠ [] → Function.Injective w.context.markers.nameAt

/-- How a set corresponds to the one it started as. Until plans are joined, it does so position by
position: a plan that was not touched has the tree that it started with, and no touched plan is
padded, unless all are touched. When plans are joined, one is touched. -/
structure Frame (start set : TableSet) : Prop where
  positions : set.hasJoins = false → List.Forall₂ (fun p q => p.Alike q ∧
    (q.touched = false → q.executable = p.executable)) start.tables set.tables
  unpadded : set.hasJoins = false → (∀ q ∈ set.tables, q.touched = true → q.padding? = none) ∨
    ∀ q ∈ set.tables, q.touched = true
  joined : set.hasJoins = true → start.hasJoins = true ∨ ∃ q ∈ set.tables, q.touched = true

theorem forall₂_trans {α β γ : Type} {R : α → β → Prop} {S : β → γ → Prop} {T : α → γ → Prop}
    (hT : ∀ a b c, R a b → S b c → T a c) {as : List α} {bs : List β} {cs : List γ}
    (h : List.Forall₂ R as bs) (h' : List.Forall₂ S bs cs) : List.Forall₂ T as cs := by
  induction h generalizing cs with
  | nil =>
    cases h'
    exact .nil
  | cons hab _ ih =>
    cases h' with
    | cons hbc h' => exact .cons (hT _ _ _ hab hbc) (ih h')

/-- A set stays in its frame when some of its plans are changed and touched, if these are
unpadded or all are touched. -/
theorem Frame.change {start set set' : TableSet} (h : Frame start set)
    (hjoins : set'.hasJoins = set.hasJoins)
    (hc : List.Forall₂ (fun p q => p.Alike q ∧ (p.touched = true → q.touched = true) ∧
      (q.touched = false → q.executable = p.executable)) set.tables set'.tables)
    (hpad : (∀ q ∈ set'.tables, q.touched = true →
        q.padding? = none ∨ ∃ p ∈ set.tables, p.Alike q ∧ p.touched = true) ∨
      ∀ q ∈ set'.tables, q.touched = true) : Frame start set' := by
  constructor
  -- Position by position, an untouched plan has the tree that it started with,
  · rw [hjoins]
    intro hnone
    refine forall₂_trans ?_ (h.positions hnone) hc
    rintro p q s ⟨halike, htree⟩ ⟨halike', htouch, htree'⟩
    refine ⟨halike.trans halike', ?_⟩
    intro huntouched
    rw [htree' huntouched]
    refine htree ?_
    rw [Bool.eq_false_iff]
    intro htouched
    rw [htouch htouched] at huntouched
    cases huntouched
  -- a touched plan is unpadded, as it is or as it was, unless all plans are touched,
  · rw [hjoins]
    intro hnone
    rcases hpad with hpad | hall
    · rcases h.unpadded hnone with hun | hall
      · refine Or.inl fun q hq htouched => ?_
        rcases hpad q hq htouched with hq | ⟨p, hp, halike, hptouched⟩
        · exact hq
        · exact halike.padding_eq_none (hun p hp hptouched)
      · refine Or.inr fun q hq => ?_
        obtain ⟨p, hp, -, htouch, -⟩ := exists_left_of_forall₂ hc hq
        exact htouch (hall p hp)
    · exact Or.inr hall
  -- and a plan that a merge made is still touched.
  · rw [hjoins]
    intro hsome
    rcases h.joined hsome with hstart | ⟨p, hp, htouched⟩
    · exact Or.inl hstart
    · obtain ⟨q, hq, -, htouch, -⟩ := exists_right_of_forall₂ hc hp
      exact Or.inr ⟨q, hq, htouch htouched⟩

/-- A set of untouched plans that were not joined is its own frame. -/
theorem Frame.start {set : TableSet} (hjoins : set.hasJoins = false)
    (huntouched : ∀ p ∈ set.tables, p.touched = false) : Frame set set := by
  refine ⟨fun _ => ?_, fun _ => Or.inl ?_, ?_⟩
  · rw [List.forall₂_same]
    exact fun p _ => ⟨.refl p, fun _ => rfl⟩
  · intro q hq htouched
    rw [huntouched q hq] at htouched
    cases htouched
  · rw [hjoins]
    rintro ⟨⟩

/-- A workspace with the rows of another one that satisfy `e`, in order as that was. -/
structure Yields (db : Database V) (val : Valuation V) (wiring : Wiring) (linked : Bool)
    (e : Row V → Prop) (w w' : Workspace) : Prop where
  ready : Ready db val wiring linked w'
  context : w.context.Extends w'.context
  grows : Grows w.context.markers.future w.set.trees w'.set.trees
  columns : ∀ c, (∃ q ∈ w'.set.tables, c ∈ q.columns) ↔ ∃ p ∈ w.set.tables, c ∈ p.columns
  rows : Flawed wiring w'.set.trees ∨
    w'.set.rows db val = {r ∈ w.set.rows db val | e r}

/-- A step that keeps the rows that satisfy `e`, and the frame of the set. -/
structure Leads (db : Database V) (val : Valuation V) (wiring : Wiring) (linked : Bool)
    (e : Row V → Prop) (w w' : Workspace) : Prop extends Yields db val wiring linked e w w' where
  frame : ∀ start, Frame start w.set → Frame start w'.set
  joins : w.set.hasJoins = true → w'.set.hasJoins = true

section

variable {e e' : Row V → Prop} {w w' w'' : Workspace}

namespace Yields

theorem refl (h : Ready db val wiring linked w) :
    Yields db val wiring linked (fun _ => True) w w := by
  refine ⟨h, .refl _, .refl _ _, fun _ => Iff.rfl, Or.inr ?_⟩
  ext r
  simp only [Set.mem_ofPred_eq, and_true]

/-- The rows that one run selects, and of these the rows that the next one selects. -/
theorem trans (h : Yields db val wiring linked e w w')
    (h' : Yields db val wiring linked e' w' w'') :
    Yields db val wiring linked (fun r => e r ∧ e' r) w w'' := by
  refine ⟨h'.ready, h.context.trans h'.context, h.grows.trans h'.grows h.context.future,
    fun c => (h'.columns c).trans (h.columns c), ?_⟩
  rcases h.rows with hflaw | hrows
  · exact Or.inl (hflaw.grow h'.grows)
  · rcases h'.rows with hflaw' | hrows'
    · exact Or.inl hflaw'
    · refine Or.inr ?_
      rw [hrows', hrows]
      ext r
      simp only [Set.mem_ofPred_eq, and_assoc]

/-- The predicate matters only on rows that were there before. -/
theorem congr (h : Yields db val wiring linked e w w')
    (heq : ∀ r ∈ w.set.rows db val, e r ↔ e' r) : Yields db val wiring linked e' w w' := by
  refine ⟨h.ready, h.context, h.grows, h.columns, h.rows.imp id ?_⟩
  intro hrows
  rw [hrows]
  ext r
  simp only [Set.mem_ofPred_eq]
  exact and_congr_right fun hr => heq r hr

/-- Rows after a workspace with the same rows. -/
theorem after (h : Yields db val wiring linked (fun _ => True) w w')
    (h' : Yields db val wiring linked e w' w'') : Yields db val wiring linked e w w'' :=
  (h.trans h').congr fun _ _ => ⟨And.right, fun h => ⟨trivial, h⟩⟩

/-- The same rows after a further step that keeps them. -/
theorem before (h : Yields db val wiring linked e w w')
    (h' : Yields db val wiring linked (fun _ => True) w' w'') :
    Yields db val wiring linked e w w'' :=
  (h.trans h').congr fun _ _ => ⟨And.left, fun h => ⟨h, trivial⟩⟩

end Yields

namespace Leads

theorem refl (h : Ready db val wiring linked w) :
    Leads db val wiring linked (fun _ => True) w w := ⟨.refl h, fun _ h => h, fun h => h⟩

/-- One step after another is a step that selects the rows which both predicates are true of. -/
theorem trans (h : Leads db val wiring linked e w w') (h' : Leads db val wiring linked e' w' w'') :
    Leads db val wiring linked (fun r => e r ∧ e' r) w w'' :=
  ⟨h.toYields.trans h'.toYields, fun start hs => h'.frame start (h.frame start hs),
    fun hj => h'.joins (h.joins hj)⟩

/-- The predicate matters only on rows that were there before. -/
theorem congr (h : Leads db val wiring linked e w w')
    (heq : ∀ r ∈ w.set.rows db val, e r ↔ e' r) : Leads db val wiring linked e' w w' :=
  ⟨h.toYields.congr heq, h.frame, h.joins⟩

/-- A step after one that keeps all rows. -/
theorem after (h : Leads db val wiring linked (fun _ => True) w w')
    (h' : Leads db val wiring linked e w' w'') : Leads db val wiring linked e w w'' :=
  ⟨h.toYields.after h'.toYields, fun start hs => h'.frame start (h.frame start hs),
    fun hj => h'.joins (h.joins hj)⟩

end Leads

/-- A workspace stays ready when handles and names are used elsewhere. -/
theorem Ready.extend {set : TableSet} {c c' : Context} (h : Ready db val wiring linked ⟨set, c⟩)
    (hc : c.Extends c') : Ready db val wiring linked ⟨set, c'⟩ := by
  refine ⟨h.tidy, fun p hp => lt_of_lt_of_le (h.fresh p hp) hc.supply,
    fun mark hmark => h.unmarked mark (hc.future hmark), ?_⟩
  rw [hc.nameAt]
  exact h.distinct

/-- What a workspace yields does not depend on how many names were used up. -/
theorem Yields.extend {set : TableSet} {c c' : Context}
    (h : Yields db val wiring linked e w ⟨set, c⟩) (hc : c.Extends c') :
    Yields db val wiring linked e w ⟨set, c'⟩ :=
  ⟨h.ready.extend hc, h.context.trans hc, h.grows, h.columns, h.rows⟩

end

end QueryPlan
