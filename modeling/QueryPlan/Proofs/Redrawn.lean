import QueryPlan.Proofs.Renamed

/-!
# Runs that draw from another source

Two runs never draw the same random identifiers, so that what they plan has other marks. Where
marks are numbered, nothing is drawn and marks are the same.

- `Workspace.drawing`: the same workspace, where identifiers come from another source.
- `MarkerGenerator.Redrawn`: marks that stand for one another in both runs.
- `Likeness.redrawn`: runs that differ in such marks alone.
- `Workspace.like_drawing`: a workspace and the same drawing from elsewhere are alike.
-/

namespace QueryPlan

variable {w : Workspace} {markers : MarkerGenerator} {uuids : Identifiers}

/-- The same context, where identifiers come from `uuids`. -/
def Context.drawing (c : Context) (uuids : Identifiers) : Context :=
  { c with markers := { c.markers with uuids } }

/-- The same workspace, where identifiers come from `uuids`. -/
def Workspace.drawing (w : Workspace) (uuids : Identifiers) : Workspace :=
  { w with context := w.context.drawing uuids }

namespace MarkerGenerator

/-- A mark and what stands for it where identifiers come from `uuids`: itself, or the name that is
made at the same place if it is one of the names still to be made. -/
def Redrawn (markers : MarkerGenerator) (uuids : Identifiers) (mark mark' : String) : Prop :=
  mark' = mark ∨ ∃ n, markers.issued < n ∧ mark = markers.nameAt n ∧
    mark' = { markers with uuids }.nameAt n

theorem redrawn_nameAt {n : Nat} (h : markers.issued < n) :
    markers.Redrawn uuids (markers.nameAt n) ({ markers with uuids }.nameAt n) :=
  Or.inr ⟨n, h, rfl, rfl⟩

/-- Numbered marks stand for themselves. -/
theorem Redrawn.eq {mark mark' : String} (hmarks : markers.strategy = .sequential)
    (h : markers.Redrawn uuids mark mark') : mark' = mark := by
  rcases h with rfl | ⟨n, -, rfl, rfl⟩
  · rfl
  · simp only [nameAt, hmarks]

end MarkerGenerator

/-- The same handles, with marks and ids of caches that stand for one another. -/
def Likeness.upToNames (marks : String → String → Prop) (same : Nat → Nat → Prop) : Likeness where
  handles := Eq
  oneToOne := by
    rintro i _ j _ rfl rfl
    exact Iff.rfl
  marks := marks
  caches? := some same
  queries := fun _ => True
  ors := True

/-- How a run is alike to the same run where identifiers come from `uuids`: it differs in the marks
that are drawn, and in nothing else. -/
def Likeness.redrawn (markers : MarkerGenerator) (uuids : Identifiers) : Likeness :=
  .upToNames (markers.Redrawn uuids) Eq

/-- Whatever the set is, it is alike to itself. -/
theorem TableSet.like_redrawn (set : TableSet) : set.Like (.redrawn markers uuids) set := by
  refine ⟨List.forall₂_same.mpr fun p _ => ?_, rfl⟩
  have hlink : ∀ o : Option JoinLink, Option.Rel (JoinLink.Like (.redrawn markers uuids)) o o := by
    rintro (_ | link)
    · exact .none
    · exact .some ⟨rfl, rfl, rfl, fun _ _ => ⟨fun _ _ => trivial, fun hnot => hnot.elim trivial⟩⟩
  have htree : p.executable.Like (.redrawn markers uuids) p.executable :=
    PlanNode.like_self (fun _ => Or.inl rfl) (fun _ i _ => ⟨Eq, rfl, rfl⟩)
      fun _ _ _ _ _ _ => trivial
  exact ⟨rfl, htree, rfl, rfl, hlink _, hlink _, rfl⟩

theorem Workspace.like_drawing (w : Workspace) (uuids : Identifiers) :
    w.Like (.redrawn w.context.markers uuids) (w.drawing uuids) :=
  ⟨w.set.like_redrawn, rfl, fun _ hn => MarkerGenerator.redrawn_nameAt hn, fun _ => rfl,
    fun _ => ⟨rfl, fun _ => rfl⟩⟩

end QueryPlan
