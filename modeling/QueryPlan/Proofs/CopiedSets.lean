import QueryPlan.Proofs.FailedCalls
import QueryPlan.Proofs.Reconciliation

/-!
# Copies are isomorphic

Both sides of an OR work on a copy of their own. The links of a copy may form any
graph, with loops and cycles, and are aimed at positions of the copy.

- `copyAs_error`: a set is not copied if one of its links leads outside.
- `TableSet.Isomorphic`: the same plans at the same positions, untouched and under
  other handles, with links of the same kind between the same positions.
- `Planner.isomorphic_of_copy`: a copy is isomorphic, under handles that were not
  given out before.
-/

namespace QueryPlan

variable {set D : TableSet} {ids : List PlanId} {names : List (PlanId × PlanId)} {e : PlanError}

/-! ## Copies that fail -/

theorem except_bind_error {ε α β : Type} {x : Except ε α} {f : α → Except ε β} {e : ε} :
    x >>= f = .error e ↔ x = .error e ∨ ∃ a, x = .ok a ∧ f a = .error e := by
  cases x with
  | error cause =>
    constructor
    · rintro ⟨⟩
      exact Or.inl rfl
    · rintro (⟨⟨⟩⟩ | ⟨_, ⟨⟩, -⟩)
      rfl
  | ok a =>
    refine ⟨fun h => Or.inr ⟨a, rfl, h⟩, ?_⟩
    rintro (⟨⟨⟩⟩ | ⟨_, ⟨⟩, h⟩)
    exact h

theorem exists_of_mapM_error {ε α β : Type} {f : α → Except ε β} {as : List α} {e : ε}
    (h : as.mapM f = .error e) : ∃ a ∈ as, f a = .error e := by
  induction as with
  | nil =>
    rw [List.mapM_nil] at h
    cases h
  | cons a rest ih =>
    rw [List.mapM_cons, except_bind_error] at h
    rcases h with h | ⟨b, -, h⟩
    · exact ⟨a, List.mem_cons_self, h⟩
    · rw [except_bind_error] at h
      rcases h with h | ⟨_, -, ⟨⟩⟩
      obtain ⟨a', ha', h⟩ := ih h
      exact ⟨a', List.mem_cons_of_mem a ha', h⟩

theorem renameLink_error {o : Option JoinLink} (h : TableSet.renameLink names o = .error e) :
    ∃ link, o = some link ∧ link.target ∉ names.map Prod.fst ∧ e = .danglingLink link.target := by
  cases o with
  | none => cases h
  | some link =>
    unfold TableSet.renameLink at h
    cases hlookup : names.lookup link.target with
    | some target =>
      simp only [hlookup] at h
      cases h
    | none =>
      simp only [hlookup] at h
      cases h
      refine ⟨link, rfl, fun hmem => ?_, rfl⟩
      obtain ⟨x, hx, htarget⟩ := List.mem_map.mp hmem
      have hne := List.lookup_eq_none_iff.mp hlookup x hx
      rw [htarget, bne_self_eq_false] at hne
      cases hne

/-- A set is not copied if one of its links leads outside, which is reported. -/
theorem copyAs_error (hlen : set.tables.length = ids.length) (h : set.copyAs ids = .error e) :
    ∃ p ∈ set.tables, ∃ side link, p.linkOn side = some link ∧ link.target ∉ set.ids ∧
      e = .danglingLink link.target := by
  have hkeys : (set.ids.zip ids).map Prod.fst = set.ids := by
    refine List.map_fst_zip (le_of_eq ?_)
    rw [TableSet.ids, List.length_map, hlen]
  unfold TableSet.copyAs at h
  rw [except_bind_error] at h
  rcases h with h | ⟨_, -, ⟨⟩⟩
  obtain ⟨⟨p, i⟩, hmem, h⟩ := exists_of_mapM_error h
  have hp := (List.of_mem_zip hmem).1
  rw [except_bind_error] at h
  rcases h with h | ⟨_, -, h⟩
  · obtain ⟨link, hlink, hnot, rfl⟩ := renameLink_error h
    exact ⟨p, hp, .left, link, hlink, hkeys ▸ hnot, rfl⟩
  · rw [except_bind_error] at h
    rcases h with h | ⟨_, -, ⟨⟩⟩
    obtain ⟨link, hlink, hnot, rfl⟩ := renameLink_error h
    exact ⟨p, hp, .right, link, hlink, hkeys ▸ hnot, rfl⟩

/-! ## Isomorphic sets -/

/-- The plan `q` is to `D` what `p` is to `C`, and not touched. -/
structure TablePlan.Corresponds (C D : TableSet) (p q : TablePlan) : Prop where
  executable : q.executable = p.executable
  columns : q.columns = p.columns
  uniqueKeys : q.uniqueKeys = p.uniqueKeys
  links : ∀ side, Option.Rel (JoinLink.Aligned C D) (p.linkOn side) (q.linkOn side)
  untouched : q.touched = false

theorem TablePlan.Corresponds.target_mem_ids {C : TableSet} {p q : TablePlan} {side : Side}
    {link : JoinLink} (h : p.Corresponds C D q) (hlink : p.linkOn side = some link) :
    link.target ∈ C.ids := by
  have hrel := h.links side
  rw [hlink] at hrel
  generalize q.linkOn side = o at hrel
  cases hrel with
  | some haligned =>
    obtain ⟨i, hi, -⟩ := haligned.position
    exact List.mem_of_getElem? hi

/-- The sets have as many plans, which correspond position by position and have no handles in
common. In `D` a handle stands for one position only, and there are no joins. -/
structure TableSet.Isomorphic (C D : TableSet) : Prop where
  plans : List.Forall₂ (TablePlan.Corresponds C D) C.tables D.tables
  nodup : D.ids.Nodup
  apart : ∀ id ∈ C.ids, id ∉ D.ids
  hasJoins : D.hasJoins = false

/-- A renamed link is aimed at the position at which the link is aimed. -/
theorem aligned_of_renameLink {o o' : Option JoinLink} (hids : D.ids = ids)
    (h : TableSet.renameLink (set.ids.zip ids) o = .ok o') :
    Option.Rel (JoinLink.Aligned set D) o o' := by
  cases o with
  | none =>
    cases h
    exact .none
  | some link =>
    unfold TableSet.renameLink at h
    cases hlookup : (set.ids.zip ids).lookup link.target with
    | none =>
      simp only [hlookup] at h
      cases h
    | some target =>
      simp only [hlookup] at h
      cases h
      obtain ⟨l₁, l₂, hzip, -⟩ := List.lookup_eq_some_iff.mp hlookup
      have hmem : (link.target, target) ∈ set.ids.zip ids :=
        hzip ▸ List.mem_append_right l₁ List.mem_cons_self
      obtain ⟨i, hi⟩ := List.mem_iff_getElem?.mp hmem
      obtain ⟨hold, hnew⟩ := List.getElem?_zip_eq_some.mp hi
      exact .some ⟨rfl, rfl, i, hold, hids ▸ hnew⟩

theorem corresponds_of_copyAs (hlen : set.tables.length = ids.length)
    (h : set.copyAs ids = .ok D) :
    List.Forall₂ (TablePlan.Corresponds set D) set.tables D.tables := by
  obtain ⟨-, hids, -⟩ := ids_of_copyAs hlen h
  refine (forall₂_of_zip hlen (copyAs_plans h).2).imp ?_
  rintro p q ⟨i, -, left, right, hleft, hright, rfl⟩
  refine ⟨rfl, rfl, rfl, fun side => ?_, rfl⟩
  cases side with
  | left => exact aligned_of_renameLink hids hleft
  | right => exact aligned_of_renameLink hids hright

namespace Planner

variable {w : Workspace}

/-- A set of plans under handles of their own, which were given out before, is copied just if all
its links are aimed at its plans; otherwise the target of one that is not is reported. The copy
is isomorphic to the set, loops and cycles of links included, and the set itself stays as it is.
-/
theorem isomorphic_of_copy (hids : w.set.ids.Nodup)
    (hgiven : ∀ p ∈ w.set.tables, p.id.number < w.context.supply.next) :
    ((∃ C w', copy w = .ok C w') ↔ ∀ p ∈ w.set.tables, ∀ side link, p.linkOn side = some link →
      link.target ∈ w.set.ids) ∧
    (∀ e w', copy w = .error e w' → w'.set = w.set ∧ ∃ p ∈ w.set.tables, ∃ side link,
      p.linkOn side = some link ∧ link.target ∉ w.set.ids ∧ e = .danglingLink link.target) ∧
    ∀ C w', copy w = .ok C w' → w'.set = w.set ∧ w.set.Isomorphic C := by
  have hlen : w.set.tables.length = ((List.range w.set.tables.length).map
      fun i => (⟨w.context.supply.next + i⟩ : PlanId)).length := by simp
  -- Handles are given out without a failure, so it is a link that has no new target.
  have herror : ∀ e w', copy w = .error e w' → w'.set = w.set ∧ ∃ p ∈ w.set.tables, ∃ side link,
      p.linkOn side = some link ∧ link.target ∉ w.set.ids ∧ e = .danglingLink link.target := by
    intro e w' h
    simp only [copy, bind_error, current_error, current_ok, freshIds_ok, ask_error, false_or] at h
    obtain ⟨_, w, ⟨rfl, rfl⟩, h | ⟨_, _, ⟨rfl, rfl⟩, h, rfl⟩⟩ := h
    · cases h
    · exact ⟨rfl, copyAs_error hlen h⟩
  refine ⟨⟨?_, fun htargets => ?_⟩, herror, ?_⟩
  · rintro ⟨C, w', h⟩ p hp side link hlink
    obtain ⟨hcopy, -⟩ := copy_ok.mp h
    obtain ⟨q, -, hpq⟩ := exists_right_of_forall₂ (corresponds_of_copyAs hlen hcopy) hp
    exact hpq.target_mem_ids hlink
  · obtain ⟨C, hC⟩ := exists_copyAs htargets hlen
    exact ⟨C, _, copy_ok.mpr ⟨hC, rfl⟩⟩
  · intro C w' h
    obtain ⟨hcopy, rfl⟩ := copy_ok.mp h
    obtain ⟨hjoins, hCids, -⟩ := ids_of_copyAs hlen hcopy
    refine ⟨rfl, corresponds_of_copyAs hlen hcopy, (SelfContained.of_copy h le_rfl).nodup,
      fun id hid hmem => ?_, hjoins⟩
    rw [hCids] at hmem
    obtain ⟨p, hp, rfl⟩ := List.mem_map.mp hid
    obtain ⟨i, -, hi⟩ := List.mem_map.mp hmem
    exact absurd (hi ▸ hgiven p hp) (Nat.not_lt.mpr (Nat.le_add_right _ i))

/-- A plan that is linked with itself and two that are linked both ways are copied with these
links. If one link leads to a missing plan, nothing is copied. -/
theorem isomorphic_of_copy_loops :
    let linked (target : Nat) : Workspace :=
      ⟨⟨[((TablePlan.one 1 "a").withLeft ⟨⟨1⟩, .inner, none⟩).withRight ⟨⟨1⟩, .inner, none⟩,
        ((TablePlan.one 2 "b").withLeft ⟨⟨3⟩, .left, none⟩).withRight ⟨⟨target⟩, .right, none⟩,
        ((TablePlan.one 3 "c").withLeft ⟨⟨2⟩, .right, none⟩).withRight ⟨⟨2⟩, .left, none⟩], true⟩,
        .start .blank default ⟨5⟩⟩
    (∃ C w', copy (linked 3) = .ok C w' ∧ (linked 3).set.Isomorphic C ∧
      C.tables.map (fun q => (q.id, q.leftTarget?, q.rightTarget?)) =
        [(⟨5⟩, some ⟨5⟩, some ⟨5⟩), (⟨6⟩, some ⟨7⟩, some ⟨7⟩), (⟨7⟩, some ⟨6⟩, some ⟨6⟩)]) ∧
    ∃ w', copy (linked 4) = .error (.danglingLink ⟨4⟩) w' ∧ w'.set = (linked 4).set := by
  intro linked
  have hids : ∀ target, (linked target).set.ids.Nodup := by
    intro target
    show ([⟨1⟩, ⟨2⟩, ⟨3⟩] : List PlanId).Nodup
    decide
  have hgiven : ∀ target, ∀ p ∈ (linked target).set.tables, p.id.number < 5 := by
    intro target p hp
    have hnumber : p.id.number ∈ [1, 2, 3] := List.mem_map_of_mem (f := fun p => p.id.number) hp
    have hlt : ∀ n ∈ [1, 2, 3], n < 5 := by decide
    exact hlt _ hnumber
  have hcopied : resultWith (fun C _ => C.tables.map fun q => (q.id, q.leftTarget?, q.rightTarget?))
      (copy (linked 3)) = some
        [(⟨5⟩, some ⟨5⟩, some ⟨5⟩), (⟨6⟩, some ⟨7⟩, some ⟨7⟩), (⟨7⟩, some ⟨6⟩, some ⟨6⟩)] := by
    decide
  obtain ⟨C, w, h, hlinks⟩ := exists_of_resultWith hcopied
  obtain ⟨w', h'⟩ : ∃ w', copy (linked 4) = .error (.danglingLink ⟨4⟩) w' :=
    exists_of_failure (by decide)
  exact ⟨⟨C, w, h, ((isomorphic_of_copy (hids 3) (hgiven 3)).2.2 C w h).2, hlinks⟩,
    w', h', ((isomorphic_of_copy (hids 4) (hgiven 4)).2.1 _ w' h').1⟩

end Planner

end QueryPlan
