import Mathlib.Data.List.Sort
import QueryPlan.StableSort

/-!
# Sorting

The sort that answers show is insertion sort, so that what is known of `List.insertionSort` holds of
it. An element is inserted before those that it ties with, and so it stays before them.

- `sortBy_eq_insertionSort`: it is insertion sort.
- `insertionSort_congr`: an element is only compared with those that are listed after it.
- `pairwise_insertionSort_stable`: elements that tie keep their order.
- `forall₂_sortBy`: lists that agree, place by place, are sorted alike.
-/

namespace QueryPlan

/-! ## Insertion sort -/

theorem insertBy_eq_orderedInsert {α : Type} (le : α → α → Bool) (a : α) (as : List α) :
    insertBy le a as = as.orderedInsert (fun a b => le a b = true) a := by
  induction as with
  | nil => rfl
  | cons b rest ih => rw [insertBy, List.orderedInsert_cons, ih]

theorem sortBy_eq_insertionSort {α : Type} (le : α → α → Bool) (as : List α) :
    sortBy le as = as.insertionSort fun a b => le a b = true := by
  induction as with
  | nil => rfl
  | cons a rest ih => rw [sortBy, insertBy_eq_orderedInsert, ih, List.insertionSort_cons]

/-! ## Ties -/

section

variable {α : Type} {r s : α → α → Prop} {as : List α}

/-- What is no later by `r`, and by its position where both tie. -/
def NoLater (r : α → α → Prop) (position : α → Nat) (a b : α) : Prop :=
  r a b ∧ (r b a → position a ≤ position b)

theorem total_noLater (position : α → Nat) (h : Std.Total r) : Std.Total (NoLater r position) := by
  refine ⟨fun a b => ?_⟩
  by_cases hab : r a b <;> by_cases hba : r b a
  · exact (Nat.le_total _ _).imp (fun hle => ⟨hab, fun _ => hle⟩) fun hle => ⟨hba, fun _ => hle⟩
  · exact Or.inl ⟨hab, fun h => absurd h hba⟩
  · exact Or.inr ⟨hba, fun h => absurd h hab⟩
  · exact absurd (h.total a b) (not_or.mpr ⟨hab, hba⟩)

theorem isTrans_noLater (position : α → Nat) (h : IsTrans α r) :
    IsTrans α (NoLater r position) := by
  refine ⟨fun a b c hab hbc => ⟨h.trans _ _ _ hab.1 hbc.1, fun hca => ?_⟩⟩
  -- All three tie, so that their positions decide both times.
  exact (hab.2 (h.trans _ _ _ hbc.1 hca)).trans (hbc.2 (h.trans _ _ _ hca hab.1))

variable {position : α → Nat} [DecidableRel r] [DecidableRel s]

instance : DecidableRel (NoLater r position) :=
  fun a b => inferInstanceAs (Decidable (r a b ∧ (r b a → position a ≤ position b)))

theorem orderedInsert_congr {a : α} (h : ∀ b ∈ as, r a b ↔ s a b) :
    as.orderedInsert r a = as.orderedInsert s a := by
  induction as with
  | nil => rfl
  | cons b rest ih =>
    rw [List.forall_mem_cons] at h
    rw [List.orderedInsert_cons, List.orderedInsert_cons, ih h.2]
    exact if_congr h.1 rfl rfl

theorem insertionSort_congr (h : as.Pairwise fun a b => r a b ↔ s a b) :
    as.insertionSort r = as.insertionSort s := by
  induction as with
  | nil => rfl
  | cons a rest ih =>
    obtain ⟨ha, hrest⟩ := List.pairwise_cons.mp h
    rw [List.insertionSort_cons, List.insertionSort_cons, ih hrest]
    exact orderedInsert_congr fun b hb => ha b ((List.mem_insertionSort s).mp hb)

/-- Elements that tie keep their order. -/
theorem pairwise_insertionSort_stable [htotal : Std.Total r] [htrans : IsTrans α r]
    (h : as.Pairwise fun a b => position a < position b) :
    (as.insertionSort r).Pairwise fun a b => r a b ∧ (r b a → position a < position b) := by
  have := total_noLater position htotal
  have := isTrans_noLater position htrans
  have hsame : as.insertionSort r = as.insertionSort (NoLater r position) :=
    insertionSort_congr (h.imp fun hlt => ⟨fun hr => ⟨hr, fun _ => hlt.le⟩, And.left⟩)
  have hapart : (as.insertionSort r).Pairwise fun a b => position a ≠ position b :=
    ((List.perm_insertionSort r as).pairwise_iff Ne.symm).mpr (h.imp Nat.ne_of_lt)
  have hsorted := List.pairwise_insertionSort (NoLater r position) as
  rw [← hsame] at hsorted
  exact (hsorted.and hapart).imp fun h => ⟨h.1.1, fun htie => lt_of_le_of_ne (h.1.2 htie) h.2⟩

end

/-! ## Lists that agree -/

section

variable {α β : Type} {R : α → β → Prop} {le : α → α → Bool} {le' : β → β → Bool}
  (hle : ∀ a a' b b', R a a' → R b b' → le a b = le' a' b')
include hle

theorem forall₂_insertBy {a : α} {b : β} {as : List α} {bs : List β} (hab : R a b)
    (h : List.Forall₂ R as bs) : List.Forall₂ R (insertBy le a as) (insertBy le' b bs) := by
  induction h with
  | nil => exact .cons hab .nil
  | cons hfirst hrest ih =>
    unfold insertBy
    rw [hle _ _ _ _ hab hfirst]
    split
    · exact .cons hab (.cons hfirst hrest)
    · exact .cons hfirst ih

theorem forall₂_sortBy {as : List α} {bs : List β} (h : List.Forall₂ R as bs) :
    List.Forall₂ R (sortBy le as) (sortBy le' bs) := by
  induction h with
  | nil => exact .nil
  | cons hfirst _ ih => exact forall₂_insertBy hle hfirst ih

end

end QueryPlan
