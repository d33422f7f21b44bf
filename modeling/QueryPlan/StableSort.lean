/-!
# Stable sorting and first occurrences

Two list operations whose results answers can show.

* `sortBy le`: ascending in `le`, elements that tie keep their order.
* `distinct`: every element once, at its first occurrence.

Both recurse on the list, so closed instances evaluate.

* `mem_distinct`, `nodup_distinct`: `distinct` keeps every element, and none twice.
-/

namespace QueryPlan

/-- Inserts `a` before the first element that it does not follow. -/
def insertBy {α : Type} (le : α → α → Bool) (a : α) : List α → List α
  | [] => [a]
  | b :: rest => if le a b then a :: b :: rest else b :: insertBy le a rest

/-- The elements in ascending order; elements that tie keep their order. -/
def sortBy {α : Type} (le : α → α → Bool) : List α → List α
  | [] => []
  | a :: rest => insertBy le a (sortBy le rest)

/-- Every element once, in the order of first occurrence. -/
def distinct {α : Type} [DecidableEq α] : List α → List α
  | [] => []
  | a :: rest => a :: (distinct rest).filter fun b => b ≠ a

theorem mem_distinct {α : Type} [DecidableEq α] {a : α} {as : List α} :
    a ∈ distinct as ↔ a ∈ as := by
  induction as with
  | nil => rfl
  | cons b rest ih => by_cases h : a = b <;> simp [distinct, ih, h]

theorem nodup_distinct {α : Type} [DecidableEq α] (as : List α) : (distinct as).Nodup := by
  induction as with
  | nil => exact .nil
  | cons a rest ih =>
    refine List.nodup_cons.mpr ⟨?_, ih.filter _⟩
    simp

end QueryPlan
