import QueryPlan.Proofs.Applied
import QueryPlan.Proofs.Kinds

/-!
# Classified conjuncts

- `Represents`: a predicate that is fair and true in the rows of which a conjunct
  is true.
- `represents_of_classifyOne`: the predicate that a conjunct without nested
  queries is classified as represents it.
- `classifyAll_ok`: the classified predicates represent the conjuncts.
-/

namespace QueryPlan

universe u

variable {V : Type u} {val : Valuation V}

/-- A conjunct TRUE demands nothing. -/
theorem Valuation.holds_and_true (val : Valuation V) (e : Expr) (r : Row V) :
    val.holds (e.and .true) r ↔ val.holds e r := by
  unfold Expr.and
  rw [val.holds_and]
  exact and_iff_left (val.holds_true r)

/-- What is kept of a conjunct means what the conjunct means. -/
theorem Predicate.Kept.holds_iff {e expr : Expr} (h : Predicate.Kept e expr) (val : Valuation V)
    (r : Row V) : val.holds expr r ↔ val.holds e r := by
  cases h with
  | whole => exact Iff.rfl
  | wrapped => exact val.holds_and_true e r

/-! ## Predicates that represent conjuncts -/

/-- A fair predicate that is true in the rows of which `e` is true. An OR stands for itself. -/
structure Represents (val : Valuation V) (e : Expr) (predicate : Predicate) : Prop where
  fair : predicate.Fair
  holds_iff : ∀ r, val.holds predicate.meaning r ↔ val.holds e r
  of_subLogic : ∀ expr joinable, predicate = .subLogic expr joinable →
    expr = e ∧ e.isLogical = true

/-- Whether the predicate is neither a join on a comparison nor an OR. -/
def Predicate.isOrdinary : Predicate → Bool
  | .standardJoin _ _ => false
  | .subLogic _ _ => false
  | _ => true

namespace Represents

variable {e : Expr} {set : TableSet} {predicate : Predicate}

/-- A predicate that names the columns it reads and is neither a join on a comparison nor an OR. -/
theorem of_ordinary (hordinary : predicate.isOrdinary = true)
    (hsub : predicate.meaning.hasSubQuery = false)
    (hnamed : ∀ ref ∈ predicate.meaning.references, ref ∈ predicate.reads)
    (hholds : ∀ r, val.holds predicate.meaning r ↔ val.holds e r) :
    Represents val e predicate := by
  refine ⟨⟨hsub, hnamed, ?_⟩, hholds, ?_⟩
  · rintro expr mixed rfl
    cases hordinary
  · rintro expr joinable rfl
    cases hordinary

/-- Such a predicate that keeps its conjunct and all that it reads. -/
theorem of_kept (hordinary : predicate.isOrdinary = true) (hsub : e.hasSubQuery = false)
    (kept : Predicate.Kept e predicate.meaning) (hreads : e.references = predicate.reads) :
    Represents val e predicate :=
  of_ordinary hordinary (kept.hasSubQuery.trans hsub)
    (fun _ href => hreads ▸ kept.references ▸ href) (kept.holds_iff val)

theorem of_kind (hsub : e.hasSubQuery = false) (h : predicate.KindOf set e) :
    Represents val e predicate := by
  -- One case per kind. Only the comparison with its column on the right is rewritten: its sides are
  -- swapped and its operator is turned round.
  cases h with
  | constant kept unread => exact of_kept rfl hsub kept (Predicate.references_eq_nil unread)
  | columnLeft shape read =>
    subst shape
    exact of_kept rfl hsub .whole read
  | @columnRight column op value shape comparison read =>
    subst shape
    refine of_ordinary rfl ?_ (fun ref href => ?_) fun r => ?_
    · rw [Expr.hasSubQuery, Bool.or_comm] at hsub
      exact hsub
    · show ref ∈ [column]
      rw [← read, Expr.mem_references_binary]
      exact (Expr.mem_references_binary.mp href).symm
    · exact (val.holds_reverse value op (.reference column) r comparison).symm
  | complexSingle kept read => exact of_kept rfl hsub kept read
  | simplePattern shape read =>
    subst shape
    exact of_kept rfl hsub .whole read
  | complexPattern => exact of_kept rfl hsub .whole rfl
  | simpleSubQuery shape =>
    subst shape
    cases hsub
  | @standardJoin left right op mixed shape comparison =>
    refine ⟨⟨hsub, fun ref href => href, ?_⟩, fun r => Iff.rfl, by rintro _ _ ⟨⟩⟩
    rintro expr mixed' ⟨⟩
    exact ⟨left, op, right, shape, comparison⟩
  | exhaustiveJoin kept => exact of_kept rfl hsub kept rfl
  | exhaustiveSubQuery _ nested =>
    rw [hsub] at nested
    cases nested

end Represents

/-- What a conjunct is classified as represents it. -/
theorem represents_of_classifyOne {set : TableSet} {e : Expr} {placed : Bucket × Predicate}
    (hsub : e.hasSubQuery = false) (h : set.classifyOne e = .ok (some placed)) :
    Represents val e placed.2 := by
  rcases TableSet.kind_of_classifyOne h with ⟨hlogic, joinable, hplaced⟩ | ⟨-, hkind⟩
  · rw [hplaced]
    refine ⟨⟨hsub, fun ref href => href, by rintro _ _ ⟨⟩⟩, fun r => Iff.rfl, ?_⟩
    rintro expr joinable' ⟨⟩
    exact ⟨rfl, hlogic⟩
  · exact .of_kind hsub hkind

/-- Every predicate represents a conjunct and carries what that does, and all of them are true where
all conjuncts are. -/
theorem classifyAll_ok (val : Valuation V) {α : Type} {set : TableSet} {agenda : List (Expr × α)}
    {placed : List (Predicate × α)} (hsub : ∀ x ∈ agenda, x.1.hasSubQuery = false)
    (h : set.classifyAll agenda = .ok placed) :
    (∀ y ∈ placed, ∃ x ∈ agenda, Represents val x.1 y.1 ∧ y.2 = x.2) ∧
      ∀ r, (∀ y ∈ placed, val.holds y.1.meaning r) ↔ ∀ x ∈ agenda, val.holds x.1 r := by
  have horigin : ∀ y ∈ placed, ∃ x ∈ agenda, Represents val x.1 y.1 ∧ y.2 = x.2 := by
    intro y hy
    obtain ⟨x, hx, bucket, hclass, hcarry⟩ := TableSet.mem_of_classifyAll h hy
    exact ⟨x, hx, represents_of_classifyOne (hsub x hx) hclass, hcarry⟩
  refine ⟨horigin, fun r => ⟨fun hplaced x hx => ?_, fun hall y hy => ?_⟩⟩
  · cases htrue : x.1.isTrue with
    | true =>
      rw [Expr.eq_true_of_isTrue htrue]
      exact val.holds_true r
    | false =>
      obtain ⟨y, hy, bucket, hclass, -⟩ := TableSet.exists_of_classifyAll h hx htrue
      exact ((represents_of_classifyOne (hsub x hx) hclass).holds_iff r).mp (hplaced y hy)
  · obtain ⟨x, hx, hrepresents, -⟩ := horigin y hy
    exact (hrepresents.holds_iff r).mpr (hall x hx)

end QueryPlan
