import QueryPlan.Proofs.Comparisons
import QueryPlan.Proofs.Sorting

/-!
# The kinds of conjuncts

What a conjunct is classified as depends on its shape: which columns it reads, whether it has a
nested query, and which operator is outermost. The plans matter only for pattern matches and ORs.

- `Kept`: the expression that a predicate keeps of its conjunct.
- `KindOf`: the predicates that a conjunct may be classified as, with its shape.
- `kind_of_classifyOne`: a conjunct is classified as an OR just if it is logical, and is of one
  of the kinds otherwise.
- `isTrue_of_classifyOne_none`: only the literal TRUE has no predicate.
- `places_of_classifyAll`: the other conjuncts are classified one after another, and then sorted.
- `mem_of_classifyAll`, `exists_of_classifyAll`: the conjuncts of a filter and their predicates.
-/

namespace QueryPlan

/-! ## Shapes of expressions -/

namespace Expr

/-- What is a nested query has a plan and correlated columns. -/
theorem eq_of_asSubQuery {e : Expr} {query : SubQuery} (h : e.asSubQuery? = some query) :
    e = .query query.plan query.correlated := by
  cases e <;> cases h
  rfl

/-- Whether the expression is a comparison with a column alone on some side. -/
def comparesColumn : Expr → Bool
  | .binary left op right =>
    op.isComparison && (left.asReference?.isSome || right.asReference?.isSome)
  | _ => Bool.false

/-- Without references no column is mentioned. -/
theorem mentions_eq_nil {e : Expr} (h : e.references = []) : e.mentions = [] :=
  List.eq_nil_iff_forall_not_mem.mpr fun _ href =>
    List.not_mem_nil (h ▸ mem_references.mpr href)

/-- The literal TRUE is the only one that is true as such. -/
theorem eq_true_of_isTrue {e : Expr} (h : e.isTrue = Bool.true) : e = .true := by
  unfold isTrue at h
  split at h
  · rfl
  · cases h

/-- What reads a column is not the literal TRUE. -/
theorem isTrue_of_reads {e : Expr} {c : ColumnName} (hc : c ∈ e.references) :
    e.isTrue = Bool.false := by
  rw [Bool.eq_false_iff]
  intro htrue
  rw [eq_true_of_isTrue htrue] at hc
  cases hc

/-- What is opaque is neither an AND nor an OR. -/
theorem isLogical_of_isOpaque {e : Expr} (h : e.isOpaque = Bool.true) :
    e.isLogical = Bool.false := by
  cases e with
  | binary left op right =>
    unfold isOpaque at h
    simp only [isBinary, isUnary, Bool.true_and, Bool.not_true, Bool.and_false,
      Bool.or_false, decide_eq_true_eq] at h
    unfold isLogical
    rw [h]
    rfl
  | _ => rfl

/-! The constant TRUE reads nothing, so that it changes nothing to be joined with. -/

variable (e : Expr)

theorem hasSubQuery_and_true : (e.and .true).hasSubQuery = e.hasSubQuery := by
  simp [and, Expr.true, hasSubQuery]

theorem references_and_true : (e.and .true).references = e.references := by
  show distinct (e.mentions ++ []) = _
  rw [List.append_nil]
  rfl

theorem readsWithOuter_and_true :
    Predicate.readsWithOuter (e.and .true) = Predicate.readsWithOuter e := by
  unfold Predicate.readsWithOuter
  rw [references_and_true]
  show distinct (e.references ++ (distinct (correlatedAt (e.outerReads ++ []) _)).map _) = _
  rw [List.append_nil]
  rfl

end Expr

/-! ## What nested queries read -/

mutual

/-- Without a nested query no outer column is read. -/
theorem Expr.outerReads_eq_nil : ∀ e : Expr, e.hasSubQuery = false → e.outerReads = []
  | .constant _, _ => rfl
  | .reference _, _ => rfl
  | .unary _ e, h => e.outerReads_eq_nil h
  | .binary l _ r, h => by
    have h := Bool.or_eq_false_iff.mp h
    exact List.append_eq_nil_iff.mpr ⟨l.outerReads_eq_nil h.1, r.outerReads_eq_nil h.2⟩
  | .pattern _ l p escape, h => by
    have h := Bool.or_eq_false_iff.mp h
    have hsides := Bool.or_eq_false_iff.mp h.1
    exact List.append_eq_nil_iff.mpr ⟨List.append_eq_nil_iff.mpr
      ⟨l.outerReads_eq_nil hsides.1, p.outerReads_eq_nil hsides.2⟩,
      outerReadsOfEscape_eq_nil escape h.2⟩
  | .call _ args, h => outerReadsOfAll_eq_nil args h
  | .query _ _, h => nomatch h
  | .quantified _ _ l r, h => by
    have h := Bool.or_eq_false_iff.mp h
    exact List.append_eq_nil_iff.mpr ⟨l.outerReads_eq_nil h.1, r.outerReads_eq_nil h.2⟩

theorem outerReadsOfEscape_eq_nil : ∀ escape : Option Expr, escapeHasSubQuery escape = false →
    outerReadsOfEscape escape = []
  | none, _ => rfl
  | some e, h => e.outerReads_eq_nil h

theorem outerReadsOfAll_eq_nil : ∀ args : List Expr, anyHasSubQuery args = false →
    outerReadsOfAll args = []
  | [], _ => rfl
  | e :: rest, h => by
    have h := Bool.or_eq_false_iff.mp h
    exact List.append_eq_nil_iff.mpr ⟨e.outerReads_eq_nil h.1, outerReadsOfAll_eq_nil rest h.2⟩

end

/-- What is read from the query that the expression filters is read across one boundary. -/
theorem Expr.correlatedReferences_zero (e : Expr) :
    e.correlatedReferences 0 = some (e.readsAcross 1) := by
  unfold correlatedReferences
  cases hsub : e.hasSubQuery with
  | true => rfl
  | false =>
    rw [readsAcross, e.outerReads_eq_nil hsub]
    rfl

namespace Predicate

variable {set : TableSet} {e expr : Expr} {column : ColumnName}

/-- Without a nested query, what is read is read by the conjunct itself. -/
theorem readsWithOuter_eq_nil (hsub : e.hasSubQuery = false) (hrefs : e.references = []) :
    readsWithOuter e = [] := by
  unfold readsWithOuter Expr.readsAcross
  rw [hrefs, e.outerReads_eq_nil hsub]
  rfl

/-- What reads nothing, not even from outside, has no references. -/
theorem references_eq_nil (h : readsWithOuter e = []) : e.references = [] := by
  rw [List.eq_nil_iff_forall_not_mem]
  intro ref href
  have hread : ref ∈ readsWithOuter e := mem_distinct.mpr (List.mem_append_left _ href)
  rw [h] at hread
  cases hread

/-! ## Kinds -/

/-- The expression that a predicate keeps of its conjunct: the conjunct itself, or an opaque one
joined with TRUE. -/
inductive Kept (e : Expr) : Expr → Prop
  | whole : Kept e e
  | wrapped (shape : e.isOpaque = true) : Kept e (e.and .true)

/-- What is kept of a conjunct has a nested query just if the conjunct has. -/
theorem Kept.hasSubQuery (h : Kept e expr) : expr.hasSubQuery = e.hasSubQuery := by
  cases h with
  | whole => rfl
  | wrapped => exact e.hasSubQuery_and_true

/-- What is kept of a conjunct reads the columns of the conjunct. -/
theorem Kept.references (h : Kept e expr) : expr.references = e.references := by
  cases h with
  | whole => rfl
  | wrapped => exact e.references_and_true

/-- What is kept of a conjunct reads the outer columns of the conjunct. -/
theorem Kept.readsWithOuter (h : Kept e expr) : readsWithOuter expr = readsWithOuter e := by
  cases h with
  | whole => rfl
  | wrapped => exact e.readsWithOuter_and_true

/-- The predicates that a conjunct may be classified as, ORs apart. -/
inductive KindOf (set : TableSet) (e : Expr) : Predicate → Prop
  | constant {expr : Expr} (kept : Kept e expr) (unread : readsWithOuter e = []) :
    KindOf set e (.constant expr)
  | columnLeft {column : ColumnName} {op : BinaryOp} {value : Expr}
    (shape : e = .binary (.reference column) op value) (read : e.references = [column]) :
    KindOf set e (.simpleSingle column op value)
  | columnRight {column : ColumnName} {op : BinaryOp} {value : Expr}
    (shape : e = .binary value op (.reference column)) (comparison : op.isComparison = true)
    (read : e.references = [column]) : KindOf set e (.simpleSingle column op.reverse value)
  | complexSingle {column : ColumnName} {expr : Expr} (kept : Kept e expr)
    (read : e.references = [column]) : KindOf set e (.complexSingle column expr)
  | simplePattern {column : ColumnName} {op : MatchOp} {pattern : Expr} {escape : Option Expr}
    (shape : e = .pattern op (.reference column) pattern escape)
    (read : e.references = [column]) : KindOf set e (.simplePattern column op pattern escape)
  | complexPattern {owner : PlanId} (owned : set.commonOwner e.references = .ok (some owner)) :
    KindOf set e (.complexPattern e e.references)
  | simpleSubQuery {column : ColumnName} {op : BinaryOp} {quantifier : Quantifier}
    {query : SubQuery}
    (shape : e = .quantified quantifier op (.reference column)
      (.query query.plan query.correlated)) :
    KindOf set e (.simpleSubQuery column op quantifier query)
  | standardJoin {left right : Expr} {op : BinaryOp} {mixed : Bool}
    (shape : e = .binary left op right) (comparison : op.isComparison = true)
    (compares : e.comparesColumn = true) (several : 1 < e.references.length) :
    KindOf set e (.standardJoin e mixed)
  | exhaustiveJoin {expr : Expr} (kept : Kept e expr) (several : 1 < e.references.length) :
    KindOf set e (.exhaustiveJoin expr e.references)
  | exhaustiveSubQuery {expr : Expr} (kept : Kept e expr) (nested : e.hasSubQuery = true)
    (read : readsWithOuter e ≠ []) : KindOf set e (.exhaustiveSubQuery expr (readsWithOuter e))

/-- A conjunct over one column is of one of the kinds. -/
theorem kindOf_ofSingle (read : e.references = [column]) : KindOf set e (ofSingle e column) := by
  have hcomplex : KindOf set e (.complexSingle column e) := .complexSingle .whole read
  -- A column alone on one side is the one column that is read.
  have hsole : ∀ {name}, name ∈ e.references → e.references = [name] := by
    intro name hname
    rw [read, List.mem_singleton] at hname
    rw [read, hname]
  unfold ofSingle
  split
  · split
    · rename_i hcmp
      split
      · rename_i name hname
        obtain rfl := Expr.eq_of_asReference hname
        split
        · exact .columnLeft rfl (hsole (by simp [Expr.mentions]))
        · exact hcomplex
      · rename_i name _ hname
        obtain rfl := Expr.eq_of_asReference hname
        split
        · exact .columnRight rfl hcmp (hsole (by simp [Expr.mentions]))
        · exact hcomplex
      · exact hcomplex
    · exact hcomplex
  · exact hcomplex

/-- A conjunct over several columns is of one of the kinds. -/
theorem kindOf_ofSeveral (several : 1 < e.references.length) :
    KindOf set e (ofSeveral e e.references) := by
  have hexhaustive : KindOf set e (.exhaustiveJoin e e.references) := .exhaustiveJoin .whole several
  unfold ofSeveral
  split
  · rename_i left op right
    split
    · rename_i hcmp
      split
      · rename_i hleft hright
        exact .standardJoin rfl hcmp (by simp [Expr.comparesColumn, hcmp, hleft]) several
      · exact hexhaustive
      · rename_i _ hnone
        refine .standardJoin rfl hcmp ?_ several
        rw [Expr.comparesColumn, hcmp, Bool.true_and, Bool.or_eq_true, Option.isSome_iff_ne_none,
          Option.isSome_iff_ne_none]
        exact not_and_or.mp fun h => hnone h.1 h.2
    · exact hexhaustive
  · exact hexhaustive

/-- A conjunct without a nested query is of one of the kinds. -/
theorem kindOf_ofPlain (hsub : e.hasSubQuery = false) : KindOf set e (ofPlain e).2 := by
  unfold ofPlain
  rcases hrefs : e.references with _ | ⟨column, _ | ⟨second, rest⟩⟩
  · exact .constant .whole (readsWithOuter_eq_nil hsub hrefs)
  · exact kindOf_ofSingle hrefs
  · have hseveral : KindOf set e (ofSeveral e e.references) :=
      kindOf_ofSeveral (by rw [hrefs]; simp)
    rwa [hrefs] at hseveral

/-- A conjunct with a nested query in it is of one of the kinds. -/
theorem kindOf_ofNested (kept : Kept e expr) (nested : e.hasSubQuery = true) :
    KindOf set e (ofNested expr) := by
  unfold ofNested
  simp only [kept.readsWithOuter, List.isEmpty_iff]
  split
  · exact .constant kept ‹_›
  · exact .exhaustiveSubQuery kept nested ‹_›

/-- A conjunct that may compare with a nested query is of one of the kinds. -/
theorem kindOf_ofSubQuery (nested : e.hasSubQuery = true) : KindOf set e (ofSubQuery e) := by
  unfold ofSubQuery
  split
  · split
    · rename_i hcolumn hquery
      split
      · obtain rfl := Expr.eq_of_asReference hcolumn
        obtain rfl := Expr.eq_of_asSubQuery hquery
        exact .simpleSubQuery rfl
      · exact kindOf_ofNested .whole nested
    · exact kindOf_ofNested .whole nested
  · exact kindOf_ofNested .whole nested

/-- An opaque conjunct is of one of the kinds. -/
theorem kindOf_ofOpaque (shape : e.isOpaque = true) : KindOf set e (ofOpaque e).2 := by
  have kept : Kept e (e.and .true) := .wrapped shape
  unfold ofOpaque
  simp only [e.hasSubQuery_and_true, e.references_and_true]
  split
  · exact kindOf_ofNested kept ‹_›
  · rename_i hsub
    rw [Bool.not_eq_true] at hsub
    rcases hrefs : e.references with _ | ⟨column, _ | ⟨second, rest⟩⟩
    · exact .constant kept (readsWithOuter_eq_nil hsub hrefs)
    · exact .complexSingle kept hrefs
    · have hseveral : KindOf set e (.exhaustiveJoin (e.and .true) e.references) :=
        .exhaustiveJoin kept (by rw [hrefs]; simp)
      rwa [hrefs] at hseveral

/-- A pattern over one column is a simple one. -/
theorem kindOf_simplePattern {predicate : Predicate} (h : simplePattern? e = some predicate) :
    KindOf set e predicate := by
  unfold simplePattern? at h
  split at h
  · rename_i op left p escape
    split at h
    · rename_i column hcolumn
      obtain rfl := Expr.eq_of_asReference hcolumn
      split at h
      · rename_i hempty
        obtain rfl := Option.some.inj h
        rw [Bool.and_eq_true, List.isEmpty_iff] at hempty
        refine .simplePattern rfl ?_
        have hescape : mentionsOfEscape escape = [] := by
          cases escape with
          | none => rfl
          | some x => exact Expr.mentions_eq_nil (List.isEmpty_iff.mp hempty.2)
        unfold Expr.references
        rw [Expr.mentions, Expr.mentions_eq_nil hempty.1, hescape]
        rfl
      · cases h
    · cases h
  · cases h

end Predicate

namespace TableSet

variable {set : TableSet} {e : Expr} {predicate : Predicate} {placed : Bucket × Predicate}

/-- One column has one owner. -/
theorem commonOwner_single {column : ColumnName} : set.commonOwner [column] ≠ .ok none := by
  intro h
  unfold commonOwner at h
  obtain ⟨id, -, h⟩ := except_bind_ok.mp h
  cases h

/-- A pattern is of one of the kinds, whatever plans own its columns. -/
theorem kindOf_of_classifyPattern (hsub : e.hasSubQuery = false)
    (h : set.classifyPattern e = .ok predicate) : predicate.KindOf set e := by
  unfold classifyPattern at h
  simp only at h
  split at h
  · rename_i hempty
    cases h
    exact .constant .whole (Predicate.readsWithOuter_eq_nil hsub (List.isEmpty_iff.mp hempty))
  · rename_i hempty
    split at h
    · rename_i p hp
      cases h
      exact Predicate.kindOf_simplePattern hp
    · obtain ⟨owner, hcommon, h⟩ := except_bind_ok.mp h
      cases owner with
      | some _ =>
        cases h
        exact .complexPattern hcommon
      | none =>
        cases h
        refine .exhaustiveJoin .whole ?_
        rcases hrefs : e.references with _ | ⟨column, _ | ⟨second, rest⟩⟩
        · exact absurd (by rw [hrefs]; rfl) hempty
        · rw [hrefs] at hcommon
          exact absurd hcommon commonOwner_single
        · simp

/-- A logical conjunct is classified as an OR. -/
theorem exists_of_classifySubLogic (h : set.classifySubLogic e = .ok predicate) :
    ∃ joinable, predicate = .subLogic e joinable := by
  unfold classifySubLogic at h
  split at h
  · obtain ⟨joinable, -, h⟩ := except_bind_ok.mp h
    cases h
    exact ⟨joinable, rfl⟩
  · cases h
    exact ⟨true, rfl⟩

/-- What falls in a bucket was classified before. -/
theorem eq_ok_of_map {x : Except PlanError Predicate} {bucket : Bucket}
    (h : (x.map fun p => some (bucket, p)) = .ok (some placed)) : x = .ok placed.2 := by
  cases x with
  | error e => cases h
  | ok p =>
    cases h
    rfl

/-- What a conjunct is classified as. -/
theorem kind_of_classifyOne (h : set.classifyOne e = .ok (some placed)) :
    (e.isLogical = true ∧ ∃ joinable, placed.2 = .subLogic e joinable) ∨
      e.isLogical = false ∧ placed.2.KindOf set e := by
  unfold classifyOne at h
  split at h
  · cases h
  · split at h
    · rename_i hform
      cases h
      exact Or.inr ⟨Expr.isLogical_of_isOpaque hform, Predicate.kindOf_ofOpaque hform⟩
    · split at h
      · rename_i hlogic
        exact Or.inl ⟨hlogic, exists_of_classifySubLogic (eq_ok_of_map h)⟩
      · rename_i hlogic
        refine Or.inr ⟨Bool.eq_false_iff.mpr hlogic, ?_⟩
        split at h
        · rename_i hquery
          cases h
          exact Predicate.kindOf_ofSubQuery hquery
        · rename_i hsub
          rw [Bool.not_eq_true] at hsub
          split at h
          · exact kindOf_of_classifyPattern hsub (eq_ok_of_map h)
          · cases h
            exact Predicate.kindOf_ofPlain hsub

/-- Only the literal TRUE has no predicate. -/
theorem isTrue_of_classifyOne_none (h : set.classifyOne e = .ok none) : e.isTrue = true := by
  have hmap : ∀ {x : Except PlanError Predicate} {bucket : Bucket},
      (x.map fun p => some (bucket, p)) ≠ .ok none := by
    rintro (_ | p) bucket ⟨⟩
  unfold classifyOne at h
  split at h
  · rename_i htrue
    exact htrue
  · split at h
    · cases h
    · split at h
      · exact absurd h hmap
      · split at h
        · cases h
        · split at h
          · exact absurd h hmap
          · cases h

/-- What has a predicate is not the literal TRUE. -/
theorem isTrue_of_classifyOne_some (h : set.classifyOne e = .ok (some placed)) :
    e.isTrue = false := by
  rw [Bool.eq_false_iff]
  intro htrue
  unfold classifyOne at h
  rw [if_pos htrue] at h
  cases h

/-! ## All conjuncts of a filter -/

variable {α : Type} {a : α} {agenda : List (Expr × α)}

/-- Conjuncts are classified one after the other, and TRUE is dropped. -/
theorem classifyListed_cons_ok {listed : List ((Bucket × Predicate) × α)} :
    set.classifyListed ((e, a) :: agenda) = .ok listed ↔
      ∃ first others, set.classifyOne e = .ok first ∧ set.classifyListed agenda = .ok others ∧
        listed = first.elim others fun p => (p, a) :: others := by
  rw [classifyListed]
  constructor
  · intro h
    obtain ⟨first, hfirst, h⟩ := except_bind_ok.mp h
    obtain ⟨others, hothers, h⟩ := except_bind_ok.mp h
    refine ⟨first, others, hfirst, hothers, ?_⟩
    cases first <;> cases h <;> rfl
  · rintro ⟨first, others, hfirst, hothers, rfl⟩
    refine except_bind_ok.mpr ⟨first, hfirst, except_bind_ok.mpr ⟨others, hothers, ?_⟩⟩
    cases first <;> rfl

/-- What a conjunct is classified as, with what the conjunct carries. -/
def Places (set : TableSet) (x : Expr × α) (y : (Bucket × Predicate) × α) : Prop :=
  set.classifyOne x.1 = .ok (some y.1) ∧ y.2 = x.2

/-- All conjuncts but the literals TRUE are classified one after another. -/
theorem places_of_classifyListed {listed : List ((Bucket × Predicate) × α)}
    (h : set.classifyListed agenda = .ok listed) :
    List.Forall₂ set.Places (agenda.filter fun x => !x.1.isTrue) listed := by
  induction agenda generalizing listed with
  | nil =>
    cases h
    exact .nil
  | cons x rest ih =>
    obtain ⟨first, others, hfirst, hothers, rfl⟩ := classifyListed_cons_ok.mp h
    cases first with
    | none =>
      rw [List.filter_cons_of_neg (by simp [isTrue_of_classifyOne_none hfirst])]
      exact ih hothers
    | some y =>
      rw [List.filter_cons_of_pos (by simp [isTrue_of_classifyOne_some hfirst])]
      exact .cons ⟨hfirst, rfl⟩ (ih hothers)

/-- The predicates of a list are those of its conjuncts, in the order in which they are applied. -/
theorem places_of_classifyAll {placed : List (Predicate × α)}
    (h : set.classifyAll agenda = .ok placed) :
    ∃ listed, List.Forall₂ set.Places (agenda.filter fun x => !x.1.isTrue) listed ∧
      placed = (listed.insertionSort fun a b => Predicate.comesBefore a.1 b.1 = true).map
        fun y => (y.1.2, y.2) := by
  unfold classifyAll at h
  obtain ⟨listed, hlisted, h⟩ := except_bind_ok.mp h
  cases h
  rw [sortBy_eq_insertionSort]
  exact ⟨listed, places_of_classifyListed hlisted, rfl⟩

/-- Every predicate comes from a conjunct, and carries what that does. -/
theorem mem_of_classifyAll {placed : List (Predicate × α)}
    (h : set.classifyAll agenda = .ok placed) {y : Predicate × α} (hy : y ∈ placed) :
    ∃ x ∈ agenda, ∃ bucket, set.classifyOne x.1 = .ok (some (bucket, y.1)) ∧ y.2 = x.2 := by
  obtain ⟨listed, hplaces, rfl⟩ := places_of_classifyAll h
  obtain ⟨z, hz, rfl⟩ := List.mem_map.mp hy
  obtain ⟨x, hx, hxz⟩ := exists_left_of_forall₂ hplaces ((List.mem_insertionSort _).mp hz)
  exact ⟨x, List.mem_of_mem_filter hx, z.1.1, hxz⟩

/-- Every conjunct but the literal TRUE has a predicate. -/
theorem exists_of_classifyAll {placed : List (Predicate × α)}
    (h : set.classifyAll agenda = .ok placed) {x : Expr × α} (hx : x ∈ agenda)
    (htrue : x.1.isTrue = false) :
    ∃ y ∈ placed, ∃ bucket, set.classifyOne x.1 = .ok (some (bucket, y.1)) ∧ y.2 = x.2 := by
  obtain ⟨listed, hplaces, rfl⟩ := places_of_classifyAll h
  have hkept : x ∈ agenda.filter fun x => !x.1.isTrue :=
    List.mem_filter.mpr ⟨hx, by rw [htrue]; rfl⟩
  obtain ⟨y, hy, hxy⟩ := exists_right_of_forall₂ hplaces hkept
  exact ⟨_, List.mem_map_of_mem ((List.mem_insertionSort _).mpr hy), y.1.1, hxy⟩

end TableSet

end QueryPlan
