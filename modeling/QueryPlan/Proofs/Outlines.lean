import QueryPlan.Expr.Same
import QueryPlan.Proofs.OfConjunct

/-!
# Outlines of conditions

Planning reads the shape of an expression and its columns, but of the constants
only whether they are TRUE, and of a nested query only the outer columns that it
reads. The outline of an expression is what is left of it without the rest.

- `Expr.outline`, `Predicate.outline`: outlines of expressions and of predicates.
- `outline_of_same`: equal expressions have one outline.
- `TableSet.classifyOne_outline`: an outline is classified as the outline of what
  the expression is.
-/

namespace QueryPlan

mutual

/-- The shape of an expression and the columns that it reads. -/
def Expr.outline : Expr → Expr
  | .constant (.bool b) => .constant (.bool b)
  | .constant _ => .constant .null
  | .reference name => .reference name
  | .unary op e => .unary op e.outline
  | .binary l op r => .binary l.outline op r.outline
  | .pattern op l p escape => .pattern op l.outline p.outline (outlineOfEscape escape)
  | .call name args => .call name (outlineOfAll args)
  | .query _ correlated => .query default correlated
  | .quantified q op l r => .quantified q op l.outline r.outline

/-- The outline of an escape, if there is one. -/
def outlineOfEscape : Option Expr → Option Expr
  | none => none
  | some e => some e.outline

/-- The outlines of arguments, in their order. -/
def outlineOfAll : List Expr → List Expr
  | [] => []
  | e :: rest => e.outline :: outlineOfAll rest

end

/-! ## Equal expressions -/

mutual

/-- Equal expressions have one outline. -/
theorem Expr.outline_of_same : ∀ {a b : Expr}, a.same b = Bool.true → a.outline = b.outline
  -- One case for each constructor, in which the other expression has to be of the same one.
  | .constant x, b, h => by
    cases b <;> simp only [Expr.same, Bool.false_eq_true] at h
    rename_i y
    cases x <;> cases y <;> simp only [Literal.same, Bool.false_eq_true, beq_iff_eq] at h
    all_goals first | rfl | rw [h]
  | .reference _, b, h => by
    cases b <;> simp only [Expr.same, Bool.false_eq_true, beq_iff_eq] at h
    rw [h]
  | .unary _ a, b, h => by
    cases b <;> simp only [Expr.same, Bool.false_eq_true, Bool.and_eq_true, beq_iff_eq] at h
    rw [Expr.outline, Expr.outline, h.1, Expr.outline_of_same h.2]
  | .binary l _ r, b, h => by
    cases b <;> simp only [Expr.same, Bool.false_eq_true, Bool.and_eq_true, beq_iff_eq] at h
    rw [Expr.outline, Expr.outline, Expr.outline_of_same h.1.1, h.1.2, Expr.outline_of_same h.2]
  | .pattern _ l p escape, b, h => by
    cases b <;> simp only [Expr.same, Bool.false_eq_true, Bool.and_eq_true, beq_iff_eq] at h
    rw [Expr.outline, Expr.outline, h.1.1.1, Expr.outline_of_same h.1.1.2,
      Expr.outline_of_same h.1.2, outlineOfEscape_of_same h.2]
  | .call _ args, b, h => by
    cases b <;> simp only [Expr.same, Bool.false_eq_true, Bool.and_eq_true, beq_iff_eq] at h
    rw [Expr.outline, Expr.outline, h.1, outlineOfAll_of_same h.2]
  | .query _ _, b, h => by
    cases b <;> simp only [Expr.same, Bool.false_eq_true, Bool.and_eq_true, beq_iff_eq] at h
    rw [Expr.outline, Expr.outline, h.2]
  | .quantified _ _ l r, b, h => by
    cases b <;> simp only [Expr.same, Bool.false_eq_true, Bool.and_eq_true, beq_iff_eq] at h
    rw [Expr.outline, Expr.outline, h.1.1.1, h.1.1.2, Expr.outline_of_same h.1.2,
      Expr.outline_of_same h.2]

/-- Equal escapes have one outline. -/
theorem outlineOfEscape_of_same : ∀ {a b : Option Expr}, sameOption a b = true →
    outlineOfEscape a = outlineOfEscape b
  | none, b, h => by
    cases b <;> simp only [sameOption, Bool.false_eq_true] at h
    rfl
  | some a, b, h => by
    cases b <;> simp only [sameOption, Bool.false_eq_true] at h
    rw [outlineOfEscape, outlineOfEscape, Expr.outline_of_same h]

/-- Equal lists of arguments have one outline. -/
theorem outlineOfAll_of_same : ∀ {a b : List Expr}, sameList a b = true →
    outlineOfAll a = outlineOfAll b
  | [], b, h => by
    cases b <;> simp only [sameList, Bool.false_eq_true] at h
    rfl
  | a :: as, b, h => by
    cases b <;> simp only [sameList, Bool.false_eq_true, Bool.and_eq_true] at h
    rw [outlineOfAll, outlineOfAll, Expr.outline_of_same h.1, outlineOfAll_of_same h.2]

end

/-! ## What an outline reads -/

mutual

/-- An outline reads the columns of the expression. -/
@[simp] theorem Expr.mentions_outline : ∀ e : Expr, e.outline.mentions = e.mentions
  | .constant x => by cases x <;> rfl
  | .reference _ => rfl
  | .unary _ e => e.mentions_outline
  | .binary l _ r => congrArg₂ _ l.mentions_outline r.mentions_outline
  | .pattern _ l p escape =>
    congrArg₂ _ (congrArg₂ _ l.mentions_outline p.mentions_outline)
      (mentions_outlineOfEscape escape)
  | .call _ args => mentions_outlineOfAll args
  | .query _ _ => rfl
  | .quantified _ _ l r => congrArg₂ _ l.mentions_outline r.mentions_outline

theorem mentions_outlineOfEscape : ∀ escape : Option Expr,
    mentionsOfEscape (outlineOfEscape escape) = mentionsOfEscape escape
  | none => rfl
  | some e => e.mentions_outline

theorem mentions_outlineOfAll : ∀ args : List Expr,
    mentionsOfAll (outlineOfAll args) = mentionsOfAll args
  | [] => rfl
  | e :: rest => congrArg₂ _ e.mentions_outline (mentions_outlineOfAll rest)

end

mutual

/-- An outline has a nested query just if the expression has. -/
@[simp] theorem Expr.hasSubQuery_outline : ∀ e : Expr, e.outline.hasSubQuery = e.hasSubQuery
  | .constant x => by cases x <;> rfl
  | .reference _ => rfl
  | .unary _ e => e.hasSubQuery_outline
  | .binary l _ r => congrArg₂ _ l.hasSubQuery_outline r.hasSubQuery_outline
  | .pattern _ l p escape =>
    congrArg₂ _ (congrArg₂ _ l.hasSubQuery_outline p.hasSubQuery_outline)
      (hasSubQuery_outlineOfEscape escape)
  | .call _ args => hasSubQuery_outlineOfAll args
  | .query _ _ => rfl
  | .quantified _ _ l r => congrArg₂ _ l.hasSubQuery_outline r.hasSubQuery_outline

theorem hasSubQuery_outlineOfEscape : ∀ escape : Option Expr,
    escapeHasSubQuery (outlineOfEscape escape) = escapeHasSubQuery escape
  | none => rfl
  | some e => e.hasSubQuery_outline

theorem hasSubQuery_outlineOfAll : ∀ args : List Expr,
    anyHasSubQuery (outlineOfAll args) = anyHasSubQuery args
  | [] => rfl
  | e :: rest => congrArg₂ _ e.hasSubQuery_outline (hasSubQuery_outlineOfAll rest)

end

mutual

/-- An outline reads the outer columns of the expression. -/
@[simp] theorem Expr.outerReads_outline : ∀ e : Expr, e.outline.outerReads = e.outerReads
  | .constant x => by cases x <;> rfl
  | .reference _ => rfl
  | .unary _ e => e.outerReads_outline
  | .binary l _ r => congrArg₂ _ l.outerReads_outline r.outerReads_outline
  | .pattern _ l p escape =>
    congrArg₂ _ (congrArg₂ _ l.outerReads_outline p.outerReads_outline)
      (outerReads_outlineOfEscape escape)
  | .call _ args => outerReads_outlineOfAll args
  | .query _ _ => rfl
  | .quantified _ _ l r => congrArg₂ _ l.outerReads_outline r.outerReads_outline

theorem outerReads_outlineOfEscape : ∀ escape : Option Expr,
    outerReadsOfEscape (outlineOfEscape escape) = outerReadsOfEscape escape
  | none => rfl
  | some e => e.outerReads_outline

theorem outerReads_outlineOfAll : ∀ args : List Expr,
    outerReadsOfAll (outlineOfAll args) = outerReadsOfAll args
  | [] => rfl
  | e :: rest => congrArg₂ _ e.outerReads_outline (outerReads_outlineOfAll rest)

end

namespace Expr

/-- An outline has the references of the expression. -/
@[simp] theorem references_outline (e : Expr) : e.outline.references = e.references := by
  rw [references, references, mentions_outline]

/-- An outline reads the same columns as the expression across a number of queries. -/
@[simp] theorem readsAcross_outline (e : Expr) (boundaries : UInt32) :
    e.outline.readsAcross boundaries = e.readsAcross boundaries := by
  rw [readsAcross, readsAcross, outerReads_outline]

/-! ## The shape of an outline -/

@[simp] theorem asReference_outline (e : Expr) : e.outline.asReference? = e.asReference? := by
  cases e with
  | constant x => cases x <;> rfl
  | _ => rfl

@[simp] theorem category_outline (e : Expr) : e.outline.category = e.category := by
  cases e with
  | constant x => cases x <;> rfl
  | _ => rfl

@[simp] theorem isUnary_outline (e : Expr) : e.outline.isUnary = e.isUnary := by
  cases e with
  | constant x => cases x <;> rfl
  | _ => rfl

@[simp] theorem isBinary_outline (e : Expr) : e.outline.isBinary = e.isBinary := by
  cases e with
  | constant x => cases x <;> rfl
  | _ => rfl

@[simp] theorem isTrue_outline (e : Expr) : e.outline.isTrue = e.isTrue := by
  cases e with
  | constant x => cases x <;> rfl
  | _ => rfl

@[simp] theorem isOpaque_outline (e : Expr) : e.outline.isOpaque = e.isOpaque := by
  simp only [isOpaque, isBinary_outline, category_outline, isUnary_outline]

@[simp] theorem isLogical_outline (e : Expr) : e.outline.isLogical = e.isLogical := by
  simp only [isLogical, category_outline]

@[simp] theorem isPattern_outline (e : Expr) : e.outline.isPattern = e.isPattern := by
  simp only [isPattern, category_outline]

/-- What has the outline of an expression with two operands is one with the same operator. -/
theorem exists_of_outline_binary {l r e : Expr} {op : BinaryOp}
    (h : (Expr.binary l op r).outline = e.outline) :
    ∃ l' r', e = .binary l' op r' ∧ l.outline = l'.outline ∧ r.outline = r'.outline := by
  cases e with
  | constant x => cases x <;> cases h
  | binary l' op' r' =>
    obtain ⟨hl, rfl, hr⟩ := Expr.binary.inj h
    exact ⟨l', r', rfl, hl, hr⟩
  | _ => cases h

section

variable {a b : Expr} (h : a.outline = b.outline)
include h

/-- Expressions with one outline have the same references. -/
theorem references_eq_of_outline : b.references = a.references := by
  rw [← references_outline, ← h, references_outline]

/-- Expressions with one outline are the same reference, or none is one. -/
theorem asReference_eq_of_outline : b.asReference? = a.asReference? := by
  rw [← asReference_outline, ← h, asReference_outline]

end

end Expr

/-! ## Predicates -/

namespace Predicate

/-- The kind of a predicate with the columns that it looks up, and outlines of its expressions. -/
def outline : Predicate → Predicate
  | .constant expr => .constant expr.outline
  | .simpleSingle column op value => .simpleSingle column op value.outline
  | .complexSingle column expr => .complexSingle column expr.outline
  | .simplePattern column op pattern escape =>
    .simplePattern column op pattern.outline (outlineOfEscape escape)
  | .complexPattern expr references => .complexPattern expr.outline references
  | .simpleSubQuery column op quantifier query =>
    .simpleSubQuery column op quantifier ⟨default, query.correlated⟩
  | .standardJoin expr mixed => .standardJoin expr.outline mixed
  | .exhaustiveJoin expr references => .exhaustiveJoin expr.outline references
  | .subLogic expr joinable => .subLogic expr.outline joinable
  | .exhaustiveSubQuery expr references => .exhaustiveSubQuery expr.outline references

/-- The weight of a predicate is read off its outline. -/
@[simp] theorem weight_outline (predicate : Predicate) :
    predicate.outline.weight = predicate.weight := by
  cases predicate <;> rfl

@[simp] theorem readsWithOuter_outline (e : Expr) :
    readsWithOuter e.outline = readsWithOuter e := by
  simp only [readsWithOuter, Expr.references_outline, Expr.readsAcross_outline]

/-- A conjunct that reads one column. -/
theorem ofSingle_outline (e : Expr) (column : ColumnName) :
    ofSingle e.outline column = (ofSingle e column).outline := by
  cases e with
  | constant x => cases x <;> rfl
  | binary l op r =>
    simp only [ofSingle, Expr.outline, Expr.asReference_outline, Expr.references_outline]
    cases op.isComparison with
    | false => rfl
    | true =>
      cases l.asReference? with
      | some name => cases r.references.isEmpty <;> rfl
      | none =>
        cases r.asReference? with
        | some name => cases l.references.isEmpty <;> rfl
        | none => rfl
  | _ => rfl

/-- A conjunct that reads several columns. -/
theorem ofSeveral_outline (e : Expr) (references : List ColumnName) :
    ofSeveral e.outline references = (ofSeveral e references).outline := by
  cases e with
  | constant x => cases x <;> rfl
  | binary l op r =>
    simp only [ofSeveral, Expr.outline, Expr.asReference_outline]
    cases op.isComparison with
    | false => rfl
    | true => cases l.asReference? <;> cases r.asReference? <;> rfl
  | _ => rfl

/-- A conjunct with a nested query somewhere. -/
theorem ofNested_outline (e : Expr) : ofNested e.outline = (ofNested e).outline := by
  simp only [ofNested, readsWithOuter_outline]
  cases (readsWithOuter e).isEmpty <;> rfl

/-- A conjunct that compares a column with a nested query. -/
theorem ofSubQuery_outline : ∀ e : Expr, ofSubQuery e.outline = (ofSubQuery e).outline
  | .constant x => by
    have hnested := ofNested_outline (.constant x)
    cases x <;> exact hnested
  | .reference name => ofNested_outline (.reference name)
  | .unary op e => ofNested_outline (.unary op e)
  | .binary l op r => ofNested_outline (.binary l op r)
  | .pattern op l p escape => ofNested_outline (.pattern op l p escape)
  | .call name args => ofNested_outline (.call name args)
  | .query plan correlated => ofNested_outline (.query plan correlated)
  | .quantified quantifier op l r => by
    have hnested := ofNested_outline (.quantified quantifier op l r)
    simp only [ofSubQuery, Expr.outline, Expr.asReference_outline] at hnested ⊢
    cases l.asReference? with
    | none => exact hnested
    | some column =>
      cases r with
      | query plan correlated =>
        simp only [Expr.outline, Expr.asSubQuery?] at hnested ⊢
        cases (correlatedAt correlated 1).isEmpty with
        | true => rfl
        | false => exact hnested
      | constant x => cases x <;> exact hnested
      | _ => exact hnested

/-- A conjunct that is not a logical one and not a pattern. -/
theorem ofOpaque_outline (e : Expr) :
    ofOpaque e.outline = ((ofOpaque e).1, (ofOpaque e).2.outline) := by
  have hwrapped : e.outline.and .true = (e.and .true).outline := rfl
  simp only [ofOpaque, hwrapped, Expr.hasSubQuery_outline, Expr.references_outline,
    ofSubQuery_outline]
  cases (e.and .true).hasSubQuery with
  | true => rfl
  | false => rcases (e.and .true).references with _ | ⟨column, _ | ⟨second, rest⟩⟩ <;> rfl

theorem ofPlain_outline (e : Expr) :
    ofPlain e.outline = ((ofPlain e).1, (ofPlain e).2.outline) := by
  simp only [ofPlain, Expr.references_outline]
  rcases e.references with _ | ⟨column, _ | ⟨second, rest⟩⟩
  · rfl
  · simp only [ofSingle_outline]
  · simp only [ofSeveral_outline]

/-- A pattern over one column. -/
theorem simplePattern_outline (e : Expr) :
    simplePattern? e.outline = (simplePattern? e).map outline := by
  cases e with
  | constant x => cases x <;> rfl
  | pattern op l p escape =>
    simp only [simplePattern?, Expr.outline, Expr.asReference_outline, Expr.references_outline]
    cases l.asReference? with
    | none => rfl
    | some column =>
      have hescape : ((outlineOfEscape escape).all fun e => e.references.isEmpty) =
          escape.all fun e => e.references.isEmpty := by
        cases escape with
        | none => rfl
        | some e => simp only [outlineOfEscape, Option.all_some, Expr.references_outline]
      simp only [hescape]
      cases p.references.isEmpty && escape.all fun e => e.references.isEmpty <;> rfl
  | _ => rfl

end Predicate

namespace TableSet

variable (set : TableSet) (e : Expr)

/-- The outline of a pattern is classified as the outline of what the pattern is. -/
theorem classifyPattern_outline :
    set.classifyPattern e.outline = (set.classifyPattern e).map Predicate.outline := by
  simp only [classifyPattern, Expr.references_outline, Predicate.simplePattern_outline]
  cases e.references.isEmpty with
  | true => rfl
  | false =>
    cases Predicate.simplePattern? e with
    | some predicate => rfl
    | none =>
      cases set.commonOwner e.references with
      | error _ => rfl
      | ok owner => cases owner <;> rfl

/-- Whether some sides read one plan is read off their outlines. -/
theorem readOnePlan_outline (sides : List Expr) (common : Option PlanId) :
    set.readOnePlan common (sides.map Expr.outline) = set.readOnePlan common sides := by
  induction sides generalizing common with
  | nil => rfl
  | cons side rest ih => simp only [List.map_cons, readOnePlan, Expr.references_outline, ih]

/-- The outline of an OR is classified as the outline of what the OR is. -/
theorem classifySubLogic_outline :
    set.classifySubLogic e.outline = (set.classifySubLogic e).map Predicate.outline := by
  cases e with
  | constant x => cases x <;> rfl
  | binary l op r =>
    have hsides : set.readOnePlan none [l.outline, r.outline] = set.readOnePlan none [l, r] :=
      set.readOnePlan_outline [l, r] none
    simp only [classifySubLogic, Expr.outline, hsides]
    cases set.readOnePlan none [l, r] <;> rfl
  | _ => rfl

/-- An outline is classified as the outline of what the expression is. -/
theorem classifyOne_outline : set.classifyOne e.outline =
    (set.classifyOne e).map (Option.map (Prod.map id Predicate.outline)) := by
  simp only [classifyOne, Expr.isTrue_outline, Expr.isOpaque_outline, Expr.isLogical_outline,
    Expr.hasSubQuery_outline, Expr.isPattern_outline, Predicate.ofOpaque_outline,
    classifySubLogic_outline, Predicate.ofSubQuery_outline, classifyPattern_outline,
    Predicate.ofPlain_outline]
  cases e.isTrue with
  | true => rfl
  | false =>
    cases e.isOpaque with
    | true => rfl
    | false =>
      cases e.isLogical with
      | true => cases set.classifySubLogic e <;> rfl
      | false =>
        cases e.hasSubQuery with
        | true => rfl
        | false =>
          cases e.isPattern with
          | true => cases set.classifyPattern e <;> rfl
          | false => rfl

end TableSet

end QueryPlan
