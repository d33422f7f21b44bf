import QueryPlan.Expr.Render
import QueryPlan.Proofs.FirstAppearances

/-!
# Interchanged operators

An operator with one operand is written before it or after it, and its operand stands
without parentheses unless this has two operands itself. Around one operand it can
therefore not be told whether what is written before it or what is written after it
applies first.

- `UnaryOp.leads`: whether an operator is written before its operand.
- `Expr.Interchanges`: expressions that differ in the order in which an operator before
  and one after an operand apply.
- `Interchanges.render_eq`: these have one written form.
- `Expr.Unmixed`: no operator before an operand is next to one after it.
- `interchanges_only_self_iff`: in such expressions there is nothing to interchange, and
  in all others there is.
- `interchanges_core`: every expression can be brought into the form in which all that is
  written before an innermost operand applies first.
-/

namespace QueryPlan

/-- Whether the operator is written before its operand. -/
def UnaryOp.leads : UnaryOp → Bool
  | .not => true
  | .neg => true
  | .isNull => false
  | .isNotNull => false

namespace Expr

/-- The same expression but for the order in which an operator before an operand and one after it
apply. -/
inductive Interchanges : Expr → Expr → Prop
  | refl (e : Expr) : Interchanges e e
  | symm {a b : Expr} : Interchanges a b → Interchanges b a
  | trans {a b c : Expr} : Interchanges a b → Interchanges b c → Interchanges a c
  | swap {p q : UnaryOp} (e : Expr) : p.leads → q.leads = false →
      Interchanges (.unary p (.unary q e)) (.unary q (.unary p e))
  | unary {a b : Expr} (op : UnaryOp) : Interchanges a b → Interchanges (.unary op a) (.unary op b)
  | binary {l l' r r' : Expr} (op : BinaryOp) : Interchanges l l' → Interchanges r r' →
      Interchanges (.binary l op r) (.binary l' op r')

theorem operand_unary (op : UnaryOp) (e : Expr) (text : String) :
    (Expr.unary op e).operand text = text := rfl

/-- What is written before and after an operand is put around it from both sides. -/
theorem apply_apply {p q : UnaryOp} (hp : p.leads) (hq : q.leads = false) (text : String) :
    p.apply (q.apply text) = q.apply (p.apply text) := by
  cases p <;> cases hp <;> cases q <;> cases hq <;> exact (String.append_assoc ..).symm

theorem Interchanges.render_eq {a b : Expr} (h : a.Interchanges b) :
    a.render = b.render ∧ a.isBinary = b.isBinary := by
  induction h with
  | refl e => exact ⟨rfl, rfl⟩
  | symm _ ih => exact ⟨ih.1.symm, ih.2.symm⟩
  | trans _ _ ih ih' => exact ⟨ih.1.trans ih'.1, ih.2.trans ih'.2⟩
  | swap e hp hq =>
    refine ⟨?_, rfl⟩
    rw [render, render, render, render, operand_unary, operand_unary, apply_apply hp hq]
  | unary op _ ih =>
    refine ⟨?_, rfl⟩
    rw [render, render, operand, operand, ih.1, ih.2]
  | binary op _ _ ih ih' =>
    refine ⟨?_, rfl⟩
    rw [render, render, operand, operand, operand, operand, ih.1, ih.2, ih'.1, ih'.2]

/-! ## Unmixed operators -/

/-- No operator written before an operand applies next to one written after it. -/
def Unmixed : Expr → Prop
  | .unary op e => (∀ q x, e = .unary q x → q.leads = op.leads) ∧ e.Unmixed
  | .binary l _ r => l.Unmixed ∧ r.Unmixed
  | _ => True

theorem Interchanges.eq_of_unmixed {a b : Expr} (h : a.Interchanges b)
    (hunmixed : a.Unmixed ∨ b.Unmixed) : a = b := by
  induction h with
  | refl e => rfl
  | symm _ ih => exact (ih hunmixed.symm).symm
  | trans _ _ ih ih' =>
    rcases hunmixed with ha | hc
    · obtain rfl := ih (Or.inl ha)
      exact ih' (Or.inl ha)
    · obtain rfl := ih' (Or.inr hc)
      exact ih (Or.inr hc)
  | swap e hp hq =>
    rcases hunmixed with ha | hb
    · exact absurd (ha.1 _ _ rfl) (by rw [hp, hq]; decide)
    · exact absurd (hb.1 _ _ rfl) (by rw [hp, hq]; decide)
  | unary op _ ih => rw [ih (hunmixed.imp And.right And.right)]
  | binary op _ _ ih ih' =>
    rw [ih (hunmixed.imp And.left And.left), ih' (hunmixed.imp And.right And.right)]

/-- Two operators around an operand, one before it and one after it, can be interchanged. -/
theorem interchanges_of_mixed {p q : UnaryOp} (e : Expr) (h : q.leads ≠ p.leads) :
    (Expr.unary p (.unary q e)).Interchanges (.unary q (.unary p e)) := by
  cases hp : p.leads with
  | true => exact .swap e hp (by rw [hp] at h; exact eq_false_of_ne_true h)
  | false => exact .symm (.swap e (by rw [hp] at h; exact eq_true_of_ne_false h) hp)

theorem exists_interchanges {e : Expr} (h : ¬ e.Unmixed) : ∃ e', e.Interchanges e' ∧ e ≠ e' := by
  induction e using induction_operands with
  | step e ih =>
    cases e with
    | unary op e =>
      by_cases hnext : ∀ q x, e = .unary q x → q.leads = op.leads
      · obtain ⟨e', he, hne⟩ := ih e (List.mem_singleton.mpr rfl) fun hrest => h ⟨hnext, hrest⟩
        exact ⟨.unary op e', he.unary op, fun heq => hne (Expr.unary.inj heq).2⟩
      · obtain ⟨q, x, rfl, hq⟩ : ∃ q x, e = .unary q x ∧ q.leads ≠ op.leads := by
          simpa using hnext
        refine ⟨.unary q (.unary op x), interchanges_of_mixed x hq, fun heq => hq ?_⟩
        rw [(Expr.unary.inj heq).1]
    | binary l op r =>
      by_cases hl : l.Unmixed
      · obtain ⟨r', hr, hne⟩ := ih r (List.mem_cons_of_mem _ (List.mem_singleton.mpr rfl))
          fun hr => h ⟨hl, hr⟩
        exact ⟨.binary l op r', .binary op (.refl l) hr, fun heq => hne (Expr.binary.inj heq).2.2⟩
      · obtain ⟨l', hl', hne⟩ := ih l List.mem_cons_self hl
        exact ⟨.binary l' op r, .binary op hl' (.refl r), fun heq => hne (Expr.binary.inj heq).1⟩
    | _ => exact absurd trivial h

/-- There is nothing to interchange just in expressions whose operators are not mixed. -/
theorem interchanges_only_self_iff {e : Expr} :
    (∀ e', e.Interchanges e' → e = e') ↔ e.Unmixed := by
  constructor
  · intro h
    by_contra hmixed
    obtain ⟨e', he, hne⟩ := exists_interchanges hmixed
    exact hne (h e' he)
  · exact fun h e' he => he.eq_of_unmixed (Or.inl h)

/-! ## Operators around an operand -/

/-- The innermost operand of the operators with one operand. -/
def core : Expr → Expr
  | .unary _ e => e.core
  | e => e

/-- The operators written before the innermost operand, the outermost first. -/
def leading : Expr → List UnaryOp
  | .unary op e => if op.leads then op :: e.leading else e.leading
  | _ => []

/-- The operators written after the innermost operand, the outermost last. -/
def trailing : Expr → List UnaryOp
  | .unary op e => if op.leads then e.trailing else e.trailing ++ [op]
  | _ => []

/-- The operand with operators after it, the first one applied first. -/
def followedBy (e : Expr) (ops : List UnaryOp) : Expr := ops.foldl (fun e op => .unary op e) e

/-- The operand with operators before it, the last one applied first. -/
def precededBy (e : Expr) (ops : List UnaryOp) : Expr := ops.foldr .unary e

theorem Interchanges.followedBy {a b : Expr} (h : a.Interchanges b) (ops : List UnaryOp) :
    (a.followedBy ops).Interchanges (b.followedBy ops) := by
  induction ops generalizing a b with
  | nil => exact h
  | cons op ops ih => exact ih (h.unary op)

theorem Interchanges.precededBy {a b : Expr} (h : a.Interchanges b) (ops : List UnaryOp) :
    (a.precededBy ops).Interchanges (b.precededBy ops) := by
  induction ops with
  | nil => exact h
  | cons op ops ih => exact ih.unary op

/-- An operator before an operand can apply before those after it. -/
theorem interchanges_followedBy {p : UnaryOp} (hp : p.leads) (e : Expr) {ops : List UnaryOp}
    (hops : ∀ op ∈ ops, op.leads = false) :
    (Expr.unary p (e.followedBy ops)).Interchanges ((Expr.unary p e).followedBy ops) := by
  induction ops generalizing e with
  | nil => exact .refl _
  | cons op ops ih =>
    rw [List.forall_mem_cons] at hops
    exact (ih (.unary op e) hops.2).trans ((Interchanges.swap e hp hops.1).followedBy ops)

theorem leads_of_mem_leading {e : Expr} : ∀ op ∈ e.leading, op.leads := by
  induction e using induction_operands with
  | step e ih =>
    cases e with
    | unary op e =>
      have ih := ih e (List.mem_singleton.mpr rfl)
      rw [leading]
      by_cases hop : op.leads
      · rw [if_pos hop]
        exact List.forall_mem_cons.mpr ⟨hop, ih⟩
      · rw [if_neg hop]
        exact ih
    | _ => exact List.forall_mem_nil _

theorem leads_of_mem_trailing {e : Expr} : ∀ op ∈ e.trailing, op.leads = false := by
  induction e using induction_operands with
  | step e ih =>
    cases e with
    | unary op e =>
      have ih := ih e (List.mem_singleton.mpr rfl)
      rw [trailing]
      by_cases hop : op.leads
      · rw [if_pos hop]
        exact ih
      · rw [if_neg hop]
        exact List.forall_mem_append.mpr
          ⟨ih, List.forall_mem_singleton.mpr (eq_false_of_ne_true hop)⟩
    | _ => exact List.forall_mem_nil _

/-- All operators before an operand can apply before those after it. -/
theorem interchanges_core (e : Expr) :
    e.Interchanges ((e.core.precededBy e.leading).followedBy e.trailing) := by
  induction e using induction_operands with
  | step e ih =>
    cases e with
    | unary op e =>
      have ih := ih e (List.mem_singleton.mpr rfl)
      rw [core, leading, trailing]
      by_cases hop : op.leads
      · rw [if_pos hop, if_pos hop]
        exact (ih.unary op).trans (interchanges_followedBy hop _ leads_of_mem_trailing)
      · rw [if_neg hop, if_neg hop, followedBy, List.foldl_append]
        exact ih.unary op
    | _ => exact .refl _

/-- Expressions with the same operators before and after innermost operands that differ in
interchanges only do so themselves. -/
theorem Interchanges.of_core {a b : Expr} (hleading : a.leading = b.leading)
    (htrailing : a.trailing = b.trailing) (hcore : a.core.Interchanges b.core) :
    a.Interchanges b := by
  have hb := interchanges_core b
  rw [← hleading, ← htrailing] at hb
  exact (interchanges_core a).trans (((hcore.precededBy _).followedBy _).trans hb.symm)

end Expr

end QueryPlan
