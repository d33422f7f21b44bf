import QueryPlan.Proofs.Interchanges
import QueryPlan.Proofs.WrittenNames

/-!
# Spelled expressions

Expressions of columns whose names are words, of natural numbers and of operators, as
characters. The text of an operand is what is written before its innermost operand, this
one, and what is written after it.

- `Expr.Spelled`: the expressions, and `Expr.inner`: their texts as operands.
- `eq_of_runs`: where a run of characters of one kind ends.
- `Expr.Atom`: columns and numbers, whose texts are runs of characters.
- `Expr.eq_of_atoms`: atoms are determined by their texts.
- `Expr.inner_eq`: the text of an operand around its innermost one.
-/

namespace QueryPlan

/-! ## Words -/

/-- The letters of ASCII, and every character beyond it. -/
def isLetter (c : Char) : Bool := c.isAlpha || decide (128 ≤ c.toNat)

/-- A text of letters, at least one. -/
def IsWord (text : String) : Prop := text ≠ "" ∧ ∀ c ∈ text.toList, isLetter c = true

/-- The characters of names, tables included, and of natural numbers. -/
def isAtomic (c : Char) : Bool := isLetter c || c.isDigit || c == '.'

theorem isAtomic_of_isLetter {c : Char} (h : isLetter c = true) : isAtomic c = true := by
  rw [isAtomic, h, Bool.true_or, Bool.true_or]

theorem isAtomic_of_isDigit {c : Char} (h : c.isDigit = true) : isAtomic c = true := by
  rw [isAtomic, h, Bool.or_true, Bool.true_or]

theorem isLetter_iff {c : Char} : isLetter c = true ↔
    65 ≤ c.toNat ∧ c.toNat ≤ 90 ∨ 97 ≤ c.toNat ∧ c.toNat ≤ 122 ∨ 128 ≤ c.toNat := by
  show (decide ('A'.val ≤ c.val ∧ c.val ≤ 'Z'.val) ||
    (decide ('a'.val ≤ c.val) && decide (c.val ≤ 'z'.val)) || decide (128 ≤ c.toNat)) = true ↔ _
  simp [UInt32.le_iff_toNat_le, or_assoc]

theorem not_isLetter_of_isDigit {c : Char} (h : c.isDigit = true) : ¬ isLetter c = true := by
  have hcode : 48 ≤ c.toNat ∧ c.toNat ≤ 57 := Char.isDigit_iff_toNat.mp h
  rw [isLetter_iff]
  omega

theorem IsWord.exists_letter {text : String} (h : IsWord text) :
    ∃ first rest, text.toList = first :: rest ∧ isLetter first = true := by
  obtain ⟨first, rest, htext⟩ := List.exists_cons_of_ne_nil
    fun hnil : text.toList = [] => h.1 (String.toList_eq_nil_iff.mp hnil)
  exact ⟨first, rest, htext, h.2 first (htext ▸ List.mem_cons_self)⟩

theorem IsWord.dot_not_mem {text : String} (h : IsWord text) : '.' ∉ text.toList := by
  intro hdot
  exact absurd (h.2 _ hdot) (by decide)

section

variable {p : Char → Bool} {run run' rest rest' : List Char}

/-- The text does not go on with a character of the kind. -/
def Stops (p : Char → Bool) (rest : List Char) : Prop := ∀ c ∈ rest.head?, p c = false

theorem takeWhile_run (hrun : ∀ c ∈ run, p c = true) (hrest : Stops p rest) :
    (run ++ rest).takeWhile p = run := by
  rw [List.takeWhile_append_of_pos hrun]
  cases rest with
  | nil => rw [List.takeWhile_nil, List.append_nil]
  | cons c rest =>
    rw [List.takeWhile_cons_of_neg (by rw [hrest c rfl]; exact Bool.false_ne_true), List.append_nil]

/-- A run of characters of one kind ends where the text stops to go on with them. -/
theorem eq_of_runs (hrun : ∀ c ∈ run, p c = true) (hrun' : ∀ c ∈ run', p c = true)
    (hrest : Stops p rest) (hrest' : Stops p rest') (h : run ++ rest = run' ++ rest') :
    run = run' ∧ rest = rest' := by
  have hruns := congrArg (List.takeWhile p) h
  rw [takeWhile_run hrun hrest, takeWhile_run hrun' hrest'] at hruns
  subst hruns
  exact ⟨rfl, List.append_cancel_left h⟩

end

/-! ## Operators -/

/-- The characters of an operator with one operand. -/
def UnaryOp.sign : UnaryOp → List Char
  | .not => ['N', 'O', 'T', ' ']
  | .neg => ['-']
  | .isNull => [' ', 'I', 'S', ' ', 'N', 'U', 'L', 'L']
  | .isNotNull => [' ', 'I', 'S', ' ', 'N', 'O', 'T', ' ', 'N', 'U', 'L', 'L']

theorem UnaryOp.toList_apply (op : UnaryOp) (text : String) : (op.apply text).toList =
    if op.leads then op.sign ++ text.toList else text.toList ++ op.sign := by
  cases op <;> exact String.toList_append

theorem UnaryOp.sign_of_leads {op : UnaryOp} (h : op.leads = true) :
    op.sign = ['N', 'O', 'T', ' '] ∨ op.sign = ['-'] := by
  cases op with
  | not => exact Or.inl rfl
  | neg => exact Or.inr rfl
  | isNull => cases h
  | isNotNull => cases h

theorem UnaryOp.sign_of_not_leads {op : UnaryOp} (h : op.leads = false) :
    ∃ rest, op.sign = ' ' :: 'I' :: 'S' :: ' ' :: 'N' :: rest := by
  cases op with
  | not => cases h
  | neg => cases h
  | isNull => exact ⟨_, rfl⟩
  | isNotNull => exact ⟨_, rfl⟩

/-- Of operators on one side of an operand, none is written like the start of another. -/
theorem UnaryOp.eq_of_signs {op op' : UnaryOp} {text text' : List Char}
    (hleads : op.leads = op'.leads) (h : op.sign ++ text = op'.sign ++ text') :
    op = op' ∧ text = text' := by
  have hop : op = op' := by
    cases op <;> cases op' <;>
      first
      | rfl
      | exact absurd hleads (by decide)
      | exact absurd h (by simp [sign])
  subst hop
  exact ⟨rfl, List.append_cancel_left h⟩

/-- Operators on one side of an operand are determined by the text they are written in, where none
of them can be read from what is left after them. -/
theorem UnaryOp.eq_of_flatMap_sign {side : Bool} {Rest : List Char → Prop}
    (hne : ∀ {op : UnaryOp} {ops : List UnaryOp} {rest rest' : List Char}, op.leads = side →
      (∀ op ∈ ops, op.leads = side) → Rest rest → Rest rest' →
      rest ≠ op.sign ++ (ops.flatMap sign ++ rest'))
    {ops ops' : List UnaryOp} {rest rest' : List Char} (hops : ∀ op ∈ ops, op.leads = side)
    (hops' : ∀ op ∈ ops', op.leads = side) (hrest : Rest rest) (hrest' : Rest rest')
    (h : ops.flatMap sign ++ rest = ops'.flatMap sign ++ rest') : ops = ops' ∧ rest = rest' := by
  induction ops generalizing ops' with
  | nil =>
    cases ops' with
    | nil => exact ⟨rfl, h⟩
    | cons op' ops' =>
      rw [List.forall_mem_cons] at hops'
      rw [List.flatMap_cons, List.append_assoc] at h
      exact absurd h (hne hops'.1 hops'.2 hrest hrest')
  | cons op ops ih =>
    rw [List.forall_mem_cons] at hops
    rw [List.flatMap_cons, List.append_assoc] at h
    cases ops' with
    | nil => exact absurd h.symm (hne hops.1 hops.2 hrest' hrest)
    | cons op' ops' =>
      rw [List.forall_mem_cons] at hops'
      rw [List.flatMap_cons, List.append_assoc] at h
      obtain ⟨rfl, hleft⟩ := UnaryOp.eq_of_signs (hops.1.trans hops'.1.symm) h
      obtain ⟨rfl, hends⟩ := ih hops.2 hops'.2 hleft
      exact ⟨rfl, hends⟩

/-- The operator and its right operand, as they follow the left one. -/
def BinaryOp.before (op : BinaryOp) (right : List Char) : List Char :=
  ' ' :: (op.symbol.toList ++ ' ' :: right)

/-- An operator starts with none of the characters of the operators with one operand but the minus,
and it is a word, or a sign that is no part of an atom. -/
theorem BinaryOp.exists_first (op : BinaryOp) : ∃ first rest, op.symbol.toList = first :: rest ∧
    first ≠ 'N' ∧ first ≠ 'I' ∧ first ≠ '(' ∧ ((first :: rest).all isLetter ∨
      isAtomic first = false ∧ (first = '-' → rest = [])) := by
  cases op <;> exact ⟨_, _, rfl, by decide⟩

theorem BinaryOp.symbol_injective {op op' : BinaryOp} (h : op.symbol = op'.symbol) : op = op' := by
  have hfind : ∀ op : BinaryOp, values.find? (fun v => v.symbol = op.symbol) = some op := by
    intro op
    cases op <;> decide
  have hop := hfind op
  rw [h, hfind op'] at hop
  exact (Option.some.inj hop).symm

theorem BinaryOp.eq_of_before {op op' : BinaryOp} {right right' : List Char}
    (h : op.before right = op'.before right') : op = op' ∧ right = right' := by
  have hspace : ∀ op : BinaryOp, ∀ c ∈ op.symbol.toList, (c != ' ') = true := by
    intro op
    rw [← List.all_eq_true]
    cases op <;> decide
  have hstops : ∀ right, Stops (· != ' ') (' ' :: right) := by
    rintro right c ⟨⟩
    rfl
  obtain ⟨hsymbol, hright⟩ := eq_of_runs (hspace op) (hspace op') (hstops right) (hstops right')
    (List.cons.inj h).2
  exact ⟨symbol_injective (String.toList_inj.mp hsymbol), (List.cons.inj hright).2⟩

namespace Expr

/-! ## Expressions -/

/-- An expression of columns whose names are words, of natural numbers and of operators with one or
two operands. -/
def Spelled : Expr → Prop
  | .constant (.int value) => 0 ≤ value.toInt
  | .reference name => IsWord name.column ∧ ∀ table, name.table = some table → IsWord table
  | .unary _ e => e.Spelled
  | .binary l _ r => l.Spelled ∧ r.Spelled
  | _ => False

theorem Interchanges.spelled_iff {a b : Expr} (h : a.Interchanges b) : a.Spelled ↔ b.Spelled := by
  induction h with
  | refl e => exact Iff.rfl
  | symm _ ih => exact ih.symm
  | trans _ _ ih ih' => exact ih.trans ih'
  | swap e _ _ => exact Iff.rfl
  | unary op _ ih => exact ih
  | binary op _ _ ih ih' => exact and_congr ih ih'

/-- The characters of the expression as an operand. -/
def inner (e : Expr) : List Char := (e.operand e.render).toList

theorem inner_unary (op : UnaryOp) (e : Expr) : (Expr.unary op e).inner =
    if op.leads then op.sign ++ e.inner else e.inner ++ op.sign := by
  rw [inner, operand_unary, render, op.toList_apply]
  rfl

theorem toList_render_binary (l : Expr) (op : BinaryOp) (r : Expr) :
    (Expr.binary l op r).render.toList = l.inner ++ op.before r.inner := by
  rw [render]
  simp only [String.toList_append, List.append_assoc]
  rfl

theorem inner_binary (l : Expr) (op : BinaryOp) (r : Expr) :
    (Expr.binary l op r).inner = '(' :: (l.inner ++ op.before r.inner ++ [')']) := by
  have hinner : (Expr.binary l op r).inner =
      ("(" ++ (Expr.binary l op r).render ++ ")").toList := rfl
  rw [hinner, String.toList_append, String.toList_append, toList_render_binary]
  rfl

/-! ## Atoms -/

/-- A column or a natural number. -/
inductive Atom : Expr → Prop
  | reference {name : ColumnName} : (Expr.reference name).Spelled → Atom (.reference name)
  | natural {value : Int64} : 0 ≤ value.toInt → Atom (.constant (.int value))

theorem inner_natural {value : Int64} (h : 0 ≤ value.toInt) :
    (Expr.constant (.int value)).inner = Nat.toDigits 10 value.toInt.toNat := by
  show (toString value.toInt).toList = _
  rw [← Nat.toList_repr, ← Int.toNat_of_nonneg h]
  rfl

/-- The name of a column starts with a letter. -/
theorem exists_letter {name : ColumnName} (h : (Expr.reference name).Spelled) :
    ∃ first rest, (Expr.reference name).inner = first :: rest ∧ isLetter first := by
  obtain ⟨table, column⟩ := name
  cases table with
  | none => exact h.1.exists_letter
  | some table =>
    obtain ⟨first, rest, htable, hfirst⟩ := (h.2 table rfl).exists_letter
    refine ⟨first, rest ++ '.' :: column.toList, ?_, hfirst⟩
    show (ColumnName.qualified table column).render.toList = _
    rw [ColumnName.toList_render_qualified, htable, List.cons_append]

/-- The number starts with a digit. -/
theorem exists_digit {value : Int64} (h : 0 ≤ value.toInt) :
    ∃ first rest, (Expr.constant (.int value)).inner = first :: rest ∧ first.isDigit := by
  obtain ⟨first, rest, hdigits⟩ := List.exists_cons_of_ne_nil
    (Nat.toDigits_ne_nil : Nat.toDigits 10 value.toInt.toNat ≠ [])
  refine ⟨first, rest, (inner_natural h).trans hdigits, ?_⟩
  exact Nat.isDigit_of_mem_toDigits (by decide) (Nat.le_refl _) (hdigits ▸ List.mem_cons_self)

theorem Atom.exists_first {e : Expr} (h : e.Atom) :
    ∃ first rest, e.inner = first :: rest ∧ isAtomic first := by
  cases h with
  | reference h =>
    obtain ⟨first, rest, hinner, hfirst⟩ := exists_letter h
    exact ⟨first, rest, hinner, isAtomic_of_isLetter hfirst⟩
  | natural h =>
    obtain ⟨first, rest, hinner, hfirst⟩ := exists_digit h
    exact ⟨first, rest, hinner, isAtomic_of_isDigit hfirst⟩

/-- The text of an atom is one run of characters. -/
theorem Atom.isAtomic_of_mem {e : Expr} (h : e.Atom) : ∀ c ∈ e.inner, isAtomic c := by
  cases h with
  | @reference name h =>
    obtain ⟨table, column⟩ := name
    cases table with
    | none => exact fun c hc => isAtomic_of_isLetter (h.1.2 c hc)
    | some table =>
      show ∀ c ∈ (ColumnName.qualified table column).render.toList, isAtomic c
      rw [ColumnName.toList_render_qualified, List.forall_mem_append, List.forall_mem_cons]
      exact ⟨fun c hc => isAtomic_of_isLetter ((h.2 table rfl).2 c hc), by decide,
        fun c hc => isAtomic_of_isLetter (h.1.2 c hc)⟩
  | natural h =>
    rw [inner_natural h]
    exact fun c hc =>
      isAtomic_of_isDigit (Nat.isDigit_of_mem_toDigits (by decide) (Nat.le_refl _) hc)

/-- A column named by words is read as it was written. -/
theorem parse_render_of_spelled {name : ColumnName} (h : (Expr.reference name).Spelled) :
    ColumnName.parse name.render = name := by
  obtain ⟨table, column⟩ := name
  cases table with
  | none =>
    have htail : '.' ∉ column.toList.tail := fun hdot => h.1.dot_not_mem (List.mem_of_mem_tail hdot)
    exact ColumnName.parse_eq_unqualified_iff.mpr htail
  | some table => exact ColumnName.parse_render_qualified (h.2 table rfl).1 h.1.dot_not_mem

/-- Atoms are determined by their texts. -/
theorem eq_of_atoms {a b : Expr} (ha : a.Atom) (hb : b.Atom) (h : a.inner = b.inner) : a = b := by
  cases ha with
  | @reference name ha =>
    cases hb with
    | @reference name' hb =>
      have hrender : name.render = name'.render := String.toList_inj.mp h
      rw [← parse_render_of_spelled ha, ← parse_render_of_spelled hb, hrender]
    | natural hb =>
      obtain ⟨first, rest, hinner, hfirst⟩ := exists_letter ha
      obtain ⟨digit, rest', hinner', hdigit⟩ := exists_digit hb
      rw [hinner, hinner', List.cons_eq_cons] at h
      exact absurd (h.1 ▸ hfirst) (not_isLetter_of_isDigit hdigit)
  | @natural value ha =>
    cases hb with
    | reference hb =>
      obtain ⟨first, rest, hinner, hfirst⟩ := exists_letter hb
      obtain ⟨digit, rest', hinner', hdigit⟩ := exists_digit ha
      rw [hinner, hinner', List.cons_eq_cons] at h
      exact absurd (h.1 ▸ hfirst) (not_isLetter_of_isDigit hdigit)
    | @natural value' hb =>
      rw [inner_natural ha, inner_natural hb] at h
      have hvalues : value.toInt.toNat = value'.toInt.toNat := by
        rw [← @Nat.ofDigitChars_ten_toDigits value.toInt.toNat, h, Nat.ofDigitChars_ten_toDigits]
      have hints : value = value' := Int64.toInt_inj.mp (by omega)
      rw [hints]

/-! ## Texts around innermost operands -/

/-- An atom, or an expression with two operands. -/
def Innermost (e : Expr) : Prop :=
  e.Atom ∨ ∃ l op r, e = .binary l op r ∧ l.Spelled ∧ r.Spelled

theorem Spelled.innermost_core {e : Expr} (h : e.Spelled) : e.core.Innermost := by
  induction e using induction_operands with
  | step e ih =>
    cases e with
    | constant value =>
      cases value with
      | int value => exact Or.inl (.natural h)
      | _ => exact h.elim
    | reference name => exact Or.inl (.reference h)
    | unary op e => exact ih e (List.mem_singleton.mpr rfl) h
    | binary l op r => exact Or.inr ⟨l, op, r, rfl, h.1, h.2⟩
    | _ => exact h.elim

/-- The text of an innermost operand starts like an atom, or with a parenthesis. -/
theorem Innermost.exists_first {e : Expr} (h : e.Innermost) :
    ∃ first rest, e.inner = first :: rest ∧ (isAtomic first ∨ first = '(') := by
  rcases h with hatom | ⟨l, op, r, rfl, -, -⟩
  · obtain ⟨first, rest, hinner, hfirst⟩ := hatom.exists_first
    exact ⟨first, rest, hinner, Or.inl hfirst⟩
  · exact ⟨'(', _, inner_binary l op r, Or.inr rfl⟩

/-- The text of an operand is what is written before its innermost operand, this one, and what is
written after it. -/
theorem inner_eq (e : Expr) : e.inner =
    e.leading.flatMap UnaryOp.sign ++ (e.core.inner ++ e.trailing.flatMap UnaryOp.sign) := by
  induction e using induction_operands with
  | step e ih =>
    cases e with
    | unary op e =>
      have ih := ih e (List.mem_singleton.mpr rfl)
      rw [inner_unary, core, leading, trailing]
      by_cases hop : op.leads
      · rw [if_pos hop, if_pos hop, if_pos hop, List.flatMap_cons, List.append_assoc, ← ih]
      · rw [if_neg hop, if_neg hop, if_neg hop, List.flatMap_append, List.flatMap_singleton,
          ← List.append_assoc e.core.inner, ← List.append_assoc, ← ih]
    | _ => exact (List.append_nil _).symm

end Expr

end QueryPlan
