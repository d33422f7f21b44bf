import QueryPlan.Proofs.Spelling

/-!
# Unique reading

The text of an expression tells what it is, up to the order in which operators before
and after one operand apply. This holds although columns may be named like operators:
where NOT is a column, what follows is no operand.

- `Expr.Continues`, `Trails`: what can stand after an operand, and after its innermost
  operand; `Begins`, `Opens`: where an innermost operand starts, and where an operand does.
- `Expr.not_opens_of_trails`: no text goes on after an operand and starts another one.
- `Expr.Read`, `Spelled.read`: with what follows it, the text of an operand tells the
  operand and where it ends.
- `Expr.render_eq_iff_interchanges`: expressions have one text just if they can be
  interchanged, and which texts are those of a single expression.
-/

namespace QueryPlan

namespace Expr

/-! ## After an operand -/

/-- The text ends here, or a parenthesis does. -/
def Ends (text : List Char) : Prop := ∀ c ∈ text.head?, c = ')'

/-- What can stand after an operand: the end, or an operator with its right operand, and then the
end. -/
def Continues (text : List Char) : Prop :=
  Ends text ∨ ∃ (op : BinaryOp) (r : Expr) (rest : List Char),
    r.Spelled ∧ Ends rest ∧ text = op.before (r.inner ++ rest)

/-- Operators written after an innermost operand, and what can stand after all of it. -/
def Trails (After : List Char → Prop) (text : List Char) : Prop :=
  ∃ (ops : List UnaryOp) (rest : List Char), (∀ op ∈ ops, op.leads = Bool.false) ∧ After rest ∧
    text = ops.flatMap UnaryOp.sign ++ rest

/-- An innermost operand, and what can stand after it. -/
def Begins (After : List Char → Prop) (text : List Char) : Prop :=
  ∃ (e : Expr) (rest : List Char), e.Innermost ∧ Trails After rest ∧ text = e.inner ++ rest

/-- An operand, and what can stand after it. -/
def Opens (After : List Char → Prop) (text : List Char) : Prop :=
  ∃ (ops : List UnaryOp) (rest : List Char), (∀ op ∈ ops, op.leads) ∧ Begins After rest ∧
    text = ops.flatMap UnaryOp.sign ++ rest

variable {After : List Char → Prop} {text rest rest' : List Char}

theorem ends_nil : Ends [] := by
  rintro c ⟨⟩

theorem ends_cons (text : List Char) : Ends (')' :: text) := by
  rintro c ⟨⟩
  rfl

theorem not_ends_space : ¬ Ends (' ' :: text) := fun h => absurd (h ' ' rfl) (by decide)

theorem opens_inner {e : Expr} (he : e.Spelled) (hrest : After rest) :
    Opens After (e.inner ++ rest) := by
  refine ⟨e.leading, _, leads_of_mem_leading, ⟨e.core, _, he.innermost_core,
    ⟨e.trailing, rest, leads_of_mem_trailing, hrest, rfl⟩, rfl⟩, ?_⟩
  rw [inner_eq e, List.append_assoc, List.append_assoc]

/-- An operand starts like an atom, with a parenthesis or with a minus. -/
theorem Opens.exists_first (h : Opens After text) :
    ∃ first rest, text = first :: rest ∧ (isAtomic first ∨ first = '(' ∨ first = '-') := by
  obtain ⟨ops, _, hops, ⟨e, rest, he, -, rfl⟩, rfl⟩ := h
  cases ops with
  | nil =>
    obtain ⟨first, more, hinner, hfirst⟩ := he.exists_first
    exact ⟨first, more ++ rest, by rw [hinner]; rfl, hfirst.imp_right Or.inl⟩
  | cons op ops =>
    rw [List.flatMap_cons]
    rcases UnaryOp.sign_of_leads (hops op List.mem_cons_self) with hsign | hsign
    · rw [hsign]
      exact ⟨'N', _, rfl, Or.inl (by decide)⟩
    · rw [hsign]
      exact ⟨'-', _, rfl, Or.inr (Or.inr rfl)⟩

theorem not_opens_space : ¬ Opens After (' ' :: text) := by
  intro h
  obtain ⟨first, rest, heq, hfirst⟩ := h.exists_first
  cases heq
  revert hfirst
  decide

/-- What stands after an operand is no part of an atom. -/
theorem Continues.stops (h : Continues text) : Stops isAtomic text := by
  rintro c hc
  rcases h with hends | ⟨op, r, rest, -, -, rfl⟩
  · rw [hends c hc]
    decide
  · cases hc
    decide

theorem Trails.stops (hafter : ∀ text, After text → Continues text) (h : Trails After text) :
    Stops isAtomic text := by
  obtain ⟨ops, rest, hops, hrest, rfl⟩ := h
  cases ops with
  | nil => exact (hafter rest hrest).stops
  | cons op ops =>
    obtain ⟨more, hsign⟩ := UnaryOp.sign_of_not_leads (hops op List.mem_cons_self)
    rw [List.flatMap_cons, hsign]
    rintro c ⟨⟩
    decide

/-- No operator between two operands is written like the operators after one. -/
theorem Continues.second {c : Char} (h : Continues (' ' :: c :: text)) : c ≠ 'N' ∧ c ≠ 'I' := by
  rcases h with hends | ⟨op, r, rest, -, -, heq⟩
  · exact absurd hends not_ends_space
  · obtain ⟨first, more, hsymbol, hn, hi, -⟩ := op.exists_first
    rw [BinaryOp.before, hsymbol] at heq
    cases heq
    exact ⟨hn, hi⟩

/-- After a space, an operator is written after the operand, or the operand has ended. -/
theorem Trails.cases_space (h : Trails After (' ' :: text)) :
    (∃ rest, text = ['I', 'S'] ++ ' ' :: 'N' :: rest) ∨ After (' ' :: text) := by
  obtain ⟨ops, rest, hops, hrest, heq⟩ := h
  cases ops with
  | nil => exact Or.inr (heq ▸ hrest)
  | cons op ops =>
    obtain ⟨more, hsign⟩ := UnaryOp.sign_of_not_leads (hops op List.mem_cons_self)
    rw [List.flatMap_cons, hsign] at heq
    cases heq
    exact Or.inl ⟨_, rfl⟩

/-! ## Operands and what follows them -/

/-- If an operand starts with a word other than NOT, the word is all of its innermost operand. -/
theorem Opens.trails_of_word (hafter : ∀ text, After text → Continues text) {word : List Char}
    (hword : ∀ c ∈ word, isLetter c) (hne : word ≠ []) (hnot : word ≠ ['N', 'O', 'T'])
    (h : Opens After (word ++ ' ' :: text)) : Trails After (' ' :: text) := by
  obtain ⟨ops, _, hops, ⟨e, rest, he, hrest, rfl⟩, heq⟩ := h
  have hspace : ∀ (p : Char → Bool) (text : List Char), p ' ' = Bool.false →
      Stops p (' ' :: text) := by
    rintro p text hp c ⟨⟩
    exact hp
  obtain ⟨first, more, rfl⟩ := List.exists_cons_of_ne_nil hne
  have hfirst := hword first List.mem_cons_self
  -- Without a leading operator the word is an atom. With one, the word would be its sign.
  cases ops with
  | nil =>
    rcases he with hatom | ⟨l, op, r, rfl, -, -⟩
    · have hruns := eq_of_runs (fun c hc => isAtomic_of_isLetter (hword c hc))
        hatom.isAtomic_of_mem (hspace isAtomic text (by decide)) (hrest.stops hafter) heq
      rw [hruns.2]
      exact hrest
    · rw [inner_binary] at heq
      rw [(List.cons.inj heq).1] at hfirst
      exact absurd hfirst (by decide)
  | cons op ops =>
    rw [List.flatMap_cons] at heq
    rcases UnaryOp.sign_of_leads (hops op List.mem_cons_self) with hsign | hsign
    · have hwords : (first :: more) ++ ' ' :: text =
          ['N', 'O', 'T'] ++ ' ' :: (ops.flatMap UnaryOp.sign ++ (e.inner ++ rest)) := by
        rw [heq, hsign]
        rfl
      have hruns := eq_of_runs hword (List.all_eq_true.mp (by decide))
        (hspace isLetter text (by decide)) (hspace isLetter _ (by decide)) hwords
      exact absurd hruns.1 hnot
    · rw [hsign] at heq
      rw [(List.cons.inj heq).1] at hfirst
      exact absurd hfirst (by decide)

/-- No operand starts like the operators written after one. -/
theorem not_opens_is (hafter : ∀ text, After text → Continues text) :
    ¬ Opens After (['I', 'S'] ++ ' ' :: 'N' :: text) := by
  intro h
  have htrails := h.trails_of_word hafter (List.all_eq_true.mp (by decide)) (by decide) (by decide)
  rcases htrails.cases_space with ⟨rest, heq⟩ | hcontinues
  · cases heq
  · exact (hafter _ hcontinues).second.1 rfl

/-- If an operand starts with an operator that stands between operands, this is a word, and the name
of a column that is all of the innermost operand. -/
theorem Opens.trails_of_symbol (hafter : ∀ text, After text → Continues text) {op : BinaryOp}
    (h : Opens After (op.symbol.toList ++ ' ' :: text)) : Trails After (' ' :: text) := by
  obtain ⟨first, more, hsymbol, hn, -, hparenthesis, hword | ⟨hatomic, hminus⟩⟩ := op.exists_first
  · rw [hsymbol] at h
    refine h.trails_of_word hafter (List.all_eq_true.mp hword) (List.cons_ne_nil _ _) ?_
    exact fun heq => hn (List.cons_eq_cons.mp heq).1
  · rw [hsymbol] at h
    obtain ⟨first', rest, heq, hfirst⟩ := h.exists_first
    cases heq
    rcases hfirst with hatom | hopen | rfl
    · rw [hatomic] at hatom
      cases hatom
    · exact absurd hopen hparenthesis
    · -- The minus is followed by a space, so that it does not stand before an operand.
      rw [hminus rfl] at h
      obtain ⟨ops, _, hops, hbegins, heq⟩ := h
      cases ops with
      | nil =>
        obtain ⟨e, rest, he, -, rfl⟩ := hbegins
        obtain ⟨first, more, hinner, hfirst⟩ := he.exists_first
        rw [hinner] at heq
        rw [← (List.cons.inj heq).1] at hfirst
        exact absurd hfirst (by decide)
      | cons op ops =>
        rw [List.forall_mem_cons] at hops
        rw [List.flatMap_cons] at heq
        rcases UnaryOp.sign_of_leads hops.1 with hsign | hsign
        · rw [hsign] at heq
          cases heq
        · rw [hsign] at heq
          have hopens : Opens After (' ' :: text) :=
            ⟨ops, _, hops.2, hbegins, (List.cons.inj heq).2⟩
          exact absurd hopens not_opens_space

/-- An operand that goes on to the end does not start where another one ends. -/
theorem not_opens_ends_of_trails (h : Trails Continues (' ' :: text)) : ¬ Opens Ends text := by
  intro hopens
  rcases h.cases_space with ⟨rest, rfl⟩ | hends | ⟨op, r, rest, hr, hrest, heq⟩
  · exact not_opens_is (fun _ => Or.inl) hopens
  · exact not_ends_space hends
  · obtain rfl := (List.cons.inj heq).2
    rcases (hopens.trails_of_symbol fun _ => Or.inl).cases_space with ⟨more, heq⟩ | hends
    · have hright : Opens Ends (r.inner ++ rest) := opens_inner hr hrest
      rw [heq] at hright
      exact not_opens_is (fun _ => Or.inl) hright
    · exact not_ends_space hends

/-- No operand starts where another one ends. -/
theorem not_opens_of_trails (h : Trails Continues (' ' :: text)) : ¬ Opens Continues text := by
  intro hopens
  rcases h.cases_space with ⟨rest, rfl⟩ | hends | ⟨op, r, rest, hr, hrest, heq⟩
  · exact not_opens_is (fun _ => id) hopens
  · exact not_ends_space hends
  · obtain rfl := (List.cons.inj heq).2
    have hright : Opens Ends (r.inner ++ rest) := opens_inner hr hrest
    exact not_opens_ends_of_trails (hopens.trails_of_symbol fun _ => id) hright

/-! ## Reading -/

/-- An operator before an operand is not read as part of an innermost operand. -/
theorem Begins.not_sign {op : UnaryOp} (h : Begins Continues rest) (hop : op.leads)
    (htext : Opens Continues text) : rest ≠ op.sign ++ text := by
  obtain ⟨e, rest, he, hrest, rfl⟩ := h
  intro heq
  rcases UnaryOp.sign_of_leads hop with hsign | hsign
  · rcases he with hatom | ⟨l, op', r, rfl, -, -⟩
    · have hwords : e.inner ++ rest = ['N', 'O', 'T'] ++ ' ' :: text := by
        rw [heq, hsign]
        rfl
      have hspace : Stops isAtomic (' ' :: text) := by
        rintro c ⟨⟩
        decide
      have hruns := eq_of_runs hatom.isAtomic_of_mem (List.all_eq_true.mp (by decide))
        (hrest.stops fun _ => id) hspace hwords
      rw [hruns.2] at hrest
      exact not_opens_of_trails hrest htext
    · rw [inner_binary, hsign] at heq
      cases (List.cons.inj heq).1
  · obtain ⟨first, more, hinner, hfirst⟩ := he.exists_first
    rw [hinner, hsign] at heq
    rw [(List.cons.inj heq).1] at hfirst
    exact absurd hfirst (by decide)

/-- What can stand after an operand does not start like an operator after it. -/
theorem Continues.not_sign {op : UnaryOp} (h : Continues rest) (hop : op.leads = Bool.false) :
    rest ≠ op.sign ++ text := by
  obtain ⟨more, hsign⟩ := UnaryOp.sign_of_not_leads hop
  rintro rfl
  rw [hsign] at h
  exact h.second.2 rfl

/-- With what follows it, the text of the operand tells the operand and where it ends. -/
def Read (a : Expr) : Prop :=
  ∀ (b : Expr) (rest rest' : List Char), b.Spelled → Continues rest → Continues rest' →
    a.inner ++ rest = b.inner ++ rest' → a.Interchanges b ∧ rest = rest'

/-- With what follows it, the text of the innermost operand tells this and where it ends. -/
def ReadInside (a : Expr) : Prop :=
  ∀ (b : Expr) (rest rest' : List Char), b.Innermost → Trails Continues rest →
    Trails Continues rest' → a.inner ++ rest = b.inner ++ rest' → a.Interchanges b ∧ rest = rest'

theorem read_of_core {a : Expr} (ha : a.Spelled) (h : a.core.ReadInside) : a.Read := by
  intro b rest rest' hb hrest hrest' heq
  have htrails : Trails Continues (a.trailing.flatMap UnaryOp.sign ++ rest) :=
    ⟨_, rest, leads_of_mem_trailing, hrest, rfl⟩
  have htrails' : Trails Continues (b.trailing.flatMap UnaryOp.sign ++ rest') :=
    ⟨_, rest', leads_of_mem_trailing, hrest', rfl⟩
  rw [inner_eq a, inner_eq b, List.append_assoc, List.append_assoc, List.append_assoc,
    List.append_assoc] at heq
  have hbegins : Begins Continues (a.core.inner ++ _) := ⟨_, _, ha.innermost_core, htrails, rfl⟩
  have hbegins' : Begins Continues (b.core.inner ++ _) := ⟨_, _, hb.innermost_core, htrails', rfl⟩
  obtain ⟨hleading, heq⟩ := UnaryOp.eq_of_flatMap_sign
    (fun hop hops h h' => h.not_sign hop ⟨_, _, hops, h', rfl⟩)
    leads_of_mem_leading leads_of_mem_leading hbegins hbegins' heq
  obtain ⟨hcore, heq⟩ := h _ _ _ hb.innermost_core htrails htrails' heq
  obtain ⟨htrailing, heq⟩ := UnaryOp.eq_of_flatMap_sign
    (fun hop _ hcontinues _ => hcontinues.not_sign hop) leads_of_mem_trailing
    leads_of_mem_trailing hrest hrest' heq
  exact ⟨.of_core hleading htrailing hcore, heq⟩

/-- If two operands can be read, so can the expression of both. -/
theorem interchanges_of_binary {l l' r r' : Expr} {op op' : BinaryOp} (hl : l.Read) (hr : r.Read)
    (hspelled : r.Spelled) (hl' : l'.Spelled) (hr' : r'.Spelled) (hrest : Ends rest)
    (hrest' : Ends rest')
    (h : l.inner ++ op.before (r.inner ++ rest) = l'.inner ++ op'.before (r'.inner ++ rest')) :
    (Expr.binary l op r).Interchanges (.binary l' op' r') ∧ rest = rest' := by
  obtain ⟨hleft, hbefore⟩ := hl _ _ _ hl' (Or.inr ⟨op, r, rest, hspelled, hrest, rfl⟩)
    (Or.inr ⟨op', r', rest', hr', hrest', rfl⟩) h
  obtain ⟨rfl, hafter⟩ := BinaryOp.eq_of_before hbefore
  obtain ⟨hright, hends⟩ := hr _ _ _ hr' (Or.inl hrest) (Or.inl hrest') hafter
  exact ⟨.binary op hleft hright, hends⟩

theorem Atom.inner_ne_binary {e l r : Expr} {op : BinaryOp} (h : e.Atom) :
    e.inner ++ rest ≠ (Expr.binary l op r).inner ++ rest' := by
  obtain ⟨first, more, hinner, hfirst⟩ := h.exists_first
  rw [hinner, inner_binary]
  intro heq
  rw [(List.cons.inj heq).1] at hfirst
  exact absurd hfirst (by decide)

theorem Atom.readInside {a : Expr} (ha : a.Atom) : a.ReadInside := by
  intro b rest rest' hb hrest hrest' heq
  rcases hb with hb | ⟨l, op, r, rfl, -, -⟩
  · obtain ⟨hinner, hrests⟩ := eq_of_runs ha.isAtomic_of_mem hb.isAtomic_of_mem
      (hrest.stops fun _ => id) (hrest'.stops fun _ => id) heq
    rw [eq_of_atoms ha hb hinner]
    exact ⟨.refl b, hrests⟩
  · exact absurd heq ha.inner_ne_binary

theorem readInside_binary {l r : Expr} (op : BinaryOp) (hl : l.Read) (hr : r.Read)
    (hspelled : r.Spelled) : (Expr.binary l op r).ReadInside := by
  intro b rest rest' hb hrest hrest' heq
  rcases hb with hb | ⟨l', op', r', rfl, hl', hr'⟩
  · exact absurd heq.symm hb.inner_ne_binary
  · rw [inner_binary, inner_binary] at heq
    have hinside : l.inner ++ op.before (r.inner ++ ')' :: rest) =
        l'.inner ++ op'.before (r'.inner ++ ')' :: rest') := by
      simpa [BinaryOp.before] using heq
    obtain ⟨hboth, hends⟩ := interchanges_of_binary hl hr hspelled hl' hr' (ends_cons rest)
      (ends_cons rest') hinside
    exact ⟨hboth, (List.cons.inj hends).2⟩

theorem readInside_core {a : Expr} (ha : a.Spelled) : a.core.ReadInside := by
  induction a using induction_operands with
  | step a ih =>
    cases a with
    | constant value =>
      cases value with
      | int value => exact Atom.readInside (.natural ha)
      | _ => exact ha.elim
    | reference name => exact Atom.readInside (.reference ha)
    | unary op e => exact ih e (List.mem_singleton.mpr rfl) ha
    | binary l op r =>
      have hl : l.Read := read_of_core ha.1 (ih l List.mem_cons_self ha.1)
      have hr : r.Read := read_of_core ha.2
        (ih r (List.mem_cons_of_mem _ (List.mem_singleton.mpr rfl)) ha.2)
      exact readInside_binary op hl hr ha.2
    | _ => exact ha.elim

theorem Spelled.read {a : Expr} (ha : a.Spelled) : a.Read := read_of_core ha (readInside_core ha)

/-! ## Whole expressions -/

/-- By itself, an expression is written like an operand unless it has two operands. -/
theorem Spelled.binary_or_inner {e : Expr} (h : e.Spelled) :
    (∃ l op r, e = .binary l op r ∧ l.Spelled ∧ r.Spelled) ∨ e.render.toList = e.inner := by
  cases e with
  | binary l op r => exact Or.inl ⟨l, op, r, rfl, h.1, h.2⟩
  | constant value => exact Or.inr rfl
  | reference name => exact Or.inr rfl
  | unary op e => exact Or.inr rfl
  | _ => exact h.elim

theorem render_binary_ne_inner {l r b : Expr} (op : BinaryOp) (hl : l.Spelled) (hr : r.Spelled)
    (hb : b.Spelled) : (Expr.binary l op r).render.toList ≠ b.inner := by
  intro heq
  rw [toList_render_binary, ← List.append_nil r.inner, ← List.append_nil b.inner] at heq
  have hends := (hl.read _ _ _ hb (Or.inr ⟨op, r, [], hr, ends_nil, rfl⟩) (Or.inl ends_nil) heq).2
  cases hends

theorem interchanges_of_render {a b : Expr} (ha : a.Spelled) (hb : b.Spelled)
    (h : a.render = b.render) : a.Interchanges b := by
  have htexts : a.render.toList = b.render.toList := congrArg String.toList h
  rcases ha.binary_or_inner with ⟨l, op, r, rfl, hl, hr⟩ | hainner
  · rcases hb.binary_or_inner with ⟨l', op', r', rfl, hl', hr'⟩ | hbinner
    · rw [toList_render_binary, toList_render_binary, ← List.append_nil r.inner,
        ← List.append_nil r'.inner] at htexts
      exact (interchanges_of_binary hl.read hr.read hr hl' hr' ends_nil ends_nil htexts).1
    · exact absurd (htexts.trans hbinner) (render_binary_ne_inner op hl hr hb)
  · rcases hb.binary_or_inner with ⟨l', op', r', rfl, hl', hr'⟩ | hbinner
    · exact absurd (htexts.symm.trans hainner) (render_binary_ne_inner op' hl' hr' ha)
    · rw [hainner, hbinner, ← List.append_nil a.inner, ← List.append_nil b.inner] at htexts
      exact (ha.read _ _ _ hb (Or.inl ends_nil) (Or.inl ends_nil) htexts).1

/-- Of expressions of columns named by words, natural numbers and operators, two have one text just
if they differ in interchanged operators only. The text is that of a single expression just if no
operator written before an operand applies next to one written after it. -/
theorem render_eq_iff_interchanges {a : Expr} (ha : a.Spelled) :
    (∀ b : Expr, b.Spelled → (a.render = b.render ↔ a.Interchanges b)) ∧
      ((∀ b : Expr, b.Spelled → a.render = b.render → a = b) ↔ a.Unmixed) := by
  have hiff : ∀ b : Expr, b.Spelled → (a.render = b.render ↔ a.Interchanges b) :=
    fun b hb => ⟨interchanges_of_render ha hb, fun h => h.render_eq.1⟩
  refine ⟨hiff, ?_⟩
  rw [← interchanges_only_self_iff]
  constructor
  · intro honly b h
    have hb : b.Spelled := h.spelled_iff.mp ha
    exact honly b hb ((hiff b hb).mpr h)
  · exact fun honly b hb hrender => honly b ((hiff b hb).mp hrender)

/-- With columns named like operators, the text is that of a single expression: NOT and IS NULL are
on the two sides of an AND. -/
theorem render_eq_iff_interchanges_of_keywords :
    let column (name : String) : Expr := .reference (.unqualified name)
    let a : Expr := .binary (.unary .not (column "IS")) .and (.unary .isNull (column "AND"))
    a.Spelled ∧ a.Unmixed ∧ a.render = "NOT IS AND AND IS NULL" ∧
      ∀ b : Expr, b.Spelled → b.render = "NOT IS AND AND IS NULL" → b = a := by
  intro column a
  have hword : ∀ name, IsWord name → (column name).Spelled := fun name hname => ⟨hname, by
    rintro table ⟨⟩⟩
  have ha : a.Spelled := ⟨hword "IS" ⟨by decide, List.all_eq_true.mp (by decide)⟩,
    hword "AND" ⟨by decide, List.all_eq_true.mp (by decide)⟩⟩
  have hunmixed : a.Unmixed := ⟨⟨by rintro q x ⟨⟩, trivial⟩, by rintro q x ⟨⟩, trivial⟩
  have hrender : a.render = "NOT IS AND AND IS NULL" := by decide
  refine ⟨ha, hunmixed, hrender, fun b hb h => ?_⟩
  exact ((render_eq_iff_interchanges ha).2.mpr hunmixed b hb (hrender.trans h.symm)).symm

/-- Whether NOT or IS NULL applies first can not be told from the text. -/
theorem not_render_injective :
    ¬ ∀ a b : Expr, a.Spelled → b.Spelled → a.render = b.render → a = b := by
  intro h
  have hspelled : (Expr.reference (.unqualified "a")).Spelled :=
    ⟨⟨by decide, List.all_eq_true.mp (by decide)⟩, by rintro table ⟨⟩⟩
  have heq := h (.unary .not (.unary .isNull (.reference (.unqualified "a"))))
    (.unary .isNull (.unary .not (.reference (.unqualified "a")))) hspelled hspelled (by decide)
  cases heq

end Expr

end QueryPlan
