import QueryPlan.Column

/-!
# Written names of columns

A name is read by splitting its text at the last dot. What was read is written as it
stood, but not every name is read back: a text can be the written form of several names.

- `splitLastDot_eq_some_iff`, `splitLastDot_eq_none_iff`: a text splits just at its last
  dot, if it has one.
- `parse_table`: a name that was read has no empty table, and no dot in its column if it
  has a table.
- `parse_eq_unqualified_iff`: a text is read as a column of any table just if it has no
  dot after its first character.
- `parse_render_iff`: every text is written as it was read, and which names are read as
  they were written.
-/

namespace QueryPlan

namespace ColumnName

/-! ## The last dot -/

theorem splitLastDot_eq_none_iff {text : List Char} : splitLastDot text = none ↔ '.' ∉ text := by
  induction text with
  | nil => simp [splitLastDot]
  | cons c rest ih =>
    rw [splitLastDot, List.mem_cons, not_or, ← ih]
    cases splitLastDot rest with
    | some parts => simp
    | none => by_cases h : c = '.' <;> simp [h, eq_comm]

theorem splitLastDot_append (before : List Char) {after : List Char} (h : '.' ∉ after) :
    splitLastDot (before ++ '.' :: after) = some (before, after) := by
  induction before with
  | nil => rw [List.nil_append, splitLastDot, splitLastDot_eq_none_iff.mpr h, if_pos rfl]
  | cons c before ih => rw [List.cons_append, splitLastDot, ih]

/-- A text splits into what stands before and after its last dot. -/
theorem splitLastDot_eq_some_iff {text before after : List Char} :
    splitLastDot text = some (before, after) ↔ text = before ++ '.' :: after ∧ '.' ∉ after := by
  constructor
  · intro h
    induction text generalizing before with
    | nil => cases h
    | cons c rest ih =>
      rw [splitLastDot] at h
      cases hrest : splitLastDot rest with
      | some parts =>
        rw [hrest] at h
        cases h
        obtain ⟨rfl, hafter⟩ := ih hrest
        exact ⟨rfl, hafter⟩
      | none =>
        rw [hrest] at h
        by_cases hdot : c = '.'
        · rw [hdot, if_pos rfl] at h
          cases h
          exact ⟨by rw [hdot, List.nil_append], splitLastDot_eq_none_iff.mp hrest⟩
        · rw [if_neg hdot] at h
          cases h
  · rintro ⟨rfl, hafter⟩
    exact splitLastDot_append before hafter

/-! ## Reading -/

theorem toList_render_qualified (table column : String) :
    (qualified table column).render.toList = table.toList ++ '.' :: column.toList := by
  show (table ++ "." ++ column).toList = _
  rw [String.toList_append, String.toList_append, List.append_assoc]
  rfl

theorem parse_eq_qualified {text : String} {first : Char} {rest after : List Char}
    (h : splitLastDot text.toList = some (first :: rest, after)) :
    parse text = qualified (String.ofList (first :: rest)) (String.ofList after) := by
  rw [parse, h]

theorem parse_eq_unqualified {text : String}
    (h : ∀ first rest after, splitLastDot text.toList ≠ some (first :: rest, after)) :
    parse text = unqualified text := by
  rw [parse]
  split
  · rename_i hsplit
    exact absurd hsplit (h _ _ _)
  · rfl

/-- Either the text has a part before its last dot, and is read with a table, or it is all
column. -/
theorem parse_cases (text : String) :
    (∃ table column : List Char, table ≠ [] ∧ '.' ∉ column ∧ text.toList = table ++ '.' :: column ∧
      parse text = qualified (String.ofList table) (String.ofList column)) ∨
    ('.' ∉ text.toList.tail ∧ parse text = unqualified text) := by
  cases hsplit : splitLastDot text.toList with
  | none =>
    refine Or.inr ⟨fun h => splitLastDot_eq_none_iff.mp hsplit (List.mem_of_mem_tail h), ?_⟩
    exact parse_eq_unqualified fun _ _ _ h => by rw [hsplit] at h; cases h
  | some parts =>
    obtain ⟨before, after⟩ := parts
    obtain ⟨htext, hafter⟩ := splitLastDot_eq_some_iff.mp hsplit
    cases before with
    | nil =>
      refine Or.inr ⟨by rw [htext]; exact hafter, ?_⟩
      exact parse_eq_unqualified fun _ _ _ h => by rw [hsplit] at h; cases h
    | cons first rest =>
      exact Or.inl ⟨_, after, List.cons_ne_nil first rest, hafter, htext,
        parse_eq_qualified hsplit⟩

/-- What was read is written as it stood. -/
theorem render_parse (text : String) : (parse text).render = text := by
  rcases parse_cases text with ⟨table, column, -, -, htext, hparse⟩ | ⟨-, hparse⟩
  · rw [hparse, ← String.toList_inj, toList_render_qualified, String.toList_ofList,
      String.toList_ofList, htext]
  · rw [hparse]
    rfl

/-- A name that was read has no empty table, and if it has a table, its column has no dot. -/
theorem parse_table {text table : String} (h : (parse text).table = some table) :
    table ≠ "" ∧ '.' ∉ (parse text).column.toList := by
  rcases parse_cases text with ⟨before, after, hbefore, hafter, -, hparse⟩ | ⟨-, hparse⟩
  · rw [hparse] at h ⊢
    have htable : String.ofList before = table := Option.some.inj h
    constructor
    · rintro rfl
      exact hbefore (by rw [← String.toList_ofList (l := before), htable]; rfl)
    · show '.' ∉ (String.ofList after).toList
      rw [String.toList_ofList]
      exact hafter
  · rw [hparse] at h
    cases h

/-- A text is read as a column of any table just if it has no dot after its first character. -/
theorem parse_eq_unqualified_iff {text : String} :
    parse text = unqualified text ↔ '.' ∉ text.toList.tail := by
  rcases parse_cases text with ⟨before, after, hbefore, -, htext, hparse⟩ | ⟨htail, hparse⟩
  · obtain ⟨first, rest, rfl⟩ := List.exists_cons_of_ne_nil hbefore
    rw [hparse, htext]
    simp [qualified, unqualified]
  · exact iff_of_true hparse htail

/-- A name with a table is read back if the table is not empty and the column has no dot. -/
theorem parse_render_qualified {table column : String} (htable : table ≠ "")
    (hcolumn : '.' ∉ column.toList) :
    parse (qualified table column).render = qualified table column := by
  have hsplit : splitLastDot (qualified table column).render.toList =
      some (table.toList, column.toList) := by
    rw [toList_render_qualified]
    exact splitLastDot_append _ hcolumn
  obtain ⟨first, rest, hfirst⟩ := List.exists_cons_of_ne_nil
    (fun h : table.toList = [] => htable (String.toList_eq_nil_iff.mp h))
  rw [hfirst] at hsplit
  rw [parse_eq_qualified hsplit, ← hfirst, String.ofList_toList, String.ofList_toList]

/-- Every text is written as it was read. A name is read as it was written just if it has a
table that is not empty and a column without a dot, or it has no table and a column with no
dot after the first character. -/
theorem parse_render_iff : (∀ text : String, (parse text).render = text) ∧
    ∀ name : ColumnName, parse name.render = name ↔
      (∃ table, name.table = some table ∧ table ≠ "" ∧ '.' ∉ name.column.toList) ∨
      (name.table = none ∧ '.' ∉ name.column.toList.tail) := by
  refine ⟨render_parse, fun name => ?_⟩
  obtain ⟨table, column⟩ := name
  cases table with
  | none =>
    show parse column = unqualified column ↔ _
    rw [parse_eq_unqualified_iff]
    simp
  | some table =>
    constructor
    · intro h
      have hread := parse_table (congrArg ColumnName.table h)
      rw [h] at hread
      exact Or.inl ⟨table, rfl, hread⟩
    · rintro (⟨_, htable, hne, hcolumn⟩ | ⟨h, -⟩)
      · cases htable
        exact parse_render_qualified hne hcolumn
      · cases h

/-- Two names with one written form: a dot in the name of a column is taken for the end of a
table. -/
example : (qualified "t" "x").render = (unqualified "t.x").render ∧
    parse (unqualified "t.x").render = qualified "t" "x" := by decide

end ColumnName

end QueryPlan
