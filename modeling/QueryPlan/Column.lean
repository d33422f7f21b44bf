import QueryPlan.StableSort

/-!
# Column names

A column is named `column` or `table.column`.

* `ColumnName.parse`: the last dot separates the column from its table.
* `ColumnName.resolvesTo`: whether a name written in a filter resolves to a column
  that a table exposes; a name without a table resolves to any table's column.
* `ColumnName.le`: names without a table come first, then by table, then by
  column, each by code point.
-/

namespace QueryPlan

/-- A column name, qualified by the table that exposes it when `table` is given. -/
structure ColumnName where
  table : Option String
  column : String
deriving DecidableEq, Inhabited

namespace ColumnName

/-- A column of any table. -/
def unqualified (column : String) : ColumnName := ⟨none, column⟩

/-- A column of one table. -/
def qualified (table column : String) : ColumnName := ⟨some table, column⟩

/-- The characters before and after the last dot, if there is a dot. -/
def splitLastDot : List Char → Option (List Char × List Char)
  | [] => none
  | c :: rest =>
    match splitLastDot rest with
    | some (before, after) => some (c :: before, after)
    | none => if c = '.' then some ([], rest) else none

/-- Reads `table.column` or `column`. The last dot separates the column, and a
text whose only dot comes first has no table. -/
def parse (text : String) : ColumnName :=
  match splitLastDot text.toList with
  | some (t :: table, column) => qualified (String.ofList (t :: table)) (String.ofList column)
  | _ => unqualified text

/-- The written form, `table.column` or `column`. -/
def render (name : ColumnName) : String :=
  match name.table with
  | some table => table ++ "." ++ name.column
  | none => name.column

/-- Whether a reference written as `reference` resolves to the column `exposed`:
the columns agree, and so do the tables if the reference gives one. -/
def resolvesTo (reference exposed : ColumnName) : Bool :=
  reference.column == exposed.column &&
    match reference.table with
    | some table => exposed.table == some table
    | none => true

/-- Whether `a` comes no later than `b`: names without a table first, then by
table, then by column. -/
def le (a b : ColumnName) : Bool :=
  match a.table, b.table with
  | none, none => decide (a.column ≤ b.column)
  | none, some _ => true
  | some _, none => false
  | some s, some t => if s = t then decide (a.column ≤ b.column) else decide (s ≤ t)

/-- The names in ascending order. -/
def sort (names : List ColumnName) : List ColumnName := sortBy le names

end ColumnName

/-- Written forms, separated by commas. -/
def renderColumns (columns : List ColumnName) : String :=
  ", ".intercalate (columns.map ColumnName.render)

end QueryPlan
