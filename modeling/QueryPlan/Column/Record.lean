import QueryPlan.CharClass.Shapeless
import QueryPlan.Column

/-!
# Column names as records

The form in which error texts list columns: every field with its name, texts in
quotes.

* `ColumnName.record`: the form of one column.
* `recordList`: the form of a list of columns.
-/

namespace QueryPlan

/-- A character between the quotes of a record; one without a shape is given by its code. -/
def recordChar (c : Char) : List Char :=
  match c with
  | '"' => ['\\', '"']
  | '\\' => ['\\', '\\']
  | '\n' => ['\\', 'n']
  | '\t' => ['\\', 't']
  | '\r' => ['\\', 'r']
  | '\x00' => ['\\', '0']
  | c =>
    if CharClass.shapeless.holds c then ['\\', 'u', '\x7b'] ++ Nat.toDigits 16 c.toNat ++ ['\x7d']
    else [c]

/-- A text in quotes. -/
def recordText (text : String) : String :=
  "\"" ++ String.ofList (text.toList.flatMap recordChar) ++ "\""

/-- The column with the names of its fields. -/
def ColumnName.record (name : ColumnName) : String :=
  let table :=
    match name.table with
    | some table => "Some(" ++ recordText table ++ ")"
    | none => "None"
  "ColumnName \x7b table: " ++ table ++ ", column: " ++ recordText name.column ++ " \x7d"

/-- The columns in brackets. -/
def recordList (columns : List ColumnName) : String :=
  "[" ++ ", ".intercalate (columns.map ColumnName.record) ++ "]"

end QueryPlan
