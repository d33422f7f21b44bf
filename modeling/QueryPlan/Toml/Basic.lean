/-!
# TOML values and tables

A document is a table. How a table came about decides what may still be added
to it, so each table keeps its origin.

* `Toml.insert`: adds a value under a dotted key.
* `Toml.define`, `Toml.append`: open the table of a header, or the next table of
  an array of tables.
* `Toml.modifyAt`: changes the table that a header names.

Each of them fails where a key would be given twice, or where a table would be
extended in a way that its origin does not allow.
-/

namespace QueryPlan

/-- How a table came about. -/
inductive Toml.Origin where
  /-- By a header of its own. -/
  | header
  /-- As the parent of a table with a header. -/
  | parent
  /-- By a dotted key. -/
  | dotted
  /-- Between braces; nothing may be added to it. -/
  | inline
deriving DecidableEq

/-- A TOML value. Numbers with a fraction and points in time are checked when they are read,
and not kept. -/
inductive Toml where
  | string (value : String)
  | bool (value : Bool)
  | integer (value : Int)
  | float
  | dateTime
  | array (items : List Toml)
  | table (origin : Toml.Origin) (entries : List (String × Toml))
  /-- Tables with headers in double brackets, the last one first. -/
  | tables (entries : List (List (String × Toml)))

namespace Toml

instance : Inhabited Toml := ⟨.float⟩

/-- The entries of a table in their order. -/
abbrev Entries := List (String × Toml)

/-- The entries with the value of `key` replaced. -/
def replace (entries : Entries) (key : String) (value : Toml) : Entries :=
  entries.map fun entry => if entry.1 = key then (key, value) else entry

/-- Adds a value under the last key of a dotted key. The table that gets it must not have a
header, and tables with headers are not passed through. -/
def insert (parents : List String) (key : String) (value : Toml) (entries : Entries) :
    Option Entries :=
  match parents with
  | [] =>
    match entries.lookup key with
    | none => some (entries ++ [(key, value)])
    | some _ => none
  | parent :: rest =>
    match entries.lookup parent with
    | none => do
      let inner ← insert rest key value []
      return entries ++ [(parent, .table .dotted inner)]
    | some (.table .dotted inner) => do
      return replace entries parent (.table .dotted (← insert rest key value inner))
    | some (.table .parent inner) =>
      if rest.isEmpty then none
      else do return replace entries parent (.table .parent (← insert rest key value inner))
    | some (.tables (last :: earlier)) =>
      if rest.isEmpty then none
      else do return replace entries parent (.tables ((← insert rest key value last) :: earlier))
    | some _ => none

/-- Changes the table that a header names, whose parents come about with it; of an array
of tables, the last one. -/
def modifyAt (path : List String) (f : Entries → Option Entries) (entries : Entries) :
    Option Entries :=
  match path with
  | [] => f entries
  | key :: rest =>
    match entries.lookup key with
    | none => do
      let inner ← modifyAt rest f []
      return entries ++ [(key, .table .parent inner)]
    | some (.table .inline _) => none
    | some (.table origin inner) => do
      return replace entries key (.table origin (← modifyAt rest f inner))
    | some (.tables (last :: earlier)) => do
      return replace entries key (.tables ((← modifyAt rest f last) :: earlier))
    | some _ => none

/-- Opens the table of a header. -/
def define (key : String) (entries : Entries) : Option Entries :=
  match entries.lookup key with
  | none => some (entries ++ [(key, .table .header [])])
  | some (.table .parent inner) => some (replace entries key (.table .header inner))
  | some _ => none

/-- Opens the next table of an array of tables. -/
def append (key : String) (entries : Entries) : Option Entries :=
  match entries.lookup key with
  | none => some (entries ++ [(key, .tables [[]])])
  | some (.tables earlier) => some (replace entries key (.tables ([] :: earlier)))
  | some _ => none

end Toml

end QueryPlan
