import QueryPlan.CharClass.Blank
import QueryPlan.Settings
import QueryPlan.Toml.Parser

/-!
# Reading settings

* `Settings.ofToml`: settings from the text of a document; what is not set keeps
  its default.
* `Settings.ofFile`: settings from a file.
* `Settings.load`: settings from the first place that has any.
-/

namespace QueryPlan

/-- Why settings can not be had. -/
inductive SettingsError where
  /-- There is no file of that name. -/
  | fileNotFound (path : String)
  /-- There is something of that name that is not readable as a text. -/
  | unreadable
  /-- The document is malformed, or has a value of the wrong kind. -/
  | malformed
  /-- What marks start with is blank. -/
  | blankStem
deriving DecidableEq

/-- The text of an error that needs nothing but its cause. -/
def SettingsError.message? : SettingsError → Option String
  | .fileNotFound path => some ("Config file not found: " ++ path)
  | .blankStem => some "Invalid configuration: markers.prefix must not be empty"
  | _ => none

namespace Settings

/-- What a value sets of the given keys. A table sets them by name and an array by position;
a point in time counts as a table that sets none of them. -/
def section? (keys : List String) : Option Toml → Option Toml.Entries
  | none => some []
  | some (.table _ entries) => some entries
  | some (.array items) => some (keys.zip items)
  | some (.tables latestFirst) => some (keys.zip (latestFirst.reverse.map (.table .header)))
  | some .dateTime => some []
  | some _ => none

/-- A truth value, or else its default. -/
def bool? (default : Bool) : Option Toml → Option Bool
  | none => some default
  | some (.bool value) => some value
  | some _ => none

/-- A text, or else its default. -/
def text? (default : String) : Option Toml → Option String
  | none => some default
  | some (.string value) => some value
  | some _ => none

/-- A strategy by its word, or else the default. The word may also be the only key of a
table, with nothing under it. -/
def strategy? (default : MarkerStrategy) : Option Toml → Option MarkerStrategy
  | none => some default
  | some (.string word) => MarkerStrategy.ofName? word
  | some (.table _ [(word, .table _ [])]) => MarkerStrategy.ofName? word
  | some (.table _ [(word, .array [])]) => MarkerStrategy.ofName? word
  | some _ => none

/-- The settings of a document; keys that are none of the settings are ignored. -/
def ofEntries? (entries : Toml.Entries) : Option Settings := do
  let markers ← section? ["strategy", "prefix"] (entries.lookup "markers")
  let strategy ← strategy? defaults.markers.strategy (markers.lookup "strategy")
  let stem ← text? defaults.markers.stem (markers.lookup "prefix")
  let planning ← section? ["cache_or_branches", "validate_links"] (entries.lookup "planner")
  let cacheOrBranches ←
    bool? defaults.planning.cacheOrBranches (planning.lookup "cache_or_branches")
  let validateLinks ← bool? defaults.planning.validateLinks (planning.lookup "validate_links")
  return ⟨⟨strategy, stem⟩, ⟨cacheOrBranches, validateLinks⟩⟩

/-- Settings from the text of a document. -/
def ofToml (text : String) : Except SettingsError Settings :=
  match (Toml.parse? text).bind ofEntries? with
  | none => .error .malformed
  | some settings => if isBlankText settings.markers.stem then .error .blankStem else .ok settings

/-- What a path leads to. -/
inductive File where
  | missing
  /-- Something that is not readable as a text, such as a directory. -/
  | unreadable
  | text (content : String)

/-- Settings from a file. -/
def ofFile (path : String) : File → Except SettingsError Settings
  | .missing => .error (.fileNotFound path)
  | .unreadable => .error .unreadable
  | .text content => ofToml content

/-- The places where settings may be: a file named by a variable, a file in the working
directory, and a file of the user. -/
structure Places where
  named : Option (String × File)
  localFile : String × File
  userFile : String × File

/-- Settings from the first place that has any. A variable decides even when its file is
missing; the other files are passed over when they are missing. -/
def load (places : Places) : Except SettingsError Settings :=
  match places.named with
  | some (path, file) => ofFile path file
  | none =>
    match places.localFile with
    | (_, .missing) =>
      match places.userFile with
      | (_, .missing) => .ok defaults
      | (path, file) => ofFile path file
    | (path, file) => ofFile path file

end Settings

end QueryPlan
