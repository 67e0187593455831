import CallGraph.Fault
import CallGraph.Toml.Document

/-!
# Configuration

A configuration is a TOML table in which every entry may be left out and none may be unknown.  Its
entries are checked in the order in which they came to be, and the first fault is reported.

Main results:

- Theorem `ofEntries_nil` says that the empty table is the default configuration.
-/

namespace CallGraph

/-- The configuration of a run. -/
structure Config where
  /-- What is shown in place of a file for methods without one. -/
  nativeLabel : String := "<native>"
  /-- The number of workers; zero leaves the choice to the program. -/
  threads : Nat := 0
  /-- The full names of methods that are excluded before a run. -/
  exclude : List String := []
  /-- The directory in which records are kept. -/
  storePath : Option String := none
  deriving DecidableEq, Repr, Inhabited

/-- Why a text is no configuration. -/
inductive ConfigError where
  /-- It is no TOML document. -/
  | malformed
  /-- It has the wrong content. -/
  | faulty (fault : Fault)
  deriving DecidableEq, Repr, Inhabited

namespace Config

/-! ## Values -/

/-- What a value is, in the words of a fault. -/
def found : Toml.Value → Found
  | .text s => .str s
  | .integer n => .int n
  | .float x => .float x
  | .bool b => .bool b
  | .array _ => .sequence
  | .dateTime | .table _ => .mapping

/-- A value of the wrong kind. -/
def wrongKind {α : Type} (expected : String) (v : Toml.Value) : Except Fault α :=
  .error (.wrongKind (found v) expected)

/-- A text. -/
def text (expected : String) : Toml.Value → Except Fault String
  | .text s => .ok s
  | v => wrongKind expected v

/-- A list of texts. -/
def texts : Toml.Value → Except Fault (List String)
  | .array items => items.mapM (text "a string")
  | v => wrongKind "a sequence" v

/-- A number of workers. -/
def count : Toml.Value → Except Fault Nat
  | .integer n => if 0 ≤ n then .ok n.toNat else .error (.notAllowed (.int n) "usize")
  | v => wrongKind "usize" v

/-- The path of a store, given as a table or as an array of its fields.  A date stands for a table
with one field of an internal name. -/
def storePathOf : Toml.Value → Except Fault (Option String)
  | .table entries =>
    entries.foldlM (fun _ e =>
      if e.1 = "path" then some <$> text "path string" e.2
      else .error (.unknownField e.1 ["path"])) none
  | .array [] => .ok none
  | .array (v :: _) => some <$> text "path string" v
  | .dateTime => .error (.unknownField "$__toml_private_datetime" ["path"])
  | v => wrongKind "struct StoreConfig" v

/-! ## The whole configuration -/

/-- The names of the entries. -/
def fields : List String := ["native_label", "threads", "exclude", "store"]

/-- Take one entry into a configuration. -/
def take (c : Config) (e : String × Toml.Value) : Except Fault Config :=
  match e.1 with
  | "native_label" => do return { c with nativeLabel := ← text "a string" e.2 }
  | "threads" => do return { c with threads := ← count e.2 }
  | "exclude" => do return { c with exclude := ← texts e.2 }
  | "store" => do return { c with storePath := ← storePathOf e.2 }
  | name => .error (.unknownField name fields)

/-- The configuration of a table. -/
def ofEntries (entries : Toml.Entries) : Except Fault Config := entries.foldlM take {}

/-- The configuration that a text describes. -/
def parse (s : String) : Except ConfigError Config :=
  match Toml.parse s with
  | none => .error .malformed
  | some entries =>
    match ofEntries entries with
    | .ok c => .ok c
    | .error fault => .error (.faulty fault)

/-- The empty table is the default configuration. -/
theorem ofEntries_nil : ofEntries [] = .ok {} := rfl

end Config

end CallGraph
