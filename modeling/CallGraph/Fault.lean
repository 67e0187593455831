import CallGraph.Decimal.Style
import CallGraph.Json.Token
import CallGraph.Text.Quoted

/-!
# Faults of structured input

A value that does not have the shape that is asked for has a fault: a member is missing, written
twice or unknown, or a value is of the wrong kind, out of range or of the wrong length.  A fault
is a cause; its wording is the function `Fault.message`.

Main results:

- Theorem `message_missing` gives the wording for an absent member.
- Theorem `oneOf_two` gives the wording of a choice between two names.
-/

namespace CallGraph

/-- What was met where something else was asked for. -/
inductive Found where
  | null
  | bool (b : Bool)
  | int (n : Int)
  | float (x : Binary64)
  | str (s : String)
  | sequence
  | mapping
  deriving DecidableEq, Repr, Inhabited

/-- Why a value does not have the shape that is asked for. -/
inductive Fault where
  /-- A member that must be there is absent. -/
  | missing (name : String)
  /-- A member is written twice. -/
  | duplicate (name : String)
  /-- A member is none of the known ones. -/
  | unknownField (name : String) (known : List String)
  /-- A tag is none of the known ones. -/
  | unknownVariant (name : String) (known : List String)
  /-- A value is of the wrong kind. -/
  | wrongKind (found : Found) (expected : String)
  /-- A value is of the right kind but not allowed. -/
  | notAllowed (found : Found) (expected : String)
  /-- A sequence has the wrong number of elements. -/
  | wrongLength (length : Nat) (expected : String)
  /-- The text itself is flawed. -/
  | flawed (stop : Json.Stop)
  deriving DecidableEq, Repr, Inhabited

namespace Found

/-- The words for what was met. -/
def describe (style : Decimal.Style) : Found → String
  | null => "null"
  | bool b => "boolean `" ++ (if b then "true" else "false") ++ "`"
  | int n => "integer `" ++ toString n ++ "`"
  | float x => "floating point `" ++ style.render x ++ "`"
  | str s => "string " ++ Text.quoted s
  | sequence => "sequence"
  | mapping => "map"

end Found

namespace Fault

/-- The names of a choice, each between back quotes. -/
def oneOf : List String → String
  | [] => "nothing"
  | [a] => "`" ++ a ++ "`"
  | [a, b] => "`" ++ a ++ "` or `" ++ b ++ "`"
  | names => "one of " ++ ", ".intercalate (names.map fun a => "`" ++ a ++ "`")

/-- The wording of a fault, with floating-point numbers in a given style. -/
def message (style : Decimal.Style) : Fault → String
  | missing name => "missing field `" ++ name ++ "`"
  | duplicate name => "duplicate field `" ++ name ++ "`"
  | unknownField name known => "unknown field `" ++ name ++ "`, expected " ++ oneOf known
  | unknownVariant name known => "unknown variant `" ++ name ++ "`, expected " ++ oneOf known
  | wrongKind found expected =>
    "invalid type: " ++ found.describe style ++ ", expected " ++ expected
  | notAllowed found expected =>
    "invalid value: " ++ found.describe style ++ ", expected " ++ expected
  | wrongLength length expected =>
    "invalid length " ++ toString length ++ ", expected " ++ expected
  | flawed .malformed => "malformed text"
  | flawed .truncated => "truncated text"

/-- A field that is missing is named in the text of the fault. -/
theorem message_missing (style : Decimal.Style) (name : String) :
    (missing name).message style = "missing field `" ++ name ++ "`" := rfl

/-- Two names to choose from stand with `or` between them. -/
theorem oneOf_two (a b : String) : oneOf [a, b] = "`" ++ a ++ "` or `" ++ b ++ "`" := rfl

end Fault

end CallGraph
