import CallGraph.Decimal.Style

/-!
# TOML values

A TOML document is a table.  Values keep the order in which the entries of a table came to be;
dates and times are known as such, but what they say is not kept.
-/

namespace CallGraph.Toml

/-- A TOML value. -/
inductive Value where
  | text (s : String)
  | integer (n : Int)
  | float (x : Binary64)
  | bool (b : Bool)
  /-- A date, a time, or both. -/
  | dateTime
  | array (items : List Value)
  | table (entries : List (String × Value))
  deriving Inhabited

/-- The entries of a table, in the order in which they came to be. -/
abbrev Entries := List (String × Value)

/-- How floating-point numbers are told of: with all digits around the point, and a tie goes
up. -/
def floatStyle : Decimal.Style := ⟨.positional, .up⟩

end CallGraph.Toml
