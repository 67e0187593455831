import CallGraph.Decimal.Style
import CallGraph.Json.Value
import CallGraph.Text.Hex

/-!
# Writing JSON

Values are written in two layouts.  The compact one has no blanks; the indented one starts each
item and each member on its own line, two blanks deeper than its container, and leaves empty
containers on one line.  In a text only quotes, backslashes and characters below U+0020 are escaped.

Main results:

- Theorem `escapeChar_of_plain` says that any other character is written as itself.
-/

namespace CallGraph.Json

/-! ## Texts -/

/-- One character of a text. -/
def escapeChar (c : Char) : List Char :=
  if c = '"' then ['\\', '"']
  else if c = '\\' then ['\\', '\\']
  else if c.toNat = 8 then ['\\', 'b']
  else if c.toNat = 9 then ['\\', 't']
  else if c.toNat = 10 then ['\\', 'n']
  else if c.toNat = 12 then ['\\', 'f']
  else if c.toNat = 13 then ['\\', 'r']
  else if c.toNat < 32 then
    ['\\', 'u', '0', '0', Text.Hex.digit (c.toNat / 16), Text.Hex.digit (c.toNat % 16)]
  else [c]

/-- A text between quotes. -/
def writeText (s : String) : List Char := '"' :: (s.toList.flatMap escapeChar ++ ['"'])

/-- A whole number in decimal. -/
def writeInt (n : Int) : List Char :=
  if n < 0 then '-' :: Nat.toDigits 10 n.natAbs else Nat.toDigits 10 n.natAbs

/-- How floating-point numbers are written: positionally from `0.00001` to below `1e+16`, and
a tie goes to the even digit. -/
def floatStyle : Decimal.Style := ⟨.mixed (-5) 15, .even⟩

/-- A value that holds no other. -/
def writeScalar : Json → List Char
  | bool true => "true".toList
  | bool false => "false".toList
  | int n => writeInt n
  | float x => (floatStyle.render x).toList
  | str s => writeText s
  | _ => "null".toList

/-! ## The compact layout -/

mutual

/-- A value without blanks. -/
def compact : Json → List Char
  | arr items => '[' :: (compactItems items ++ [']'])
  | obj members => '\x7b' :: (compactMembers members ++ ['\x7d'])
  | v => writeScalar v

/-- The items of an array, divided by commas. -/
def compactItems : List Json → List Char
  | [] => []
  | [v] => v.compact
  | v :: rest => v.compact ++ ',' :: compactItems rest

/-- The members of an object, divided by commas. -/
def compactMembers : List (String × Json) → List Char
  | [] => []
  | [m] => writeText m.1 ++ ':' :: m.2.compact
  | m :: rest => writeText m.1 ++ ':' :: (m.2.compact ++ ',' :: compactMembers rest)

end

/-! ## The indented layout -/

/-- A new line at a given depth. -/
def newline (depth : Nat) : List Char := '\n' :: List.replicate (2 * depth) ' '

mutual

/-- A value whose container is at a given depth. -/
def pretty (depth : Nat) : Json → List Char
  | arr [] => ['[', ']']
  | arr (v :: rest) => '[' :: (prettyItems (depth + 1) (v :: rest) ++ newline depth ++ [']'])
  | obj [] => ['\x7b', '\x7d']
  | obj (m :: rest) =>
    '\x7b' :: (prettyMembers (depth + 1) (m :: rest) ++ newline depth ++ ['\x7d'])
  | v => writeScalar v

/-- The items of an array, each on its own line. -/
def prettyItems (depth : Nat) : List Json → List Char
  | [] => []
  | [v] => newline depth ++ v.pretty depth
  | v :: rest => newline depth ++ v.pretty depth ++ ',' :: prettyItems depth rest

/-- The members of an object, each on its own line. -/
def prettyMembers (depth : Nat) : List (String × Json) → List Char
  | [] => []
  | [m] => newline depth ++ writeText m.1 ++ ':' :: ' ' :: m.2.pretty depth
  | m :: rest =>
    newline depth ++ writeText m.1 ++ ':' :: ' ' :: (m.2.pretty depth ++
      ',' :: prettyMembers depth rest)

end

/-- The compact text of a value. -/
def render (v : Json) : String := String.ofList v.compact

/-- The indented text of a value. -/
def renderPretty (v : Json) : String := String.ofList (v.pretty 0)

/-- An ordinary character is written as itself. -/
theorem escapeChar_of_plain {c : Char} (h : 32 ≤ c.toNat) (hq : c ≠ '"') (hb : c ≠ '\\') :
    escapeChar c = [c] := by
  have h8 : ¬ c.toNat = 8 := by omega
  have h9 : ¬ c.toNat = 9 := by omega
  have h10 : ¬ c.toNat = 10 := by omega
  have h12 : ¬ c.toNat = 12 := by omega
  have h13 : ¬ c.toNat = 13 := by omega
  have h32 : ¬ c.toNat < 32 := by omega
  simp only [escapeChar, hq, hb, h8, h9, h10, h12, h13, h32, if_false]

end CallGraph.Json
