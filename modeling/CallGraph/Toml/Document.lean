import CallGraph.Toml.Number
import CallGraph.Toml.Table

/-!
# TOML documents

A document is a sequence of lines: blank ones, headers, and keys with their values.  Arrays and
inline tables may hold each other less than eighty deep, and keys have fewer than eighty parts.

Main results:

- Theorem `parse_empty` says that the empty text is the empty table.
-/

namespace CallGraph.Toml

/-- The greatest depth of arrays and inline tables, and the greatest number of parts of a key. -/
def maxDepth : Nat := 79

/-! ## Values -/

mutual

/-- A value.  The bound exceeds twice the length of the text; `depth` says how deep arrays and
tables may still be nested. -/
def readValue : Nat → Nat → Reader Value
  | 0, _, _ => none
  | n + 1, depth, s =>
    match s with
    | '[' :: rest => if depth = 0 then none else readItems n (depth - 1) [] rest
    | '\x7b' :: rest => if depth = 0 then none else readMembers n (depth - 1) true [] rest
    | _ => readScalar s

/-- The rest of an array, after the items in `done`, last first. -/
def readItems : Nat → Nat → List Value → Reader Value
  | 0, _, _, _ => none
  | n + 1, depth, done, s =>
    match skipGap false s with
    | ']' :: rest => some (.array done.reverse, rest)
    | s => do
      let (v, rest) ← readValue n depth s
      match skipGap false rest with
      | ',' :: rest => readItems n depth (v :: done) rest
      | ']' :: rest => some (.array (v :: done).reverse, rest)
      | _ => none

/-- The rest of an inline table, after those of its entries that have been read. -/
def readMembers : Nat → Nat → Bool → Items → Reader Value
  | 0, _, _, _, _ => none
  | n + 1, depth, first, items, s =>
    match skipBlanks s, first with
    | '\x7d' :: rest, true => some (.table (finishItems items), rest)
    | s, _ => do
      let ((path, key), rest) ← readKeys maxDepth s
      let rest ← readMark '=' rest
      let (v, rest) ← readValue n depth (skipBlanks rest)
      let items ← insert path key v .header items
      match skipBlanks rest with
      | ',' :: rest => readMembers n depth false items rest
      | '\x7d' :: rest => some (.table (finishItems items), rest)
      | _ => none

end

/-! ## Lines -/

/-- A document in the making: its entries, and the header under which keys are entered. -/
structure Draft where
  items : Items := []
  header : List String := []

/-- Start a table, or one more element of an array of tables. -/
def Draft.start (d : Draft) (element : Bool) (path : List String) (key : String) :
    Option Draft := do
  let change := if element then startElement key else startTable key
  let items ← descend .passed (fun _ items => change items) path .header d.items
  return { items := items, header := path ++ [key] }

/-- Enter a value under the present header. -/
def Draft.enter (d : Draft) (path : List String) (key : String) (v : Value) : Option Draft := do
  let items ← descend .passed (insert path key v) d.header .header d.items
  return { d with items := items }

/-- The text after the characters that close a header and the rest of its line. -/
def closeHeader (element : Bool) (s : List Char) : Option (List Char) := do
  let rest ← readMark ']' s
  let rest ← if element then readMark ']' rest else some rest
  finishLine rest

/-- A line that begins with something other than blanks, and the text behind it.  The bound exceeds
twice the length of the text. -/
def readLine (n : Nat) (d : Draft) : List Char → Option (Draft × List Char)
  | '[' :: '[' :: rest => do
    let ((path, key), rest) ← readKeys maxDepth rest
    let rest ← closeHeader true rest
    return (← d.start true path key, rest)
  | '[' :: rest => do
    let ((path, key), rest) ← readKeys maxDepth rest
    let rest ← closeHeader false rest
    return (← d.start false path key, rest)
  | s => do
    let ((path, key), rest) ← readKeys maxDepth s
    let rest ← readMark '=' rest
    let (v, rest) ← readValue n maxDepth (skipBlanks rest)
    let rest ← finishLine rest
    return (← d.enter path key v, rest)

/-- All lines.  The bound exceeds twice the length of the text. -/
def readLines : Nat → Draft → List Char → Option Draft
  | 0, _, _ => none
  | n + 1, d, s =>
    match skipGap false s with
    | [] => some d
    | s => do
      let (d, rest) ← readLine n d s
      readLines n d rest

/-- The table that a text describes; a mark of the byte order may stand in front. -/
def parse (text : String) : Option Entries := do
  let s := match text.toList with
    | '\uFEFF' :: rest => rest
    | s => s
  let d ← readLines (2 * s.length + 3) {} s
  return finishItems d.items

/-- The empty text is the empty table. -/
theorem parse_empty : parse "" = some [] := by
  simp [parse, readLines, skipGap, finishItems]

end CallGraph.Toml
