import CallGraph.Text.Unprintable

/-!
# Quoted text in messages

A text that a message cites stands between double quotes.  Quotes, backslashes and the usual
controls are escaped by a backslash and one character, and a character that is not shown as itself
is spelled by its number in hexadecimal.

Main results:

- Theorem `quoted_of_plain` says that a text of plain characters is quoted as it is.
-/

namespace CallGraph.Text

/-- One character of a quoted text. -/
def quoteChar (c : Char) : List Char :=
  if c = '"' then ['\\', '"']
  else if c = '\\' then ['\\', '\\']
  else if c = '\n' then ['\\', 'n']
  else if c = '\r' then ['\\', 'r']
  else if c = '\t' then ['\\', 't']
  else if c.toNat = 0 then ['\\', '0']
  else if isUnprintable c then
    ['\\', 'u', '\x7b'] ++ Nat.toDigits 16 c.toNat ++ ['\x7d']
  else [c]

/-- A text between quotes, with escapes. -/
def quoted (s : String) : String :=
  String.ofList ('"' :: (s.toList.flatMap quoteChar ++ ['"']))

/-- A text of plain characters is quoted as it is. -/
theorem quoted_of_plain {s : String} (h : ∀ c ∈ s.toList, quoteChar c = [c]) :
    quoted s = String.ofList ('"' :: (s.toList ++ ['"'])) := by
  have : ∀ l : List Char, (∀ c ∈ l, quoteChar c = [c]) → l.flatMap quoteChar = l := by
    intro l hl
    induction l with
    | nil => rfl
    | cons c rest ih =>
      rw [List.flatMap_cons, hl c (by simp), ih fun d hd => hl d (by simp [hd])]
      rfl
  rw [quoted, this _ h]

end CallGraph.Text
