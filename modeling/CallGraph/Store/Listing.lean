import CallGraph.Store.Disk
import CallGraph.Text.Hex

/-!
# The listing of a store

The entries of a store are listed one to a line, key and value in hexadecimal with a blank between
them.  This is the form in which a store lies in its directory.

Main results:

- Theorem `readLine_line` says that an entry is read back from its line.
-/

namespace CallGraph.Store

/-- The line of an entry, without its end. -/
def line (e : Bytes × Bytes) : List Char := Text.Hex.encode e.1 ++ ' ' :: Text.Hex.encode e.2

/-- The entry of a line. -/
def readLine (s : List Char) : Option (Bytes × Bytes) := do
  let key ← Text.Hex.decode (s.takeWhile (· ≠ ' '))
  let value ← Text.Hex.decode ((s.dropWhile (· ≠ ' ')).drop 1)
  return (key, value)

/-- The lines of a text, each of which has an end. -/
def linesOf : List Char → List Char → List (List Char)
  | _, [] => []
  | done, c :: rest =>
    if c = '\n' then done.reverse :: linesOf [] rest else linesOf (c :: done) rest

namespace Disk

/-- The listing of a store. -/
def listing (s : Disk) : String :=
  String.ofList (s.entries.flatMap fun e => line e ++ ['\n'])

/-- The store of a listing. -/
def ofListing? (text : String) : Option Disk := do
  let entries ← (linesOf [] text.toList).mapM readLine
  return entries.foldl (fun s e => s.write e.1 e.2) empty

end Disk

/-- No digit is a blank. -/
theorem blank_not_mem_encode (bytes : Bytes) : ' ' ∉ Text.Hex.encode bytes := by
  intro h
  obtain ⟨b, -, hb⟩ := List.mem_flatMap.1 h
  have digit_ne : ∀ n, n < 16 → Text.Hex.digit n ≠ ' ' := by decide
  have hi : b.toNat / 16 < 16 := by have := b.toNat_lt; omega
  have lo : b.toNat % 16 < 16 := by omega
  rcases List.mem_cons.1 hb with h | h
  · exact digit_ne _ hi h.symm
  · exact digit_ne _ lo (List.mem_singleton.1 h).symm

/-- An entry is read back from its line. -/
theorem readLine_line (e : Bytes × Bytes) : readLine (line e) = some e := by
  have h : ∀ c ∈ Text.Hex.encode e.1, decide (c ≠ ' ') = true := by
    intro c hc
    simp only [ne_eq, decide_not, Bool.not_eq_eq_eq_not, Bool.not_true, decide_eq_false_iff_not]
    rintro rfl
    exact blank_not_mem_encode _ hc
  have ht : (line e).takeWhile (· ≠ ' ') = Text.Hex.encode e.1 := by
    unfold line
    rw [List.takeWhile_append_of_pos h]
    simp
  have hd : (line e).dropWhile (· ≠ ' ') = ' ' :: Text.Hex.encode e.2 := by
    unfold line
    rw [List.dropWhile_append_of_pos h]
    simp
  unfold readLine
  rw [ht, hd]
  simp

end CallGraph.Store
