import CallGraph.Json.Printer
import CallGraph.Json.Token
import Mathlib.Data.Nat.Digits.Defs

/-!
# Reading printed numbers and texts

A whole number is printed without leading zeros, so its digits are all taken and spell it, if it
fits into 64 bits.  A text is printed with quotes, backslashes and controls escaped, so that its
first bare quote is the closing one, and each character is read back in one step.

Main results:

- Theorem `number_toDigits` says that a printed whole number is read as itself.
- Theorem `text_escapeChar` says that a printed character is read in one step.
- Theorem `text_writeText` says that a printed text is read as itself.
-/

namespace CallGraph.Json

/-! ## Numbers -/

/-- A digit is what the library takes for one. -/
theorem isDigit_eq (c : Char) : isDigit c = c.isDigit := by
  rw [isDigit, Char.isDigit, Bool.eq_iff_iff, Bool.and_eq_true, Bool.and_eq_true,
    decide_eq_true_eq, decide_eq_true_eq, decide_eq_true_eq, decide_eq_true_eq]
  rfl

/-- A text that does not go on a number that stands before it. -/
def Ends (s : List Char) : Prop :=
  ∀ c ∈ s.head?, isDigit c = false ∧ c ≠ '.' ∧ c ≠ 'e' ∧ c ≠ 'E'

/-- Reading further digits makes no number smaller. -/
theorem le_ofDigitChars (digits : List Char) (n : Nat) : n ≤ Nat.ofDigitChars 10 digits n := by
  induction digits generalizing n with
  | nil => exact le_rfl
  | cons c rest ih =>
    rw [Nat.ofDigitChars_cons]
    exact le_trans (by omega) (ih _)

/-- No digits are passed where a number ends. -/
theorem passDigits_of_ends {s : List Char} (h : Ends s) (k : Nat) : passDigits k s = (k, s) := by
  cases s with
  | nil => rfl
  | cons c rest => rw [passDigits, (h c rfl).1]; rfl

/-- No digits are read where a number ends. -/
theorem accumulate_of_ends {s : List Char} (h : Ends s) (n k : Nat) :
    accumulate n k s = (n, k, s) := by
  cases s with
  | nil => rfl
  | cons c rest => rw [accumulate, (h c rfl).1]; rfl

/-- All digits of a number that stays below 2^64 are taken. -/
theorem accumulate_digits {digits s : List Char} (hdigits : ∀ c ∈ digits, isDigit c = true)
    (hs : Ends s) {n : Nat} (hn : Nat.ofDigitChars 10 digits n < UInt64.size) (k : Nat) :
    accumulate n k (digits ++ s) = (Nat.ofDigitChars 10 digits n, k + digits.length, s) := by
  induction digits generalizing n k with
  | nil => exact accumulate_of_ends hs n k
  | cons c rest ih =>
    obtain ⟨hc, hrest⟩ := List.forall_mem_cons.mp hdigits
    have hvalue : 10 * n + (c.toNat - '0'.toNat) = n * 10 + digitValue c := by
      rw [digitValue, Nat.mul_comm]
      rfl
    rw [Nat.ofDigitChars_cons, hvalue] at hn ⊢
    have hlt : n * 10 + digitValue c < UInt64.size := lt_of_le_of_lt (le_ofDigitChars rest _) hn
    rw [List.cons_append, accumulate, hc, decide_eq_true hlt, Bool.and_self, if_pos rfl,
      ih hrest hn, List.length_cons, Nat.add_right_comm, Nat.add_assoc]

/-- The whole number that ends where its digits end. -/
theorem afterWhole_of_ends {s : List Char} (h : Ends s) (negative : Bool) (n : Nat) :
    afterWhole negative n s = (⟨.ok (wholeNumber negative n), none⟩, some s) := by
  rw [afterWhole, passDigits_of_ends h]
  cases s with
  | nil => rfl
  | cons c rest =>
    obtain ⟨-, hpoint, he, hE⟩ := h c rfl
    dsimp only
    split <;> simp_all

/-- The characters of a decimal numeral are digits. -/
theorem isDigit_of_mem_toDigits {c : Char} {n : Nat} (h : c ∈ Nat.toDigits 10 n) :
    isDigit c = true := by
  rw [isDigit_eq]
  exact Nat.isDigit_of_mem_toDigits (by omega) (by omega) h

/-- Only the digit zero is written as `0`. -/
theorem digitChar_ne_zero : ∀ d < 10, 0 < d → Nat.digitChar d ≠ '0' := by decide

/-- A positive number is printed without a leading zero. -/
theorem head_toDigits {n : Nat} (h : 0 < n) :
    ∃ c rest, Nat.toDigits 10 n = c :: rest ∧ c ≠ '0' := by
  induction n using Nat.strongRecOn with
  | ind n ih =>
    rw [Nat.toDigits_eq_if (by omega)]
    by_cases hn : n < 10
    · rw [if_pos hn]
      exact ⟨_, _, rfl, digitChar_ne_zero n hn h⟩
    · obtain ⟨c, rest, hdigits, hc⟩ := ih (n / 10) (by omega) (by omega)
      rw [if_neg hn, hdigits]
      exact ⟨c, rest ++ [(n % 10).digitChar], rfl, hc⟩

/-- A printed whole number is read as itself. -/
theorem number_toDigits {n : Nat} (hn : n < UInt64.size) {s : List Char} (hs : Ends s)
    (negative : Bool) :
    number negative (Nat.toDigits 10 n ++ s) =
      (⟨.ok (wholeNumber negative n), none⟩, some s) := by
  rcases Nat.eq_zero_or_pos n with rfl | hpos
  · rw [← afterWhole_of_ends hs]
    cases s with
    | nil => rfl
    | cons c rest =>
      rw [Nat.toDigits_zero, List.cons_append, List.nil_append, number, (hs c rfl).1]
      rfl
  · obtain ⟨c, rest, hdigits, hc⟩ := head_toDigits hpos
    have hall : ∀ d ∈ c :: rest, isDigit d = true := by
      intro d hd
      rw [← hdigits] at hd
      exact isDigit_of_mem_toDigits hd
    have hvalue : Nat.ofDigitChars 10 (c :: rest) 0 = n := by
      rw [← hdigits, Nat.ofDigitChars_ten_toDigits]
    have htaken := accumulate_digits hall hs (n := 0) (by rwa [hvalue]) 0
    rw [hdigits, number.eq_def]
    split
    · simp_all
    · rename_i heq
      simp only [List.cons_append, List.cons.injEq] at heq
      obtain ⟨rfl, rfl⟩ := heq
      rw [if_pos (hall c List.mem_cons_self), htaken, hvalue]
      exact afterWhole_of_ends hs negative n
    · simp_all

/-! ## Texts -/

/-- A short escape is read as the character that it stands for. -/
theorem text_simpleEscape {e c : Char} (h : simpleEscape e = some c) (n : Nat)
    (read rest : List Char) :
    text (n + 1) (.chars read) ('\\' :: e :: rest) = text n (.chars (c :: read)) rest := by
  have hu : e ≠ 'u' := by
    rintro rfl
    cases h
  rw [text, if_neg (by decide), if_pos rfl, h]
  · rfl
  · exact hu

/-- A control is read from the two hexadecimal digits of its number. -/
theorem text_control {c : Char} (h : c.toNat < 32) (n : Nat) (read rest : List Char) :
    text (n + 1) (.chars read) ('\\' :: 'u' :: '0' :: '0' :: Text.Hex.digit (c.toNat / 16) ::
      Text.Hex.digit (c.toNat % 16) :: rest) = text n (.chars (c :: read)) rest := by
  have hzero : Text.Hex.value '0' = some 0 := rfl
  have hupper := Text.Hex.value_digit (n := c.toNat / 16) (by omega)
  have hlower := Text.Hex.value_digit (n := c.toNat % 16) (by omega)
  have hwhole : ((0 * 16 + 0) * 16 + c.toNat / 16) * 16 + c.toNat % 16 = c.toNat := by omega
  have hunit : (Content.chars read).addUnit c.toNat = .chars (c :: read) := by
    have hlow : ¬ 0xDC00 ≤ c.toNat := by omega
    have hhigh : ¬ 0xD800 ≤ c.toNat := by omega
    simp [Content.addUnit, hlow, hhigh, Char.ofNat_toNat]
  rw [text, if_neg (by decide), if_pos rfl]
  simp only [hexUnit, hzero, hupper, hlower, hwhole, hunit]

/-- A character that needs no escape is read as itself. -/
theorem text_plain {c : Char} (hquote : c ≠ '"') (hbackslash : c ≠ '\\') (h : ¬ c.toNat < 32)
    (n : Nat) (read rest : List Char) :
    text (n + 1) (.chars read) (c :: rest) = text n (.chars (c :: read)) rest := by
  rw [text.eq_def]
  dsimp only
  rw [if_neg hquote, if_neg hbackslash, if_neg h]
  rfl

/-- A quote ends a text. -/
theorem text_quote (n : Nat) (t : Content) (rest : List Char) :
    text (n + 1) t ('"' :: rest) = (⟨t.close, none⟩, some rest) := by
  rw [text.eq_def]
  rfl

/-- A printed character is read in one step. -/
theorem text_escapeChar (n : Nat) (read : List Char) (c : Char) (rest : List Char) :
    text (n + 1) (.chars read) (escapeChar c ++ rest) = text n (.chars (c :: read)) rest := by
  have hcode {k : Nat} (h : c.toNat = k) : c = Char.ofNat k := by rw [← h, Char.ofNat_toNat]
  unfold escapeChar
  split
  · next h => exact text_simpleEscape (by rw [h]; rfl) n read rest
  split
  · next h => exact text_simpleEscape (by rw [h]; rfl) n read rest
  split
  · next h => exact text_simpleEscape (by rw [hcode h]; rfl) n read rest
  split
  · next h => exact text_simpleEscape (by rw [hcode h]; rfl) n read rest
  split
  · next h => exact text_simpleEscape (by rw [hcode h]; rfl) n read rest
  split
  · next h => exact text_simpleEscape (by rw [hcode h]; rfl) n read rest
  split
  · next h => exact text_simpleEscape (by rw [hcode h]; rfl) n read rest
  split
  · next h => exact text_control h n read rest
  · next hquote hbackslash _ _ _ _ _ h => exact text_plain hquote hbackslash h n read rest

/-- Escaped characters are read as they were before. -/
theorem text_flatMap_escapeChar {s : List Char} {n : Nat} (h : s.length < n)
    (read rest : List Char) :
    text n (.chars read) (s.flatMap escapeChar ++ '"' :: rest) =
      (⟨.ok (String.ofList (read.reverse ++ s)), none⟩, some rest) := by
  induction s generalizing n read with
  | nil =>
    obtain ⟨n, rfl⟩ := Nat.exists_eq_add_one_of_ne_zero (Nat.ne_of_gt h)
    rw [List.flatMap_nil, List.nil_append, text_quote, List.append_nil]
    rfl
  | cons c s ih =>
    obtain ⟨n, rfl⟩ := Nat.exists_eq_add_one_of_ne_zero (Nat.ne_zero_of_lt h)
    rw [List.flatMap_cons, List.append_assoc, text_escapeChar,
      ih (Nat.lt_of_succ_lt_succ h), List.reverse_cons, List.append_assoc, List.singleton_append]

/-- Escapes are not shorter than what they stand for. -/
theorem length_le_flatMap_escapeChar (s : List Char) :
    s.length ≤ (s.flatMap escapeChar).length := by
  induction s with
  | nil => exact le_rfl
  | cons c s ih =>
    have hc : 1 ≤ (escapeChar c).length := by
      unfold escapeChar
      repeat' split
      all_goals exact Nat.succ_le_succ (Nat.zero_le _)
    rw [List.flatMap_cons, List.length_append, List.length_cons]
    omega

/-- A printed text is read as itself, from behind its opening quote. -/
theorem text_writeText {name : String} {s rest : List Char}
    (hs : writeText name ++ rest = '"' :: s) {n : Nat} (hn : s.length ≤ n) :
    text n (.chars []) s = (⟨.ok name, none⟩, some rest) := by
  obtain rfl : name.toList.flatMap escapeChar ++ '"' :: rest = s := by simpa [writeText] using hs
  have hlength := length_le_flatMap_escapeChar name.toList
  rw [List.length_append, List.length_cons] at hn
  rw [text_flatMap_escapeChar (by omega), List.reverse_nil, List.nil_append, String.ofList_toList]

end CallGraph.Json
