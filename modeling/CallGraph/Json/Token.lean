import CallGraph.Decimal.Shortest
import CallGraph.Text.Hex

/-!
# JSON tokens

Numbers and texts are read in two ways.  A reader that wants the content refuses more than one that
only skips it: a lone half of a surrogate pair has no character, and a number can be too large.
A token therefore holds what wanting it gives and whether skipping it fails.  A failure is either
malformed text, or text that ends too early.

Main results:

- Theorem `accumulate_lt` says that the digits taken into a number keep it below 2^64.
- Theorem `accumulate_rest` says that no character is lost between the digits taken and the rest.
-/

namespace CallGraph.Json

/-- Why a text is no JSON. -/
inductive Stop where
  /-- Something stands where it may not stand. -/
  | malformed
  /-- The text ends too early. -/
  | truncated
  deriving DecidableEq, Repr, Inhabited

/-- A token as a reader meets it who wants its content, and as one who skips it. -/
structure Token (α : Type) where
  read : Except Stop α
  skip : Option Stop := none

/-- A token that fails in both ways alike. -/
def Token.failed {α : Type} (stop : Stop) : Token α := ⟨.error stop, some stop⟩

/-- A number: whole, or floating-point. -/
inductive Number where
  | int (n : Int)
  | float (x : Binary64)
  deriving DecidableEq, Repr, Inhabited

/-! ## Numbers -/

/-- Whether a character is a decimal digit. -/
def isDigit (c : Char) : Bool := 48 ≤ c.toNat && c.toNat ≤ 57

/-- The value of a decimal digit. -/
def digitValue (c : Char) : Nat := c.toNat - 48

/-- Take digits into the number `n` as long as it stays below 2^64, counting them on from `k`; the
rest of the text follows. -/
def accumulate (n k : Nat) : List Char → Nat × Nat × List Char
  | [] => (n, k, [])
  | c :: rest =>
    if isDigit c && n * 10 + digitValue c < UInt64.size then
      accumulate (n * 10 + digitValue c) (k + 1) rest
    else (n, k, c :: rest)

/-- Pass over digits, counting them on from `k`; the rest of the text follows. -/
def passDigits (k : Nat) : List Char → Nat × List Char
  | [] => (k, [])
  | c :: rest => if isDigit c then passDigits (k + 1) rest else (k, c :: rest)

/-- The digits taken into a number keep it below 2^64. -/
theorem accumulate_lt {n : Nat} (h : n < UInt64.size) (k : Nat) (s : List Char) :
    (accumulate n k s).1 < UInt64.size := by
  induction s generalizing n k with
  | nil => exact h
  | cons c rest ih =>
    unfold accumulate
    split
    · next hc =>
      rw [Bool.and_eq_true, decide_eq_true_eq] at hc
      exact ih hc.2 _
    · exact h

/-- No character is lost between the digits taken and the rest. -/
theorem accumulate_rest (n k : Nat) (s : List Char) :
    ∃ taken, s = taken ++ (accumulate n k s).2.2 ∧ (accumulate n k s).2.1 = k + taken.length ∧
      ∀ c ∈ taken, isDigit c = true := by
  induction s generalizing n k with
  | nil => exact ⟨[], rfl, rfl, by simp⟩
  | cons c rest ih =>
    unfold accumulate
    split
    · next hc =>
      rw [Bool.and_eq_true] at hc
      obtain ⟨taken, hs, hk, hd⟩ := ih (n * 10 + digitValue c) (k + 1)
      refine ⟨c :: taken, by simp [← hs], by rw [hk, List.length_cons]; omega, ?_⟩
      intro d hd'
      rcases List.mem_cons.1 hd' with rfl | hm
      · exact hc.1
      · exact hd d hm
    · exact ⟨[], rfl, rfl, by simp⟩

/-- The power `10^k` as a machine number. -/
def powerOfTen (k : Nat) : Float := Float.ofScientific 1 false k

/-- Scale a machine number by a power of ten, in steps that machine numbers allow; `none` if the
result is too large. -/
def scaleFloat : Nat → Float → Int → Option Float
  | 0, f, _ => some f
  | n + 1, f, e =>
    if e.natAbs ≤ 308 then
      if 0 ≤ e then
        let r := f * powerOfTen e.toNat
        if r.isInf then none else some r
      else some (f / powerOfTen e.natAbs)
    else if f == 0 then some f
    else if 0 ≤ e then none
    else scaleFloat n (f / powerOfTen 308) (e + 308)

/-- The floating-point number `± n · 10^e`.  After two steps down a number is zero, so four steps
are enough. -/
def floatNumber (negative : Bool) (n : Nat) (e : Int) : Except Stop Number :=
  match scaleFloat 4 (UInt64.ofNat n).toFloat e with
  | none => .error .malformed
  | some f => .ok (.float (.ofFloat (if negative then -f else f)))

/-- The whole number `± n`.  A negative one below -2^63, and minus zero, are floating-point. -/
def wholeNumber (negative : Bool) (n : Nat) : Number :=
  if negative then
    if 1 ≤ n ∧ n ≤ 0x8000000000000000 then .int (-n)
    else .float (.ofFloat (-(UInt64.ofNat n).toFloat))
  else .int n

/-- A failure where a digit is missing: who skips does not tell the end of the text apart. -/
def missingDigit {α : Type} (s : List Char) : Token α :=
  ⟨.error (if s.isEmpty then .truncated else .malformed), some .malformed⟩

/-- The digits of an exponent as a number, and the rest. -/
def exponentDigits (n : Nat) : List Char → Nat × List Char
  | [] => (n, [])
  | c :: rest => if isDigit c then exponentDigits (n * 10 + digitValue c) rest else (n, c :: rest)

/-- The exponent after its mark. -/
def exponentPart (negative : Bool) (n : Nat) (e : Int) (s : List Char) :
    Token Number × Option (List Char) :=
  let (down, s) := match s with
    | '+' :: rest => (false, rest)
    | '-' :: rest => (true, rest)
    | _ => (false, s)
  match s with
  | c :: _ =>
    if isDigit c then
      let (k, rest) := exponentDigits 0 s
      (⟨floatNumber negative n (if down then e - k else e + k), none⟩, some rest)
    else (missingDigit s, none)
  | [] => (missingDigit s, none)

/-- What follows the digits of a number whose value so far is floating-point. -/
def afterDigits (negative : Bool) (n : Nat) (e : Int) (s : List Char) :
    Token Number × Option (List Char) :=
  match s with
  | 'e' :: rest | 'E' :: rest => exponentPart negative n e rest
  | _ => (⟨floatNumber negative n e, none⟩, some s)

/-- The decimals after the point.  Digits that no longer fit are dropped. -/
def decimalPart (negative : Bool) (n : Nat) (e : Int) (s : List Char) :
    Token Number × Option (List Char) :=
  match s with
  | c :: _ =>
    if isDigit c then
      let (n, k, rest) := accumulate n 0 s
      afterDigits negative n (e - k) (passDigits 0 rest).2
    else (missingDigit s, none)
  | [] => (missingDigit s, none)

/-- What follows the whole digits of a number; digits that no longer fit each count a power of
ten. -/
def afterWhole (negative : Bool) (n : Nat) (s : List Char) : Token Number × Option (List Char) :=
  let (e, rest) := passDigits 0 s
  match rest with
  | '.' :: rest => decimalPart negative n e rest
  | 'e' :: rest | 'E' :: rest => exponentPart negative n e rest
  | _ =>
    if e = 0 then (⟨.ok (wholeNumber negative n), none⟩, some rest)
    else (⟨floatNumber negative n e, none⟩, some rest)

/-- A number after its sign. -/
def number (negative : Bool) (s : List Char) : Token Number × Option (List Char) :=
  match s with
  | '0' :: rest =>
    match rest with
    | c :: _ => if isDigit c then (.failed .malformed, none) else afterWhole negative 0 rest
    | [] => afterWhole negative 0 rest
  | c :: _ =>
    if isDigit c then
      let (n, _, rest) := accumulate 0 0 s
      afterWhole negative n rest
    else (missingDigit s, none)
  | [] => (missingDigit s, none)

/-! ## Texts -/

/-- Four hexadecimal digits.  The text ends too early if fewer than four bytes are left. -/
def hexUnit (s : List Char) : Except Stop (Nat × List Char) :=
  match s with
  | a :: b :: c :: d :: rest =>
    match Text.Hex.value a, Text.Hex.value b, Text.Hex.value c, Text.Hex.value d with
    | some a, some b, some c, some d => .ok (((a * 16 + b) * 16 + c) * 16 + d, rest)
    | _, _, _, _ => .error .malformed
  | few => .error (if few.foldl (fun n c => n + c.utf8Size) 0 < 4 then .truncated else .malformed)

/-- How far the content of a text has been read: the characters so far, last first, perhaps the
first half of a surrogate pair after them, or the failure that was met. -/
inductive Content where
  | chars (read : List Char)
  | half (read : List Char) (high : Nat)
  | failed (stop : Stop)

namespace Content

/-- Add a character. -/
def add (t : Content) (c : Char) : Content :=
  match t with
  | chars read => chars (c :: read)
  | half _ _ => failed .malformed
  | failed stop => failed stop

/-- Add a 16-bit unit that was written as an escape. -/
def addUnit (t : Content) (n : Nat) : Content :=
  let low := 0xDC00 ≤ n && n ≤ 0xDFFF
  match t with
  | chars read =>
    if low then failed .malformed
    else if 0xD800 ≤ n && n ≤ 0xDBFF then half read n
    else chars (Char.ofNat n :: read)
  | half read high =>
    if low then chars (Char.ofNat (0x10000 + (high - 0xD800) * 0x400 + (n - 0xDC00)) :: read)
    else failed .malformed
  | failed stop => failed stop

/-- The content at the closing quote. -/
def close (t : Content) : Except Stop String :=
  match t with
  | chars read => .ok (String.ofList read.reverse)
  | half _ _ => .error .malformed
  | failed stop => .error stop

/-- The token of a text that stops before its closing quote. -/
def stop (t : Content) (s : Stop) : Token String :=
  match t with
  | failed earlier => ⟨.error earlier, some s⟩
  | _ => .failed s

end Content

/-- The character of an escape of one letter. -/
def simpleEscape (c : Char) : Option Char :=
  if c = '"' ∨ c = '\\' ∨ c = '/' then some c
  else if c = 'b' then some (Char.ofNat 8)
  else if c = 'f' then some (Char.ofNat 12)
  else if c = 'n' then some '\n'
  else if c = 'r' then some '\r'
  else if c = 't' then some '\t'
  else none

/-- The rest of a text after its opening quote.  Every step consumes a character, so any bound that
is at least the length of what is left is large enough. -/
def text : Nat → Content → List Char → Token String × Option (List Char)
  | _, t, [] => (t.stop .truncated, none)
  | 0, t, _ => (t.stop .truncated, none)
  | n + 1, t, c :: rest =>
    if c = '"' then (⟨t.close, none⟩, some rest)
    else if c = '\\' then
      match rest with
      | [] => (t.stop .truncated, none)
      | 'u' :: rest =>
        match hexUnit rest with
        | .error s => (t.stop s, none)
        | .ok (unit, rest) => text n (t.addUnit unit) rest
      | e :: rest =>
        match simpleEscape e with
        | some d => text n (t.add d) rest
        | none => (t.stop .malformed, none)
    else if c.toNat < 32 then (t.stop .malformed, none)
    else text n (t.add c) rest

end CallGraph.Json
