import CallGraph.Text.Utf8

/-!
# Values as bytes

Numbers are written in a fixed width, the least significant byte first.  An optional value follows
a byte that tells whether it is there; texts and lists follow their lengths.  A reader takes a value
from the front of bytes and leaves the rest, or says what is wrong.

Main results:

- Theorems `readLittle_little`, `readText_text` and `readMany_many` say that numbers, texts and
  lists are read back, whatever follows them.
-/

namespace CallGraph.Store

/-- Bytes in order. -/
abbrev Bytes := List UInt8

/-- Why bytes are no record. -/
inductive ByteFault where
  /-- The bytes end inside a value of fixed width. -/
  | short
  /-- The bytes end inside a text. -/
  | shortText
  /-- The byte before an optional value is neither zero nor one. -/
  | badTag (found : UInt8)
  /-- The byte of a truth value is neither zero nor one. -/
  | badBool (found : UInt8)
  /-- The bytes of a text are no text. -/
  | badText (flaw : Text.Utf8.Flaw)
  deriving DecidableEq, Repr, Inhabited

/-- The wording of a fault. -/
def ByteFault.message : ByteFault → String
  | short => "io error: unexpected end of file"
  | shortText => "io error: "
  | badTag found => "tag for enum is not valid, found " ++ toString found.toNat
  | badBool found =>
    "invalid u8 while decoding bool, expected 0 or 1, found " ++ toString found.toNat
  | badText flaw => "string is not valid utf8: " ++ flaw.message

/-- Reading takes a value from the front of bytes and leaves the rest. -/
abbrev Reader (α : Type) := Bytes → Except ByteFault (α × Bytes)

/-! ## Numbers -/

/-- The `width` lowest bytes of a number, the least significant first. -/
def little : Nat → Nat → Bytes
  | 0, _ => []
  | width + 1, n => UInt8.ofNat (n % 256) :: little width (n / 256)

/-- The `width` lowest bytes of a number, the most significant first. -/
def big (width n : Nat) : Bytes := (little width n).reverse

/-- Read a number of `width` bytes, the least significant first. -/
def readLittle : Nat → Reader Nat
  | 0, bytes => .ok (0, bytes)
  | _ + 1, [] => .error .short
  | width + 1, b :: rest => do
    let (n, rest) ← readLittle width rest
    return (b.toNat + 256 * n, rest)

@[simp] theorem length_little (width n : Nat) : (little width n).length = width := by
  induction width generalizing n with
  | zero => rfl
  | succ w ih => simp [little, ih]

@[simp] theorem length_big (width n : Nat) : (big width n).length = width := by simp [big]

/-- A number that fits its width is read back. -/
theorem readLittle_little {width n : Nat} (h : n < Nat.pow 256 width) (rest : Bytes) :
    readLittle width (little width n ++ rest) = .ok (n, rest) := by
  induction width generalizing n with
  | zero =>
    have hn : n = 0 := Nat.lt_one_iff.mp h
    simp [readLittle, little, hn]
  | succ w ih =>
    have hq : n / 256 < Nat.pow 256 w := by
      apply Nat.div_lt_of_lt_mul
      rw [Nat.mul_comm]
      exact h
    have hr : (UInt8.ofNat (n % 256)).toNat = n % 256 := by
      simp [UInt8.toNat_ofNat']
    have hn : n % 256 + 256 * (n / 256) = n := Nat.mod_add_div n 256
    simp only [little, List.cons_append, readLittle, ih hq, hr, bind, Except.bind, pure,
      Except.pure, hn]

/-- A 64-bit number. -/
def word (n : UInt64) : Bytes := little 8 n.toNat

/-- Read a 64-bit number. -/
def readWord : Reader UInt64 := fun bytes => do
  let (n, rest) ← readLittle 8 bytes
  return (UInt64.ofNat n, rest)

/-- A 64-bit number is read back, whatever follows it. -/
@[simp] theorem readWord_word (n : UInt64) (rest : Bytes) :
    readWord (word n ++ rest) = .ok (n, rest) := by
  have h : n.toNat < Nat.pow 256 8 := n.toNat_lt
  simp [readWord, word, readLittle_little h, bind, Except.bind, pure, Except.pure]

/-! ## Truth values, optional values, texts and lists -/

/-- A truth value. -/
def flag (b : Bool) : Bytes := [if b then 1 else 0]

/-- Read a truth value. -/
def readFlag : Reader Bool
  | [] => .error .short
  | b :: rest => if b = 0 then .ok (false, rest) else if b = 1 then .ok (true, rest) else
    .error (.badBool b)

/-- A value that may be absent, after a byte that tells whether it is there. -/
def optional {α : Type} (write : α → Bytes) : Option α → Bytes
  | none => [0]
  | some a => 1 :: write a

/-- Read a value that may be absent. -/
def readOptional {α : Type} (read : Reader α) : Reader (Option α)
  | [] => .error .short
  | b :: rest =>
    if b = 0 then .ok (none, rest)
    else if b = 1 then do
      let (a, rest) ← read rest
      return (some a, rest)
    else .error (.badTag b)

/-- A text, after the number of its bytes. -/
def text (s : String) : Bytes :=
  let bytes := Text.Utf8.encode s
  little 8 bytes.length ++ bytes

/-- Read a text. -/
def readText : Reader String := fun bytes => do
  let (n, rest) ← readLittle 8 bytes
  if rest.length < n then .error .shortText
  else
    match Text.Utf8.decode (rest.take n) with
    | .ok s => .ok (s, rest.drop n)
    | .error flaw => .error (.badText flaw)

/-- A list, after the number of its items. -/
def many {α : Type} (write : α → Bytes) (items : List α) : Bytes :=
  little 8 items.length ++ items.flatMap write

/-- Read a number of items. -/
def readItems {α : Type} (read : Reader α) : Nat → Reader (List α)
  | 0, bytes => .ok ([], bytes)
  | n + 1, bytes => do
    let (a, rest) ← read bytes
    let (items, rest) ← readItems read n rest
    return (a :: items, rest)

/-- Read a list. -/
def readMany {α : Type} (read : Reader α) : Reader (List α) := fun bytes => do
  let (n, rest) ← readLittle 8 bytes
  readItems read n rest

/-- A truth value is read back, whatever follows it. -/
@[simp] theorem readFlag_flag (b : Bool) (rest : Bytes) :
    readFlag (flag b ++ rest) = .ok (b, rest) := by
  cases b <;> rfl

/-- An optional value is read back if what it holds is. -/
theorem readOptional_optional {α : Type} {write : α → Bytes} {read : Reader α} {a : Option α}
    (h : ∀ x, a = some x → ∀ rest, read (write x ++ rest) = .ok (x, rest)) (rest : Bytes) :
    readOptional read (optional write a ++ rest) = .ok (a, rest) := by
  cases a with
  | none => rfl
  | some x => simp [optional, readOptional, h x rfl rest, bind, Except.bind, pure, Except.pure]

/-- A text whose length fits 64 bits is read back. -/
theorem readText_text {s : String} (h : (Text.Utf8.encode s).length < UInt64.size) (rest : Bytes) :
    readText (text s ++ rest) = .ok (s, rest) := by
  have h' : (Text.Utf8.encode s).length < Nat.pow 256 8 := h
  simp [readText, text, List.append_assoc, readLittle_little h', bind, Except.bind]

/-- Items are read back if each of them is. -/
theorem readItems_flatMap {α : Type} {write : α → Bytes} {read : Reader α} {items : List α}
    (h : ∀ x ∈ items, ∀ rest, read (write x ++ rest) = .ok (x, rest)) (rest : Bytes) :
    readItems read items.length (items.flatMap write ++ rest) = .ok (items, rest) := by
  induction items with
  | nil => rfl
  | cons a items ih =>
    have hrest := ih fun x hx => h x (List.mem_cons_of_mem a hx)
    simp [readItems, List.append_assoc, h a List.mem_cons_self, hrest, bind, Except.bind, pure,
      Except.pure]

/-- A list whose length fits 64 bits is read back if each of its items is. -/
theorem readMany_many {α : Type} {write : α → Bytes} {read : Reader α} {items : List α}
    (hn : items.length < UInt64.size)
    (h : ∀ x ∈ items, ∀ rest, read (write x ++ rest) = .ok (x, rest)) (rest : Bytes) :
    readMany read (many write items ++ rest) = .ok (items, rest) := by
  have hn' : items.length < Nat.pow 256 8 := hn
  simp [readMany, many, List.append_assoc, readLittle_little hn', readItems_flatMap h, bind,
    Except.bind]

end CallGraph.Store
