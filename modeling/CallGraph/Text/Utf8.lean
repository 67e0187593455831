/-!
# Texts as bytes

A text is written as its UTF-8 bytes.  Bytes that are no such text have a first flaw: the index of
the first byte that belongs to no character, and how many bytes stand there in place of one, unless
the bytes only end too early.

Main results:

- Theorem `decode_encode` says that every text is read back from its bytes.
- Theorem `decode_eq_ok_iff` says that nothing else is read as that text.
-/

namespace CallGraph.Text.Utf8

/-- The first flaw of bytes that are no text. -/
structure Flaw where
  /-- Where the first broken character begins. -/
  index : Nat
  /-- How many bytes are broken there; absent if the bytes end inside a character. -/
  length : Option Nat
  deriving DecidableEq, Repr, Inhabited

/-- The words for a flaw. -/
def Flaw.message (f : Flaw) : String :=
  match f.length with
  | some n =>
    "invalid utf-8 sequence of " ++ toString n ++ " bytes from index " ++ toString f.index
  | none => "incomplete utf-8 byte sequence from index " ++ toString f.index

/-- The bytes of a text. -/
def encode (s : String) : List UInt8 := s.toUTF8.data.toList

/-! ## Locating a flaw -/

/-- How many bytes must follow a leading byte, and the least and the greatest value of the next. -/
def followers (b : UInt8) : Option (Nat × UInt8 × UInt8) :=
  if b < 0x80 then some (0, 0, 0)
  else if b < 0xC2 then none
  else if b < 0xE0 then some (1, 0x80, 0xBF)
  else if b = 0xE0 then some (2, 0xA0, 0xBF)
  else if b = 0xED then some (2, 0x80, 0x9F)
  else if b < 0xF0 then some (2, 0x80, 0xBF)
  else if b = 0xF0 then some (3, 0x90, 0xBF)
  else if b < 0xF4 then some (3, 0x80, 0xBF)
  else if b = 0xF4 then some (3, 0x80, 0x8F)
  else none

/-- A place between two bytes: where the character began, how many of its bytes have been met, how
many more it must have, and the limits of the next one. -/
structure Place where
  index : Nat := 0
  met : Nat := 0
  owed : Nat := 0
  least : UInt8 := 0x80
  greatest : UInt8 := 0xBF

/-- The place behind one more byte, or the flaw that the byte makes. -/
def Place.step (p : Place) (b : UInt8) : Except Flaw Place :=
  match p.owed with
  | 0 =>
    match followers b with
    | none => .error ⟨p.index, some 1⟩
    | some (0, _, _) => .ok { index := p.index + 1 }
    | some (owed, least, greatest) =>
      .ok { index := p.index, met := 1, owed := owed, least := least, greatest := greatest }
  | owed + 1 =>
    if p.least ≤ b ∧ b ≤ p.greatest then
      if owed = 0 then .ok { index := p.index + p.met + 1 }
      else .ok { index := p.index, met := p.met + 1, owed := owed }
    else .error ⟨p.index, some p.met⟩

/-- The first flaw of bytes that are no text. -/
def firstFlaw : Place → List UInt8 → Flaw
  | p, [] => ⟨p.index, none⟩
  | p, b :: rest =>
    match p.step b with
    | .ok p => firstFlaw p rest
    | .error flaw => flaw

/-! ## Reading -/

/-- The text of bytes, or their first flaw. -/
def decode (bytes : List UInt8) : Except Flaw String :=
  match String.fromUTF8? bytes.toByteArray with
  | some s => .ok s
  | none => .error (firstFlaw {} bytes)

/-- The bytes of a byte array are the bytes it was made of. -/
theorem toByteArray_encode (s : String) : (encode s).toByteArray = s.toUTF8 := by
  apply ByteArray.ext
  simp [encode]

/-- Every text is read back from its bytes. -/
@[simp] theorem decode_encode (s : String) : decode (encode s) = .ok s := by
  unfold decode
  rw [toByteArray_encode]
  have h : String.fromUTF8? s.toUTF8 = some s := by
    unfold String.fromUTF8?
    split
    · rfl
    · next hs => exact absurd s.isValidUTF8 hs
  rw [h]

/-- Nothing but the bytes of a text is read as that text. -/
theorem decode_eq_ok_iff (bytes : List UInt8) (s : String) :
    decode bytes = .ok s ↔ bytes = encode s := by
  constructor
  · intro h
    unfold decode at h
    split at h
    · next t ht =>
      obtain rfl : t = s := by simpa using h
      unfold String.fromUTF8? at ht
      split at ht
      · obtain rfl : _ = t := by simpa using ht
        simp [encode, String.fromUTF8]
      · simp at ht
    · simp at h
  · rintro rfl
    exact decode_encode s

end CallGraph.Text.Utf8
