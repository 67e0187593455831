/-!
# Bytes as hexadecimal text

Each byte is written as two digits in lower case, the upper half first.  Reading takes digits of
either case.

Main results:

- Theorem `decode_encode` says that bytes are read back from their text.
-/

namespace CallGraph.Text.Hex

/-- A digit, in lower case. -/
def digit (n : Nat) : Char := if n < 10 then Char.ofNat (48 + n) else Char.ofNat (87 + n)

/-- The value of a digit of either case. -/
def value (c : Char) : Option Nat :=
  let n := c.toNat
  if 48 ≤ n ∧ n ≤ 57 then some (n - 48)
  else if 97 ≤ n ∧ n ≤ 102 then some (n - 87)
  else if 65 ≤ n ∧ n ≤ 70 then some (n - 55)
  else none

/-- The two digits of a byte. -/
def pair (b : UInt8) : List Char := [digit (b.toNat / 16), digit (b.toNat % 16)]

/-- The digits of bytes. -/
def encode (bytes : List UInt8) : List Char := bytes.flatMap pair

/-- The bytes of a text that consists of pairs of digits. -/
def decode : List Char → Option (List UInt8)
  | [] => some []
  | [_] => none
  | hi :: lo :: rest => do
    let h ← value hi
    let l ← value lo
    let bytes ← decode rest
    return UInt8.ofNat (16 * h + l) :: bytes

/-- The value of a digit is the number for which it stands. -/
theorem value_digit {n : Nat} (h : n < 16) : value (digit n) = some n := by
  rcases n with _ | _ | _ | _ | _ | _ | _ | _ | _ | _ | _ | _ | _ | _ | _ | _ | n
  all_goals first | rfl | omega

/-- Bytes are read back from their digits. -/
@[simp] theorem decode_encode (bytes : List UInt8) : decode (encode bytes) = some bytes := by
  induction bytes with
  | nil => rfl
  | cons b rest ih =>
    have hb : b.toNat < 256 := b.toNat_lt
    have hi : b.toNat / 16 < 16 := by omega
    have lo : b.toNat % 16 < 16 := by omega
    have whole : 16 * (b.toNat / 16) + b.toNat % 16 = b.toNat := by omega
    have step : decode (encode (b :: rest)) =
        some (UInt8.ofNat (16 * (b.toNat / 16) + b.toNat % 16) :: rest) := by
      show decode (digit (b.toNat / 16) :: digit (b.toNat % 16) :: encode rest) = _
      simp only [decode, value_digit hi, value_digit lo, ih, Option.bind_eq_bind, Option.bind_some,
        pure]
    rw [step, whole, UInt8.ofNat_toNat]

end CallGraph.Text.Hex
