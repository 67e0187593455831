/-!
# Shortest decimals of binary fractions

A 64-bit binary floating-point number is kept as its bit pattern and read as `m · 2^q`.  Its
shortest decimal is the one with the fewest digits among those that round to it, and of several
such the nearest; where two are equally near, a rule for ties decides.  All arithmetic is exact, on
natural numbers.

Main results:

- Theorem `mem_of_closest` says that a chosen decimal rounds to the number.
- Theorem `closest_eq_none_iff` says that a grid is passed over only if both neighbours on it miss.
-/

namespace CallGraph

/-- A 64-bit binary floating-point number, as its bit pattern. -/
structure Binary64 where
  bits : UInt64
  deriving DecidableEq, Repr, Inhabited

namespace Binary64

/-- The bit pattern of a machine number. -/
def ofFloat (x : Float) : Binary64 := ⟨x.toBits⟩

/-- Whether the sign bit is set. -/
def negative (x : Binary64) : Bool := x.bits >>> 63 = 1

/-- The eleven bits of the exponent. -/
def exponentField (x : Binary64) : Nat := ((x.bits >>> 52) &&& 0x7FF).toNat

/-- The fifty-two bits of the fraction. -/
def fractionField (x : Binary64) : Nat := (x.bits &&& 0xFFFFFFFFFFFFF).toNat

/-- Whether the number is not a number at all. -/
def isNaN (x : Binary64) : Bool := x.exponentField = 2047 && x.fractionField ≠ 0

/-- Whether the number is one of the two infinities. -/
def isInfinite (x : Binary64) : Bool := x.exponentField = 2047 && x.fractionField = 0

/-- Whether the number is one of the two zeros. -/
def isZero (x : Binary64) : Bool := x.exponentField = 0 && x.fractionField = 0

/-- The whole number `m` of `m · 2^q`. -/
def significand (x : Binary64) : Nat :=
  if x.exponentField = 0 then x.fractionField else 0x10000000000000 + x.fractionField

/-- The exponent `q` of `m · 2^q`. -/
def exponent (x : Binary64) : Int :=
  if x.exponentField = 0 then -1074 else (x.exponentField : Int) - 1075

end Binary64

namespace Decimal

/-! ## The numbers that round to a given one -/

/-- A number with the ends of the interval that rounds to it, over one denominator. -/
structure Interval where
  low : Nat
  mid : Nat
  high : Nat
  den : Nat
  /-- Whether the ends themselves round to the number. -/
  closed : Bool
  deriving Repr

/-- The interval of a finite number without its sign.  Its ends lie half-way to its neighbours; the
lower neighbour of a power of two is twice as near, unless it is subnormal. -/
def Interval.ofBinary (x : Binary64) : Interval :=
  let m := x.significand
  let below := if m = 0x10000000000000 ∧ 1 < x.exponentField then 1 else 2
  let q := x.exponent - 2
  let up := Nat.pow 2 q.toNat
  ⟨(4 * m - below) * up, 4 * m * up, (4 * m + 2) * up, Nat.pow 2 (-q).toNat, m % 2 = 0⟩

/-- Whether the fraction `a / b` lies in the interval. -/
def Interval.holds (i : Interval) (a b : Nat) : Bool :=
  if i.closed then i.low * b ≤ a * i.den && a * i.den ≤ i.high * b
  else i.low * b < a * i.den && a * i.den < i.high * b

/-- Which of two equally near points is taken. -/
inductive Tie where
  /-- The even one. -/
  | even
  /-- The greater one. -/
  | up
  deriving DecidableEq, Repr

/-- The point that a tie between `c` and `c + 1` is broken to. -/
def Tie.pick : Tie → Nat → Nat
  | even, c => if c % 2 = 0 then c else c + 1
  | up, c => c + 1

/-- A broken tie leads to one of the two points. -/
theorem Tie.pick_eq (tie : Tie) (c : Nat) : tie.pick c = c ∨ tie.pick c = c + 1 := by
  cases tie with
  | even =>
    by_cases h : c % 2 = 0
    · exact .inl (if_pos h)
    · exact .inr (if_neg h)
  | up => exact .inr rfl

/-- The point of two that is nearer to the number, where `c` and `c + 1` are counted in steps of
`a / b`. -/
def Interval.nearer (i : Interval) (tie : Tie) (c a b : Nat) : Nat :=
  match compare (2 * i.mid * b) ((2 * c + 1) * i.den * a) with
  | .lt => c
  | .gt => c + 1
  | .eq => tie.pick c

/-- The nearer point is one of the two. -/
theorem Interval.nearer_eq (i : Interval) (tie : Tie) (c a b : Nat) :
    i.nearer tie c a b = c ∨ i.nearer tie c a b = c + 1 := by
  unfold nearer
  split
  · exact .inl rfl
  · exact .inr rfl
  · exact tie.pick_eq c

/-- The best of the two neighbours of the number on the grid of steps `a / b`, if one of them lies
in the interval. -/
def Interval.closest (i : Interval) (tie : Tie) (a b : Nat) : Option Nat :=
  let c := i.mid * b / (i.den * a)
  match i.holds (c * a) b, i.holds ((c + 1) * a) b with
  | true, true => some (i.nearer tie c a b)
  | true, false => some c
  | false, true => some (c + 1)
  | false, false => none

/-- A chosen decimal lies in the interval. -/
theorem Interval.mem_of_closest {i : Interval} {tie : Tie} {a b c : Nat}
    (h : i.closest tie a b = some c) : i.holds (c * a) b = true := by
  unfold closest at h
  simp only at h
  split at h
  · next h₁ h₂ =>
    simp only [Option.some.injEq] at h
    subst h
    rcases i.nearer_eq tie (i.mid * b / (i.den * a)) a b with e | e
    · rw [e]; exact h₁
    · rw [e]; exact h₂
  · next h₁ _ => simp only [Option.some.injEq] at h; exact h ▸ h₁
  · next _ h₂ => simp only [Option.some.injEq] at h; exact h ▸ h₂
  · simp at h

/-- A grid is passed over only if both neighbours on it miss. -/
theorem Interval.closest_eq_none_iff (i : Interval) (tie : Tie) (a b : Nat) :
    i.closest tie a b = none ↔
      i.holds (i.mid * b / (i.den * a) * a) b = false ∧
        i.holds ((i.mid * b / (i.den * a) + 1) * a) b = false := by
  unfold closest
  simp only
  split <;> simp_all

/-! ## The shortest decimal -/

/-- The number of decimal digits before the point of `a / b`, negative for leading zeros after it:
the least `p` with `a / b < 10^p`, found from the digit counts of `a` and `b`. -/
def magnitude (a b : Nat) : Int :=
  let p : Int := (Nat.toDigits 10 a).length - (Nat.toDigits 10 b).length
  if a * Nat.pow 10 (-p).toNat < b * Nat.pow 10 p.toNat then p else p + 1

/-- A positive decimal: its digits as a whole number, and the power of ten that scales it. -/
structure Scaled where
  digits : Nat
  power : Int
  deriving DecidableEq, Repr

/-- The decimal with the fewest digits that rounds to a finite number without its sign, and of
several such the nearest. -/
def shortest (tie : Tie) (x : Binary64) : Scaled :=
  let i := Interval.ofBinary x
  let p := magnitude i.mid i.den
  let found := (List.range 17).findSome? fun n =>
    let k := p - (n + 1 : Nat)
    (i.closest tie (Nat.pow 10 k.toNat) (Nat.pow 10 (-k).toNat)).map fun c => (⟨c, k⟩ : Scaled)
  found.getD ⟨0, 0⟩

end Decimal

end CallGraph
