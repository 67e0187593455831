import CallGraph.Toml.Text
import CallGraph.Toml.Value

/-!
# Numbers, dates and words of TOML

Digits may be divided by single underscores.  A whole number must fit 64 bits with a sign; a number
with a point or an exponent is the nearest floating-point one, which may be infinite below but not
above.  A date must exist, and a time needs its seconds.

Main results:

- Theorem `readDigits_of_digit` says that a digit in front is kept.
-/

namespace CallGraph.Toml

/-! ## Digits -/

/-- A decimal digit. -/
def isDigit (c : Char) : Bool := '0' ≤ c && c ≤ '9'

/-- The value of a digit of a base. -/
def digitOf (base : Nat) (c : Char) : Option Nat :=
  (Text.Hex.value c).filter (· < base)

/-- The digits at the front of a text, each underscore between two of them. -/
def moreDigits (base : Nat) : Reader (List Nat)
  | [] => some ([], [])
  | ['_'] => none
  | '_' :: c :: rest => do
    let d ← digitOf base c
    let (ds, rest) ← moreDigits base rest
    return (d :: ds, rest)
  | c :: rest =>
    match digitOf base c with
    | none => some ([], c :: rest)
    | some d => do
      let (ds, rest) ← moreDigits base rest
      return (d :: ds, rest)

/-- One digit or more. -/
def readDigits (base : Nat) : Reader (List Nat)
  | [] => none
  | c :: rest => do
    let d ← digitOf base c
    let (ds, rest) ← moreDigits base rest
    return (d :: ds, rest)

/-- Digits are read from the first one on, which has to be there. -/
theorem readDigits_of_digit {base d : Nat} {c : Char} (h : digitOf base c = some d)
    (s : List Char) :
    readDigits base (c :: s) = (moreDigits base s).map fun p => (d :: p.1, p.2) := by
  simp only [readDigits, h, Option.bind_eq_bind, Option.bind_some, pure]
  cases moreDigits base s <;> rfl

/-- The number that digits spell. -/
def ofDigits (base : Nat) (ds : List Nat) : Nat := ds.foldl (fun n d => base * n + d) 0

/-- A sign, true for minus, and the rest. -/
def readSign : List Char → Bool × List Char
  | '+' :: rest => (false, rest)
  | '-' :: rest => (true, rest)
  | s => (false, s)

/-- The whole digits of a decimal number: a zero stands alone. -/
def readWhole : Reader (List Nat)
  | '0' :: rest => some ([0], rest)
  | s => readDigits 10 s

/-! ## Numbers -/

/-- The floating-point number nearest to `n · 10^e`.  The bounds keep clear of numbers that are
certainly too large or too small. -/
def nearest (n : Nat) (e : Int) : Float :=
  let size := e + (Nat.toDigits 10 n).length
  if n = 0 ∨ size < -400 then 0
  else if 400 < size then 1 / 0
  else if 0 ≤ e then Float.ofScientific n false e.toNat
  else Float.ofScientific n true (-e).toNat

/-- The floating-point number of its sign, its digits and its exponent. -/
def floatValue (negative : Bool) (whole places : List Nat) (e : Int) : Option Value :=
  let x := nearest (ofDigits 10 (whole ++ places)) (e - places.length)
  if negative then some (.float (.ofFloat (-x)))
  else if x.isInf then none
  else some (.float (.ofFloat x))

/-- A whole number that fits 64 bits with a sign. -/
def integerValue (n : Int) : Option Value :=
  if -0x8000000000000000 ≤ n ∧ n < 0x8000000000000000 then some (.integer n) else none

/-- The exponent behind its mark. -/
def readExponent : Reader Int := fun s => do
  let (negative, s) := readSign s
  let (ds, rest) ← readDigits 10 s
  let n : Int := ofDigits 10 ds
  return (if negative then -n else n, rest)

/-- An exponent, if there is one. -/
def readExponentIf : Reader Int
  | c :: rest => if c = 'e' || c = 'E' then readExponent rest else some (0, c :: rest)
  | [] => some (0, [])

/-- A decimal number without its sign. -/
def readDecimal (negative : Bool) : Reader Value
  | 'i' :: 'n' :: 'f' :: rest =>
    some (.float ⟨if negative then 0xFFF0000000000000 else 0x7FF0000000000000⟩, rest)
  | 'n' :: 'a' :: 'n' :: rest => some (.float ⟨0x7FF8000000000000⟩, rest)
  | s => do
    let (whole, rest) ← readWhole s
    match rest with
    | '.' :: rest =>
      let (places, rest) ← readDigits 10 rest
      let (e, rest) ← readExponentIf rest
      return (← floatValue negative whole places e, rest)
    | c :: _ =>
      if c = 'e' || c = 'E' then
        let (e, rest) ← readExponentIf rest
        return (← floatValue negative whole [] e, rest)
      else
        let n : Int := ofDigits 10 whole
        return (← integerValue (if negative then -n else n), rest)
    | [] =>
      let n : Int := ofDigits 10 whole
      return (← integerValue (if negative then -n else n), [])

/-- A whole number of another base. -/
def readBased (base : Nat) : Reader Value := fun s => do
  let (ds, rest) ← readDigits base s
  return (← integerValue (ofDigits base ds), rest)

/-- A number. -/
def readNumber : Reader Value
  | '0' :: 'x' :: rest => readBased 16 rest
  | '0' :: 'o' :: rest => readBased 8 rest
  | '0' :: 'b' :: rest => readBased 2 rest
  | s =>
    let (negative, rest) := readSign s
    readDecimal negative rest

/-! ## Dates and times -/

/-- Exactly `n` digits that spell a number between two limits. -/
def readField (n least greatest : Nat) : Reader Nat := fun s => do
  let ds ← (s.take n).mapM (digitOf 10)
  let value := ofDigits 10 ds
  if ds.length = n ∧ least ≤ value ∧ value ≤ greatest then return (value, s.drop n) else none

/-- One fixed character. -/
def readMark (mark : Char) : List Char → Option (List Char)
  | c :: rest => if c = mark then some rest else none
  | [] => none

/-- The days of a month. -/
def daysIn (year month : Nat) : Nat :=
  if month = 2 then
    if year % 4 = 0 ∧ (year % 100 ≠ 0 ∨ year % 400 = 0) then 29 else 28
  else if month = 4 ∨ month = 6 ∨ month = 9 ∨ month = 11 then 30
  else 31

/-- The text after a date. -/
def skipDate (s : List Char) : Option (List Char) := do
  let (year, s) ← readField 4 0 9999 s
  let s ← readMark '-' s
  let (month, s) ← readField 2 1 12 s
  let s ← readMark '-' s
  let (_, s) ← readField 2 1 (daysIn year month) s
  return s

/-- The text after the fraction of a second, if there is one. -/
def skipFraction : List Char → List Char
  | '.' :: c :: rest => if isDigit c then rest.dropWhile isDigit else '.' :: c :: rest
  | s => s

/-- The text after a time. -/
def skipTime (s : List Char) : Option (List Char) := do
  let (_, s) ← readField 2 0 23 s
  let s ← readMark ':' s
  let (_, s) ← readField 2 0 59 s
  let s ← readMark ':' s
  let (_, s) ← readField 2 0 60 s
  return skipFraction s

/-- The text after an offset from universal time. -/
def skipOffset (s : List Char) : Option (List Char) :=
  match s with
  | c :: rest =>
    if c = 'Z' || c = 'z' then some rest
    else if c = '+' || c = '-' then do
      let (_, rest) ← readField 2 0 23 rest
      let rest ← readMark ':' rest
      let (_, rest) ← readField 2 0 59 rest
      return rest
    else none
  | [] => none

/-- The text after the time and the offset that may follow a date. -/
def skipTimeOfDay : List Char → List Char
  | c :: rest =>
    if c = 'T' || c = 't' || c = ' ' then
      match skipTime rest with
      | some rest => (skipOffset rest).getD rest
      | none => c :: rest
    else c :: rest
  | [] => []

/-- The text after a date, a time, or both. -/
def skipDateTime (s : List Char) : Option (List Char) :=
  match skipDate s with
  | some rest => some (skipTimeOfDay rest)
  | none => skipTime s

/-! ## Values that hold no other -/

/-- A value that holds no other. -/
def readScalar : Reader Value := fun s =>
  match s with
  | '"' :: _ | '\'' :: _ => (readText s).map fun p => (.text p.1, p.2)
  | 't' :: 'r' :: 'u' :: 'e' :: rest => some (.bool true, rest)
  | 'f' :: 'a' :: 'l' :: 's' :: 'e' :: rest => some (.bool false, rest)
  | _ =>
    match skipDateTime s with
    | some rest => some (.dateTime, rest)
    | none => readNumber s

end CallGraph.Toml
