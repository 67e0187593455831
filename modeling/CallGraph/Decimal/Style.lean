import CallGraph.Decimal.Shortest

/-!
# Writing floating-point numbers

A number is written with the digits of its shortest decimal, in one of two layouts:
always positional, or positional for middle exponents and with a power of ten otherwise.  A
positional number always has a point with a digit on both sides.
-/

namespace CallGraph.Decimal

/-- How the digits of a floating-point number are laid out. -/
inductive Layout where
  /-- All digits around the point, whatever the size. -/
  | positional
  /-- Positional if the first digit counts a power of ten from `least` to `greatest`, and with an
  exponent otherwise. -/
  | mixed (least greatest : Int)
  deriving DecidableEq, Repr

/-- How a floating-point number is written. -/
structure Style where
  layout : Layout
  /-- Which of two equally near decimals is written. -/
  tie : Tie
  deriving DecidableEq, Repr

/-- The digits without trailing zeros. -/
def trimZeros (digits : List Char) : List Char :=
  (digits.reverse.dropWhile (· = '0')).reverse

/-- The digits `ds` around the point, where the first of them counts the power `e` of ten. -/
def aroundPoint (ds : List Char) (e : Int) : List Char :=
  if e < 0 then
    '0' :: '.' :: (List.replicate (-e - 1).toNat '0' ++ ds)
  else
    let whole := e.toNat + 1
    let rest := ds.drop whole
    ds.take whole ++ List.replicate (whole - ds.length) '0' ++
      '.' :: (if rest.isEmpty then ['0'] else rest)

/-- The digits `ds` as a mantissa with the power `e` of ten, whose sign is always written. -/
def withExponent (ds : List Char) (e : Int) : List Char :=
  let rest := ds.drop 1
  ds.take 1 ++ (if rest.isEmpty then [] else '.' :: rest) ++
    'e' :: (if e < 0 then '-' else '+') :: Nat.toDigits 10 e.natAbs

/-- The text of a floating-point number. -/
def Style.render (style : Style) (x : Binary64) : String :=
  if x.isNaN then "NaN"
  else
    let sign := if x.negative then ['-'] else []
    let body :=
      if x.isInfinite then ['i', 'n', 'f']
      else if x.isZero then ['0', '.', '0']
      else
        let d := shortest style.tie x
        let all := Nat.toDigits 10 d.digits
        let e := d.power + all.length - 1
        let ds := trimZeros all
        match style.layout with
        | .positional => aroundPoint ds e
        | .mixed least greatest =>
          if least ≤ e ∧ e ≤ greatest then aroundPoint ds e else withExponent ds e
    String.ofList (sign ++ body)

end CallGraph.Decimal
