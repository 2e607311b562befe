import OpGraph.Decimal.Shortest

/-!
# How a double is written

A double is written with the fewest digits that read back. Where the decimal
point goes is a matter of layout: numbers of moderate size are written
positionally, always with a fractional part, and the others as digits with an
exponent.
-/

namespace OpGraph.Decimal

/-- The choices left open once the digits are known: the exponents `e` for
which a number of size `10 ^ e` is written positionally, and the words for what
is not a number. -/
structure Layout where
  leastPositional : Int
  greatestPositional : Int
  notANumber : String
  infinity : String
deriving DecidableEq, Repr

namespace Layout

/-- Digits around a decimal point, for a number of size `10 ^ e`. A whole number
keeps one zero after the point. -/
def positional (digits : List Char) (e : Int) : List Char :=
  if e < 0 then
    '0' :: '.' :: (List.replicate (-e - 1).toNat '0' ++ digits)
  else
    let whole := (e + 1).toNat
    let rest := digits.drop whole
    let front := digits.take whole
    front ++ List.replicate (whole - front.length) '0' ++
      '.' :: (if rest.isEmpty then ['0'] else rest)

/-- One digit, the others after a point if there are any, and the exponent. -/
def exponential (digits : List Char) (e : Int) : List Char :=
  let rest := digits.drop 1
  digits.take 1 ++ (if rest.isEmpty then [] else '.' :: rest) ++ 'e' :: (toString e).toList

def scientific (layout : Layout) (s : Scientific) : List Char :=
  let digits := Nat.toDigits 10 s.digits
  let e := s.exponent + digits.length - 1
  if layout.leastPositional ≤ e ∧ e ≤ layout.greatestPositional then positional digits e
  else exponential digits e

/-- The text of a double that is neither negative nor a NaN. -/
def magnitude (layout : Layout) (x : Float) : String :=
  if x.isInf then layout.infinity
  else if x == 0.0 then String.ofList (positional ['0'] 0)
  else String.ofList (layout.scientific (shortest x))

/-- The text of a double. A negative zero keeps its sign. -/
def write (layout : Layout) (x : Float) : String :=
  if x.isNaN then layout.notANumber
  else if x.toBits >>> 63 = 1 then "-" ++ layout.magnitude x.abs
  else layout.magnitude x

end Layout

end OpGraph.Decimal
