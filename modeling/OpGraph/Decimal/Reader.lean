/-!
# Reading numbers

The texts that stand for a 64-bit integer and for a double. An integer is an
optional sign and decimal digits. A double is an optional sign followed by the
name of an infinity or of a NaN, in any mixture of cases, or by digits with an
optional point and an optional exponent; at least one digit stands before or
after the point. A double is rounded once, from the exact decimal.
-/

namespace OpGraph.Decimal

/-- A number with these digits, if there is at least one and nothing else. -/
def readDigits (cs : List Char) : Option Nat :=
  if cs.isEmpty then none
  else if cs.all Char.isDigit then some (Nat.ofDigitChars 10 cs 0)
  else none

/-- Takes an optional sign off a text and says whether it was a minus. -/
def splitSign : List Char → Bool × List Char
  | '-' :: cs => (true, cs)
  | '+' :: cs => (false, cs)
  | cs => (false, cs)

def readInteger (cs : List Char) : Option Int :=
  let (negative, rest) := splitSign cs
  (readDigits rest).map fun n => if negative then -(n : Int) else n

/-- An unsigned decimal, kept exact. -/
structure Unsigned where
  digits : Nat
  exponent : Int
deriving DecidableEq, Repr

/-- The exponent after the digits of a decimal: nothing, or a mark and an
integer. -/
def readExponent : List Char → Option Int
  | [] => some 0
  | c :: cs => if c = 'e' ∨ c = 'E' then readInteger cs else none

/-- Digits with an optional point and an optional exponent. -/
def readUnsigned (cs : List Char) : Option Unsigned :=
  let whole := cs.takeWhile Char.isDigit
  let afterWhole := cs.dropWhile Char.isDigit
  let (fraction, rest) := match afterWhole with
    | '.' :: tail => (tail.takeWhile Char.isDigit, tail.dropWhile Char.isDigit)
    | tail => ([], tail)
  if whole.isEmpty && fraction.isEmpty then none
  else (readExponent rest).map fun e =>
    ⟨Nat.ofDigitChars 10 (whole ++ fraction) 0, e - fraction.length⟩

/-- The double nearest to an exact decimal. A decimal of `10 ^ 309` or more is
beyond every finite double and one below `10 ^ -324` is rounded to zero, so
neither needs its power of ten computed. -/
def Unsigned.toFloat (d : Unsigned) : Float :=
  let size := d.exponent + (Nat.toDigits 10 d.digits).length
  if d.digits = 0 ∨ size < -323 then 0.0
  else if 309 < size then 1.0 / 0.0
  else Float.ofScientific d.digits (d.exponent < 0) d.exponent.natAbs

/-- A double without its sign. -/
def readMagnitude (cs : List Char) : Option Float :=
  let word := cs.map Char.toLower
  if word = "nan".toList then some (0.0 / 0.0)
  else if word = "inf".toList ∨ word = "infinity".toList then some (1.0 / 0.0)
  else (readUnsigned cs).map Unsigned.toFloat

/-- A double. The sign is applied last, so a negative zero can be read. -/
def readDouble (cs : List Char) : Option Float :=
  let (negative, rest) := splitSign cs
  (readMagnitude rest).map fun x => if negative then -x else x

end OpGraph.Decimal
