/-!
# Exact arithmetic on 64-bit integers

An operation on 64-bit integers has a result only where the result on all
integers is in range. Division and remainder follow the floor of the quotient:
they start from the division of words, which truncates, and correct it by one
divisor where the operands differ in sign and the division leaves a rest.
-/

namespace OpGraph.Word

/-- The word that stands for an integer, if the integer is in range. -/
def ofInt? (n : Int) : Option Int64 :=
  if Int64.minValue.toInt ≤ n ∧ n ≤ Int64.maxValue.toInt then some (Int64.ofInt n) else none

def add? (l r : Int64) : Option Int64 := ofInt? (l.toInt + r.toInt)

def sub? (l r : Int64) : Option Int64 := ofInt? (l.toInt - r.toInt)

def mul? (l r : Int64) : Option Int64 := ofInt? (l.toInt * r.toInt)

def abs? (n : Int64) : Option Int64 := ofInt? n.toInt.natAbs

/-- The floor of the quotient, if it is in range; the divisor is not zero. Only
the least word divided by minus one has no quotient. -/
def floorDiv? (l r : Int64) : Option Int64 :=
  if l = Int64.minValue ∧ r = -1 then none
  else
    let q := l / r
    some (if l % r ≠ 0 ∧ decide (l < 0) ≠ decide (r < 0) then q - 1 else q)

/-- What the floor of the quotient leaves over; the divisor is not zero. The
result is zero or has the sign of the divisor. -/
def floorMod (l r : Int64) : Int64 :=
  let m := l % r
  if m ≠ 0 ∧ decide (m < 0) ≠ decide (r < 0) then m + r else m

end OpGraph.Word
