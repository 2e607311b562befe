/-!
# The fewest digits that read back

A positive finite double is a number `m * 2 ^ q`. The reals nearest to it form
an interval around that number, and any decimal inside the interval reads back
as the same double. `shortest` looks for the coarsest decimal grid with a point
in the interval and takes the point nearest to the double, the greater one when
two are equally near. All arithmetic is exact, on natural numbers.
-/

namespace OpGraph.Decimal

/-- The number `digits * 10 ^ exponent`. -/
structure Scientific where
  digits : Nat
  exponent : Int
deriving DecidableEq, Repr

/-- The reals that round to one double, counted in units of `1 / scale`: the
double is `point`, and a real belongs to the interval when it is less than
`below` under it or less than `above` over it. The two ends belong to it when
`closed` is set. -/
structure Interval where
  point : Nat
  below : Nat
  above : Nat
  scale : Nat
  closed : Bool
deriving DecidableEq, Repr

namespace Interval

/-- The interval of the positive finite double with these bits. The gap below a
power of two is half the gap above it, except at the bottom of the range, and
the ends round to the double when its significand is even. -/
def ofBits (bits : UInt64) : Interval :=
  let biased := (bits >>> 52 &&& 0x7ff).toNat
  let fraction := (bits &&& 0xfffffffffffff).toNat
  let significand := if biased = 0 then fraction else fraction + 0x10000000000000
  let exponent : Int := (max biased 1 : Nat) - 1075
  let unit := Nat.pow 2 exponent.toNat
  { point := 4 * significand * unit
    below := (if fraction = 0 ∧ 1 < biased then 1 else 2) * unit
    above := 2 * unit
    scale := 4 * Nat.pow 2 (-exponent).toNat
    closed := significand % 2 = 0 }

/-- The greatest multiple of `10 ^ k` that is not above the double. -/
def floorAt (i : Interval) (k : Int) : Nat :=
  i.point * Nat.pow 10 (-k).toNat / (Nat.pow 10 k.toNat * i.scale)

/-- How far `c * 10 ^ k` lies from the double, in units that are common to the
whole grid `10 ^ k`, and whether it lies in the interval. -/
def distance (i : Interval) (k : Int) (c : Nat) : Nat × Bool :=
  let shift := Nat.pow 10 (-k).toNat
  let here := c * (Nat.pow 10 k.toNat * i.scale)
  let there := i.point * shift
  let within (d room : Nat) : Bool := d < room || (i.closed && d == room)
  if here ≤ there then (there - here, within (there - here) (i.below * shift))
  else (here - there, within (here - there) (i.above * shift))

/-- The point of the grid `10 ^ k` that lies in the interval and is nearest to
the double, if there is one. Only the double's two neighbours on the grid can
be that point. -/
def nearestAt (i : Interval) (k : Int) : Option Nat :=
  let low := i.floorAt k
  let (lowGap, lowIn) := i.distance k low
  let (highGap, highIn) := i.distance k (low + 1)
  match lowIn, highIn with
  | true, true => if lowGap < highGap then some low else some (low + 1)
  | true, false => some low
  | false, true => some (low + 1)
  | false, false => none

/-- The number `e` with `10 ^ e ≤ x < 10 ^ (e + 1)`, for the double `x` of the
interval. -/
def magnitude (i : Interval) : Int :=
  let length (n : Nat) : Int := (Nat.toDigits 10 n).length
  if i.scale ≤ i.point then length (i.point / i.scale) - 1
  else -length ((i.scale - 1) / i.point)

/-- The coarsest grid comes first; seventeen digits always suffice. -/
def shortest (i : Interval) : Scientific :=
  let top := i.magnitude + 1
  let grids := (List.range 18).map fun (n : Nat) => top - n
  let found := grids.findSome? fun k => (i.nearestAt k).map fun c => (⟨c, k⟩ : Scientific)
  found.getD ⟨i.floorAt (top - 17), top - 17⟩

end Interval

/-- The decimal with the fewest digits that reads back as `x`, for a positive
finite `x`. -/
def shortest (x : Float) : Scientific :=
  (Interval.ofBits x.toBits).shortest

end OpGraph.Decimal
