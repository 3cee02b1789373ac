import ManagedHeap.Decimal
import ManagedHeap.Double

/-!
# The shortest decimal that reads back as a double

The reals that round to a finite double `x` form an interval around it.  Its ends
lie half way to the neighbours of `x` and belong to it exactly when the significand
of `x` is even.  Of the decimals in the interval `Double.shortest` takes one with
the fewest digits; of those the one nearest to `x`; of two at the same distance the
one whose last digit is even.

A grid of decimals with a fixed last place has a point in the interval exactly when
one of the two grid points next to `x` is in it.  So it is enough to look at those
two, from the coarsest grid to the finest.
-/

namespace ManagedHeap

namespace Double

/-- The magnitudes that round to a double, in units of `2 ^ scale`: from `low` to
`high`, around `mid`. -/
structure Rounding where
  low : Nat
  mid : Nat
  high : Nat
  scale : Int
  closed : Bool
deriving DecidableEq, Repr

/-- The rounding interval of a finite double.  The gap below a power of two is half
the gap above it, except at the bottom of the exponent range. -/
def rounding (x : Double) : Rounding :=
  let m := x.significand
  let below := if x.fraction = 0 ∧ 1 < x.exponentField then 1 else 2
  ⟨4 * m - below, 4 * m, 4 * m + 2, x.exponent - 2, m % 2 == 0⟩

/-- Two numbers `a * 2 ^ s` and `b * 10 ^ k` as whole numbers in one common unit. -/
def commonUnit (s k : Int) (a b : Nat) : Nat × Nat :=
  ((a * Nat.pow 10 (-k).toNat) <<< s.toNat, (b * Nat.pow 10 k.toNat) <<< (-s).toNat)

/-- Whether the decimal `c * 10 ^ k` rounds to the double. -/
def Rounding.contains (r : Rounding) (c : Nat) (k : Int) : Bool :=
  let (low, point) := commonUnit r.scale k r.low c
  let (high, _) := commonUnit r.scale k r.high c
  if r.closed then low ≤ point && point ≤ high else low < point && point < high

/-- The multiple of `10 ^ k` next below the double, in units of `10 ^ k`. -/
def Rounding.floor (r : Rounding) (k : Int) : Nat :=
  let (mid, one) := commonUnit r.scale k r.mid 1
  mid / one

/-- Whether, of `c * 10 ^ k` and the next grid point above it, the lower one is
taken: the nearer one, and on a tie the even one. -/
def Rounding.prefersFloor (r : Rounding) (c : Nat) (k : Int) : Bool :=
  let (twice, between) := commonUnit r.scale k (2 * r.mid) (2 * c + 1)
  twice < between || (twice == between && c % 2 == 0)

/-- The point of the grid of multiples of `10 ^ k` to write, if the grid has a point
that rounds to the double. -/
def Rounding.onGrid? (r : Rounding) (k : Int) : Option Nat :=
  let c := r.floor k
  match r.contains c k, r.contains (c + 1) k with
  | true, true => some (if r.prefersFloor c k then c else c + 1)
  | true, false => some c
  | false, true => some (c + 1)
  | false, false => none

/-- The place of the first digit: the `e` with `10 ^ (e - 1) ≤ x < 10 ^ e` for a
positive finite double `x`, all of which are above `10 ^ -340`. -/
def Rounding.magnitude (r : Rounding) : Int :=
  (decimalDigits (r.floor (-340))).length - (340 : Int)

/-- The shortest decimal that rounds to a positive finite double.  Seventeen digits
are always enough. -/
def shortest (x : Double) : Numeral :=
  let r := x.rounding
  let e := r.magnitude
  let found := (List.range 17).findSome? fun (n : Nat) =>
    let k := e - 1 - n
    (r.onGrid? k).map fun c => Numeral.ofScaled c k
  found.getD (Numeral.ofScaled (r.floor (e - 17)) (e - 17))

/-! ## The spelling of a number -/

/-- The text of a number: whole numbers below `wholeLimit` in full, other finite
numbers by the shortest decimal that reads back. -/
def text (x : Double) : String :=
  if x.isNaN then "NaN"
  else if x.isInfinite then if x.isNegative then "-Infinity" else "Infinity"
  else if x.isZero then "0"
  else
    let sign := if x.isNegative then "-" else ""
    match x.wholeMagnitude? with
    | some m =>
      if m < wholeLimit then sign ++ toString m
      else sign ++ (Decimal.ofText x.shortest.text).text
    | none => sign ++ (Decimal.ofText x.shortest.text).text

end Double

end ManagedHeap
