/-!
# Double precision numbers

A double is given by the 64 bits of its binary interchange format: a sign bit, an
exponent field of 11 bits and a fraction of 52 bits.  Everything the heap needs to
know about a number is read off these bits in exact arithmetic.  The magnitude of a
finite double is `significand * 2 ^ exponent`.
-/

namespace ManagedHeap

/-- A double precision number, by its bits.  Two doubles are equal when their bits
are, so zero differs from negative zero and one not-a-number from another. -/
structure Double where
  bits : UInt64
deriving DecidableEq, Repr, Inhabited

namespace Double

def exponentField (x : Double) : Nat :=
  ((x.bits >>> 52) &&& 0x7ff).toNat

def fraction (x : Double) : Nat :=
  (x.bits &&& 0xfffffffffffff).toNat

/-- The leading bit of a significand, which the fraction leaves out. -/
def leadingBit : Nat := 0x10000000000000

def isNegative (x : Double) : Bool :=
  x.bits >>> 63 == 1

def isNaN (x : Double) : Bool :=
  x.exponentField == 2047 && x.fraction != 0

def isInfinite (x : Double) : Bool :=
  x.exponentField == 2047 && x.fraction == 0

/-- Zero of either sign. -/
def isZero (x : Double) : Bool :=
  x.exponentField == 0 && x.fraction == 0

/-- The whole number that a finite double scales by a power of two. -/
def significand (x : Double) : Nat :=
  if x.exponentField = 0 then x.fraction else x.fraction + leadingBit

/-- The power of two by which a finite double scales its significand. -/
def exponent (x : Double) : Int :=
  (max x.exponentField 1 : Nat) - (1075 : Int)

/-- The magnitude of a finite double, if it is a whole number. -/
def wholeMagnitude? (x : Double) : Option Nat :=
  if 0 ≤ x.exponent then
    some (x.significand <<< x.exponent.toNat)
  else
    let places := (-x.exponent).toNat
    let whole := x.significand >>> places
    if whole <<< places = x.significand then some whole else none

/-- The whole number that a double is, if it is one. -/
def whole? (x : Double) : Option Int :=
  if x.isNaN || x.isInfinite then none
  else x.wholeMagnitude?.map fun m => if x.isNegative then -(m : Int) else m

/-- The small integer that stands for a double.  Negative zero has none. -/
def smallInt? (x : Double) : Option Int32 :=
  if x.isZero && x.isNegative then none
  else match x.whole? with
    | some n =>
      if Int32.minValue.toInt ≤ n ∧ n ≤ Int32.maxValue.toInt then some (Int32.ofInt n) else none
    | none => none

/-! ## Particular doubles -/

/-- The not-a-number that the heap makes by itself. -/
def nan : Double := ⟨0x7ff8000000000000⟩

def infinity : Double := ⟨0x7ff0000000000000⟩

def zero : Double := ⟨0⟩

/-- The first whole number from which on not every whole number is a double. -/
def wholeLimit : Nat := 2 * leadingBit

/-- A whole number divided by a power of two and rounded to the nearest whole number; of
two as near, to the even one. -/
def roundShift (m places : Nat) : Nat :=
  let below := m >>> places
  let twice := 2 * (m - below <<< places)
  let unit := 1 <<< places
  if unit < twice ∨ (twice = unit ∧ below % 2 = 1) then below + 1 else below

/-- The double nearest to a whole number.  The leading bit of the magnitude gives the
exponent and the bits after it the fraction.  Below `wholeLimit` nothing is rounded off;
a fraction that is rounded up to the next power of two carries into the exponent, and
past the largest finite double the bits are those of infinity. -/
def ofInt (n : Int) : Double :=
  let m := n.natAbs
  if m = 0 then zero
  else
    let top := m.log2
    let sign := if n < 0 then 0x8000000000000000 else 0
    let significand := roundShift (m <<< (52 - top)) (top - 52)
    let magnitude := (1022 + top) * leadingBit + significand
    ⟨UInt64.ofNat (sign + min magnitude infinity.bits.toNat)⟩

end Double

end ManagedHeap
