/-!
# Decimal fractions and their spelling

A decimal numeral is read from a text: digits, digits after a point, a power of ten.  Its
significant digits make a `Decimal`, a fraction `0.d₁d₂…dₖ * 10 ^ point`.
`Decimal.text` spells it: positional notation as long as the point is near the
digits, otherwise one digit, the rest after a point, and an exponent with its sign.
-/

namespace ManagedHeap

/-- A decimal numeral as it is read from left to right: digits, digits after the
point and a power of ten. -/
structure Numeral where
  whole : List (Fin 10)
  fraction : List (Fin 10)
  exponent : Int
deriving DecidableEq, Repr

/-- The number `0.d₁d₂…dₖ * 10 ^ point` with `digits = [d₁, d₂, …, dₖ]`. -/
structure Decimal where
  digits : List (Fin 10)
  point : Int
deriving DecidableEq, Repr

/-- The digits of a natural number, the most significant first. -/
def decimalDigits (n : Nat) : List (Fin 10) :=
  if n < 10 then [Fin.ofNat 10 n]
  else decimalDigits (n / 10) ++ [Fin.ofNat 10 n]
termination_by n
decreasing_by omega

/-- The numeral of a whole number times a power of ten. -/
def Numeral.ofScaled (n : Nat) (exponent : Int) : Numeral :=
  ⟨decimalDigits n, [], exponent⟩

/-- The text of a list of digits. -/
def digitText (digits : List (Fin 10)) : String :=
  String.ofList (digits.map fun d => d.val.digitChar)

/-! ## Texts of numerals -/

namespace Numeral

/-- The text of a numeral up to the exponent, without a point if no digit is behind it. -/
def mantissaText (n : Numeral) : String :=
  digitText n.whole ++ (if n.fraction = [] then "" else "." ++ digitText n.fraction)

/-- The text of a numeral, without an exponent if it is zero. -/
def text (n : Numeral) : String :=
  n.mantissaText ++ (if n.exponent = 0 then "" else "e" ++ toString n.exponent)

/-- The text before the first character of a kind, and the text after this character. -/
def splitOnce (p : Char → Bool) (t : List Char) : Option (List Char × List Char) :=
  match t.dropWhile (!p ·) with
  | [] => none
  | _ :: after => some (t.takeWhile (!p ·), after)

/-- The digit that a character stands for. -/
def digitOf (c : Char) : Fin 10 :=
  Fin.ofNat 10 (c.toNat - '0'.toNat)

/-- The whole number that a list of digits stands for. -/
def wholeOf (digits : List (Fin 10)) : Nat :=
  digits.foldl (fun (n : Nat) d => 10 * n + d.val) 0

/-- A whole number without a sign, if the text is one. -/
def natural? (t : List Char) : Option Nat :=
  if t.isEmpty || !t.all Char.isDigit then none else some (wholeOf (t.map digitOf))

/-- A whole number with or without a sign, if the text is one. -/
def signed? (t : List Char) : Option Int :=
  match t with
  | '-' :: digits => (natural? digits).map fun (n : Nat) => -(n : Int)
  | '+' :: digits => (natural? digits).map fun (n : Nat) => (n : Int)
  | digits => (natural? digits).map fun (n : Nat) => (n : Int)

/-- A whole number of 32 bits, if the text is one. -/
def int32? (t : List Char) : Option Int :=
  (signed? t).filter fun n => Int32.minValue.toInt ≤ n && n ≤ Int32.maxValue.toInt

/-- The numeral that a text is read as.  An exponent that is no number counts as zero. -/
def ofText (t : String) : Numeral :=
  let (mantissa, exponent) :=
    match splitOnce (fun c => c == 'e' || c == 'E') t.toList with
    | some (mantissa, exponent) => (mantissa, (int32? exponent).getD 0)
    | none => (t.toList, 0)
  let (whole, fraction) := (splitOnce (· == '.') mantissa).getD (mantissa, [])
  ⟨whole.map digitOf, fraction.map digitOf, exponent⟩

end Numeral

namespace Decimal

/-- A list of digits without its final zeros. -/
def dropFinalZeros (digits : List (Fin 10)) : List (Fin 10) :=
  (digits.reverse.dropWhile (· == 0)).reverse

/-- The significant digits of a numeral.  Each leading zero that is dropped moves
the point one place; the zeros at the end have no weight. -/
def ofNumeral (n : Numeral) : Decimal :=
  let digits := n.whole ++ n.fraction
  let significant := digits.dropWhile (· == 0)
  let leading := digits.length - significant.length
  ⟨dropFinalZeros significant, n.whole.length + n.exponent - leading⟩

/-- The significant digits of a text. -/
def ofText (t : String) : Decimal :=
  ofNumeral (.ofText t)

/-! ## Spelling -/

def zeros (count : Nat) : String :=
  String.ofList (List.replicate count '0')

/-- The exponent of scientific notation, always with a sign. -/
def exponentText (e : Int) : String :=
  (if e < 0 then "e-" else "e+") ++ toString e.natAbs

/-- The spelling of a decimal.  The point may stand up to 21 places after the first
digit, or up to 5 zeros before it; further away the exponent is written out. -/
def text (x : Decimal) : String :=
  let count := x.digits.length
  if count ≤ x.point ∧ x.point ≤ 21 then
    digitText x.digits ++ zeros (x.point.toNat - count)
  else if 0 < x.point ∧ x.point ≤ 21 then
    digitText (x.digits.take x.point.toNat) ++ "." ++ digitText (x.digits.drop x.point.toNat)
  else if -6 < x.point ∧ x.point ≤ 0 then
    "0." ++ zeros (-x.point).toNat ++ digitText x.digits
  else
    digitText (x.digits.take 1)
      ++ (if 1 < count then "." ++ digitText (x.digits.drop 1) else "")
      ++ exponentText (x.point - 1)

end Decimal

end ManagedHeap
