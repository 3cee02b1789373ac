import ManagedHeap.Fault
import ManagedHeap.Proofs.Text.Numerals
import Mathlib.Algebra.Order.Field.Rat
import Mathlib.Data.List.TakeDrop
import Mathlib.Tactic.FieldSimp
import Mathlib.Tactic.Linarith

/-!
# Decimals are spelled exactly

A numeral and a decimal that have the same digits up to zeros at the ends are the same number
as soon as their last digits have the same weight (`Numeral.Pads.value`).  Both ways between
them are of this kind: the zeros that are dropped from a numeral move the point, and the four
layouts of a decimal add the zeros that bring the digits to the point, or none.

What could go wrong besides is that a layout cuts the digits behind their end or counts zeros
with a negative number.  `Decimal.spell` is the spelling with these checks, and none of them
fails where the layout is used.
-/

namespace ManagedHeap

open Numeral

variable {n m : Numeral} {x : Decimal} {t : String} {before after : Nat}

/-! ## Exact values -/

/-- The number that a numeral stands for. -/
def Numeral.value (n : Numeral) : ℚ :=
  (wholeOf n.whole + wholeOf n.fraction / 10 ^ n.fraction.length) * 10 ^ n.exponent

/-- The number `0.d₁d₂…dₖ * 10 ^ point`. -/
def Decimal.value (x : Decimal) : ℚ :=
  wholeOf x.digits / 10 ^ x.digits.length * 10 ^ x.point

/-- All digits as one whole number, times the weight of the last of them. -/
theorem Numeral.value_eq (n : Numeral) :
    n.value = wholeOf (n.whole ++ n.fraction) * 10 ^ (n.exponent - n.fraction.length) := by
  rw [Numeral.value, wholeOf_append, zpow_sub₀ (by norm_num), zpow_natCast]
  push_cast
  field_simp

theorem Decimal.value_eq (x : Decimal) :
    x.value = wholeOf x.digits * 10 ^ (x.point - x.digits.length) := by
  rw [Decimal.value, zpow_sub₀ (by norm_num), zpow_natCast]
  field_simp

/-- The numeral has the digits of the decimal, each at its place, and only zeros before and
after them. -/
structure Numeral.Pads (n : Numeral) (x : Decimal) (before after : Nat) : Prop where
  digits : n.whole ++ n.fraction =
    List.replicate before 0 ++ x.digits ++ List.replicate after 0
  place : n.exponent - n.fraction.length + after = x.point - x.digits.length

theorem Numeral.Pads.value (hp : n.Pads x before after) : n.value = x.value := by
  have hweight : (10 : ℚ) ^ (x.point - x.digits.length) =
      10 ^ after * 10 ^ (n.exponent - n.fraction.length) := by
    rw [← hp.place, zpow_add₀ (by norm_num), zpow_natCast, mul_comm]
  rw [Numeral.value_eq, Decimal.value_eq, hp.digits, hweight, wholeOf_append, wholeOf_append,
    wholeOf_zeros, wholeOf_zeros, List.length_replicate]
  push_cast
  ring

/-! ## Significant digits -/

/-- There is a first digit and a last one, and neither is a zero. -/
structure Decimal.Normal (x : Decimal) : Prop where
  nonempty : x.digits ≠ []
  first : x.digits.head? ≠ some 0
  last : x.digits.getLast? ≠ some 0

/-- The zeros that are dropped and what is left. -/
theorem dropWhile_zeros (digits : List (Fin 10)) :
    digits = List.replicate (digits.length - (digits.dropWhile (· == 0)).length) 0 ++
      digits.dropWhile (· == 0) := by
  induction digits with
  | nil => rfl
  | cons d digits ih =>
      rw [List.dropWhile_cons]
      split
      case isTrue hzero =>
          obtain rfl : d = 0 := by simpa using hzero
          have hle := (List.dropWhile_suffix (l := digits) (· == 0)).length_le
          rw [List.length_cons, Nat.succ_sub hle, List.replicate_succ, List.cons_append, ← ih]
      case isFalse => simp

theorem Decimal.dropFinalZeros_eq (digits : List (Fin 10)) :
    ∃ count, digits = dropFinalZeros digits ++ List.replicate count 0 := by
  have h := congrArg List.reverse (dropWhile_zeros digits.reverse)
  rw [List.reverse_reverse, List.reverse_append, List.reverse_replicate] at h
  exact ⟨_, h⟩

/-- The significant digits are those of the numeral, each at its place. -/
theorem Decimal.pads_ofNumeral (n : Numeral) :
    ∃ before after, n.Pads (ofNumeral n) before after := by
  obtain ⟨count, hcount⟩ := dropFinalZeros_eq ((n.whole ++ n.fraction).dropWhile (· == 0))
  have hall := dropWhile_zeros (n.whole ++ n.fraction)
  refine ⟨(n.whole ++ n.fraction).length - ((n.whole ++ n.fraction).dropWhile (· == 0)).length,
    count, ?_, ?_⟩
  · rw [List.append_assoc]
    exact hall.trans (congrArg _ hcount)
  · have hle := (List.dropWhile_suffix (l := n.whole ++ n.fraction) (· == 0)).length_le
    have hlength := congrArg List.length hcount
    simp only [List.length_append, List.length_replicate] at hlength hle
    simp only [ofNumeral, List.length_append]
    omega

theorem head?_dropWhile_zeros (digits : List (Fin 10)) :
    (digits.dropWhile (· == 0)).head? ≠ some 0 := by
  intro hzero
  have hnot := List.head?_dropWhile_not (· == 0) digits
  rw [hzero] at hnot
  exact absurd hnot (by decide)

theorem Decimal.normal_ofNumeral (hnonzero : ∃ d ∈ n.whole ++ n.fraction, d ≠ 0) :
    (ofNumeral n).Normal := by
  have hfirst := head?_dropWhile_zeros (n.whole ++ n.fraction)
  have hsome : (n.whole ++ n.fraction).dropWhile (· == 0) ≠ [] := by
    simpa [List.dropWhile_eq_nil_iff] using hnonzero
  obtain ⟨count, hcount⟩ := dropFinalZeros_eq ((n.whole ++ n.fraction).dropWhile (· == 0))
  have hdigits : dropFinalZeros ((n.whole ++ n.fraction).dropWhile (· == 0)) ≠ [] := by
    -- otherwise there is nothing but zeros, and the first of them was not dropped
    intro hnil
    rw [hnil, List.nil_append] at hcount
    rw [hcount] at hfirst hsome
    cases count with
    | zero => exact hsome rfl
    | succ => exact hfirst rfl
  exact {
    nonempty := hdigits
    first := by
      rwa [hcount, List.head?_append_of_ne_nil _ hdigits] at hfirst
    last := by
      show (List.reverse _).getLast? ≠ some 0
      rw [List.getLast?_reverse]
      exact head?_dropWhile_zeros _ }

/-! ## Layouts -/

/-- The text spells the numeral, which is exactly the decimal.  Near the point it is plain, and
zeros only stand between the digits and the point, one of them before it.  Elsewhere it has one
digit before the point and an exponent with its sign, and no zeros are added. -/
structure Decimal.Layout (x : Decimal) (m : Numeral) (t : String) : Prop where
  written : m.Written t
  value : m.value = x.value
  plain_iff : 'e' ∉ t.toList ↔ -6 < x.point ∧ x.point ≤ 21
  plain : -6 < x.point ∧ x.point ≤ 21 → m.exponent = 0 ∧ t = m.mantissaText ∧
    ∃ before after, m.whole ++ m.fraction =
        List.replicate before 0 ++ x.digits ++ List.replicate after 0 ∧
      (before ≠ 0 → m.whole = [0]) ∧ (after ≠ 0 → m.fraction = [])
  scientific : ¬(-6 < x.point ∧ x.point ≤ 21) → m.whole.length = 1 ∧
    m.whole ++ m.fraction = x.digits ∧
    t = m.mantissaText ++ "e" ++ (if m.exponent < 0 then "-" else "+") ++ toString m.exponent.natAbs

theorem Decimal.layout_plain (hp : m.Pads x before after) (hpoint : -6 < x.point ∧ x.point ≤ 21)
    (hexponent : m.exponent = 0) (hbefore : before ≠ 0 → m.whole = [0])
    (hafter : after ≠ 0 → m.fraction = []) : x.Layout m m.mantissaText where
  written := by
    simpa using m.written_of_exponentText (s := "") (hexponent ▸ .absent)
  value := hp.value
  plain_iff := iff_of_true m.no_mark_mantissaText hpoint
  plain _ := ⟨hexponent, rfl, before, after, hp.digits, hbefore, hafter⟩
  scientific hfar := absurd hpoint hfar

theorem Decimal.digitText_zeros (count : Nat) :
    digitText (List.replicate count 0) = zeros count := by
  simp [digitText, zeros, Nat.digitChar]

/-- Digits up to the point or short of it, filled up with zeros. -/
theorem Decimal.layout_whole (hlow : -6 < x.point) (hshort : x.digits.length ≤ x.point)
    (hhigh : x.point ≤ 21) :
    ∃ m, x.Layout m (digitText x.digits ++ zeros (x.point.toNat - x.digits.length)) := by
  let m : Numeral := ⟨x.digits ++ List.replicate (x.point.toNat - x.digits.length) 0, [], 0⟩
  have hpads : m.Pads x 0 (x.point.toNat - x.digits.length) :=
    ⟨by simp [m], by simp only [m, List.length_nil]; omega⟩
  have htext : m.mantissaText = digitText x.digits ++ zeros (x.point.toNat - x.digits.length) := by
    simp [m, mantissaText, digitText_zeros]
  exact ⟨m, htext ▸ layout_plain hpads ⟨hlow, hhigh⟩ rfl (fun hne => absurd rfl hne) fun _ => rfl⟩

/-- Digits on both sides of the point. -/
theorem Decimal.layout_split (hlow : 0 < x.point) (hlong : x.point < x.digits.length)
    (hhigh : x.point ≤ 21) :
    ∃ m, x.Layout m (digitText (x.digits.take x.point.toNat) ++ "." ++
      digitText (x.digits.drop x.point.toNat)) := by
  let m : Numeral := ⟨x.digits.take x.point.toNat, x.digits.drop x.point.toNat, 0⟩
  have hpads : m.Pads x 0 0 :=
    ⟨by simp [m], by simp only [m, List.length_drop]; omega⟩
  have hbehind : m.fraction ≠ [] := by
    rw [ne_eq, List.drop_eq_nil_iff]
    omega
  have htext : m.mantissaText = digitText (x.digits.take x.point.toNat) ++ "." ++
      digitText (x.digits.drop x.point.toNat) := by
    rw [mantissaText, if_neg hbehind, String.append_assoc]
  exact ⟨m, htext ▸ layout_plain hpads ⟨by omega, hhigh⟩ rfl (fun hne => absurd rfl hne)
    fun hne => absurd rfl hne⟩

/-- Digits behind the point or further on. -/
theorem Decimal.layout_small (hsome : x.digits ≠ []) (hlow : -6 < x.point) (hhigh : x.point ≤ 0) :
    ∃ m, x.Layout m ("0." ++ zeros (-x.point).toNat ++ digitText x.digits) := by
  let m : Numeral := ⟨[0], List.replicate (-x.point).toNat 0 ++ x.digits, 0⟩
  have hpads : m.Pads x (1 + (-x.point).toNat) 0 :=
    ⟨by simp [m, List.replicate_add], by
      simp only [m, List.length_append, List.length_replicate]; omega⟩
  have hbehind : m.fraction ≠ [] := by simp [m, hsome]
  have htext : m.mantissaText = "0." ++ zeros (-x.point).toNat ++ digitText x.digits := by
    rw [mantissaText, if_neg hbehind, digitText_append, digitText_zeros,
      show "0." = digitText [0] ++ "." from rfl]
    simp only [m, String.append_assoc]
  exact ⟨m, htext ▸ layout_plain hpads ⟨hlow, by omega⟩ rfl (fun _ => rfl)
    fun hne => absurd rfl hne⟩

/-- The exponent of scientific notation is a number with a sign. -/
theorem Decimal.exponentText_eq (e : Int) :
    ∃ s, SignedText e s ∧ exponentText e = "e" ++ s ∧
      s = (if e < 0 then "-" else "+") ++ toString e.natAbs := by
  refine ⟨_, ?_, ?_, rfl⟩
  · split
    case isTrue hneg =>
        have h := signedText_minus e.natAbs
        rwa [show -(e.natAbs : Int) = e by omega] at h
    case isFalse hpos =>
        have h := signedText_plus e.natAbs
        rwa [show (e.natAbs : Int) = e by omega] at h
  · rw [exponentText]
    split <;> rw [← String.append_assoc] <;> rfl

/-- One digit, and an exponent with its sign. -/
theorem Decimal.layout_scientific (hsome : x.digits ≠ [])
    (hfar : ¬(-6 < x.point ∧ x.point ≤ 21)) :
    ∃ m, x.Layout m (digitText (x.digits.take 1) ++
      (if 1 < x.digits.length then "." ++ digitText (x.digits.drop 1) else "") ++
      exponentText (x.point - 1)) := by
  let m : Numeral := ⟨x.digits.take 1, x.digits.drop 1, x.point - 1⟩
  have hlength : 1 ≤ x.digits.length := List.length_pos_iff.mpr hsome
  have hcut : m.whole ++ m.fraction = x.digits := List.take_append_drop 1 x.digits
  have hpads : m.Pads x 0 0 :=
    ⟨by simp [hcut], by simp only [m, List.length_drop]; omega⟩
  obtain ⟨s, hs, hexponent, hsign⟩ := exponentText_eq m.exponent
  have htext : m.mantissaText ++ ("e" ++ s) = digitText (x.digits.take 1) ++
      (if 1 < x.digits.length then "." ++ digitText (x.digits.drop 1) else "") ++
      exponentText (x.point - 1) := by
    -- the point is written if there is a digit behind it
    have hbehind : m.fraction = [] ↔ ¬1 < x.digits.length := by
      rw [Nat.not_lt]
      exact List.drop_eq_nil_iff
    rw [← hexponent, mantissaText]
    simp only [hbehind, ite_not, m]
  refine ⟨m, htext ▸ ?_⟩
  exact {
    written := written_of_exponentText (.lower hs)
    value := hpads.value
    plain_iff := iff_of_false (fun hno => hno (by simp)) hfar
    plain := fun hpoint => absurd hpoint hfar
    scientific := fun _ => ⟨by simp [m]; omega, hcut, by
      rw [hsign]; simp only [String.append_assoc]⟩ }

/-- Every decimal that has a digit is spelled exactly. -/
theorem Decimal.layout (hsome : x.digits ≠ []) : ∃ m, x.Layout m x.text := by
  have hlength : 1 ≤ x.digits.length := List.length_pos_iff.mpr hsome
  unfold text
  dsimp only
  split
  case isTrue hwhole => exact layout_whole (by omega) hwhole.1 hwhole.2
  case isFalse =>
      split
      case isTrue hsplit => exact layout_split hsplit.1 (by omega) hsplit.2
      case isFalse =>
          split
          case isTrue hsmall => exact layout_small hsome hsmall.1 hsmall.2
          case isFalse => exact layout_scientific hsome (by omega)

/-- The last decimals on either side of the two bounds of plain notation. -/
example : [(⟨[1], 21⟩ : Decimal), ⟨[1], 22⟩, ⟨[1], -5⟩, ⟨[1], -6⟩].map Decimal.text =
    ["100000000000000000000", "1e+21", "0.000001", "1e-7"] := by
  decide +kernel

/-! ## Checked spelling -/

/-- A difference that is used as a count. -/
def checkedCount (n : Int) : Except Fault Nat :=
  if 0 ≤ n then return n.toNat else throw .wordOverflow

/-- The digits before a place and those from there on. -/
def cutDigits (digits : List (Fin 10)) (place : Nat) :
    Except Fault (List (Fin 10) × List (Fin 10)) :=
  if place ≤ digits.length then return (digits.take place, digits.drop place)
  else throw .outOfRange

/-- The spelling of a decimal where a cut behind the digits and a negative count are faults. -/
def Decimal.spell (x : Decimal) : Except Fault String := do
  let count := x.digits.length
  if count ≤ x.point ∧ x.point ≤ 21 then
    return digitText x.digits ++ zeros (← checkedCount (x.point - count))
  else if 0 < x.point ∧ x.point ≤ 21 then
    let (whole, fraction) ← cutDigits x.digits (← checkedCount x.point)
    return digitText whole ++ "." ++ digitText fraction
  else if -6 < x.point ∧ x.point ≤ 0 then
    return "0." ++ zeros (← checkedCount (-x.point)) ++ digitText x.digits
  else
    let (first, rest) ← cutDigits x.digits 1
    return digitText first ++ (if 1 < count then "." ++ digitText rest else "")
      ++ exponentText (x.point - 1)

theorem checkedCount_ok {n : Int} (hn : 0 ≤ n) : checkedCount n = .ok n.toNat :=
  if_pos hn

theorem cutDigits_ok {digits : List (Fin 10)} {place : Nat} (hplace : place ≤ digits.length) :
    cutDigits digits place = .ok (digits.take place, digits.drop place) :=
  if_pos hplace

/-- No check fails. -/
theorem Decimal.spell_eq (hsome : x.digits ≠ []) : x.spell = .ok x.text := by
  have hlength : 1 ≤ x.digits.length := List.length_pos_iff.mpr hsome
  unfold spell text
  dsimp only
  split
  case isTrue hwhole =>
      rw [checkedCount_ok (by omega), show (x.point - x.digits.length).toNat =
        x.point.toNat - x.digits.length by omega]
      rfl
  case isFalse =>
      split
      case isTrue hsplit =>
          rw [checkedCount_ok (by omega)]
          show (cutDigits x.digits x.point.toNat >>= _) = _
          rw [cutDigits_ok (by omega)]
          rfl
      case isFalse =>
          split
          case isTrue hsmall => rw [checkedCount_ok (by omega)]; rfl
          case isFalse => rw [cutDigits_ok hlength]; rfl

/-! ## From text to text -/

/-- The point is no further away than the text is long and the exponent takes it. -/
theorem Numeral.Written.point_le (hw : n.Written t)
    (hrange : -324 ≤ n.exponent ∧ n.exponent ≤ 308) :
    (Decimal.ofNumeral n).point.natAbs ≤ t.length + 324 := by
  obtain ⟨f, e, hf, -, rfl⟩ := hw
  have hfraction := hf.length_le
  rw [String.length_append, String.length_append, length_digitText]
  simp only [Decimal.ofNumeral, List.length_append]
  omega

/-- A numeral whose exponent is one of a double is read from its text without loss, whichever way
it is written: the digits are the significant ones, and the number is the same.  What is written
for them is exactly this number again.  No cut and no count on the way is out of range, and the
numbers that are counted with are bounded by the length of the text. -/
theorem Numeral.Written.respelled (hw : n.Written t)
    (hrange : -324 ≤ n.exponent ∧ n.exponent ≤ 308)
    (hnonzero : ∃ d ∈ n.whole ++ n.fraction, d ≠ 0) :
    (Decimal.ofText t).Normal ∧ (Decimal.ofText t).value = n.value ∧
      (Decimal.ofText t).point.natAbs ≤ t.length + 324 ∧
      (Decimal.ofText t).spell = .ok (Decimal.ofText t).text ∧
      ∃ m, (Decimal.ofText t).Layout m (Decimal.ofText t).text := by
  have hfits : Fits n.exponent := by
    have hmin : Int32.minValue.toInt = -2147483648 := rfl
    have hmax : Int32.maxValue.toInt = 2147483647 := rfl
    rw [Fits, hmin, hmax]
    omega
  have hread : Decimal.ofText t = Decimal.ofNumeral n := congrArg Decimal.ofNumeral (hw.ofText hfits)
  have hnormal := Decimal.normal_ofNumeral hnonzero
  obtain ⟨before, after, hpads⟩ := Decimal.pads_ofNumeral n
  rw [hread]
  exact ⟨hnormal, hpads.value.symm, hw.point_le hrange, Decimal.spell_eq hnormal.nonempty,
    Decimal.layout hnormal.nonempty⟩

/-- Zeros at both ends, and a point that moves behind the first digit. -/
theorem Numeral.Written.respelled_small :
    Numeral.Written ⟨[0, 0], [0, 1, 2, 5, 0], -7⟩ "00.01250e-7" ∧
    (Decimal.ofText "00.01250e-7").text = "1.25e-9" ∧
    (Decimal.ofText "00.01250e-7").Normal ∧
    (Decimal.ofText "00.01250e-7").value = Numeral.value ⟨[0, 0], [0, 1, 2, 5, 0], -7⟩ ∧
    ∃ m, (Decimal.ofText "00.01250e-7").Layout m "1.25e-9" := by
  have hw : Numeral.Written ⟨[0, 0], [0, 1, 2, 5, 0], -7⟩ "00.01250e-7" :=
    ⟨".01250", "e-7", .pointed _, .lower (.minus (List.cons_ne_nil 7 [])), rfl⟩
  have htext : (Decimal.ofText "00.01250e-7").text = "1.25e-9" := by decide +kernel
  obtain ⟨hnormal, hvalue, -, -, hlayout⟩ :=
    hw.respelled (by decide) ⟨1, by decide, by decide⟩
  exact ⟨hw, htext, hnormal, hvalue, htext ▸ hlayout⟩

end ManagedHeap
