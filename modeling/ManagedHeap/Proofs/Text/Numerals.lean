import ManagedHeap.Decimal
import Mathlib.Data.List.TakeWhile
import Mathlib.Tactic.Ring

/-!
# Texts of numerals

A text is cut twice, at the mark of the exponent and at the point.  Neither character is a
digit, and so each cut is made where the part before it ends: a text is read as the numeral that
was written (`Numeral.Written.ofText`), in whichever of the ways there are to write it.
-/

namespace ManagedHeap

namespace Numeral

variable {n : Numeral} {t s : String} {digits : List (Fin 10)} {e : Int}

/-! ## Ways to write a numeral -/

/-- The digits behind the point.  Without digits the point may be left out. -/
inductive FractionText : List (Fin 10) → String → Prop
  | absent : FractionText [] ""
  | pointed (digits : List (Fin 10)) : FractionText digits ("." ++ digitText digits)

/-- A whole number with or without a sign. -/
inductive SignedText : Int → String → Prop
  | plain {digits : List (Fin 10)} (hsome : digits ≠ []) :
      SignedText (wholeOf digits) (digitText digits)
  | plus {digits : List (Fin 10)} (hsome : digits ≠ []) :
      SignedText (wholeOf digits) ("+" ++ digitText digits)
  | minus {digits : List (Fin 10)} (hsome : digits ≠ []) :
      SignedText (-wholeOf digits) ("-" ++ digitText digits)

/-- The power of ten.  The zeroth may be left out. -/
inductive ExponentText : Int → String → Prop
  | absent : ExponentText 0 ""
  | lower {e : Int} {s : String} (hs : SignedText e s) : ExponentText e ("e" ++ s)
  | upper {e : Int} {s : String} (hs : SignedText e s) : ExponentText e ("E" ++ s)

/-- The text is digits, an optional fraction and an optional exponent. -/
def Written (n : Numeral) (t : String) : Prop :=
  ∃ f e, FractionText n.fraction f ∧ ExponentText n.exponent e ∧ t = digitText n.whole ++ f ++ e

/-! ## Digits -/

theorem digitOf_digitChar (d : Fin 10) : digitOf d.val.digitChar = d := by
  decide +revert

theorem isDigit_digitChar (d : Fin 10) : d.val.digitChar.isDigit = true := by
  decide +revert

@[simp] theorem map_digitOf (digits : List (Fin 10)) :
    (digitText digits).toList.map digitOf = digits := by
  simp [digitText, Function.comp_def, digitOf_digitChar]

@[simp] theorem length_digitText (digits : List (Fin 10)) :
    (digitText digits).length = digits.length := by
  simp [digitText, ← String.length_toList]

theorem isDigit_of_mem {c : Char} (hc : c ∈ (digitText digits).toList) : c.isDigit = true := by
  simp only [digitText, String.toList_ofList, List.mem_map] at hc
  obtain ⟨d, -, rfl⟩ := hc
  exact isDigit_digitChar d

@[simp] theorem digitText_append (a b : List (Fin 10)) :
    digitText (a ++ b) = digitText a ++ digitText b := by
  simp [digitText, String.ofList_append]

theorem foldl_wholeOf (digits : List (Fin 10)) (start : Nat) :
    digits.foldl (fun (n : Nat) d => 10 * n + d.val) start =
      start * 10 ^ digits.length + wholeOf digits := by
  induction digits generalizing start with
  | nil => simp [wholeOf]
  | cons d digits ih =>
      have hwhole : wholeOf (d :: digits) = d.val * 10 ^ digits.length + wholeOf digits := by
        simpa [wholeOf] using ih d.val
      rw [List.foldl_cons, ih, hwhole, List.length_cons]
      ring

theorem wholeOf_append (a b : List (Fin 10)) :
    wholeOf (a ++ b) = wholeOf a * 10 ^ b.length + wholeOf b := by
  rw [wholeOf, List.foldl_append, foldl_wholeOf b]
  rfl

@[simp] theorem wholeOf_zeros (count : Nat) : wholeOf (List.replicate count 0) = 0 := by
  induction count with
  | zero => rfl
  | succ count ih => rw [List.replicate_succ', wholeOf_append, ih]; rfl

/-! ## Reading a whole number -/

theorem natural?_digitText (hsome : digits ≠ []) :
    natural? (digitText digits).toList = some (wholeOf digits) := by
  have hempty : (digitText digits).toList ≠ [] := by simpa [digitText] using hsome
  have hall : (digitText digits).toList.all Char.isDigit = true :=
    List.all_eq_true.mpr fun c hc => isDigit_of_mem hc
  simp [natural?, hall, hempty]

theorem SignedText.signed? (hs : SignedText e s) : Numeral.signed? s.toList = some e := by
  cases hs with
  | @plain digits hsome =>
      have hread := natural?_digitText hsome
      cases ht : (digitText digits).toList with
      | nil => simp [ht, natural?] at hread
      | cons c rest =>
          -- a digit is not taken for a sign
          have hdigit : c.isDigit = true := isDigit_of_mem (by rw [ht]; exact List.mem_cons_self)
          rw [ht] at hread
          unfold Numeral.signed?
          split
          · next heq => simp [List.cons.inj heq |>.1, Char.isDigit] at hdigit
          · next heq => simp [List.cons.inj heq |>.1, Char.isDigit] at hdigit
          · rw [hread, Option.map_some]
  | plus hsome =>
      rw [String.toList_append, show "+".toList = ['+'] from rfl, List.singleton_append,
        Numeral.signed?, natural?_digitText hsome, Option.map_some]
  | minus hsome =>
      rw [String.toList_append, show "-".toList = ['-'] from rfl, List.singleton_append,
        Numeral.signed?, natural?_digitText hsome, Option.map_some]

/-- A number that a machine integer of 32 bits holds. -/
def Fits (e : Int) : Prop :=
  Int32.minValue.toInt ≤ e ∧ e ≤ Int32.maxValue.toInt

theorem SignedText.int32? (hs : SignedText e s) (hfits : Fits e) :
    Numeral.int32? s.toList = some e := by
  rw [Numeral.int32?, hs.signed?, Option.filter_some, if_pos]
  rwa [Bool.and_eq_true, decide_eq_true_eq, decide_eq_true_eq]

/-! ## Cutting a text -/

variable {p : Char → Bool} {a b : List Char} {c : Char}

theorem splitOnce_append (ha : ∀ x ∈ a, p x = false) (hc : p c = true) :
    splitOnce p (a ++ c :: b) = some (a, b) := by
  have hbefore : ∀ x ∈ a, (!p x) = true := by simpa using ha
  rw [splitOnce, List.dropWhile_append_of_pos hbefore, List.takeWhile_append_of_pos hbefore]
  simp [hc]

theorem splitOnce_eq_none (ha : ∀ x ∈ a, p x = false) : splitOnce p a = none := by
  have hall : a.dropWhile (!p ·) = [] := by simpa [List.dropWhile_eq_nil_iff] using ha
  rw [splitOnce, hall]

/-- Neither the point nor a mark is a digit. -/
theorem not_digit_of_mem (hc : c ∈ (digitText digits).toList) : c ≠ '.' ∧ c ≠ 'e' ∧ c ≠ 'E' := by
  have hdigit := isDigit_of_mem hc
  refine ⟨?_, ?_, ?_⟩ <;> rintro rfl <;> exact absurd hdigit (by decide)

theorem FractionText.length_le (hf : FractionText digits s) : digits.length ≤ s.length := by
  cases hf with
  | absent => exact Nat.zero_le _
  | pointed => rw [String.length_append, length_digitText]; omega

/-- The digits are cut at the point, if there is one. -/
theorem FractionText.split (hf : FractionText digits s) (whole : List (Fin 10)) :
    (splitOnce (· == '.') ((digitText whole).toList ++ s.toList)).getD
        ((digitText whole).toList ++ s.toList, []) =
      ((digitText whole).toList, (digitText digits).toList) := by
  have hno : ∀ c ∈ (digitText whole).toList, (c == '.') = false := fun c hc => by
    simpa using (not_digit_of_mem hc).1
  cases hf with
  | absent => rw [String.toList_empty, List.append_nil, splitOnce_eq_none hno]; rfl
  | pointed => simp [splitOnce_append hno]

/-- No mark of an exponent comes before the exponent. -/
theorem FractionText.no_mark (hf : FractionText digits s) (whole : List (Fin 10)) :
    ∀ c ∈ (digitText whole).toList ++ s.toList, (c == 'e' || c == 'E') = false := by
  intro c hc
  have hdigits {ds : List (Fin 10)} (hmem : c ∈ (digitText ds).toList) :
      (c == 'e' || c == 'E') = false := by simpa using (not_digit_of_mem hmem).2
  rcases List.mem_append.mp hc with hwhole | hfraction
  · exact hdigits hwhole
  cases hf with
  | absent => simp at hfraction
  | pointed =>
      rw [String.toList_append] at hfraction
      rcases List.mem_append.mp hfraction with hpoint | hbehind
      · obtain rfl : c = '.' := by simpa using hpoint
        rfl
      · exact hdigits hbehind

/-- A text is read as the numeral that was written. -/
theorem Written.ofText (hw : n.Written t) (hfits : Fits n.exponent) : Numeral.ofText t = n := by
  obtain ⟨f, e, hf, he, rfl⟩ := hw
  have hmarked {s : String} (mark : Char) (hs : SignedText n.exponent s)
      (hmark : (mark == 'e' || mark == 'E') = true) :
      Numeral.ofText (digitText n.whole ++ f ++ (String.singleton mark ++ s)) = n := by
    simp only [Numeral.ofText, String.toList_append, String.toList_singleton, List.singleton_append,
      splitOnce_append (hf.no_mark n.whole) hmark, hf.split, hs.int32? hfits, map_digitOf,
      Option.getD_some]
  generalize hexp : n.exponent = x at he
  cases he with
  | absent =>
      simp only [Numeral.ofText, String.toList_append, String.toList_empty, List.append_nil,
        splitOnce_eq_none (hf.no_mark n.whole), hf.split, map_digitOf, ← hexp]
  | lower hs => exact hmarked 'e' (hexp ▸ hs) rfl
  | upper hs => exact hmarked 'E' (hexp ▸ hs) rfl

/-! ## Writing a numeral -/

theorem digitText_decimalDigits (n : Nat) : digitText (decimalDigits n) = toString n := by
  induction n using decimalDigits.induct with
  | case1 n hlt =>
      rw [decimalDigits, if_pos hlt]
      simp [digitText, Nat.repr_eq_ofList_toDigits, Nat.toDigits_of_lt_base hlt, Nat.mod_eq_of_lt hlt]
  | case2 n hge ih =>
      have hdigits := Nat.toDigits_of_base_le (b := 10) (by decide) (Nat.le_of_not_lt hge)
      rw [decimalDigits, if_neg hge, digitText_append, ih]
      simp [digitText, Nat.repr_eq_ofList_toDigits, hdigits, String.ofList_append]

theorem decimalDigits_ne_nil (n : Nat) : decimalDigits n ≠ [] := by
  rw [decimalDigits]
  split <;> simp

theorem wholeOf_decimalDigits (n : Nat) : wholeOf (decimalDigits n) = n := by
  induction n using decimalDigits.induct with
  | case1 n hlt =>
      rw [decimalDigits, if_pos hlt]
      simp [wholeOf, Nat.mod_eq_of_lt hlt]
  | case2 n hge ih =>
      rw [decimalDigits, if_neg hge, wholeOf_append, ih]
      simp only [wholeOf, List.foldl_cons, List.foldl_nil, List.length_singleton, Fin.val_ofNat]
      omega

theorem signedText_plain (n : Nat) : SignedText n (toString n) := by
  have h := SignedText.plain (decimalDigits_ne_nil n)
  rwa [wholeOf_decimalDigits, digitText_decimalDigits] at h

theorem signedText_plus (n : Nat) : SignedText n ("+" ++ toString n) := by
  have h := SignedText.plus (decimalDigits_ne_nil n)
  rwa [wholeOf_decimalDigits, digitText_decimalDigits] at h

theorem signedText_minus (n : Nat) : SignedText (-n) ("-" ++ toString n) := by
  have h := SignedText.minus (decimalDigits_ne_nil n)
  rwa [wholeOf_decimalDigits, digitText_decimalDigits] at h

theorem signedText_toString (e : Int) : SignedText e (toString e) := by
  cases e with
  | ofNat n => exact signedText_plain n
  | negSucc n => exact signedText_minus (n + 1)

theorem mantissaText_eq (n : Numeral) :
    ∃ f, FractionText n.fraction f ∧ n.mantissaText = digitText n.whole ++ f := by
  refine ⟨_, ?_, rfl⟩
  split
  case isTrue hnil => exact hnil ▸ .absent
  case isFalse => exact .pointed _

theorem no_mark_mantissaText (n : Numeral) : 'e' ∉ n.mantissaText.toList := by
  obtain ⟨f, hf, hmantissa⟩ := n.mantissaText_eq
  rw [hmantissa, String.toList_append]
  exact fun hmark => absurd (hf.no_mark n.whole _ hmark) (by decide)

theorem written_of_exponentText (he : ExponentText n.exponent s) :
    n.Written (n.mantissaText ++ s) := by
  obtain ⟨f, hf, hmantissa⟩ := n.mantissaText_eq
  exact ⟨f, s, hf, he, congrArg (· ++ s) hmantissa⟩

theorem written_text (n : Numeral) : n.Written n.text := by
  refine written_of_exponentText ?_
  split
  case isTrue hzero => exact hzero ▸ .absent
  case isFalse => exact .lower (signedText_toString _)

/-- A numeral that is written is read back. -/
theorem ofText_text (hfits : Fits n.exponent) : ofText n.text = n :=
  n.written_text.ofText hfits

end Numeral

end ManagedHeap
