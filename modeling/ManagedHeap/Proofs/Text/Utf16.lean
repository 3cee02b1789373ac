import ManagedHeap.Text.Utf16
import Mathlib.Data.Nat.Basic

/-!
# Decoding what was encoded

Decoding reads one character after the other: a unit that is no surrogate, or a pair of
surrogates.  Whatever follows the units of a character, they are read as that character
(`decodeAfter_unitsOf`), so every text is read back from its units (`decode_encode`).
-/

namespace ManagedHeap

namespace Utf16

variable {c : Char} {u high low : UInt16} {rest : List UInt16} {out : String}

/-! ## One character -/

/-- A unit that is no surrogate is read as a character, whatever follows. -/
theorem decodeAfter_of_plain (hhigh : isHigh u = false) (hlow : isLow u = false) :
    decodeAfter out (u :: rest) = decodeAfter (out.push (Char.ofNat u.toNat)) rest := by
  cases rest with
  | nil => simp [decodeAfter, hhigh, hlow]
  | cons v rest => simp [decodeAfter, hhigh, hlow]

theorem decodeAfter_of_pair (hhigh : isHigh high = true) (hlow : isLow low = true) :
    decodeAfter out (high :: low :: rest) = decodeAfter (out.push (joined high low)) rest := by
  simp [decodeAfter, hhigh, hlow]

theorem isHigh_iff : isHigh u = true ↔ 0xd800 ≤ u.toNat ∧ u.toNat < 0xdc00 := by
  simp [isHigh, UInt16.le_iff_toNat_le, UInt16.lt_iff_toNat_lt]

theorem isLow_iff : isLow u = true ↔ 0xdc00 ≤ u.toNat ∧ u.toNat < 0xe000 := by
  simp [isLow, UInt16.le_iff_toNat_le, UInt16.lt_iff_toNat_lt]

/-- The units of a character are read as that character. -/
theorem decodeAfter_unitsOf (c : Char) (rest : List UInt16) :
    decodeAfter out (unitsOf c ++ rest) = decodeAfter (out.push c) rest := by
  -- the numbers of characters leave out the surrogates
  have hvalid : c.toNat < 0xd800 ∨ 0xdfff < c.toNat ∧ c.toNat < 0x110000 := c.valid
  simp only [unitsOf]
  split
  case isTrue hsmall =>
      have hunit : (UInt16.ofNat c.toNat).toNat = c.toNat := by
        rw [UInt16.toNat_ofNat']
        exact Nat.mod_eq_of_lt hsmall
      rw [List.singleton_append, decodeAfter_of_plain, hunit, Char.ofNat_toNat]
      · rw [Bool.eq_false_iff, ne_eq, isHigh_iff]
        omega
      · rw [Bool.eq_false_iff, ne_eq, isLow_iff]
        omega
  case isFalse hlarge =>
      have hhigh : (UInt16.ofNat (0xd800 + (c.toNat - 0x10000) / 0x400)).toNat =
          0xd800 + (c.toNat - 0x10000) / 0x400 := by
        rw [UInt16.toNat_ofNat']
        omega
      have hlow : (UInt16.ofNat (0xdc00 + (c.toNat - 0x10000) % 0x400)).toNat =
          0xdc00 + (c.toNat - 0x10000) % 0x400 := by
        rw [UInt16.toNat_ofNat']
        omega
      rw [List.cons_append, List.singleton_append, decodeAfter_of_pair, joined, hhigh, hlow]
      · have hnumber : 0x10000 + (0xd800 + (c.toNat - 0x10000) / 0x400 - 0xd800) * 0x400 +
            (0xdc00 + (c.toNat - 0x10000) % 0x400 - 0xdc00) = c.toNat := by
          omega
        rw [hnumber, Char.ofNat_toNat]
      · rw [isHigh_iff]
        omega
      · rw [isLow_iff]
        omega

/-! ## Texts -/

theorem toList_decodeAfter_flatMap (out : String) (l : List Char) :
    (decodeAfter out (l.flatMap unitsOf)).toList = out.toList ++ l := by
  induction l generalizing out with
  | nil => simp [decodeAfter]
  | cons c l ih =>
      rw [List.flatMap_cons, decodeAfter_unitsOf, ih, String.toList_push, List.append_assoc,
        List.singleton_append]

/-- A text is read back from its units. -/
@[simp] theorem decode_encode (text : String) : decode (encode text) = text := by
  apply String.toList_inj.mp
  rw [decode, encode, toList_decodeAfter_flatMap, String.toList_empty, List.nil_append]

/-- Surrogates are joined only if the two halves stand next to each other. -/
example : decode [0xd83d, 0xde00] = "😀" ∧ decode [0xde00, 0xd83d] = "\ufffd\ufffd" := by
  decide +kernel

end Utf16

end ManagedHeap
