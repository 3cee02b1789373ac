import ManagedHeap.Text.Units

/-!
# The content of buffers

What the operations on buffers do to the content, whatever the encoding is: `size` counts
it, `get?` and `slice?` read it, `append?` extends it and `packed` keeps it.  Buffers with
the same content are the ones that `sameContent` compares as equal.
-/

namespace ManagedHeap

namespace Units

variable {u v out part : Units} {i start stop : Nat} {x : UInt16}

@[simp] theorem toList_empty (encoding : Encoding) : (empty encoding).toList = [] := by
  cases encoding <;> rfl

@[simp] theorem encoding_empty (encoding : Encoding) : (empty encoding).encoding = encoding := by
  cases encoding <;> rfl

theorem length_toList (u : Units) : u.toList.length = u.size := by
  cases u <;> simp [toList, size]

theorem get?_eq (u : Units) (i : Nat) : u.get? i = u.toList[i]? := by
  cases u <;> simp [get?, toList]

theorem exists_get? (hi : i < u.size) : ∃ x, u.get? i = some x := by
  rw [← length_toList] at hi
  exact ⟨_, (u.get?_eq i).trans (List.getElem?_eq_getElem hi)⟩

theorem slice?_eq_some (hpart : u.slice? start stop = some part) :
    start ≤ stop ∧ stop ≤ u.size ∧ part.toList = (u.toList.drop start).take (stop - start) ∧
      part.encoding = u.encoding := by
  unfold slice? at hpart
  split at hpart
  case isFalse => simp at hpart
  case isTrue hrange =>
      refine ⟨hrange.1, hrange.2, ?_⟩
      cases u with
      | narrow bytes =>
          obtain rfl : Units.narrow (bytes.extract start stop) = part := by simpa using hpart
          simp [toList, encoding, List.extract_eq_take_drop, List.map_take, List.map_drop]
      | wide units =>
          obtain rfl : Units.wide (units.extract start stop) = part := by simpa using hpart
          simp [toList, encoding, List.extract_eq_take_drop]

theorem exists_slice? (hle : start ≤ stop) (hstop : stop ≤ u.size) :
    ∃ part, u.slice? start stop = some part := by
  unfold slice?
  rw [if_pos ⟨hle, hstop⟩]
  cases u <;> exact ⟨_, rfl⟩

/-! ## Narrow units -/

theorem isNarrowUnit_toUInt16 (b : UInt8) : isNarrowUnit b.toUInt16 = true := by
  have hlt := b.toNat_lt
  simp only [isNarrowUnit, decide_eq_true_eq, UInt16.le_iff_toNat_le, UInt8.toNat_toUInt16]
  show b.toNat ≤ 255
  omega

theorem toUInt16_toUInt8 (hx : isNarrowUnit x = true) : x.toUInt8.toUInt16 = x := by
  simp only [isNarrowUnit, decide_eq_true_eq, UInt16.le_iff_toNat_le] at hx
  apply UInt16.toNat_inj.mp
  rw [UInt8.toNat_toUInt16, UInt16.toNat_toUInt8]
  exact Nat.mod_eq_of_lt (Nat.lt_succ_of_le hx)

/-- A buffer that says that its units fit the narrow encoding is right. -/
theorem isNarrowUnit_of_fitsNarrow (hfits : u.fitsNarrow = true) (hx : x ∈ u.toList) :
    isNarrowUnit x = true := by
  cases u with
  | narrow bytes =>
      obtain ⟨b, -, rfl⟩ := List.mem_map.mp hx
      exact isNarrowUnit_toUInt16 b
  | wide units =>
      rw [fitsNarrow, Array.all_eq_true_iff_forall_mem] at hfits
      exact hfits x (by simpa [toList] using hx)

theorem toList_ofByte (hx : isNarrowUnit x = true) : (ofByte x.toUInt8).toList = [x] := by
  simp [ofByte, toList, toUInt16_toUInt8 hx]

theorem fitsNarrow_of_encoding (hnarrow : u.encoding = .narrow) : u.fitsNarrow = true := by
  cases u with
  | narrow bytes => rfl
  | wide units => simp [encoding] at hnarrow

theorem map_toUInt8_toUInt16 (units : List UInt16)
    (hnarrow : ∀ x ∈ units, isNarrowUnit x = true) :
    (units.map UInt16.toUInt8).map UInt8.toUInt16 = units := by
  rw [List.map_map]
  calc units.map (UInt8.toUInt16 ∘ UInt16.toUInt8) = units.map id :=
        List.map_congr_left fun x hx => toUInt16_toUInt8 (hnarrow x hx)
    _ = units := List.map_id units

/-! ## Building buffers -/

theorem append?_eq_some (happend : out.append? u = some v) :
    v.toList = out.toList ++ u.toList ∧ v.encoding = out.encoding := by
  unfold append? at happend
  -- one case for each pair of encodings; only wide units in a narrow buffer may be refused
  cases out with
  | narrow a =>
      cases u with
      | narrow b =>
          obtain rfl : Units.narrow (a ++ b) = v := by simpa using happend
          simp [toList, encoding]
      | wide b =>
          simp only at happend
          split at happend
          case isFalse => simp at happend
          case isTrue hnarrow =>
              obtain rfl : Units.narrow (a ++ b.map UInt16.toUInt8) = v := by simpa using happend
              rw [Array.all_eq_true_iff_forall_mem] at hnarrow
              have hb := map_toUInt8_toUInt16 b.toList (by simpa using hnarrow)
              simp [toList, encoding, hb]
  | wide a =>
      cases u with
      | narrow b =>
          obtain rfl : Units.wide (a ++ b.map UInt8.toUInt16) = v := by simpa using happend
          simp [toList, encoding]
      | wide b =>
          obtain rfl : Units.wide (a ++ b) = v := by simpa using happend
          simp [toList, encoding]

/-- Wide buffers take all units, and narrow ones take narrow units. -/
theorem exists_append?
    (hfits : out.encoding = .narrow → ∀ x ∈ u.toList, isNarrowUnit x = true) :
    ∃ v, out.append? u = some v := by
  cases out with
  | narrow a =>
      cases u with
      | narrow b => exact ⟨_, rfl⟩
      | wide b =>
          have hnarrow : b.all isNarrowUnit = true := by
            rw [Array.all_eq_true_iff_forall_mem]
            exact fun x hx => hfits rfl x (Array.mem_toList_iff.mpr hx)
          exact ⟨.narrow (a ++ b.map UInt16.toUInt8), by simp [append?, hnarrow]⟩
  | wide a => cases u <;> exact ⟨_, rfl⟩

@[simp] theorem toList_packed (u : Units) : u.packed.toList = u.toList := by
  unfold packed
  cases u with
  | narrow bytes => rfl
  | wide units =>
      simp only
      split
      case isFalse => rfl
      case isTrue hnarrow =>
          rw [Array.all_eq_true_iff_forall_mem] at hnarrow
          have hunits := map_toUInt8_toUInt16 units.toList (by simpa using hnarrow)
          simpa [toList] using hunits

@[simp] theorem toList_pair (a b : UInt16) : (pair a b).toList = [a, b] := by
  rw [pair, toList_packed]
  rfl

/-! ## Texts -/

theorem toUInt16_ofNat {n : Nat} (hn : n ≤ 0xff) : (UInt8.ofNat n).toUInt16 = UInt16.ofNat n := by
  apply UInt16.toNat_inj.mp
  rw [UInt8.toNat_toUInt16, UInt8.toNat_ofNat', UInt16.toNat_ofNat']
  omega

/-- The units of a text, whether they are stored narrow or wide. -/
theorem toList_ofText (content : String) : (ofText content).toList = Utf16.encode content := by
  unfold ofText
  split
  case isFalse => rfl
  case isTrue hnarrow =>
      rw [List.all_eq_true] at hnarrow
      have hone : ∀ c ∈ content.toList, Utf16.unitsOf c = [(UInt8.ofNat c.toNat).toUInt16] := by
        intro c hc
        have hle : c.toNat ≤ 0xff := by simpa using hnarrow c hc
        simp only [Utf16.unitsOf]
        rw [if_pos (by omega), toUInt16_ofNat hle]
      rw [Utf16.encode, List.flatMap_def, List.map_congr_left hone, ← List.flatMap_def,
        ← List.map_eq_flatMap]
      simp [toList]

/-! ## Comparing -/

theorem map_toUInt16_inj {a b : List UInt8} :
    a.map UInt8.toUInt16 = b.map UInt8.toUInt16 ↔ a = b := by
  apply List.map_inj_right
  intro x y hxy
  exact UInt8.toNat_inj.mp (by simpa using congrArg UInt16.toNat hxy)

theorem sameContent_iff : u.sameContent v = true ↔ u.toList = v.toList := by
  cases u with
  | narrow a =>
      cases v with
      | narrow b =>
          simp [sameContent, toList, map_toUInt16_inj, ← Array.toList_inj]
      | wide b => simp [sameContent, toList, ← Array.toList_inj]
  | wide a =>
      cases v with
      | narrow b => simp [sameContent, toList, ← Array.toList_inj]
      | wide b => simp [sameContent, toList, ← Array.toList_inj]

/-- Buffers of one encoding are the same if their contents are. -/
theorem eq_iff_toList (hencoding : u.encoding = v.encoding) : u = v ↔ u.toList = v.toList := by
  cases u with
  | narrow a =>
      cases v with
      | narrow b => simp [toList, map_toUInt16_inj, ← Array.toList_inj]
      | wide b => simp [encoding] at hencoding
  | wide a =>
      cases v with
      | narrow b => simp [encoding] at hencoding
      | wide b => simp [toList, ← Array.toList_inj]

end Units

end ManagedHeap
