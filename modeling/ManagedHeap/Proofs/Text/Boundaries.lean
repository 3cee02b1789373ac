import ManagedHeap.Proofs.Endings
import ManagedHeap.Proofs.Text.Utf8

/-!
# Going back to a boundary

A text that does not fit into the room that is left is cut at its last boundary there.  The
boundary is looked for from behind, one byte at a time, and three things could go wrong: the
search could go past the first byte, the place it stops at could be within a character, and
an earlier place than necessary could be taken.

The search looks at bytes, and a cut is made of characters.  Both meet in `isBoundary_iff`:
the boundaries of a text are the sizes of its beginnings.  The empty beginning is one of
them, so every search stops (`exists_lastBoundary`).  Where it stops, the bytes in front make
a text (`firstBytes_size`), and the last boundary within the room gives the longest
beginning there (`LastBoundary.cuts`).  So what is appended is the cut that characters taken
from the front give, too (`appendWithin_eq`).
-/

namespace ManagedHeap

namespace Utf8

variable {room bytes stop : Nat} {text cut : String}

/-! ## Boundaries -/

/-- A text can be cut after a beginning of it, and nowhere else. -/
theorem isBoundary_iff : isBoundary text bytes = true ↔
    ∃ cut : String, cut.toList <+: text.toList ∧ cut.utf8ByteSize = bytes := by
  unfold isBoundary
  rw [String.Pos.Raw.isValid_eq_true_iff, String.Pos.Raw.isValid_iff_exists_append]
  constructor
  · rintro ⟨cut, rest, htext, hpos⟩
    exact ⟨cut, begins_iff.mpr ⟨rest, htext⟩, (congrArg String.Pos.Raw.byteIdx hpos).symm⟩
  · rintro ⟨cut, hbegins, rfl⟩
    obtain ⟨rest, htext⟩ := begins_iff.mp hbegins
    exact ⟨cut, rest, htext, rfl⟩

theorem isBoundary_zero (text : String) : isBoundary text 0 = true :=
  isBoundary_iff.mpr ⟨"", List.nil_prefix, rfl⟩

/-- The bytes of a beginning are read as this beginning. -/
theorem firstBytes_size (hbegins : cut.toList <+: text.toList) :
    firstBytes text cut.utf8ByteSize = .ok cut := by
  unfold firstBytes
  rw [dif_pos (isBoundary_iff.mpr ⟨cut, hbegins, rfl⟩)]
  obtain ⟨rest, rfl⟩ := begins_iff.mp hbegins
  refine congrArg Except.ok (String.toByteArray_inj.mp ?_)
  calc (cut ++ rest).toUTF8.extract 0 cut.utf8ByteSize
      = (cut.toByteArray ++ rest.toByteArray).extract 0 cut.utf8ByteSize := by
        rw [← String.toByteArray_append]
        rfl
    _ = cut.toByteArray := ByteArray.extract_append_eq_left String.size_toByteArray.symm

/-! ## The search -/

/-- `stop` is the last boundary of a text at or before a number of bytes. -/
structure LastBoundary (text : String) (bytes stop : Nat) : Prop where
  boundary : isBoundary text stop = true
  le : stop ≤ bytes
  last : ∀ n ≤ bytes, isBoundary text n = true → n ≤ stop

/-- One step back from a place that is no boundary. -/
theorem LastBoundary.back (hl : LastBoundary text bytes stop)
    (hno : ¬ isBoundary text (bytes + 1) = true) : LastBoundary text (bytes + 1) stop where
  boundary := hl.boundary
  le := Nat.le_succ_of_le hl.le
  last n hn hboundary := by
    have hne : n ≠ bytes + 1 := by
      rintro rfl
      exact hno hboundary
    exact hl.last n (by omega) hboundary

/-- The search never gets past the first byte. -/
theorem exists_lastBoundary (text : String) (bytes : Nat) :
    ∃ stop, lastBoundary text bytes = .ok stop ∧ LastBoundary text bytes stop := by
  -- the induction is on the bytes that are left to go back
  induction bytes with
  | zero =>
      have hzero := isBoundary_zero text
      refine ⟨0, ?_, hzero, Nat.le_refl 0, fun n hn _ => hn⟩
      unfold lastBoundary
      rw [if_pos hzero]
      rfl
  | succ bytes ih =>
      unfold lastBoundary
      by_cases hboundary : isBoundary text (bytes + 1) = true
      · rw [if_pos hboundary]
        exact ⟨bytes + 1, rfl, hboundary, Nat.le_refl _, fun n hn _ => hn⟩
      · rw [if_neg hboundary]
        obtain ⟨stop, hstop, hl⟩ := ih
        exact ⟨stop, hstop, hl.back hboundary⟩

/-- The last boundary within some room is the end of the cut there. -/
theorem LastBoundary.cuts (hl : LastBoundary text room stop) :
    ∃ kept, Cuts room text kept ∧ kept.utf8ByteSize = stop := by
  obtain ⟨kept, hbegins, hsize⟩ := isBoundary_iff.mp hl.boundary
  refine ⟨kept, ⟨hbegins, hsize ▸ hl.le, fun p hp hfits => ?_⟩, hsize⟩
  -- another beginning within the room ends at a boundary, too
  have hle : p.utf8ByteSize ≤ stop := hl.last _ hfits (isBoundary_iff.mpr ⟨p, hp, rfl⟩)
  exact begins_of_size_le hp hbegins (hsize ▸ hle)

/-! ## Appending -/

/-- What is appended is the cut at the room that is left, and there always is one. -/
theorem exists_cuts_appendWithin (capacity : Nat) (out text : String) :
    ∃ kept, Cuts (capacity - out.utf8ByteSize) text kept ∧
      appendWithin capacity out text = .ok (out ++ kept) := by
  unfold appendWithin
  by_cases hfits : text.utf8ByteSize ≤ capacity - out.utf8ByteSize
  · exact ⟨text, cuts_self hfits, by rw [if_pos hfits]; rfl⟩
  · obtain ⟨stop, hstop, hl⟩ := exists_lastBoundary text (capacity - out.utf8ByteSize)
    obtain ⟨kept, hc, rfl⟩ := hl.cuts
    refine ⟨kept, hc, ?_⟩
    simp only [if_neg hfits]
    rw [hstop, ok_bind, firstBytes_size hc.begins]
    rfl

/-- Going back from the room that is left and taking characters as long as they fit come to
the same text. -/
theorem appendWithin_eq (capacity : Nat) (out text : String) :
    appendWithin capacity out text = .ok (fillWithin capacity out text) := by
  obtain ⟨kept, hc, happend⟩ := exists_cuts_appendWithin capacity out text
  obtain ⟨kept', hc', hfill⟩ := exists_cuts_fillWithin capacity out text
  rw [happend, hfill, hc.unique hc']

example : (appendWithin 5 "ab" "π€").toOption = some "abπ" := by decide +kernel

end Utf8

end ManagedHeap
