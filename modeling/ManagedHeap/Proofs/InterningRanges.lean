import ManagedHeap.Proofs.Heap.Overreading
import ManagedHeap.Proofs.Interning

/-!
# Interning ranges of strings

A range within a string has a canonical string, which depends on the content of the range
only: interning the same range of another string with the same content is the same
computation, whatever the layouts and encodings of the two are.

The range is not checked against the length of the string.  If the last part of the string is
a view, then a range can go on past its end into the parent of the view, and the canonical
string of what it finds there is given out (`not_refused_of_range`).  A range that ends past
the buffer below the end of the string fails, and leaves the store as it was.
-/

namespace ManagedHeap

/-! ## Content decides -/

/-- Whether a packed buffer is narrow depends on its content. -/
theorem Units.encoding_packed (u : Units) :
    u.packed.encoding = if u.toList.all isNarrowUnit then .narrow else .wide := by
  cases u with
  | narrow bytes =>
      have hall : (Units.narrow bytes).toList.all isNarrowUnit = true :=
        List.all_eq_true.mpr fun x hx => isNarrowUnit_of_fitsNarrow rfl hx
      rw [if_pos hall]
      rfl
  | wide units =>
      unfold packed
      simp only [toList, Array.all_toList]
      split <;> rfl

variable {u v : Units}

theorem Units.packed_eq (hsame : u.toList = v.toList) : u.packed = v.packed := by
  refine (eq_iff_toList ?_).mpr (by rw [toList_packed, toList_packed, hsame])
  rw [encoding_packed, encoding_packed, hsame]

theorem Units.sameContent_eq (hsame : u.toList = v.toList) (buffer : Units) :
    buffer.sameContent u = buffer.sameContent v :=
  Bool.eq_iff_iff.mpr (by rw [sameContent_iff, sameContent_iff, hsame])

theorem InternTable.firstWith_congr (hsame : u.toList = v.toList) (h : Heap) (ids : List Handle) :
    firstWith h u ids = firstWith h v ids := by
  induction ids with
  | nil => rfl
  | cons id rest ih =>
      unfold firstWith
      rw [ih]
      simp only [Units.sameContent_eq hsame]

/-- Interning is a matter of the content alone. -/
theorem internUnits_congr (hsame : u.toList = v.toList) :
    StoreM.internUnits u = StoreM.internUnits v := by
  have hfind (s : Store) (hash : UInt64) :
      s.table.find? s.heap hash u = s.table.find? s.heap hash v :=
    InternTable.firstWith_congr hsame s.heap _
  have hhash (table : InternTable) : table.hashUnits u = table.hashUnits v :=
    congrArg table.hash hsame
  unfold StoreM.internUnits StoreM.search
  simp only [hfind, hhash, Units.packed_eq hsame]

/-! ## Ranges -/

open Store

variable {s : Store} {id id' : Handle} {t : Text} {w x : List UInt16} {start count : Nat}

/-- A range that cannot be copied, or whose end does not fit a machine word, is refused. -/
theorem internRange_refused (htext : s.heap.text id = .ok t)
    (hunits : start + count < wordLimit →
      ∃ e, s.heap.copyRange id start (start + count) t.encoding = .error e) :
    ∃ e, StoreM.internRange id start count s = .error e s := by
  unfold StoreM.internRange
  rw [run_bind (show StoreM.text id s = .ok t s from run_inspect htext)]
  by_cases hword : wordLimit ≤ start + count
  · simp only [if_pos hword]
    exact ⟨.wordOverflow, rfl⟩
  · obtain ⟨e, he⟩ := hunits (Nat.lt_of_not_le hword)
    simp only [if_neg hword]
    by_cases hbuffer : count * t.encoding.width < bufferLimit
    · rw [run_bind (run_checkBuffer hbuffer)]
      exact ⟨e, run_bind_error (run_inspect_error he)⟩
    · exact ⟨.bufferTooLarge,
        run_bind_error (run_checkBuffer_refused (Nat.le_of_not_lt hbuffer))⟩

theorem ends_internRange_afforded (hs : s.Sound) (hid : s.Holds id)
    (htext : s.heap.text id = .ok t) (hx : s.heap.Affords id x) (hstop : start + count ≤ x.length)
    (hword : start + count < wordLimit) :
    Ends (StoreM.internRange id start count) s (s.Canonizes (Heap.part x start (start + count)))
      (s.RefusesContent (Heap.part x start (start + count))) := by
  obtain ⟨units, hunits, hpart⟩ :=
    hs.readable.copyRange_afforded hs.tidy hid hx htext start hstop
  unfold Ends
  rcases run_internRange htext hword hunits with hrun | ⟨hrun, hlarge⟩
  · rw [hrun]
    exact hpart ▸ ends_internUnits hs units
  · rw [hrun]
    refine Or.inr ⟨rfl, ?_⟩
    rwa [Heap.length_part hstop, Nat.add_sub_cancel_left]

/-- The same range of two strings with the same content is interned by the same computation. -/
theorem internRange_congr (hs : s.Sound) (hvalid : s.config.error? = none) (hid : s.Holds id)
    (hid' : s.Holds id') (hw : s.heap.Spells id w) (hw' : s.heap.Spells id' w)
    (hrange : start + count ≤ w.length) (hbuffer : 2 * count < bufferLimit) :
    StoreM.internRange id start count s = StoreM.internRange id' start count s := by
  have hcopy {j : Handle} (hj : s.Holds j) (hjw : s.heap.Spells j w) : ∃ units : Units,
      StoreM.internRange j start count s = StoreM.internUnits units s ∧
      units.toList = Heap.part w start (start + count) := by
    obtain ⟨t, htext⟩ := hjw.text
    obtain ⟨x, hx, hbegins⟩ := hjw.affords
    obtain ⟨units, hunits, hpart⟩ := hs.readable.copyRange_afforded hs.tidy hj hx htext start
      (hrange.trans hbegins.length_le)
    have hword := hs.readable.length_lt_wordLimit hs.tidy (Config.maxStringLength_lt hvalid) hj htext
    rw [← hs.readable.length_eq hj htext hjw] at hword
    have hrun := (run_internRange htext (by omega) hunits).resolve_right fun hlarge =>
      Nat.not_le_of_lt hbuffer hlarge.2
    exact ⟨units, hrun, hpart.trans (Heap.part_of_begins hbegins hrange)⟩
  obtain ⟨units, hrun, hunits⟩ := hcopy hid hw
  obtain ⟨units', hrun', hunits'⟩ := hcopy hid' hw'
  rw [hrun, hrun', internUnits_congr (hunits.trans hunits'.symm)]

/-- Interning a range of a held string gives out the canonical string of what can be read
there, or is refused a place for it.  Within the string that is its content, and the same
for every string with this content.  A range that ends past what can be read fails, and
leaves the store as it was. -/
theorem WellRooted.interning_ranges (hs : WellRooted s) (hid : s.Holds id)
    (htext : s.heap.text id = .ok t) (hcount : 0 < count) :
    ∃ w x, s.heap.Spells id w ∧ s.heap.Affords id x ∧ w <+: x ∧
      (start + count ≤ x.length → start + count < wordLimit →
        Ends (StoreM.internRange id start count) s
          (s.Canonizes (Heap.part x start (start + count)))
          (s.RefusesContent (Heap.part x start (start + count)))) ∧
      (¬ (start + count ≤ x.length ∧ start + count < wordLimit) →
        ∃ e, StoreM.internRange id start count s = .error e s) ∧
      (start + count ≤ w.length →
        Heap.part x start (start + count) = Heap.part w start (start + count) ∧
        start + count < wordLimit ∧
        (2 * count < bufferLimit → ∀ id', s.Holds id' → s.heap.Spells id' w →
          StoreM.internRange id' start count s = StoreM.internRange id start count s)) := by
  obtain ⟨hready, hvalid⟩ := hs.ready
  have hsound := hready.toSound
  obtain ⟨w, hw, hlength⟩ := hsound.readable.spells hid htext
  obtain ⟨x, hx, hbegins⟩ := hw.affords
  have hword := hsound.readable.length_lt_wordLimit hsound.tidy (Config.maxStringLength_lt hvalid)
    hid htext
  refine ⟨w, x, hw, hx, hbegins, ends_internRange_afforded hsound hid htext hx, fun hover => ?_,
    fun hrange => ⟨Heap.part_of_begins hbegins hrange, by omega, fun hbuffer id' hid' hw' =>
      internRange_congr hsound hvalid hid' hid hw' hw hrange hbuffer⟩⟩
  -- a range that is not afforded ends at the end of a buffer, or does not fit a machine word
  refine internRange_refused htext fun hfits => hsound.readable.copyRange_refused hid hx
    (Nat.lt_add_of_pos_right hcount) ?_ t.encoding
  exact Nat.lt_of_not_le fun hle => hover ⟨hle, hfits⟩

/-- A view of a part of a text, and a range that goes on past its end. -/
theorem WellRooted.interning_ranges_view : ∃ s : Store, WellRooted s ∧ s.Holds ⟨9⟩ ∧
    s.heap.text ⟨9⟩ = .ok (.view ⟨⟨8⟩, 0, 15, .narrow⟩) ∧ 0 < 10 ∧
    ∃ w x, s.heap.Spells ⟨9⟩ w ∧ s.heap.Affords ⟨9⟩ x ∧ w <+: x ∧
      (10 + 10 ≤ x.length → 10 + 10 < wordLimit →
        Ends (StoreM.internRange ⟨9⟩ 10 10) s (s.Canonizes (Heap.part x 10 (10 + 10)))
          (s.RefusesContent (Heap.part x 10 (10 + 10)))) ∧
      (¬ (10 + 10 ≤ x.length ∧ 10 + 10 < wordLimit) →
        ∃ e, StoreM.internRange ⟨9⟩ 10 10 s = .error e s) ∧
      (10 + 10 ≤ w.length →
        Heap.part x 10 (10 + 10) = Heap.part w 10 (10 + 10) ∧ 10 + 10 < wordLimit ∧
        (2 * 10 < bufferLimit → ∀ id', s.Holds id' → s.heap.Spells id' w →
          StoreM.internRange id' 10 10 s = StoreM.internRange ⟨9⟩ 10 10 s)) := by
  have hcheck : (((Store.create {} none).toOption.bind (replay
      [.perform (.newText "abcdefghijklmnopqrstuvwxyz" .young),
        .perform (.slice ⟨8⟩ 0 15)])).any fun s => s.isLiveRoot ⟨9⟩ &&
        decide (s.heap.text ⟨9⟩ = .ok (.view ⟨⟨8⟩, 0, 15, .narrow⟩))) = true := by
    decide +kernel
  obtain ⟨s, hs, hcheck⟩ := WellRooted.exists_replay hcheck
  rw [Bool.and_eq_true, decide_eq_true_eq] at hcheck
  have hid : s.Holds ⟨9⟩ := holds_of_isLiveRoot hcheck.1
  exact ⟨s, hs, hid, hcheck.2, by decide, hs.interning_ranges hid hcheck.2 (by decide)⟩

/-- Units 10 to 20 of a view of 15 units are those of its parent, which is longer. -/
theorem not_refused_of_range : ¬ ∀ (s : Store) (id : Handle) (t : Text) (start count : Nat),
    WellRooted s → s.Holds id → s.heap.text id = .ok t → 0 < count → t.length < start + count →
    ∃ e s', StoreM.internRange id start count s = .error e s' := by
  intro hrefused
  have hcheck : (((Store.create {} none).toOption.bind (replay
      [.perform (.newText "abcdefghijklmnopqrstuvwxyz" .young),
        .perform (.slice ⟨8⟩ 0 15)])).any fun s => s.isLiveRoot ⟨9⟩ &&
        decide (s.heap.text ⟨9⟩ = .ok (.view ⟨⟨8⟩, 0, 15, .narrow⟩)) &&
        (s.result? (StoreM.internRange ⟨9⟩ 10 10)).isSome) = true := by
    decide +kernel
  obtain ⟨s, hs, hcheck⟩ := WellRooted.exists_replay hcheck
  simp only [Bool.and_eq_true, decide_eq_true_eq, Option.isSome_iff_exists] at hcheck
  obtain ⟨⟨hroot, htext⟩, result, hresult⟩ := hcheck
  obtain ⟨e, s', hrun⟩ := hrefused s ⟨9⟩ _ 10 10 hs (holds_of_isLiveRoot hroot) htext (by decide)
    (by decide)
  simp [ok_of_result? hresult] at hrun

end ManagedHeap
