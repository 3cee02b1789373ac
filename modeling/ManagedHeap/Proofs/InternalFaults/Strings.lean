import ManagedHeap.Proofs.Concatenation
import ManagedHeap.Proofs.Equality
import ManagedHeap.Proofs.Heap.Overreading
import ManagedHeap.Proofs.InternalFaults.Rules

/-!
# Strings without internal faults

Three things can go wrong within an operation on strings: a buffer that is not there, a unit
that does not fit its buffer, and a range past the end of a string.

A short concatenation copies the buffers of its operands.  The configuration has composites
begin at the length below which a concatenation is short, and views no earlier, so an operand
of a short concatenation is neither (`Store.Sound.exists_buffer`).  A copy of two operands is
narrow only if both are, and a narrow string has narrow units only.  Ranges are checked before
they are read, apart from one: the range that is interned may end past the end of its string,
and then it is refused for this (`outOfRange_of_internRange`).
-/

namespace ManagedHeap

open Store

variable {α β : Type} {s : Store} {id left right source : Handle} {t first second : Text}
  {u v : Units} {w a b : List UInt16} {start stop count : Nat} {e : Fault}

/-! ## New strings -/

theorem faultless_checkLength {g : Unit → StoreM β} (length : Nat) (hnext : Faultless (g ()) s) :
    Faultless (StoreM.checkLength length >>= g) s := by
  unfold StoreM.checkLength
  rw [bind_assoc]
  exact faultless_get.mpr (faultless_unless rfl fun _ => hnext)

theorem faultless_newString (hs : s.Sound) (units : Units) (space : Space) :
    Faultless (StoreM.newString units space) s :=
  faultless_checkLength _ (faultless_allocateFlat hs units space)

theorem faultless_newExternal (hs : s.Sound) (units : Units) :
    Faultless (StoreM.newExternal units) s :=
  faultless_checkLength _ (faultless_allocate hs _ .young)

/-! ## Operations that are known to take something -/

/-- A computation that begins with a look at a held string, and can only be refused a place
if there is one. -/
theorem faultless_of_takes {g : Text → StoreM β} {bytes : Text → Nat} (hs : s.Sound)
    (hid : s.Holds id)
    (htakes : ∀ t, s.heap.text id = .ok t → Takes (bytes t) (StoreM.text id >>= g) s) :
    Faultless (StoreM.text id >>= g) s :=
  faultless_text hs hid fun t ht => ((takes_text ht).mp (htakes t ht)).faultless

theorem faultless_flatten (hs : s.Ready) (hid : s.Holds id) : Faultless (StoreM.flatten id) s :=
  faultless_of_takes hs.toSound hid fun _ ht => takes_flatten hs hid ht

theorem faultless_internString (hs : s.Ready) (hid : s.Holds id) :
    Faultless (StoreM.internString id) s :=
  faultless_of_takes hs.toSound hid fun _ ht => takes_internString hs hid ht

/-! ## Concatenation -/

theorem Store.RefusesString.isInternal {length bytes : Nat} {s' : Store}
    (hr : s.RefusesString length bytes e s') : e.isInternal = false := by
  cases hr with
  | tooLong => rfl
  | place _ hrefused => exact hrefused.isInternal

theorem faultless_concat (hs : s.Sound) (hvalid : s.config.error? = none) (hleft : s.Holds left)
    (hright : s.Holds right) : Faultless (StoreM.concat left right) s := by
  by_cases hspelled : ∃ a b, s.heap.Spells left a ∧ s.heap.Spells right b
  · obtain ⟨a, b, ha, hb⟩ := hspelled
    refine .of_ends (ends_concat_refuses hs hvalid hleft hright ha hb) fun e s' hrefused => ?_
    cases hrefused with
    | pair _ _ _ hplace => exact hplace.isInternal
    | longer _ _ _ hplace => exact hplace.isInternal
  · -- an operand that is no string is refused where it is looked at
    unfold StoreM.concat
    apply faultless_text hs hleft
    intro first hfirst
    obtain ⟨a, ha, -⟩ := hs.readable.spells hleft hfirst
    simp only
    split
    case isTrue => exact faultless_pure right s
    case isFalse =>
        apply faultless_text hs hright
        intro second hsecond
        obtain ⟨b, hb, -⟩ := hs.readable.spells hright hsecond
        exact absurd ⟨a, b, ha, hb⟩ hspelled

theorem faultless_flatConcat (hs : s.Sound) (hleft : s.Holds left) (hright : s.Holds right) :
    Faultless (StoreM.flatConcat left right) s := by
  by_cases hspelled : ∃ a b, s.heap.Spells left a ∧ s.heap.Spells right b
  · obtain ⟨a, b, ha, hb⟩ := hspelled
    exact .of_ends (ends_flatConcat_refuses hs hleft hright ha hb) fun _ _ hr => hr.isInternal
  · unfold StoreM.flatConcat
    apply faultless_text hs hleft
    intro first hfirst
    apply faultless_text hs hright
    intro second hsecond
    obtain ⟨a, ha, -⟩ := hs.readable.spells hleft hfirst
    obtain ⟨b, hb, -⟩ := hs.readable.spells hright hsecond
    exact absurd ⟨a, b, ha, hb⟩ hspelled

/-! ## Slicing -/

theorem faultless_slice (hs : s.Ready) (hid : s.Holds source) (start stop : Nat) :
    Faultless (StoreM.slice source start stop) s := by
  unfold StoreM.slice
  apply faultless_text hs.toSound hid
  intro t ht
  simp only
  split
  case isTrue => exact faultless_throw rfl
  case isFalse hrange =>
      split
      case isTrue => exact faultless_pure source s
      case isFalse =>
          obtain ⟨w, hw, hlength⟩ := hs.readable.spells hid ht
          refine Faultless.of_ends (ends_properSlice_spends hs hid ht hw (by omega)) ?_
          rintro e s' (hrefused | ⟨rfl, -⟩)
          · exact hrefused.isInternal
          · rfl

/-! ## Reading -/

/-- A position is checked before the unit there is read. -/
theorem faultless_unitAt (hs : s.Sound) (hid : s.Holds id) (i : Nat) :
    Faultless (StoreM.unitAt id i) s := by
  unfold StoreM.unitAt
  apply faultless_text hs hid
  intro t ht
  split
  case isTrue => exact faultless_throw rfl
  case isFalse hin =>
      obtain ⟨w, hw, hlength⟩ := hs.readable.spells hid ht
      have hi : i < w.length := by omega
      rw [← bind_pure (StoreM.inspect _),
        faultless_inspect (hs.readable.unitAt_ok hs.tidy hid hw ht hi)]
      exact faultless_pure _ s

/-- What is no string has no units. -/
theorem Heap.unitAt_error {h : Heap} (htext : h.text id = .error e) (i : Nat) :
    h.unitAt id i = .error e := by
  have hpos : 0 < h.pathBound i :=
    Nat.mul_pos (Nat.succ_pos _) (Nat.add_pos_right i (by decide))
  obtain ⟨steps, hsteps⟩ := Nat.exists_eq_succ_of_ne_zero (Nat.ne_of_gt hpos)
  rw [unitAt, hsteps, unitWithin, htext]
  rfl

/-- Reading a unit fails with an internal fault only for its position. -/
theorem Store.Sound.outOfRange_of_unitAt {i : Nat} (hs : s.Sound) (hid : s.Holds id)
    (hfail : s.heap.unitAt id i = .error e) (hinternal : e.isInternal = true) :
    e = .outOfRange ∧ ∃ t, s.heap.text id = .ok t ∧ t.length ≤ i := by
  cases htext : s.heap.text id with
  | error e' =>
      obtain rfl := Except.error.inj ((Heap.unitAt_error htext i).symm.trans hfail)
      rw [Heap.text_error (hs.find hid) htext] at hinternal
      simp [Fault.isInternal] at hinternal
  | ok t =>
      rcases hs.readable.unitWithin_walkFault hid hfail with rfl | rfl | rfl | ⟨other, rfl⟩
      · refine ⟨rfl, t, rfl, Nat.le_of_not_lt fun hin => ?_⟩
        obtain ⟨w, hw, hlength⟩ := hs.readable.spells hid htext
        have hi : i < w.length := hlength ▸ hin
        simp [hs.readable.unitAt_ok hs.tidy hid hw htext hi] at hfail
      all_goals simp [Fault.isInternal] at hinternal

theorem Heap.content_error {h : Heap} (htext : h.text id = .error e) :
    h.content id = .error e := by
  rw [content, htext]
  rfl

/-- Comparing two held objects fails only if one of them is no string. -/
theorem Store.Sound.sameText_error (hs : s.Sound) (hleft : s.Holds left) (hright : s.Holds right)
    (hfail : s.heap.sameText left right = .error e) : e.isInternal = false := by
  by_cases hsame : left = right
  · simp [Heap.sameText, hsame, pure, Except.pure] at hfail
  cases hfirst : s.heap.text left with
  | error e' =>
      obtain rfl := Heap.text_error (hs.find hleft) hfirst
      rw [Heap.sameText, if_neg hsame, hfirst] at hfail
      exact Except.error.inj hfail ▸ rfl
  | ok first =>
  cases hsecond : s.heap.text right with
  | error e' =>
      obtain rfl := Heap.text_error (hs.find hright) hsecond
      rw [Heap.sameText, if_neg hsame, hfirst, hsecond] at hfail
      exact Except.error.inj hfail ▸ rfl
  | ok second =>
      obtain ⟨a, ha, -⟩ := hs.readable.spells hleft hfirst
      obtain ⟨b, hb, -⟩ := hs.readable.spells hright hsecond
      rw [hs.readable.sameText_eq hs.tidy hs.table.unique hleft hright ha hb] at hfail
      simp at hfail

theorem faultless_sameText {g : Bool → StoreM β} (hs : s.Sound) (hleft : s.Holds left)
    (hright : s.Holds right) (hnext : ∀ answer, Faultless (g answer) s) :
    Faultless (StoreM.sameText left right >>= g) s := by
  unfold Faultless StoreM.sameText
  rw [ends_bind, ends_inspect]
  exact ⟨fun answer _ => hnext answer, fun _ he => hs.sameText_error hleft hright he⟩

/-! ## Interning -/

theorem faultless_internedUnits? (hs : s.Sound) (units : Units) :
    Faultless (StoreM.internedUnits? units) s :=
  faultless_get.mpr (takes_search hs units).faultless

theorem faultless_interned? (hs : s.Sound) (hid : s.Holds id) :
    Faultless (StoreM.interned? id) s := by
  unfold StoreM.interned?
  apply faultless_text hs hid
  intro t ht
  split
  case isTrue => exact faultless_pure _ s
  case isFalse =>
      apply faultless_text hs hid
      intro t ht
      obtain ⟨w, hw, hlength⟩ := hs.readable.spells hid ht
      obtain ⟨units, hunits, -⟩ := hs.readable.copyRange_ok hs.tidy hid hw 0
        (Nat.le_of_eq hlength.symm) .wide (by simp)
      rw [faultless_inspect hunits]
      exact faultless_internedUnits? hs units

/-- Copying a range of a string fails with an internal fault only for its end, since a range
within the string would have been copied. -/
theorem Store.Sound.outOfRange_of_copyRange (hs : s.Sound) (hid : s.Holds id)
    (htext : s.heap.text id = .ok t) (hfail : s.heap.copyRange id start stop t.encoding = .error e)
    (hinternal : e.isInternal = true) : e = .outOfRange ∧ t.length < stop := by
  rcases hs.readable.copyRange_walkFault hid htext hfail with rfl | rfl | rfl | ⟨other, rfl⟩
  · refine ⟨rfl, Nat.lt_of_not_le fun hin => ?_⟩
    obtain ⟨w, hw, hlength⟩ := hs.readable.spells hid htext
    obtain ⟨units, hunits, -⟩ :=
      hs.readable.copyRange_encoding hs.tidy hid hw htext start (hlength ▸ hin)
    simp [hunits] at hfail
  all_goals simp [Fault.isInternal] at hinternal

/-- Interning a range fails with an internal fault only for its end. -/
theorem outOfRange_of_internRange (hs : s.Sound) (hid : s.Holds id) (start count : Nat) :
    Ends (StoreM.internRange id start count) s (fun _ _ => True) fun e _ =>
      e.isInternal = true → e = .outOfRange ∧
        ∃ t, s.heap.text id = .ok t ∧ t.length < start + count := by
  have hfaultless {m : StoreM Handle} (hm : Faultless m s) : Ends m s (fun _ _ => True) fun e _ =>
      e.isInternal = true → e = .outOfRange ∧
        ∃ t, s.heap.text id = .ok t ∧ t.length < start + count :=
    hm.mono (fun _ _ h => h) fun e _ hnot hinternal => absurd hinternal (by simp [hnot])
  unfold StoreM.internRange StoreM.text
  rw [ends_bind, ends_inspect]
  refine ⟨fun t ht => ?_, fun e he => ?_⟩
  · split
    case isTrue => exact hfaultless (faultless_throw rfl)
    case isFalse =>
        unfold StoreM.checkBuffer
        simp only
        split
        case isTrue => exact hfaultless (faultless_throw rfl)
        case isFalse =>
            rw [pure_bind, ends_bind, ends_inspect]
            refine ⟨fun units _ => hfaultless (takes_internUnits hs units).faultless,
              fun e hfail hinternal => ?_⟩
            -- the walk is the one place where a range is checked against the buffers
            obtain ⟨hrange, hpast⟩ := hs.outOfRange_of_copyRange hid ht hfail hinternal
            exact ⟨hrange, t, ht, hpast⟩
  · obtain rfl := Heap.text_error (hs.find hid) he
    simp [Fault.isInternal]

end ManagedHeap
