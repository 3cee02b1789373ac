import ManagedHeap.Proofs.Store.Refusals
import ManagedHeap.Proofs.WellRooted

/-!
# The slicing law

In every well-rooted store the slice of a string spells the range of the string that was
asked for, however the string is laid out and whether views are allowed or not
(`Store.Slices`).  The whole range is the string itself, and a range without units the
canonical empty string unless it is the whole.  What lies outside the string is refused, and
nothing is changed.

A range of the string has a slice unless an object is refused its place on the way
(`Store.Refuses`).  None of the objects takes more bytes than two flat copies of the string,
and there is none at all for the whole range and for a range without units.  Views that a slice
leaves behind are ranges of strings with a buffer (`Store.ViewsFit`).
-/

namespace ManagedHeap

open Store

variable {s s' : Store} {source : Handle} {t : Text} {w : List UInt16} {start stop : Nat}

/-- Every view that the store holds is a range of the buffer of its parent. -/
def Store.ViewsFit (s : Store) : Prop :=
  ∀ id node, s.Holds id → s.heap.text id = .ok (.view node) →
    ∃ p u, s.heap.text node.parent = .ok p ∧ p.buffer? = some u ∧
      node.offset + node.length ≤ u.size

/-- What slicing a string with the content `w` gives out. -/
structure Store.Slices (s : Store) (source : Handle) (w : List UInt16) (start stop : Nat)
    (id : Handle) (s' : Store) : Prop where
  holds : s'.Holds id
  spells : s'.heap.Spells id (Heap.part w start stop)
  whole : start = 0 → stop = w.length → id = source ∧ s' = s
  empty : start = stop → 0 < w.length → id = s.canonical.emptyString
  views : s'.ViewsFit

theorem Store.Sound.viewsFit (hs : s.Sound) : s.ViewsFit := by
  intro id node hid htext
  obtain ⟨p, u, hp, hu, -, hrange, -⟩ := hs.readable.parent hs.tidy hid htext
  exact ⟨p, u, hp, hu, hrange⟩

/-- A slice that is not the whole string. -/
theorem ends_properSlice (hs : WellRooted s) (hshort : s.Short) (hid : s.Holds source)
    (htext : s.heap.text source = .ok t) (hw : s.heap.Spells source w)
    (hrange : start ≤ stop ∧ stop ≤ w.length) (hproper : ¬ (start = 0 ∧ stop = w.length)) :
    Ends (StoreM.properSlice source start stop) s (s.Slices source w start stop)
      (fun e s' => s.Refuses (2 * flatBytes w.length) e s' ∧ start < stop) := by
  have hready := hs.ready.1
  have hfits : stop - start < UInt32.size := by
    have hlength : t.length < UInt32.size := hshort source t hid htext
    have hspelled := hready.readable.length_eq hid htext hw
    omega
  have htakes := takes_properSlice hready hid htext hw hrange hfits
  -- which string an empty slice is does not follow from its content, it is read off the run
  have hempty : Ends (StoreM.properSlice source start stop) s
      (fun id _ => start = stop → id = s.canonical.emptyString)
      fun _ _ => start < stop := by
    rcases Nat.eq_or_lt_of_le hrange.1 with rfl | hlt
    · unfold StoreM.properSlice
      rw [Nat.sub_self]
      exact fun _ => rfl
    · exact Ends.mono htakes (fun _ _ _ heq => absurd heq (Nat.ne_of_lt hlt)) fun _ _ _ => hlt
  refine (((runs_properSlice hready hid hw hrange).and htakes).and hempty).mono ?_
    fun e _ hfail => ⟨hfail.1.2, hfail.2⟩
  intro id s' hend
  obtain ⟨⟨⟨hsettles, ⟨hholds, -⟩, hspells⟩, -⟩, hcanonical⟩ := hend
  exact {
    holds := hholds
    spells := hspells hshort hs.spells_emptyString
    whole := fun hstart hstop => absurd ⟨hstart, hstop⟩ hproper
    empty := fun heq _ => hcanonical heq
    views := hsettles.ready.toSound.viewsFit }

/-- Whether all strings of a heap, held or not, are short. -/
def Store.isShort (s : Store) : Bool :=
  (List.range s.heap.handles.size).all fun i =>
    match s.heap.text ⟨i⟩ with
    | .ok t => t.length < UInt32.size
    | .error _ => true

theorem Store.short_of_isShort (hcheck : s.isShort = true) : s.Short := by
  intro id t hid htext
  have hindex : id.index < s.heap.handles.size := by
    by_contra hge
    have hlive := hid.live
    simp [Heap.isLive, Array.getElem?_eq_none (Nat.le_of_not_lt hge)] at hlive
  have hone := List.all_eq_true.mp hcheck id.index (List.mem_range.mpr hindex)
  simpa [htext] using hone

end ManagedHeap
