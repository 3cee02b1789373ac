import ManagedHeap.Heap.Collect
import ManagedHeap.Proofs.Heap.Changes

/-!
# Sweeping

A sweep visits the slots of one space in their order.  After some slots (`Swept`) the
unmarked objects of these slots are gone with their handles, everything else is where it
was, and the objects and bytes that the space lost are the ones that were counted.
After all of them, and when the empty end of the row is dropped, that holds of the whole
space (`Cleared`).
-/

namespace ManagedHeap

open HeapM (Freed)

namespace Heap

variable {h g : Heap} {space t : Space} {k : Nat} {freed : Freed} {id j : Handle}
  {loc : Location} {r : Resident}

/-- The objects of a space. -/
def objectsIn (h : Heap) (space : Space) : Nat :=
  (h.arena space).residents.length

/-- The bytes in use in a space. -/
def bytesIn (h : Heap) (space : Space) : Nat :=
  (h.arena space).used

/-- Nothing is housed in a slot that holds nothing. -/
theorem not_houses_of_join {i : Nat} (hnone : (h.arena space).slots[i]?.join = none) :
    ¬ h.Houses j ⟨space, i⟩ r := by
  intro hh
  rw [Option.join_eq_some_iff.mpr hh.2] at hnone
  simp at hnone

/-! ## Sweeping -/

/-- Whether a sweep of a space takes the object of `id` when it comes to its location. -/
def Doomed (h : Heap) (space : Space) (id : Handle) (loc : Location) : Prop :=
  loc.space = space ∧ h.isMarked id = false

/-- The heap `g` is `h` after the first `k` slots of a space were swept. -/
structure Swept (h : Heap) (space : Space) (k : Nat) (freed : Freed) (g : Heap) : Prop where
  wellFormed : g.WellFormed
  houses : ∀ id loc r,
    g.Houses id loc r ↔ h.Houses id loc r ∧ ¬ (h.Doomed space id loc ∧ loc.slot < k)
  marks : g.marks = h.marks
  others : ∀ t, t ≠ space → g.arena t = h.arena t
  size : (g.arena space).slots.size = (h.arena space).slots.size
  objects : g.objectsIn space + freed.objects = h.objectsIn space
  bytes : g.bytesIn space + freed.bytes = h.bytesIn space

theorem WellFormed.swept_start (hw : h.WellFormed) : h.Swept space 0 ⟨0, 0⟩ h where
  wellFormed := hw
  houses := by simp
  marks := rfl
  others _ _ := rfl
  size := rfl
  objects := rfl
  bytes := rfl

/-- A slot whose object is marked, if there is one, is left as it is. -/
theorem Swept.keep (hs : h.Swept space k freed g)
    (hkept : ∀ id r, g.Houses id ⟨space, k⟩ r → h.isMarked id = true) :
    h.Swept space (k + 1) freed g := by
  refine { hs with houses := fun id loc r => ?_ }
  rw [hs.houses]
  refine and_congr_right fun hh => not_congr (and_congr_right fun hdoomed => ?_)
  have hne : loc.slot ≠ k := by
    intro hslot
    have hloc : loc = ⟨space, k⟩ := by rw [← hdoomed.1, ← hslot]
    have hmarked := hkept id r (hloc ▸ (hs.houses id loc r).mpr
      ⟨hh, fun hd => Nat.lt_irrefl k (hslot ▸ hd.2)⟩)
    rw [hdoomed.2] at hmarked
    exact absurd hmarked (by simp)
  omega

/-- The unmarked object of a slot is taken away with its handle. -/
theorem Swept.take (hs : h.Swept space k freed g) (hh : g.Houses r.owner ⟨space, k⟩ r)
    (hunmarked : h.isMarked r.owner = false) :
    h.Swept space (k + 1) ⟨freed.objects + 1, freed.bytes + r.size⟩
      (g.erase r.owner ⟨space, k⟩ r) where
  wellFormed := hs.wellFormed.erase hh
  houses id loc x := by
    rw [hs.wellFormed.erase_houses hh, hs.houses]
    by_cases hid : id = r.owner
    · -- the object that is taken is the one of this slot
      subst hid
      refine iff_of_false (fun hx => hx.1 rfl) fun ⟨hx, hstay⟩ => hstay ?_
      obtain ⟨rfl, -⟩ := hx.unique ((hs.houses _ _ _).mp hh).1
      exact ⟨⟨rfl, hunmarked⟩, Nat.lt_succ_self k⟩
    · simp only [ne_eq, hid, not_false_eq_true, true_and]
      refine and_congr_right fun hx => not_congr (and_congr_right fun hdoomed => ?_)
      have hne : loc.slot ≠ k := by
        intro hslot
        have hbefore := (hs.houses id loc x).mpr ⟨hx, fun hd => Nat.lt_irrefl k (hslot ▸ hd.2)⟩
        apply hs.wellFormed.loc_ne hh hbefore hid
        rw [← hdoomed.1, ← hslot]
      omega
  marks := by simp [erase, hs.marks]
  others t ht := by
    rw [erase_arena, if_neg ht]
    exact hs.others t ht
  size := by
    rw [erase_arena, if_pos rfl, Arena.clear_size]
    exact hs.size
  objects := by
    have hlength := (Arena.residents_clear hh.2).length_eq
    have hbefore := hs.objects
    unfold objectsIn at hbefore ⊢
    rw [erase_arena, if_pos rfl]
    rw [List.length_cons] at hlength
    show (Arena.residents (Arena.clear _ k r)).length + (freed.objects + 1) = _
    change (Arena.residents (Arena.clear _ k r)).length + 1 = (g.arena space).residents.length
      at hlength
    omega
  bytes := by
    have hused := (hs.wellFormed.arena space).clear_used_add hh.2
    have hbefore := hs.bytes
    unfold bytesIn at hbefore ⊢
    rw [erase_arena, if_pos rfl]
    show (Arena.clear (g.arena space) k r).used + (freed.bytes + r.size) = _
    change (Arena.clear (g.arena space) k r).used + r.size = (g.arena space).used at hused
    omega

theorem Swept.ends_sweepSlot (hs : h.Swept space k freed g) {fail : Fault → Heap → Prop} :
    Ends (HeapM.sweepSlot space freed k) g (h.Swept space (k + 1)) fail := by
  unfold HeapM.sweepSlot
  rw [ends_bind, ends_get]
  cases hslot : (g.arena space).slots[k]?.join with
  | none => exact hs.keep fun id r hh => absurd hh (not_houses_of_join hslot)
  | some r =>
      have hr := Option.join_eq_some_iff.mp hslot
      have hh := hs.wellFormed.houses_of_slot hr
      simp only
      split
      case isTrue hmarked =>
          -- the resident is marked, and no other one is in the slot
          apply hs.keep
          intro id x hx
          obtain rfl : x = r := by
            have hboth := hx.2
            rw [hr] at hboth
            simpa using hboth.symm
          rw [← hs.wellFormed.owner_eq hx]
          simpa [isMarked, hs.marks] using hmarked
      case isFalse hunmarked =>
          simp only [ends_bind, ends_onArena, ends_pure]
          apply (hs.wellFormed.arena space).ends_take hr
          rw [HeapM.releaseHandle, ends_modify, handles_setArena, freeHandles_setArena]
          apply hs.take hh
          simpa [isMarked, hs.marks] using hunmarked

/-- A whole sweep: the unmarked objects of the space are gone, and nothing else. -/
structure Cleared (h : Heap) (space : Space) (freed : Freed) (g : Heap) : Prop where
  wellFormed : g.WellFormed
  houses : ∀ id loc r, g.Houses id loc r ↔ h.Houses id loc r ∧ ¬ h.Doomed space id loc
  marks : g.marks = h.marks
  others : ∀ t, t ≠ space → g.arena t = h.arena t
  objects : g.objectsIn space + freed.objects = h.objectsIn space
  bytes : g.bytesIn space + freed.bytes = h.bytesIn space

/-- Dropping the empty end of a row leaves everything where it is. -/
theorem houses_compactTail :
    (g.setArena space (g.arena space).compactTail).Houses id loc r ↔ g.Houses id loc r := by
  unfold Houses
  rw [handles_setArena, arena_setArena]
  split
  case isTrue hspace => rw [hspace, Arena.compactTail_slots_some]
  case isFalse => rfl

theorem WellFormed.compactTail (hw : g.WellFormed) :
    (g.setArena space (g.arena space).compactTail).WellFormed where
  arena t := by
    rw [arena_setArena]
    split
    · exact (hw.arena space).compactTail
    · exact hw.arena t
  free_nodup := by simpa using hw.free_nodup
  mem_free j := by simpa using hw.mem_free j
  owned j loc hhandle := by
    obtain ⟨r, hslot, hown⟩ := hw.owned j loc (by simpa using hhandle)
    exact ⟨r, (houses_compactTail.mpr ⟨by simpa using hhandle, hslot⟩).2, hown⟩
  settled t i r hslot := by
    have hbefore : (g.arena t).slots[i]? = some (some r) := by
      rw [arena_setArena] at hslot
      split at hslot
      case isTrue hspace => exact hspace ▸ Arena.compactTail_slots_some.mp hslot
      case isFalse => exact hslot
    simpa using hw.settled t i r hbefore

theorem WellFormed.ends_sweep (hw : h.WellFormed) {fail : Fault → Heap → Prop} :
    Ends (HeapM.sweep space) h (h.Cleared space) fail := by
  unfold HeapM.sweep
  simp only [ends_bind, ends_get, ends_modify, ends_pure]
  have hloop : Ends ((List.range (h.arena space).slots.size).foldlM (HeapM.sweepSlot space) ⟨0, 0⟩)
      h (h.Swept space (h.arena space).slots.size) fail :=
    ends_foldlM_range (h.Swept space) (fun k freed g _ hs => hs.ends_sweepSlot) hw.swept_start
  refine hloop.mono (fun freed g hs => ?_) fun _ _ hfail => hfail
  refine ⟨hs.wellFormed.compactTail, ?_, by simpa using hs.marks,
    ?_, ?_, ?_⟩
  · intro id loc r
    rw [houses_compactTail, hs.houses]
    refine and_congr_right fun hh => not_congr (and_iff_left_of_imp fun hdoomed => ?_)
    -- every slot that is occupied was visited
    exact (Array.getElem?_eq_some_iff.mp (hdoomed.1 ▸ hh.2)).1
  · intro t ht
    rw [arena_setArena, if_neg ht]
    exact hs.others t ht
  · have hobjects := hs.objects
    unfold objectsIn at hobjects ⊢
    rwa [arena_setArena, if_pos rfl, Arena.residents_compactTail]
  · have hbytes := hs.bytes
    unfold bytesIn at hbytes ⊢
    rwa [arena_setArena, if_pos rfl, Arena.compactTail_used]

end Heap

end ManagedHeap
