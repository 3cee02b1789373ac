import ManagedHeap.Proofs.Heap.Residence

/-!
# The moves of a heap

Every change that an operation makes to the residents of a heap is built from five moves:

* `erase` takes an object and its handle away;
* `spare` adds a free handle, when there is none;
* `place` gives a new resident to the next free handle;
* `replace` changes a resident where it is;
* `rename` lets the next free handle take over the object of another one.

Each move keeps a heap well formed, and changes what is housed under the handles it is
about and under no other.
-/

namespace ManagedHeap

namespace Heap

variable {h : Heap} {id j : Handle} {loc loc' : Location} {r r' : Resident}
  {space t : Space} {i : Nat}

theorem index_ne (hne : j ≠ id) : j.index ≠ id.index := fun heq =>
  hne (by cases j; cases id; simpa using heq)

theorem handles_set {table : Array (Option Location)} {entry : Option Location}
    (hlt : id.index < table.size) (j : Handle) :
    (table.setIfInBounds id.index entry)[j.index]? =
      if j = id then some entry else table[j.index]? := by
  rw [Array.getElem?_setIfInBounds]
  by_cases hj : j = id
  · subst hj
    simp [hlt]
  · simp [hj, (index_ne hj).symm]

theorem Houses.lt (hh : h.Houses id loc r) : id.index < h.handles.size :=
  (Array.getElem?_eq_some_iff.mp hh.1).1

/-! ## Taking an object away -/

/-- The heap without the object at `loc`, whose handle `id` is free again. -/
def erase (h : Heap) (id : Handle) (loc : Location) (r : Resident) : Heap :=
  { h.setArena loc.space ((h.arena loc.space).clear loc.slot r) with
    handles := h.handles.setIfInBounds id.index none
    freeHandles := id :: h.freeHandles }

@[simp] theorem erase_arena : (h.erase id loc r).arena t =
    if t = loc.space then (h.arena loc.space).clear loc.slot r else h.arena t := by
  unfold erase
  rw [arena_handles, arena_setArena]

theorem erase_handles (hh : h.Houses id loc r) (j : Handle) :
    (h.erase id loc r).handles[j.index]? =
      if j = id then some none else h.handles[j.index]? :=
  handles_set hh.lt j

theorem WellFormed.erase_houses (hw : h.WellFormed) (hh : h.Houses id loc r) :
    (h.erase id loc r).Houses j loc' r' ↔ j ≠ id ∧ h.Houses j loc' r' := by
  unfold Houses
  rw [erase_handles hh j, erase_arena]
  by_cases hj : j = id
  · simp [hj]
  · simp only [hj, if_false, ne_eq, not_false_eq_true, true_and]
    apply and_congr_right
    intro hhandle
    by_cases hspace : loc'.space = loc.space
    · rw [if_pos hspace, Arena.clear_slots hh.2]
      by_cases hslot : loc'.slot = loc.slot
      · -- `j` would be housed where `id` is
        obtain rfl : loc' = loc := by
          cases loc; cases loc'
          simp_all
        obtain ⟨r'', hr'', hown⟩ := hw.owned j loc' hhandle
        have hne := hw.loc_ne hh ⟨hhandle, hr''⟩ hj
        exact absurd rfl hne
      · rw [if_neg hslot, hspace]
    · rw [if_neg hspace]

theorem WellFormed.erase (hw : h.WellFormed) (hh : h.Houses id loc r) :
    (h.erase id loc r).WellFormed where
  arena t := by
    rw [erase_arena]
    split
    · exact (hw.arena _).clear hh.2
    · exact hw.arena t
  free_nodup := by
    have hnot : id ∉ h.freeHandles := by
      rw [hw.mem_free id, hh.1]
      simp
    exact List.nodup_cons.mpr ⟨hnot, hw.free_nodup⟩
  mem_free j := by
    rw [erase_handles hh j]
    by_cases hj : j = id
    · simp [hj, Heap.erase]
    · simpa [hj, Heap.erase] using hw.mem_free j
  owned j loc' hhandle := by
    rw [erase_handles hh j] at hhandle
    by_cases hj : j = id
    · simp [hj] at hhandle
    · rw [if_neg hj] at hhandle
      obtain ⟨r', hslot, hown⟩ := hw.owned j loc' hhandle
      exact ⟨r', ((hw.erase_houses hh).mpr ⟨hj, hhandle, hslot⟩).2, hown⟩
  settled t i r' hslot := by
    have hbefore : (h.arena t).slots[i]? = some (some r') ∧ r'.owner ≠ id := by
      rw [erase_arena] at hslot
      -- a handle owns one slot, so that what stays belongs to another one
      have hothers : ∀ (ht : (h.arena t).slots[i]? = some (some r')),
          (⟨t, i⟩ : Location) ≠ loc → r'.owner ≠ id := by
        rintro ht hne rfl
        exact hne ((hw.houses_of_slot ht).unique hh).1
      by_cases ht : t = loc.space
      · rw [if_pos ht, Arena.clear_slots hh.2] at hslot
        by_cases hi : i = loc.slot
        · simp [hi] at hslot
        · rw [if_neg hi, ← ht] at hslot
          exact ⟨hslot, hothers hslot fun heq => hi (by rw [← heq])⟩
      · rw [if_neg ht] at hslot
        exact ⟨hslot, hothers hslot fun heq => ht (by rw [← heq])⟩
    rw [erase_handles hh, if_neg hbefore.2]
    exact hw.settled t i r' hbefore.1

/-! ## A new free handle -/

/-- The heap with one more handle, the only free one. -/
def spare (h : Heap) : Heap :=
  { h with handles := h.handles.push none, freeHandles := [⟨h.handles.size⟩] }

theorem spare_handles (j : Handle) : h.spare.handles[j.index]? =
    if j = ⟨h.handles.size⟩ then some none else h.handles[j.index]? := by
  simp only [spare, Array.getElem?_push]
  by_cases hj : j = ⟨h.handles.size⟩
  · simp [hj]
  · have hne : j.index ≠ h.handles.size := index_ne hj
    simp [hj, hne]

theorem spare_arena : h.spare.arena t = h.arena t := by
  cases t <;> rfl

theorem spare_houses : h.spare.Houses j loc r ↔ h.Houses j loc r := by
  unfold Houses
  rw [spare_handles, spare_arena]
  by_cases hj : j = ⟨h.handles.size⟩
  · simp [hj]
  · simp [hj]

theorem WellFormed.spare (hw : h.WellFormed) (hnone : h.freeHandles = []) :
    h.spare.WellFormed where
  arena t := spare_arena ▸ hw.arena t
  free_nodup := by simp [Heap.spare]
  mem_free j := by
    rw [spare_handles]
    have hmem := hw.mem_free j
    rw [hnone] at hmem
    by_cases hj : j = ⟨h.handles.size⟩
    · simp [hj, Heap.spare]
    · simpa [hj, Heap.spare] using hmem
  owned j loc' hhandle := by
    rw [spare_handles] at hhandle
    by_cases hj : j = ⟨h.handles.size⟩
    · simp [hj] at hhandle
    · rw [if_neg hj] at hhandle
      obtain ⟨r, hslot, hown⟩ := hw.owned j loc' hhandle
      exact ⟨r, spare_arena ▸ hslot, hown⟩
  settled t i r hslot := by
    rw [spare_arena] at hslot
    exact (spare_houses.mpr (hw.houses_of_slot hslot)).1

/-! ## Placing a resident -/

/-- The heap with one more resident, whose owner is the next free handle. -/
def place (h : Heap) (space : Space) (r : Resident) : Heap :=
  { h.setArena space ((h.arena space).put r) with
    handles :=
      h.handles.setIfInBounds r.owner.index (some ⟨space, (h.arena space).nextSlot⟩)
    freeHandles := h.freeHandles.tail }

@[simp] theorem place_arena : (h.place space r).arena t =
    if t = space then (h.arena space).put r else h.arena t := by
  unfold place
  rw [arena_handles, arena_setArena]

section Place

variable {free : List Handle} (hw : h.WellFormed) (hfree : h.freeHandles = r.owner :: free)

include hw hfree

theorem WellFormed.handles_of_free : h.handles[r.owner.index]? = some none :=
  (hw.mem_free r.owner).mp (by simp [hfree])

theorem WellFormed.not_houses_of_free : ¬ h.Houses r.owner loc r' := by
  intro hh
  have hnone := hw.handles_of_free hfree
  rw [hh.1] at hnone
  simp at hnone

theorem WellFormed.place_handles (j : Handle) : (h.place space r).handles[j.index]? =
    if j = r.owner then some (some ⟨space, (h.arena space).nextSlot⟩)
    else h.handles[j.index]? :=
  handles_set (Array.getElem?_eq_some_iff.mp (hw.handles_of_free hfree)).1 j

omit hfree in
/-- Nothing was housed in the slot that the new resident gets. -/
theorem WellFormed.slot_ne_nextSlot (hr : (h.arena t).slots[i]? = some (some r')) :
    (⟨t, i⟩ : Location) ≠ ⟨space, (h.arena space).nextSlot⟩ := by
  rintro heq
  obtain ⟨rfl, rfl⟩ : t = space ∧ i = (h.arena space).nextSlot := by simpa using heq
  rcases (hw.arena t).nextSlot_vacant with hvacant | hvacant <;> simp [hr] at hvacant

theorem WellFormed.place_houses : (h.place space r).Houses j loc' r' ↔
    (j = r.owner ∧ loc' = ⟨space, (h.arena space).nextSlot⟩ ∧ r' = r) ∨
      h.Houses j loc' r' := by
  by_cases hj : j = r.owner
  · subst hj
    have hno : ¬ h.Houses r.owner loc' r' := hw.not_houses_of_free hfree
    simp only [hno, or_false, true_and]
    unfold Houses
    rw [hw.place_handles hfree, if_pos rfl, place_arena]
    simp only [Option.some.injEq]
    constructor
    · intro h
      obtain ⟨rfl, hslot⟩ := h
      rw [if_pos rfl, (hw.arena space).put_slots, if_pos rfl] at hslot
      exact ⟨rfl, by simpa using hslot.symm⟩
    · intro h
      obtain ⟨rfl, rfl⟩ := h
      rw [if_pos rfl, (hw.arena space).put_slots, if_pos rfl]
      exact ⟨rfl, rfl⟩
  · simp only [hj, false_and, false_or]
    unfold Houses
    rw [hw.place_handles hfree, if_neg hj, place_arena]
    apply and_congr_right
    intro hhandle
    obtain ⟨r'', hslot'', -⟩ := hw.owned j loc' hhandle
    -- what was housed before is not in the slot that is filled, for that was empty
    have hne : (⟨loc'.space, loc'.slot⟩ : Location) ≠ ⟨space, (h.arena space).nextSlot⟩ :=
      hw.slot_ne_nextSlot hslot''
    by_cases hspace : loc'.space = space
    · rw [if_pos hspace, (hw.arena space).put_slots]
      by_cases hslot : loc'.slot = (h.arena space).nextSlot
      · exact absurd (by rw [hspace, hslot]) hne
      · rw [if_neg hslot, hspace]
    · rw [if_neg hspace]

theorem WellFormed.place (hfits : (h.arena space).used + r.size < wordLimit) :
    (h.place space r).WellFormed where
  arena t := by
    rw [place_arena]
    split
    · exact (hw.arena _).put hfits
    · exact hw.arena t
  free_nodup := by
    have hnodup := hw.free_nodup
    rw [hfree] at hnodup
    simpa [Heap.place, hfree] using (List.nodup_cons.mp hnodup).2
  mem_free j := by
    rw [hw.place_handles hfree]
    have hmem := hw.mem_free j
    have hnodup := hw.free_nodup
    rw [hfree] at hmem hnodup
    by_cases hj : j = r.owner
    · simpa [hj, Heap.place, hfree] using (List.nodup_cons.mp hnodup).1
    · simpa [hj, Heap.place, hfree] using hmem
  owned j loc' hhandle := by
    by_cases hj : j = r.owner
    · subst hj
      rw [hw.place_handles hfree, if_pos rfl] at hhandle
      obtain rfl : ⟨space, (h.arena space).nextSlot⟩ = loc' := by simpa using hhandle
      exact ⟨r, ((hw.place_houses hfree).mpr (Or.inl ⟨rfl, rfl, rfl⟩)).2, rfl⟩
    · rw [hw.place_handles hfree, if_neg hj] at hhandle
      obtain ⟨r', hslot, hown⟩ := hw.owned j loc' hhandle
      exact ⟨r', ((hw.place_houses hfree).mpr (Or.inr ⟨hhandle, hslot⟩)).2, hown⟩
  settled t i r' hslot := by
    rw [place_arena] at hslot
    -- a slot that is occupied afterwards is the new one, or was occupied before
    suffices hh : (h.place space r).Houses r'.owner ⟨t, i⟩ r' from hh.1
    rw [hw.place_houses hfree]
    by_cases ht : t = space
    · subst ht
      rw [if_pos rfl, (hw.arena t).put_slots] at hslot
      by_cases hi : i = (h.arena t).nextSlot
      · rw [if_pos hi] at hslot
        obtain rfl : r = r' := by simpa using hslot
        exact Or.inl ⟨rfl, by rw [hi], rfl⟩
      · rw [if_neg hi] at hslot
        exact Or.inr (hw.houses_of_slot hslot)
    · rw [if_neg ht] at hslot
      exact Or.inr (hw.houses_of_slot hslot)

end Place

/-! ## Changing a resident where it is -/

/-- The heap with the resident `r'` where `r` is. -/
def replace (h : Heap) (loc : Location) (r r' : Resident) : Heap :=
  h.setArena loc.space ((h.arena loc.space).swap loc.slot r r')

@[simp] theorem replace_arena : (h.replace loc r r').arena t =
    if t = loc.space then (h.arena loc.space).swap loc.slot r r' else h.arena t := by
  simp [replace]

/-- What is in the slots after a change at a location. -/
theorem Houses.replace_slots (hh : h.Houses id loc r) :
    ((h.replace loc r r').arena t).slots[i]? =
      if (⟨t, i⟩ : Location) = loc then some (some r') else (h.arena t).slots[i]? := by
  rw [replace_arena]
  obtain ⟨u, k⟩ := loc
  by_cases ht : t = u
  · subst ht
    rw [if_pos rfl, Arena.swap_slots hh.2]
    simp
  · simp [ht]

theorem WellFormed.replace_houses (hw : h.WellFormed) (hh : h.Houses id loc r) {x : Resident} :
    (h.replace loc r r').Houses j loc' x ↔
      (j = id ∧ loc' = loc ∧ x = r') ∨ (j ≠ id ∧ h.Houses j loc' x) := by
  have hhandles : (h.replace loc r r').handles = h.handles := handles_setArena _
  unfold Houses
  rw [hhandles, hh.replace_slots]
  by_cases hj : j = id
  · subst hj
    simp only [hh.1, Option.some.injEq, true_and, ne_eq, not_true_eq_false, false_and, or_false]
    constructor
    · intro h
      obtain ⟨rfl, hslot⟩ := h
      exact ⟨rfl, by simpa using hslot.symm⟩
    · intro h
      obtain ⟨rfl, rfl⟩ := h
      simp
  · simp only [hj, false_and, false_or, ne_eq, not_false_eq_true, true_and]
    apply and_congr_right
    intro hhandle
    obtain ⟨r'', hslot'', -⟩ := hw.owned j loc' hhandle
    rw [if_neg (hw.loc_ne hh ⟨hhandle, hslot''⟩ hj)]

theorem WellFormed.replace (hw : h.WellFormed) (hh : h.Houses id loc r) (hown : r'.owner = id)
    (hfits : (h.arena loc.space).used - r.size + r'.size < wordLimit) :
    (h.replace loc r r').WellFormed where
  arena t := by
    rw [replace_arena]
    split
    · exact (hw.arena _).swap hh.2 hfits
    · exact hw.arena t
  free_nodup := by
    simpa [Heap.replace] using hw.free_nodup
  mem_free j := by
    simpa [Heap.replace] using hw.mem_free j
  owned j loc' hhandle := by
    have hbefore : h.handles[j.index]? = some (some loc') := by
      simpa [Heap.replace] using hhandle
    obtain ⟨x, hslot, hx⟩ := hw.owned j loc' hbefore
    by_cases hj : j = id
    · subst hj
      obtain rfl : loc' = loc := (Houses.unique ⟨hbefore, hslot⟩ hh).1
      exact ⟨r', ((hw.replace_houses hh).mpr (Or.inl ⟨rfl, rfl, rfl⟩)).2, hown⟩
    · exact ⟨x, ((hw.replace_houses hh).mpr (Or.inr ⟨hj, hbefore, hslot⟩)).2, hx⟩
  settled t i x hslot := by
    have hhandles : (h.replace loc r r').handles = h.handles := handles_setArena _
    rw [hhandles]
    rw [hh.replace_slots] at hslot
    split at hslot
    case isTrue hloc =>
      obtain rfl : r' = x := by simpa using hslot
      rw [hown, hloc]
      exact hh.1
    case isFalse => exact hw.settled t i x hslot

/-! ## Giving an object another handle -/

/-- The heap in which the object of `source`, at `loc`, belongs to `into`, and `source` is
free. -/
def rename (h : Heap) (source into : Handle) (loc : Location) (r : Resident) : Heap :=
  { h.setArena loc.space ((h.arena loc.space).swap loc.slot r { r with owner := into }) with
    handles :=
      (h.handles.setIfInBounds into.index (some loc)).setIfInBounds source.index none
    freeHandles := source :: h.freeHandles.tail }

section Rename

variable {source into : Handle} {free : List Handle} (hw : h.WellFormed)
  (hfree : h.freeHandles = into :: free) (hh : h.Houses source loc r)

theorem rename_arena : (h.rename source into loc r).arena t =
    (h.replace loc r { r with owner := into }).arena t := by
  unfold rename replace
  rw [arena_handles]

include hw hfree hh

private theorem source_ne_into : source ≠ into := by
  rintro rfl
  have hnone := (hw.mem_free source).mp (by simp [hfree])
  rw [hh.1] at hnone
  simp at hnone

theorem WellFormed.rename_handles (j : Handle) :
    (h.rename source into loc r).handles[j.index]? =
      if j = source then some none
      else if j = into then some (some loc) else h.handles[j.index]? := by
  have hinto : into.index < h.handles.size :=
    (Array.getElem?_eq_some_iff.mp ((hw.mem_free into).mp (by simp [hfree]))).1
  unfold rename
  show ((h.handles.setIfInBounds into.index (some loc)).setIfInBounds source.index
    none)[j.index]? = _
  rw [handles_set (by simpa using hh.lt), handles_set hinto]

theorem WellFormed.rename_houses {x : Resident} :
    (h.rename source into loc r).Houses j loc' x ↔
      (j = into ∧ loc' = loc ∧ x = { r with owner := into }) ∨
        (j ≠ source ∧ h.Houses j loc' x) := by
  have hne := source_ne_into hw hfree hh
  unfold Houses
  rw [hw.rename_handles hfree hh, rename_arena, hh.replace_slots]
  by_cases hsource : j = source
  · simp [hsource, hne]
  by_cases hj : j = into
  · subst hj
    have hnone := (hw.mem_free j).mp (by simp [hfree])
    simp only [hsource, if_false, if_true, hnone, Option.some.injEq, true_and, reduceCtorEq,
      false_and, and_false, or_false]
    constructor
    · intro h
      obtain ⟨rfl, hslot⟩ := h
      exact ⟨rfl, by simpa using hslot.symm⟩
    · intro h
      obtain ⟨rfl, rfl⟩ := h
      simp
  · simp only [hsource, hj, if_false, false_and, false_or, ne_eq, not_false_eq_true, true_and]
    apply and_congr_right
    intro hhandle
    obtain ⟨r', hslot, -⟩ := hw.owned j loc' hhandle
    rw [if_neg (hw.loc_ne hh ⟨hhandle, hslot⟩ hsource)]

theorem WellFormed.rename : (h.rename source into loc r).WellFormed where
  arena t := by
    rw [rename_arena, replace_arena]
    split
    · apply (hw.arena _).swap hh.2
      have hle := (hw.arena loc.space).size_le_used hh.2
      have hlt := (hw.arena loc.space).used_lt
      show (h.arena loc.space).used - r.size + r.size < wordLimit
      omega
    · exact hw.arena t
  free_nodup := by
    have hnot : source ∉ h.freeHandles := by
      rw [hw.mem_free source, hh.1]
      simp
    have hnodup := hw.free_nodup
    rw [hfree] at hnot hnodup
    simp only [Heap.rename, hfree, List.tail_cons]
    exact List.nodup_cons.mpr ⟨fun hmem => hnot (List.mem_cons_of_mem _ hmem),
      (List.nodup_cons.mp hnodup).2⟩
  mem_free j := by
    rw [hw.rename_handles hfree hh]
    have hmem := hw.mem_free j
    have hnodup := hw.free_nodup
    rw [hfree] at hmem hnodup
    by_cases hsource : j = source
    · simp [hsource, Heap.rename]
    by_cases hj : j = into
    · simpa [hsource, hj, Heap.rename, hfree, (source_ne_into hw hfree hh).symm] using
        (List.nodup_cons.mp hnodup).1
    · simpa [hsource, hj, Heap.rename, hfree] using hmem
  owned j loc' hhandle := by
    have hhouses {x : Resident} (hx : x.owner = j)
        (hx' : (h.rename source into loc r).Houses j loc' x) :
        ∃ r', ((h.rename source into loc r).arena loc'.space).slots[loc'.slot]? =
          some (some r') ∧ r'.owner = j := ⟨x, hx'.2, hx⟩
    rw [hw.rename_handles hfree hh] at hhandle
    by_cases hsource : j = source
    · simp [hsource] at hhandle
    by_cases hj : j = into
    · subst hj
      obtain rfl : loc = loc' := by simpa [hsource] using hhandle
      exact hhouses (x := { r with owner := j }) rfl
        ((hw.rename_houses hfree hh).mpr (Or.inl ⟨rfl, rfl, rfl⟩))
    · rw [if_neg hsource, if_neg hj] at hhandle
      obtain ⟨x, hslot, hx⟩ := hw.owned j loc' hhandle
      exact hhouses hx ((hw.rename_houses hfree hh).mpr (Or.inr ⟨hsource, hhandle, hslot⟩))
  settled t i x hslot := by
    -- the slot at `loc` belongs to `into` now; if `source` had another one, it had two
    suffices hhouses : (h.rename source into loc r).Houses x.owner ⟨t, i⟩ x from hhouses.1
    rw [hw.rename_houses hfree hh]
    rw [rename_arena, hh.replace_slots] at hslot
    split at hslot
    case isTrue hloc =>
      obtain rfl : { r with owner := into } = x := by simpa using hslot
      exact Or.inl ⟨rfl, hloc, rfl⟩
    case isFalse hloc =>
      have hx := hw.houses_of_slot hslot
      refine Or.inr ⟨fun heq => hloc ?_, hx⟩
      rw [heq] at hx
      exact (hx.unique hh).1

end Rename

end Heap

end ManagedHeap
