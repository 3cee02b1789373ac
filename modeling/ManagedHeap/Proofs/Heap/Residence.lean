import ManagedHeap.Proofs.Heap.Arena

/-!
# Handles and residents

`h.Houses id loc r` says that the handle `id` is occupied, that it gives the location
`loc`, and that the resident there is `r`.  Everything a reader learns from a heap it learns
through this relation.  A heap is well formed if both arenas are, if its list of free
handles names exactly the handles that are not occupied, and if occupied handles and
residents determine each other (`owned`, `settled`).
-/

namespace ManagedHeap

namespace Heap

variable {h : Heap} {id j : Handle} {loc loc' : Location} {r r' : Resident} {o : Object}
  {space t : Space} {i : Nat}

/-! ## Arenas of a changed heap -/

@[simp] theorem arena_setArena (a : Arena) :
    (h.setArena space a).arena t = if t = space then a else h.arena t := by
  cases space <;> cases t <;> rfl

@[simp] theorem handles_setArena (a : Arena) : (h.setArena space a).handles = h.handles := by
  cases space <;> rfl

@[simp] theorem freeHandles_setArena (a : Arena) :
    (h.setArena space a).freeHandles = h.freeHandles := by
  cases space <;> rfl

@[simp] theorem marks_setArena (a : Arena) : (h.setArena space a).marks = h.marks := by
  cases space <;> rfl

@[simp] theorem scavenges_setArena (a : Arena) :
    (h.setArena space a).scavenges = h.scavenges := by
  cases space <;> rfl

@[simp] theorem fullCollections_setArena (a : Arena) :
    (h.setArena space a).fullCollections = h.fullCollections := by
  cases space <;> rfl

@[simp] theorem arena_handles (table : Array (Option Location)) (free : List Handle) :
    ({ h with handles := table, freeHandles := free } : Heap).arena t = h.arena t := by
  cases t <;> rfl

/-! ## What a heap houses -/

/-- The handle `id` gives the location `loc`, where `r` is. -/
def Houses (h : Heap) (id : Handle) (loc : Location) (r : Resident) : Prop :=
  h.handles[id.index]? = some (some loc) ∧
    (h.arena loc.space).slots[loc.slot]? = some (some r)

theorem isLive_iff : h.isLive id = true ↔ ∃ loc, h.handles[id.index]? = some (some loc) := by
  unfold isLive
  cases hhandle : h.handles[id.index]? with
  | none => simp
  | some entry => cases entry <;> simp

theorem Houses.isLive (hh : h.Houses id loc r) : h.isLive id = true :=
  isLive_iff.mpr ⟨loc, hh.1⟩

theorem Houses.locate (hh : h.Houses id loc r) : h.locate id = .ok loc := by
  unfold Heap.locate
  rw [hh.1]

theorem Houses.residentAt (hh : h.Houses id loc r) : h.residentAt loc = .ok r := by
  unfold Heap.residentAt
  rw [hh.2]

theorem Houses.find (hh : h.Houses id loc r) : h.find id = .ok r.object := by
  unfold Heap.find
  rw [hh.locate]
  show (do return (← h.residentAt loc).object : Except Fault Object) = _
  rw [hh.residentAt]
  rfl

theorem Houses.spaceOf (hh : h.Houses id loc r) : h.spaceOf id = .ok loc.space := by
  unfold Heap.spaceOf
  rw [hh.locate]
  rfl

theorem Houses.unique (hh : h.Houses id loc r) (hh' : h.Houses id loc' r') :
    loc = loc' ∧ r = r' := by
  obtain ⟨hhandle, hslot⟩ := hh
  obtain ⟨hhandle', hslot'⟩ := hh'
  rw [hhandle] at hhandle'
  obtain rfl : loc = loc' := by simpa using hhandle'
  rw [hslot] at hslot'
  exact ⟨rfl, by simpa using hslot'⟩

theorem locate_of_dead (hdead : h.isLive id = false) : h.locate id = .error .deadObject := by
  unfold Heap.locate
  cases hhandle : h.handles[id.index]? with
  | none => rfl
  | some entry =>
      cases entry with
      | none => rfl
      | some loc => simp [isLive_iff.mpr ⟨loc, hhandle⟩] at hdead

theorem find_of_dead (hdead : h.isLive id = false) : h.find id = .error .deadObject := by
  unfold Heap.find
  rw [locate_of_dead hdead]
  rfl

theorem houses_of_find (hfind : h.find id = .ok o) :
    ∃ loc r, h.Houses id loc r ∧ r.object = o := by
  unfold Heap.find Heap.locate Heap.residentAt at hfind
  cases hhandle : h.handles[id.index]? with
  | none => simp [hhandle, bind, Except.bind] at hfind
  | some entry =>
      cases entry with
      | none => simp [hhandle, bind, Except.bind] at hfind
      | some loc =>
          simp only [hhandle, bind, Except.bind] at hfind
          cases hslot : (h.arena loc.space).slots[loc.slot]? with
          | none => simp [hslot] at hfind
          | some place =>
              cases place with
              | none => simp [hslot] at hfind
              | some r =>
                  simp only [hslot, pure, Except.pure, Except.ok.injEq] at hfind
                  exact ⟨loc, r, ⟨hhandle, hslot⟩, hfind⟩

theorem isLive_of_find (hfind : h.find id = .ok o) : h.isLive id = true := by
  obtain ⟨loc, r, hh, -⟩ := houses_of_find hfind
  exact hh.isLive

/-! ## Well-formed heaps -/

/-- Handles, arenas and free lists fit together. -/
structure WellFormed (h : Heap) : Prop where
  arena : ∀ t, (h.arena t).WellFormed
  free_nodup : h.freeHandles.Nodup
  mem_free : ∀ id : Handle, id ∈ h.freeHandles ↔ h.handles[id.index]? = some none
  /-- An occupied handle leads to a resident that it owns. -/
  owned : ∀ (id : Handle) loc, h.handles[id.index]? = some (some loc) →
    ∃ r, (h.arena loc.space).slots[loc.slot]? = some (some r) ∧ r.owner = id
  /-- A resident is where its owner says. -/
  settled : ∀ t (i : Nat) r, (h.arena t).slots[i]? = some (some r) →
    h.handles[r.owner.index]? = some (some ⟨t, i⟩)

theorem wellFormed_empty (youngLimit oldLimit : Nat) : (empty youngLimit oldLimit).WellFormed where
  arena t := by cases t <;> exact Arena.wellFormed_empty _
  free_nodup := List.nodup_nil
  mem_free := by simp [empty]
  owned := by simp [empty]
  settled t i r hr := by cases t <;> simp [empty, Heap.arena, Arena.empty] at hr

theorem WellFormed.owner_eq (hw : h.WellFormed) (hh : h.Houses id loc r) : r.owner = id := by
  obtain ⟨r', hr', hown⟩ := hw.owned id loc hh.1
  rw [hh.2] at hr'
  obtain rfl : r = r' := by simpa using hr'
  exact hown

theorem WellFormed.houses (hw : h.WellFormed) (hlive : h.isLive id = true) :
    ∃ loc r, h.Houses id loc r ∧ r.owner = id := by
  obtain ⟨loc, hhandle⟩ := isLive_iff.mp hlive
  obtain ⟨r, hslot, hown⟩ := hw.owned id loc hhandle
  exact ⟨loc, r, ⟨hhandle, hslot⟩, hown⟩

theorem WellFormed.houses_of_slot (hw : h.WellFormed)
    (hr : (h.arena t).slots[i]? = some (some r)) : h.Houses r.owner ⟨t, i⟩ r :=
  ⟨hw.settled t i r hr, hr⟩

theorem WellFormed.isLive_iff_find (hw : h.WellFormed) :
    h.isLive id = true ↔ ∃ o, h.find id = .ok o := by
  constructor
  · intro hlive
    obtain ⟨loc, r, hh, -⟩ := hw.houses hlive
    exact ⟨r.object, hh.find⟩
  · intro h
    obtain ⟨o, hfind⟩ := h
    exact isLive_of_find hfind

/-- Of two different handles neither is housed where the other is. -/
theorem WellFormed.loc_ne (hw : h.WellFormed) (hh : h.Houses id loc r) (hh' : h.Houses j loc' r')
    (hne : j ≠ id) : loc' ≠ loc := by
  rintro rfl
  have hsame : r' = r := by
    have := hh'.2
    rw [hh.2] at this
    simpa using this.symm
  exact hne (by rw [← hw.owner_eq hh', ← hw.owner_eq hh, hsame])

/-- Marks and counters do not matter. -/
theorem WellFormed.relabel (hw : h.WellFormed) (marks : Marks) (scavenges fullCollections : Nat) :
    ({ h with marks, scavenges, fullCollections } : Heap).WellFormed :=
  ⟨hw.arena, hw.free_nodup, hw.mem_free, hw.owned, hw.settled⟩

theorem WellFormed.spaceOf_eq_iff (hw : h.WellFormed) :
    h.spaceOf id = .ok t ↔ ∃ loc r, h.Houses id loc r ∧ loc.space = t := by
  constructor
  · intro hspace
    -- the space is told by the handle alone; that there is an object is due to the heap being well
    -- formed
    have hlive : h.isLive id = true := by
      apply isLive_iff.mpr
      unfold Heap.spaceOf Heap.locate at hspace
      cases hhandle : h.handles[id.index]? with
      | none => simp [hhandle, bind, Except.bind] at hspace
      | some entry =>
          cases entry with
          | none => simp [hhandle, bind, Except.bind] at hspace
          | some loc => exact ⟨loc, rfl⟩
    obtain ⟨loc, r, hh, -⟩ := hw.houses hlive
    rw [hh.spaceOf] at hspace
    exact ⟨loc, r, hh, by simpa using hspace⟩
  · intro h
    obtain ⟨loc, r, hh, rfl⟩ := h
    exact hh.spaceOf

/-! ## Objects that are left alone -/

/-- Heaps that house the same under a handle, wherever it is, find the same there. -/
theorem find_congr {g : Heap} (hsame : ∀ r, (∃ loc, g.Houses id loc r) ↔ ∃ loc, h.Houses id loc r)
    (hg : g.WellFormed) (hw : h.WellFormed) : g.find id = h.find id := by
  cases hlive : h.isLive id with
  | true =>
      obtain ⟨loc, r, hh, -⟩ := hw.houses hlive
      obtain ⟨loc', hh'⟩ := (hsame r).mpr ⟨loc, hh⟩
      rw [hh.find, hh'.find]
  | false =>
      cases hlive' : g.isLive id with
      | true =>
          obtain ⟨loc, r, hh, -⟩ := hg.houses hlive'
          obtain ⟨loc', hh'⟩ := (hsame r).mp ⟨loc, hh⟩
          simp [hh'.isLive] at hlive
      | false => rw [find_of_dead hlive, find_of_dead hlive']

theorem isLive_congr {g : Heap} (hfind : g.find id = h.find id) (hg : g.WellFormed)
    (hw : h.WellFormed) : g.isLive id = h.isLive id := by
  rw [Bool.eq_iff_iff, hg.isLive_iff_find, hw.isLive_iff_find, hfind]

end Heap

end ManagedHeap
