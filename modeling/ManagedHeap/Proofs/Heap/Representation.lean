import ManagedHeap.Proofs.Heap.Collection

/-!
# The books of a heap

A heap keeps one thing in several places: what is occupied in its table of handles and
in the slots of two arenas, what is empty in three lists, and the bytes of the residents
in two counts.  `Bookkept` says that all of this agrees, in terms of the tables and lists
themselves.  It is what `WellFormed` comes to, so every heap that arises by the operations
on heaps is bookkept.

Two things follow for the next operation, whatever it is (`Accountable`).  The handle that
an allocation gives out named nothing before.  And nothing is ever taken off a count that
does not contain it: an operation fails only where a sum of bytes does not fit a machine
word, and a change in place or a transplant of two different live handles never fails.
-/

namespace ManagedHeap

namespace Heap

variable {h : Heap}

/-- The table of handles, the slots, the lists of what is free and the counts of bytes
agree. -/
structure Bookkept (h : Heap) : Prop where
  /-- A handle gives a location exactly if the resident there is its own, so that occupied
  handles and residents determine each other. -/
  linked : ∀ (id : Handle) (loc : Location), h.handles[id.index]? = some (some loc) ↔
    ∃ r, (h.arena loc.space).slots[loc.slot]? = some (some r) ∧ r.owner = id
  freeHandles_nodup : h.freeHandles.Nodup
  mem_freeHandles : ∀ id : Handle, id ∈ h.freeHandles ↔ h.handles[id.index]? = some none
  free_nodup : ∀ t, (h.arena t).free.Nodup
  mem_free : ∀ t i, i ∈ (h.arena t).free ↔ (h.arena t).slots[i]? = some none
  used_eq : ∀ t, (h.arena t).used = ((h.arena t).residents.map Resident.size).sum

theorem WellFormed.bookkept (hw : h.WellFormed) : h.Bookkept where
  linked id loc := by
    constructor
    · exact hw.owned id loc
    · intro h
      obtain ⟨r, hslot, rfl⟩ := h
      exact hw.settled loc.space loc.slot r hslot
  freeHandles_nodup := hw.free_nodup
  mem_freeHandles := hw.mem_free
  free_nodup t := (hw.arena t).free_nodup
  mem_free t := (hw.arena t).mem_free
  used_eq t := (hw.arena t).used_eq

/-- What the next operation on a heap can rely on. -/
structure Accountable (h : Heap) : Prop where
  /-- What a resident is accounted for is part of the count of its arena. -/
  size_le_used : ∀ t, ∀ r ∈ (h.arena t).residents, r.size ≤ (h.arena t).used
  allocate : ∀ request build, Ends (HeapM.allocate? request build) h
    (fun found _ => ∀ id ∈ found, h.isLive id = false)
    (fun e _ => e = .wordOverflow ∧ wordLimit ≤ (h.arena request.space).used + request.size)
  modify : ∀ id f, h.isLive id = true →
    Ends (HeapM.modifyObject id f) h (fun _ _ => True) (fun _ _ => False)
  reaccount : ∀ id, h.isLive id = true → Ends (HeapM.reaccount id) h (fun _ _ => True)
    (fun e _ => e = .wordOverflow ∧ ∃ loc r, h.Houses id loc r ∧
      wordLimit ≤ (h.arena loc.space).used - r.size + r.object.size)
  transplant : ∀ source into, h.isLive source = true → h.isLive into = true → source ≠ into →
    Ends (HeapM.transplant source into) h (fun _ _ => True) (fun _ _ => False)
  collect : ∀ space roots, Ends (HeapM.collect space roots) h (fun _ _ => True)
    (fun e _ => e = .wordOverflow ∧
      wordLimit ≤ (h.arena .young).used + (h.arena .old).used)

theorem WellFormed.accountable (hw : h.WellFormed) : h.Accountable where
  size_le_used t r hr := by
    obtain ⟨i, hi⟩ := Arena.mem_residents.mp hr
    exact (hw.arena t).size_le_used hi
  allocate request build := by
    refine (hw.ends_allocate? request build).mono ?_ fun _ _ hfail => hfail
    intro found h' hfound id hid
    obtain rfl : found = some id := hid
    exact hfound.2.1.dead
  modify id f hlive := by
    obtain ⟨o, hfind⟩ := hw.isLive_iff_find.mp hlive
    exact (hw.ends_modifyObject hfind f).mono (fun _ _ _ => trivial) fun _ _ hfail => hfail
  reaccount id hlive :=
    (hw.ends_reaccount hlive).mono (fun _ _ _ => trivial) fun _ _ hfail => hfail
  transplant source into hsource hinto hne :=
    (hw.ends_transplant hsource hinto hne).mono (fun _ _ _ => trivial) fun _ _ hfail => hfail
  collect space roots :=
    (hw.ends_collect space roots).mono (fun _ _ _ => trivial) fun _ _ hfail => hfail

/-- The books of every heap that arises by the operations on heaps agree, and the next
operation can rely on them. -/
theorem Arises.representation (ha : h.Arises) : h.Bookkept ∧ h.Accountable :=
  ⟨ha.wellFormed.bookkept, ha.wellFormed.accountable⟩

/-- A heap with three young numbers, the first of which took over the object of the second,
was changed and was measured again. -/
theorem Arises.representation_transplant : ∃ h : Heap, h.Arises ∧
    h.freeHandles = [⟨1⟩] ∧ h.stats.youngObjects = 2 ∧ h.Bookkept ∧ h.Accountable := by
  obtain ⟨h, harises, hfree, htwo⟩ : ∃ h : Heap, h.Arises ∧ h.freeHandles = [⟨1⟩] ∧
      h.stats.youngObjects = 2 := by
    have number {h h' : Heap} {id : Handle} (ha : h.Arises) (o : Object)
        (hrun : HeapM.allocate? (.of o .young) (fun _ => o) h = .ok (some id) h') : h'.Arises :=
      ha.allocate _ _ hrun
    have handed {h h' : Heap} (ha : h.Arises) (source into : Handle)
        (hrun : HeapM.transplant source into h = .ok () h') : h'.Arises := ha.transplant hrun
    have altered {h h' : Heap} (ha : h.Arises) (id : Handle) (f : Object → Object)
        (hrun : HeapM.modifyObject id f h = .ok () h') : h'.Arises := ha.modify hrun
    have remeasured {h h' : Heap} (ha : h.Arises) (id : Handle)
        (hrun : HeapM.reaccount id h = .ok () h') : h'.Arises := ha.reaccount hrun
    have first := number (.empty 1000 1000) (.number .nan) rfl
    have second := number first (.number .infinity) rfl
    have third := number second (.number .nan) rfl
    have moved := handed third ⟨1⟩ ⟨0⟩ rfl
    have changed := altered moved ⟨0⟩ (fun _ => .number .nan) rfl
    have measured := remeasured changed ⟨0⟩ rfl
    exact ⟨_, measured, by decide +kernel⟩
  exact ⟨h, harises, hfree, htwo, harises.representation⟩

end Heap

end ManagedHeap
