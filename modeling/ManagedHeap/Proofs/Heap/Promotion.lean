import ManagedHeap.Proofs.Heap.Sweeping

/-!
# Promotion

Promotion visits the slots of the young space in their order.  After some slots
(`Promoted`) their objects are in the old space under the same handles, and both spaces
together hold as many objects and bytes as before.  After all slots the young space is
empty (`Gathered`).

A move can fail only where the bytes of the old space no longer fit a machine word, and
then the bytes of both spaces did not fit one before.
-/

namespace ManagedHeap

namespace Heap

variable {h g : Heap} {k count : Nat} {id : Handle} {loc : Location} {r : Resident}

/-! ## One slot -/

/-- The heap `g` is `h` after the objects of the first `k` young slots, `count` of them,
were moved to the old space. -/
structure Promoted (h : Heap) (k count : Nat) (g : Heap) : Prop where
  wellFormed : g.WellFormed
  /-- Nothing is left in the slots that were visited. -/
  moved : ∀ id loc r, g.Houses id loc r → loc.space = .young → k ≤ loc.slot
  kept : ∀ id loc r, h.Houses id loc r → ∃ loc', g.Houses id loc' r
  known : ∀ id loc r, g.Houses id loc r → ∃ loc', h.Houses id loc' r
  size : (g.arena .young).slots.size = (h.arena .young).slots.size
  counted : count + g.objectsIn .young = h.objectsIn .young
  objects : g.objectsIn .young + g.objectsIn .old = h.objectsIn .young + h.objectsIn .old
  bytes : g.bytesIn .young + g.bytesIn .old = h.bytesIn .young + h.bytesIn .old

theorem WellFormed.promoted_start (hw : h.WellFormed) : h.Promoted 0 0 h where
  wellFormed := hw
  moved _ _ _ _ _ := Nat.zero_le _
  kept _ loc _ hh := ⟨loc, hh⟩
  known _ loc _ hh := ⟨loc, hh⟩
  size := rfl
  counted := Nat.zero_add _
  objects := rfl
  bytes := rfl

/-- The heap in which the object of a young slot is in the old space. -/
def promote (g : Heap) (slot : Nat) (r : Resident) : Heap :=
  (g.erase r.owner ⟨.young, slot⟩ r).place .old r

@[simp] theorem promote_young : (g.promote k r).arena .young = (g.arena .young).clear k r := by
  simp [promote]

@[simp] theorem promote_old : (g.promote k r).arena .old = (g.arena .old).put r := by
  simp [promote]

/-- The handle that the move gives back is the one that it takes. -/
theorem promote_eq : g.promote k r =
    { (g.setArena .young ((g.arena .young).clear k r)).setArena .old ((g.arena .old).put r) with
      handles := g.handles.setIfInBounds r.owner.index
        (some ⟨.old, (g.arena .old).nextSlot⟩) } := by
  unfold promote place erase
  simp [Heap.arena, Heap.setArena]

section Promote

variable (hw : g.WellFormed) (hh : g.Houses r.owner ⟨.young, k⟩ r)

include hw hh

theorem WellFormed.promote_houses {x : Resident} : (g.promote k r).Houses id loc x ↔
    (id = r.owner ∧ loc = ⟨.old, (g.arena .old).nextSlot⟩ ∧ x = r) ∨
      (id ≠ r.owner ∧ g.Houses id loc x) := by
  unfold promote
  rw [(hw.erase hh).place_houses rfl, hw.erase_houses hh]
  rfl

theorem WellFormed.promote (hfits : (g.arena .old).used + r.size < wordLimit) :
    (g.promote k r).WellFormed :=
  (hw.erase hh).place rfl hfits

end Promote

theorem Promoted.keep (hp : h.Promoted k count g) (hempty : ∀ id r, ¬ g.Houses id ⟨.young, k⟩ r) :
    h.Promoted (k + 1) count g := by
  refine { hp with moved := fun id loc r hh hyoung => ?_ }
  apply Nat.lt_of_le_of_ne (hp.moved id loc r hh hyoung)
  rintro rfl
  exact hempty id r (by rw [← hyoung]; exact hh)

theorem Promoted.move (hp : h.Promoted k count g) (hh : g.Houses r.owner ⟨.young, k⟩ r)
    (hfits : (g.arena .old).used + r.size < wordLimit) :
    h.Promoted (k + 1) (count + 1) (g.promote k r) := by
  have hhouses (id : Handle) (loc : Location) (x : Resident) :
      (g.promote k r).Houses id loc x ↔ _ := hp.wellFormed.promote_houses hh
  have hlength : ((g.arena .young).clear k r).residents.length + 1 =
      (g.arena .young).residents.length := (Arena.residents_clear hh.2).length_eq
  have hused := (hp.wellFormed.arena .young).clear_used_add hh.2
  have hput := ((hp.wellFormed.arena .old).residents_put r).length_eq
  refine ⟨hp.wellFormed.promote hh hfits, ?_, ?_,
    ?_, ?_, ?_, ?_, ?_⟩
  -- what is young still was not moved, and is not in the slot that is emptied now
  · intro id loc x hx hyoung
    rcases (hhouses id loc x).mp hx with ⟨-, rfl, -⟩ | ⟨hne, hbefore⟩
    · exact absurd hyoung (by simp)
    · apply Nat.lt_of_le_of_ne (hp.moved id loc x hbefore hyoung)
      rintro rfl
      exact hp.wellFormed.loc_ne hh hbefore hne (by rw [← hyoung])
  · intro id loc x hx
    obtain ⟨loc', hbefore⟩ := hp.kept id loc x hx
    by_cases hid : id = r.owner
    · subst hid
      exact ⟨_, (hhouses _ _ x).mpr (Or.inl ⟨rfl, rfl, (hbefore.unique hh).2⟩)⟩
    · exact ⟨loc', (hhouses id loc' x).mpr (Or.inr ⟨hid, hbefore⟩)⟩
  · intro id loc x hx
    rcases (hhouses id loc x).mp hx with ⟨rfl, -, rfl⟩ | ⟨-, hbefore⟩
    · exact hp.known _ _ _ hh
    · exact hp.known id loc x hbefore
  · rw [promote_young, Arena.clear_size, hp.size]
  · have hcounted := hp.counted
    unfold objectsIn at hcounted ⊢
    rw [promote_young]
    omega
  · have hobjects := hp.objects
    unfold objectsIn at hobjects ⊢
    rw [promote_young, promote_old]
    rw [List.length_cons] at hput
    omega
  · have hbytes := hp.bytes
    unfold bytesIn at hbytes ⊢
    rw [promote_young, promote_old, Arena.put_used]
    change ((g.arena .young).clear k r).used + r.size = (g.arena .young).used at hused
    omega

theorem Promoted.ends_promoteSlot (hp : h.Promoted k count g) :
    Ends (HeapM.promoteSlot count k) g (h.Promoted (k + 1))
      (fun e _ => e = .wordOverflow ∧ wordLimit ≤ h.bytesIn .young + h.bytesIn .old) := by
  unfold HeapM.promoteSlot
  rw [ends_bind, ends_get]
  cases hslot : g.young.slots[k]?.join with
  | none =>
      have hempty : (g.arena .young).slots[k]?.join = none := hslot
      exact hp.keep fun id r hh => not_houses_of_join hempty hh
  | some r =>
      have hr : (g.arena .young).slots[k]? = some (some r) :=
        Option.join_eq_some_iff.mp hslot
      have hh := hp.wellFormed.houses_of_slot hr
      simp only [ends_bind, ends_onArena]
      apply (hp.wellFormed.arena .young).ends_take hr
      refine Arena.ends_insert ?_ fun hfull => ⟨rfl, ?_⟩
      · intro hfits
        rw [HeapM.bindHandle, ends_modify, ends_pure]
        have hmoved := hp.move hh hfits
        rw [promote_eq] at hmoved
        exact hmoved
      -- no byte is lost on the way, so that what does not fit the old space is too much for both
      · have hle := (hp.wellFormed.arena .young).size_le_used hr
        have hbytes := hp.bytes
        unfold bytesIn at hbytes ⊢
        change wordLimit ≤ (g.arena .old).used + r.size at hfull
        omega

/-! ## The whole space -/

/-- The heap `g` is `h` after its young objects, `count` of them, were moved to the old
space. -/
structure Gathered (h : Heap) (count : Nat) (g : Heap) : Prop where
  wellFormed : g.WellFormed
  find : ∀ id, g.find id = h.find id
  isLive : ∀ id, g.isLive id = h.isLive id
  spaceOf : ∀ id, g.isLive id = true → g.spaceOf id = .ok .old
  counted : count = h.objectsIn .young
  young_objects : g.objectsIn .young = 0
  young_bytes : g.bytesIn .young = 0
  objects : g.objectsIn .old = h.objectsIn .young + h.objectsIn .old
  bytes : g.bytesIn .old = h.bytesIn .young + h.bytesIn .old

/-- When all slots were visited nothing is left in the young space. -/
theorem Promoted.residents_eq_nil (hp : h.Promoted (h.arena .young).slots.size count g) :
    (g.arena .young).residents = [] := by
  apply List.eq_nil_iff_forall_not_mem.mpr
  intro r hr
  obtain ⟨i, hi⟩ := Arena.mem_residents.mp hr
  have hlt := (Array.getElem?_eq_some_iff.mp hi).1
  have hge := hp.moved _ _ _ (hp.wellFormed.houses_of_slot hi) rfl
  rw [hp.size] at hlt
  exact absurd hlt (Nat.not_lt.mpr hge)

/-- The heap whose young space has no slots. -/
def withoutYoung (g : Heap) : Heap :=
  { g with young := { g.young with slots := #[], free := [] } }

theorem withoutYoung_houses (hempty : (g.arena .young).residents = []) :
    g.withoutYoung.Houses id loc r ↔ g.Houses id loc r := by
  unfold Houses
  apply and_congr_right
  intro _
  obtain ⟨space, slot⟩ := loc
  cases space with
  | old => rfl
  | young =>
      refine iff_of_false ?_ ?_
      · intro hslot
        simp [withoutYoung, Heap.arena] at hslot
      · intro hslot
        have hmem := Arena.mem_residents.mpr ⟨slot, hslot⟩
        change r ∈ (g.arena .young).residents at hmem
        simp [hempty] at hmem

theorem WellFormed.withoutYoung (hw : g.WellFormed) (hempty : (g.arena .young).residents = []) :
    g.withoutYoung.WellFormed where
  arena t := by
    cases t with
    | old => exact hw.arena .old
    | young =>
        have hused := (hw.arena .young).used_eq
        rw [hempty] at hused
        exact ⟨List.nodup_nil, by simp [Heap.withoutYoung, Heap.arena], hused,
          (hw.arena .young).used_lt⟩
  free_nodup := hw.free_nodup
  mem_free := hw.mem_free
  owned j loc hhandle := by
    obtain ⟨r, hslot, hown⟩ := hw.owned j loc hhandle
    exact ⟨r, ((withoutYoung_houses hempty).mpr ⟨hhandle, hslot⟩).2, hown⟩
  settled t i r hslot := by
    cases t with
    | old => exact hw.settled .old i r hslot
    | young => simp [Heap.withoutYoung, Heap.arena] at hslot

theorem Promoted.gathered (hp : h.Promoted (h.arena .young).slots.size count g)
    (hw : h.WellFormed) : h.Gathered count g.withoutYoung := by
  have hempty := hp.residents_eq_nil
  have hw' := hp.wellFormed.withoutYoung hempty
  have hyoung : (g.arena .young).residents.length = 0 := by rw [hempty, List.length_nil]
  have hused : (g.arena .young).used = 0 := by
    rw [(hp.wellFormed.arena .young).used_eq, hempty]
    rfl
  -- an object is housed afterwards if it was before, somewhere
  have hfind (id : Handle) : g.withoutYoung.find id = h.find id := by
    refine find_congr (fun r => ?_) hw' hw
    constructor
    · intro h
      obtain ⟨loc, hh⟩ := h
      exact hp.known id loc r ((withoutYoung_houses hempty).mp hh)
    · intro h
      obtain ⟨loc, hh⟩ := h
      obtain ⟨loc', hh'⟩ := hp.kept id loc r hh
      exact ⟨loc', (withoutYoung_houses hempty).mpr hh'⟩
  refine ⟨hw', hfind, fun id => isLive_congr (hfind id) hw' hw, ?_, ?_, rfl, hused,
    ?_, ?_⟩
  · intro id hid
    obtain ⟨⟨space, slot⟩, r, hh, -⟩ := hw'.houses hid
    cases space with
    | old => exact hh.spaceOf
    | young =>
        have hslot := hh.2
        simp [Heap.withoutYoung, Heap.arena] at hslot
  · have hcounted := hp.counted
    unfold objectsIn at hcounted ⊢
    omega
  · have hobjects := hp.objects
    unfold objectsIn at hobjects ⊢
    show (g.arena .old).residents.length = _
    omega
  · have hbytes := hp.bytes
    unfold bytesIn at hbytes ⊢
    show (g.arena .old).used = _
    omega

theorem WellFormed.ends_promoteSurvivors (hw : h.WellFormed) :
    Ends HeapM.promoteSurvivors h (fun count g => h.Gathered count g)
      (fun e _ => e = .wordOverflow ∧ wordLimit ≤ h.bytesIn .young + h.bytesIn .old) := by
  unfold HeapM.promoteSurvivors
  simp only [ends_bind, ends_get, ends_modify, ends_pure]
  have hloop : Ends ((List.range h.young.slots.size).foldlM HeapM.promoteSlot 0) h
      (h.Promoted h.young.slots.size) _ :=
    ends_foldlM_range h.Promoted (fun k count g _ hp => hp.ends_promoteSlot) hw.promoted_start
  exact hloop.mono (fun count g hp => hp.gathered hw) fun _ _ hfail => hfail

end Heap

end ManagedHeap
