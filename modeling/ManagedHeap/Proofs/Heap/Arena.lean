import ManagedHeap.Proofs.Endings
import Mathlib.Algebra.GroupWithZero.Nat

/-!
# Arenas

An arena is well formed if its list of free slots names exactly the empty ones, each
once, and its count of bytes is the sum of the sizes of its residents.  The moves
that the heap makes in an arena keep this:

* `Arena.put` places a resident in the slot that is next to use (`Arena.insert`);
* `Arena.clear` empties an occupied slot (`Arena.take`);
* `Arena.swap` changes the resident of a slot;
* `Arena.compactTail` drops the empty slots at the end.

What a move does to the residents as a whole is said up to their order: one more, or one
less (`residents_put`, `residents_clear`).
-/

namespace ManagedHeap

/-! ## Lists of places -/

/-- Filling an empty place adds one thing to the things of a list of places. -/
private theorem perm_filterMap_fill {α : Type} {places : List (Option α)} {i : Nat} (a : α)
    (hempty : places[i]? = some none) :
    ((places.set i (some a)).filterMap id).Perm (a :: places.filterMap id) := by
  induction places generalizing i with
  | nil => simp at hempty
  | cons place places ih =>
      cases i with
      | zero =>
          simp only [List.getElem?_cons_zero, Option.some.injEq] at hempty
          subst hempty
          simp
      | succ i =>
          have hrest := ih (by simpa using hempty)
          cases place with
          | none => simpa using hrest
          -- the thing that is added passes the one in front
          | some b => simpa using (hrest.cons b).trans (List.Perm.swap a b _)

/-- Emptying an occupied place takes one thing away. -/
private theorem perm_filterMap_empty {α : Type} {places : List (Option α)} {i : Nat} {a : α}
    (hfull : places[i]? = some (some a)) :
    (a :: (places.set i none).filterMap id).Perm (places.filterMap id) := by
  induction places generalizing i with
  | nil => simp at hfull
  | cons place places ih =>
      cases i with
      | zero =>
          simp only [List.getElem?_cons_zero, Option.some.injEq] at hfull
          subst hfull
          simp
      | succ i =>
          have hrest := ih (by simpa using hfull)
          cases place with
          | none => simpa using hrest
          | some b => simpa using (List.Perm.swap b a _).trans (hrest.cons b)

/-- A row of places is the row without its empty end, and that end. -/
private theorem popWhile_isNone {α : Type} (places : Array (Option α)) :
    ∃ n, places = places.popWhile Option.isNone ++ Array.replicate n none := by
  fun_induction Array.popWhile Option.isNone places with
  -- the place that is dropped is the first of the empty end
  | case1 places hlt hlast ih =>
      obtain ⟨front, last, rfl⟩ := Array.eq_push_of_size_ne_zero (Nat.ne_of_gt hlt)
      obtain rfl : last = none := by simpa using hlast
      obtain ⟨n, hn⟩ := ih
      rw [Array.pop_push] at hn ⊢
      refine ⟨n + 1, ?_⟩
      rw [Array.replicate_succ, Array.append_push, ← hn]
  | case2 places hlt hlast => exact ⟨0, by simp⟩
  | case3 places hlt => exact ⟨0, by simp⟩

namespace Arena

/-- Whether the slots, the free list and the count of bytes of an arena fit together. -/
structure WellFormed (a : Arena) : Prop where
  free_nodup : a.free.Nodup
  mem_free : ∀ i, i ∈ a.free ↔ a.slots[i]? = some none
  used_eq : a.used = (a.residents.map Resident.size).sum
  used_lt : a.used < wordLimit

theorem wellFormed_empty (limit : Nat) : (Arena.empty limit).WellFormed where
  free_nodup := List.nodup_nil
  mem_free := by simp [Arena.empty]
  used_eq := rfl
  used_lt := by
    show 0 < UInt64.size
    decide

variable {a : Arena} {i j : Nat} {r : Resident}

theorem mem_residents : r ∈ a.residents ↔ ∃ i : Nat, a.slots[i]? = some (some r) := by
  unfold residents
  rw [List.mem_filterMap]
  constructor
  · intro h
    obtain ⟨place, hplace, hr⟩ := h
    obtain ⟨i, hi⟩ := List.mem_iff_getElem?.mp hplace
    exact ⟨i, by rw [← Array.getElem?_toList, hi, show place = some r from hr]⟩
  · intro h
    obtain ⟨i, hi⟩ := h
    exact ⟨some r, List.mem_iff_getElem?.mpr ⟨i, by rwa [Array.getElem?_toList]⟩, rfl⟩

/-! ## Placing a resident -/

/-- The slot that the next resident gets. -/
def nextSlot (a : Arena) : Nat :=
  a.free.headD a.slots.size

/-- The arena with one more resident, in its next slot. -/
def put (a : Arena) (r : Resident) : Arena :=
  match a.free with
  | slot :: free =>
    { a with slots := a.slots.setIfInBounds slot (some r), free, used := a.used + r.size }
  | [] => { a with slots := a.slots.push (some r), used := a.used + r.size }

theorem ends_insert {ok : Nat → Arena → Prop} {fail : Fault → Arena → Prop}
    (hok : a.used + r.size < wordLimit → ok a.nextSlot (a.put r))
    (hfail : wordLimit ≤ a.used + r.size → fail .wordOverflow a) :
    Ends (insert r) a ok fail := by
  unfold insert
  simp only [ends_bind, ends_get]
  split
  case isTrue hfull => exact hfail hfull
  case isFalse hfits =>
      have hput := hok (Nat.lt_of_not_le hfits)
      unfold put nextSlot at hput
      cases hfree : a.free with
      | nil =>
          rw [hfree] at hput
          exact hput
      | cons slot free =>
          rw [hfree] at hput
          exact hput

@[simp] theorem put_used : (a.put r).used = a.used + r.size := by
  unfold put
  split <;> rfl

/-- The next slot was empty, or there was no such slot. -/
theorem WellFormed.nextSlot_vacant (ha : a.WellFormed) :
    a.slots[a.nextSlot]? = some none ∨ a.slots[a.nextSlot]? = none := by
  unfold nextSlot
  cases hfree : a.free with
  | nil => exact Or.inr (by simp)
  | cons slot free => exact Or.inl ((ha.mem_free slot).mp (by simp [hfree]))

theorem WellFormed.put_slots (ha : a.WellFormed) (j : Nat) :
    (a.put r).slots[j]? = if j = a.nextSlot then some (some r) else a.slots[j]? := by
  unfold put nextSlot
  cases hfree : a.free with
  | nil =>
      rw [Array.getElem?_push]
      rfl
  | cons slot free =>
      have hslot : a.slots[slot]? = some none := (ha.mem_free slot).mp (by simp [hfree])
      have hlt : slot < a.slots.size := (Array.getElem?_eq_some_iff.mp hslot).1
      simp only [List.headD_cons, Array.getElem?_setIfInBounds]
      by_cases hj : j = slot
      · subst hj
        simp [hlt]
      · simp [hj, Ne.symm hj]

theorem WellFormed.residents_put (ha : a.WellFormed) (r : Resident) :
    (a.put r).residents.Perm (r :: a.residents) := by
  unfold put residents
  cases hfree : a.free with
  | nil => simp
  | cons slot free =>
      have hslot : a.slots[slot]? = some none := (ha.mem_free slot).mp (by simp [hfree])
      simpa using perm_filterMap_fill r (by simpa using hslot)

theorem WellFormed.put (ha : a.WellFormed) (hfits : a.used + r.size < wordLimit) :
    (a.put r).WellFormed where
  free_nodup := by
    unfold Arena.put
    cases hfree : a.free with
    | nil => simp
    | cons slot free => exact (List.nodup_cons.mp (hfree ▸ ha.free_nodup)).2
  mem_free := by
    intro j
    rw [ha.put_slots j]
    -- a slot is free once, so that the one that is taken is free no longer
    have hmem := ha.mem_free j
    have hnodup := ha.free_nodup
    unfold Arena.put nextSlot
    cases hfree : a.free with
    | nil =>
        rw [hfree] at hmem
        by_cases hj : j = a.slots.size
        · simp [hj]
        · simpa [hj] using hmem
    | cons slot free =>
        rw [hfree] at hmem hnodup
        by_cases hj : j = slot
        · simpa [hj] using (List.nodup_cons.mp hnodup).1
        · simpa [hj] using hmem
  used_eq := by
    rw [put_used, ((ha.residents_put r).map Resident.size).sum_nat, ha.used_eq]
    simp [Nat.add_comm]
  used_lt := by rwa [put_used]

/-! ## Emptying a slot -/

/-- The arena without the resident `r` of a slot. -/
def clear (a : Arena) (slot : Nat) (r : Resident) : Arena :=
  { a with
    slots := a.slots.setIfInBounds slot none
    free := slot :: a.free
    used := a.used - r.size }

@[simp] theorem clear_used : (a.clear i r).used = a.used - r.size := rfl

@[simp] theorem clear_size : (a.clear i r).slots.size = a.slots.size := by
  simp [clear]

theorem clear_slots (hr : a.slots[i]? = some (some r)) (j : Nat) :
    (a.clear i r).slots[j]? = if j = i then some none else a.slots[j]? := by
  have hlt : i < a.slots.size := (Array.getElem?_eq_some_iff.mp hr).1
  simp only [clear, Array.getElem?_setIfInBounds]
  by_cases hj : j = i
  · subst hj
    simp [hlt]
  · simp [hj, Ne.symm hj]

theorem residents_clear (hr : a.slots[i]? = some (some r)) :
    (r :: (a.clear i r).residents).Perm a.residents := by
  unfold clear residents
  simpa using perm_filterMap_empty (i := i) (by simpa using hr)

/-- The bytes of one resident are part of the bytes in use. -/
theorem WellFormed.size_le_used (ha : a.WellFormed) (hr : a.slots[i]? = some (some r)) :
    r.size ≤ a.used := by
  have hsum := ((residents_clear hr).map Resident.size).sum_nat
  rw [List.map_cons, List.sum_cons, ← ha.used_eq] at hsum
  omega

theorem ends_take (hr : a.slots[i]? = some (some r)) (hle : r.size ≤ a.used)
    {ok : Resident → Arena → Prop} {fail : Fault → Arena → Prop} (hok : ok r (a.clear i r)) :
    Ends (take i) a ok fail := by
  unfold take
  simp only [ends_bind, ends_get, hr, Nat.not_lt.mpr hle, if_false]
  exact hok

theorem WellFormed.ends_take (ha : a.WellFormed) (hr : a.slots[i]? = some (some r))
    {ok : Resident → Arena → Prop} {fail : Fault → Arena → Prop} (hok : ok r (a.clear i r)) :
    Ends (take i) a ok fail :=
  Arena.ends_take hr (ha.size_le_used hr) hok

theorem WellFormed.clear (ha : a.WellFormed) (hr : a.slots[i]? = some (some r)) :
    (a.clear i r).WellFormed where
  free_nodup := by
    have hnot : i ∉ a.free := by
      rw [ha.mem_free i, hr]
      simp
    exact List.nodup_cons.mpr ⟨hnot, ha.free_nodup⟩
  mem_free := by
    intro j
    rw [clear_slots hr j]
    by_cases hj : j = i
    · simp [hj, Arena.clear]
    · simpa [hj, Arena.clear] using ha.mem_free j
  used_eq := by
    have hsum := ((residents_clear hr).map Resident.size).sum_nat
    rw [List.map_cons, List.sum_cons, ← ha.used_eq] at hsum
    rw [clear_used]
    omega
  used_lt := Nat.lt_of_le_of_lt (Nat.sub_le _ _) ha.used_lt

/-- The bytes of a resident are given back with its slot. -/
theorem WellFormed.clear_used_add (ha : a.WellFormed) (hr : a.slots[i]? = some (some r)) :
    (a.clear i r).used + r.size = a.used :=
  Nat.sub_add_cancel (ha.size_le_used hr)

/-! ## Changing a resident in its slot -/

/-- The arena with the resident `r'` in the slot of `r`. -/
def swap (a : Arena) (slot : Nat) (r r' : Resident) : Arena :=
  { a with
    slots := a.slots.setIfInBounds slot (some r')
    used := a.used - r.size + r'.size }

variable {r' : Resident}

theorem swap_slots (hr : a.slots[i]? = some (some r)) (j : Nat) :
    (a.swap i r r').slots[j]? = if j = i then some (some r') else a.slots[j]? := by
  have hlt : i < a.slots.size := (Array.getElem?_eq_some_iff.mp hr).1
  simp only [swap, Array.getElem?_setIfInBounds]
  by_cases hj : j = i
  · subst hj
    simp [hlt]
  · simp [hj, Ne.symm hj]

theorem residents_swap (hr : a.slots[i]? = some (some r)) (r' : Resident) :
    (r :: (a.swap i r r').residents).Perm (r' :: a.residents) := by
  have hlt : i < a.slots.size := (Array.getElem?_eq_some_iff.mp hr).1
  -- a change of the resident is to empty the slot and to fill it
  have hfill : (a.swap i r r').residents.Perm (r' :: (a.clear i r).residents) := by
    have hempty : (a.clear i r).slots.toList[i]? = some none := by
      rw [Array.getElem?_toList, clear_slots hr]
      simp
    have hperm := perm_filterMap_fill r' hempty
    simpa [swap, clear, residents] using hperm
  exact (hfill.cons r).trans ((List.Perm.swap r' r _).trans ((residents_clear hr).cons r'))

theorem WellFormed.swap (ha : a.WellFormed) (hr : a.slots[i]? = some (some r))
    (hfits : a.used - r.size + r'.size < wordLimit) : (a.swap i r r').WellFormed where
  free_nodup := ha.free_nodup
  mem_free := by
    intro j
    rw [swap_slots hr j]
    by_cases hj : j = i
    · have hmem := ha.mem_free i
      rw [hr] at hmem
      subst hj
      simpa [Arena.swap] using hmem
    · simpa [hj, Arena.swap] using ha.mem_free j
  used_eq := by
    have hsum := ((residents_swap hr r').map Resident.size).sum_nat
    have hle := ha.size_le_used hr
    rw [List.map_cons, List.sum_cons, List.map_cons, List.sum_cons, ← ha.used_eq] at hsum
    show a.used - r.size + r'.size = _
    omega
  used_lt := hfits

/-! ## Dropping the empty end -/

theorem compactTail_slots (a : Arena) :
    ∃ n, a.slots = a.compactTail.slots ++ Array.replicate n none :=
  popWhile_isNone a.slots

theorem compactTail_slots_some :
    a.compactTail.slots[i]? = some (some r) ↔ a.slots[i]? = some (some r) := by
  obtain ⟨n, hslots⟩ := a.compactTail_slots
  rw [hslots, Array.getElem?_append]
  split
  case isTrue => rfl
  case isFalse hge =>
      rw [Array.getElem?_eq_none (Nat.le_of_not_lt hge), Array.getElem?_replicate]
      split <;> simp

theorem residents_compactTail : a.compactTail.residents = a.residents := by
  obtain ⟨n, hslots⟩ := a.compactTail_slots
  unfold residents
  rw [hslots, Array.toList_append, List.filterMap_append]
  simp

@[simp] theorem compactTail_used : a.compactTail.used = a.used := rfl

theorem WellFormed.compactTail (ha : a.WellFormed) : a.compactTail.WellFormed where
  free_nodup := ha.free_nodup.filter _
  mem_free j := by
    obtain ⟨n, hslots⟩ := a.compactTail_slots
    have hmem := ha.mem_free j
    rw [hslots, Array.getElem?_append] at hmem
    show j ∈ a.free.filter (· < a.compactTail.slots.size) ↔ _
    rw [List.mem_filter]
    by_cases hj : j < a.compactTail.slots.size
    · rw [if_pos hj] at hmem
      simpa [hj] using hmem
    · simp [hj]
  used_eq := by rw [residents_compactTail, compactTail_used, ha.used_eq]
  used_lt := ha.used_lt

end Arena

end ManagedHeap
