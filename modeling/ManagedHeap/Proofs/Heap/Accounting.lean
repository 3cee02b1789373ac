import ManagedHeap.Proofs.Heap.Moves
import ManagedHeap.Proofs.Upholding
import ManagedHeap.Heap.Collect

/-!
# The accounts of a heap

A resident is accounted for what its object measured when it was placed or measured last, and
an arena counts what its residents are accounted for.  The accounts of an arena are right if
every resident is accounted for what its object measures now (`Arena.Accounted`); the bytes in
use are the bytes of the objects then.

The accounts are a matter of each arena alone.  No operation on a heap has to know which handle
leads to which slot to keep them, so they are right in every heap, also after a failure that
left a handle without its object or an object without its handle.  There is one exception: an
object that grew until the objects of its space cannot be counted in a machine word
(`Heap.Overfull`).

* An object can be placed if it is accounted for its size (`upholds_allocate?`).
* It can be changed in place if its size does not change (`upholds_modifyObject`), or if it is
  measured after the change (`upholds_remeasure`).
* A collection takes whole residents out of the slots and moves them with what they are
  accounted for (`upholds_collect`); so does a transplant (`upholds_transplant`).
-/

namespace ManagedHeap

open HeapM (Freed Collected)

/-! ## Arenas -/

namespace Arena

variable {a : Arena} {limit i : Nat} {r r' : Resident} {X : Arena → Prop}

/-- The bytes of the objects of an arena. -/
def objectBytes (a : Arena) : Nat :=
  (a.residents.map fun r => r.object.size).sum

theorem objectBytes_congr {b : Arena} (hslots : b.slots = a.slots) :
    b.objectBytes = a.objectBytes := by
  unfold objectBytes residents
  rw [hslots]

/-- An arena with a limit of bytes whose residents are accounted for what they measure. -/
structure Accounted (limit : Nat) (a : Arena) : Prop extends a.WellFormed where
  limit_eq : a.limit = limit
  measured : ∀ (i : Nat) r, a.slots[i]? = some (some r) → r.size = r.object.size

theorem accounted_empty (limit : Nat) : (Arena.empty limit).Accounted limit where
  toWellFormed := wellFormed_empty limit
  limit_eq := rfl
  measured i r hr := by simp [Arena.empty] at hr

theorem Accounted.used_eq_objectBytes (ha : a.Accounted limit) : a.used = a.objectBytes := by
  rw [ha.used_eq, objectBytes]
  refine congrArg List.sum (List.map_congr_left fun r hr => ?_)
  obtain ⟨i, hi⟩ := mem_residents.mp hr
  exact ha.measured i r hi

/-- The objects of an arena, with that of one resident for that of another one. -/
theorem objectBytes_swap (hr : a.slots[i]? = some (some r)) (r' : Resident) :
    r.object.size + (a.swap i r r').objectBytes = r'.object.size + a.objectBytes := by
  simpa only [objectBytes, List.map_cons, List.sum_cons] using
    ((residents_swap hr r').map fun x => x.object.size).sum_nat

/-- The bytes of the objects of an arena, with that of one resident for that of another one. -/
theorem Accounted.objectBytes_swap_eq (ha : a.Accounted limit) (hr : a.slots[i]? = some (some r))
    (r' : Resident) : (a.swap i r r').objectBytes = a.used - r.size + r'.object.size := by
  have hswap := objectBytes_swap hr r'
  have hle := ha.size_le_used hr
  rw [← ha.used_eq_objectBytes, ← ha.measured i r hr] at hswap
  omega

theorem swap_used (i : Nat) (r r' : Resident) :
    (a.swap i r r').used = a.used - r.size + r'.size := rfl

/-- Of two changes of a slot only the second one is left. -/
theorem swap_swap (x y z : Resident) : (a.swap i x y).swap i y z = a.swap i x z := by
  simp [swap]

theorem put_limit (r : Resident) : (a.put r).limit = a.limit := by
  unfold put
  split <;> rfl

theorem Accounted.put (ha : a.Accounted limit) (hsize : r.size = r.object.size)
    (hfits : a.used + r.size < wordLimit) : (a.put r).Accounted limit where
  toWellFormed := ha.toWellFormed.put hfits
  limit_eq := (put_limit r).trans ha.limit_eq
  measured j x hx := by
    rw [ha.put_slots j] at hx
    split at hx
    · obtain rfl : r = x := by simpa using hx
      exact hsize
    · exact ha.measured j x hx

theorem Accounted.clear (ha : a.Accounted limit) (hr : a.slots[i]? = some (some r)) :
    (a.clear i r).Accounted limit where
  toWellFormed := ha.toWellFormed.clear hr
  limit_eq := ha.limit_eq
  measured j x hx := by
    rw [clear_slots hr j] at hx
    split at hx
    · simp at hx
    · exact ha.measured j x hx

theorem Accounted.swap (ha : a.Accounted limit) (hr : a.slots[i]? = some (some r))
    (hsize : r'.size = r'.object.size) (hfits : a.used - r.size + r'.size < wordLimit) :
    (a.swap i r r').Accounted limit where
  toWellFormed := ha.toWellFormed.swap hr hfits
  limit_eq := ha.limit_eq
  measured j x hx := by
    rw [swap_slots hr j] at hx
    split at hx
    · obtain rfl : r' = x := by simpa using hx
      exact hsize
    · exact ha.measured j x hx

/-- A resident that keeps its size keeps the count of its arena. -/
theorem WellFormed.setSlot_eq_swap (ha : a.WellFormed) (hr : a.slots[i]? = some (some r))
    (hsize : r'.size = r.size) :
    { a with slots := a.slots.setIfInBounds i (some r') } = a.swap i r r' := by
  unfold Arena.swap
  rw [hsize, Nat.sub_add_cancel (ha.size_le_used hr)]

theorem Accounted.compactTail (ha : a.Accounted limit) : a.compactTail.Accounted limit where
  toWellFormed := ha.toWellFormed.compactTail
  limit_eq := ha.limit_eq
  measured j x hx := ha.measured j x (compactTail_slots_some.mp hx)

/-- An arena without residents can do without its slots. -/
theorem Accounted.withoutSlots (ha : a.Accounted limit) (hempty : a.residents = []) :
    ({ a with slots := #[], free := [] } : Arena).Accounted limit where
  free_nodup := List.nodup_nil
  mem_free := by simp
  used_eq := by
    have hused := ha.used_eq
    rw [hempty] at hused
    exact hused
  used_lt := ha.used_lt
  limit_eq := ha.limit_eq
  measured j x hx := by simp at hx

theorem upholds_insert (hsize : r.size = r.object.size) :
    Upholds (Accounted limit) X (Arena.insert r) :=
  fun _ ha => ends_insert (fun hfits => ha.put hsize hfits) fun _ => Or.inl ha

/-- What is taken out of a slot is accounted for what it measures. -/
theorem Accounted.ends_take (ha : a.Accounted limit) (slot : Nat) :
    Ends (Arena.take slot) a (fun r a' => r.size = r.object.size ∧ a'.Accounted limit)
      (fun _ a' => a' = a) := by
  cases hslot : a.slots[slot]? with
  | none =>
      unfold Arena.take
      rw [ends_bind, ends_get, hslot]
      exact rfl
  | some place =>
      cases place with
      | none =>
          unfold Arena.take
          rw [ends_bind, ends_get, hslot]
          exact rfl
      | some r =>
          exact ha.toWellFormed.ends_take hslot ⟨ha.measured slot r hslot, ha.clear hslot⟩

end Arena

/-! ## Heaps -/

namespace Heap

variable {h : Heap} {limits : Space → Nat} {space : Space} {a : Arena} {X : Heap → Prop}

/-- The accounts of both spaces are right, and the spaces have the limits. -/
def Accounted (limits : Space → Nat) (h : Heap) : Prop :=
  ∀ t, (h.arena t).Accounted (limits t)

/-- The objects of a space have more bytes than a machine word can count. -/
def Overfull (h : Heap) : Prop :=
  ∃ t, wordLimit ≤ (h.arena t).objectBytes

theorem accounted_empty (limits : Space → Nat) :
    (Heap.empty (limits .young) (limits .old)).Accounted limits := by
  intro t
  cases t <;> exact Arena.accounted_empty _

/-- What is not in an arena is no matter of the accounts. -/
theorem Accounted.of_arenas {g : Heap} (hh : h.Accounted limits)
    (hsame : ∀ t, g.arena t = h.arena t) : g.Accounted limits :=
  fun t => (hsame t).symm ▸ hh t

theorem Accounted.setArena (hh : h.Accounted limits) (ha : a.Accounted (limits space)) :
    (h.setArena space a).Accounted limits := by
  intro t
  rw [arena_setArena]
  split
  case isTrue ht => exact ht ▸ ha
  case isFalse => exact hh t

theorem upholds_onArena {α : Type} {act : EStateM Fault Arena α}
    (hact : Upholds (Arena.Accounted (limits space)) (fun _ => False) act) :
    Upholds (Accounted limits) X (HeapM.onArena space act) := by
  intro h hh
  rw [ends_onArena]
  exact (hact (h.arena space) (hh space)).mono (fun _ _ ha => hh.setArena ha)
    fun _ _ hfail => Or.inl (hh.setArena (hfail.resolve_right fun hbad => hbad.2))

theorem upholds_take (slot : Nat) :
    Upholds (Accounted limits) X (HeapM.onArena space (Arena.take slot)) :=
  upholds_onArena fun _ ha => (ha.ends_take slot).mono (fun _ _ hend => hend.2)
    fun _ _ hfail => Or.inl (hfail.symm ▸ ha)

/-- A change of the handles, the marks and the counters. -/
theorem upholds_modify_rest {f : Heap → Heap} (hf : ∀ h t, (f h).arena t = h.arena t) :
    Upholds (Accounted limits) X (modify f : HeapM PUnit) :=
  upholds_modify fun h hh => hh.of_arenas (hf h)

/-! ## Placing objects -/

/-- Taking a handle is no matter of the arenas. -/
theorem ends_newHandle_arena (h : Heap) : Ends HeapM.newHandle h
    (fun _ g => ∀ t, g.arena t = h.arena t) fun _ _ => False := by
  unfold HeapM.newHandle
  rw [ends_bind, ends_get]
  split
  · intro t
    cases t <;> rfl
  · intro t
    cases t <;> rfl

theorem upholds_newHandle : Upholds (Accounted limits) X HeapM.newHandle :=
  fun h hh => h.ends_newHandle_arena.mono (fun _ _ harena => hh.of_arenas harena)
    fun _ _ hfail => hfail.elim

theorem upholds_bindHandle (id : Handle) (location : Location) :
    Upholds (Accounted limits) X (HeapM.bindHandle id location) :=
  upholds_modify_rest fun _ t => by cases t <;> rfl

theorem upholds_releaseHandle (id : Handle) :
    Upholds (Accounted limits) X (HeapM.releaseHandle id) :=
  upholds_modify_rest fun _ t => by cases t <;> rfl

/-- An object that is accounted for its size can be placed. -/
theorem upholds_allocate? {request : HeapM.Request} {build : Unit → Object}
    (hsize : request.size = (build ()).size) :
    Upholds (Accounted limits) X (HeapM.allocate? request build) := by
  refine upholds_get.bind fun h => ?_
  split
  case isTrue =>
      refine upholds_newHandle.bind fun id => ?_
      refine (upholds_onArena (Arena.upholds_insert hsize)).bind fun slot => ?_
      exact (upholds_bindHandle id _).bind fun _ => upholds_pure
  case isFalse => exact upholds_pure

/-! ## Changes in place -/

theorem slot_of_residentAt {location : Location} {r : Resident}
    (hread : h.residentAt location = .ok r) :
    (h.arena location.space).slots[location.slot]? = some (some r) := by
  unfold residentAt at hread
  split at hread
  · simp at hread
  · simp at hread
  · obtain rfl := Except.ok.inj hread
    assumption

/-- What is changed in place is the resident of a slot, if there is one. -/
theorem Accounted.ends_modifyResident (hh : h.Accounted limits) {location : Location}
    {f : Resident → Resident} {ok : PUnit → Heap → Prop} {fail : Fault → Heap → Prop}
    (hsize : ∀ r, (f r).size = r.size) (hfail : ∀ e, fail e h)
    (hok : ∀ r, (h.arena location.space).slots[location.slot]? = some (some r) → ok ⟨⟩
      (h.setArena location.space ((h.arena location.space).swap location.slot r (f r)))) :
    Ends (HeapM.modifyResident location f) h ok fail := by
  unfold HeapM.modifyResident
  rw [ends_bind, ends_heapRead]
  refine ⟨fun r hread => ?_, fun e _ => hfail e⟩
  have hr := slot_of_residentAt hread
  have hswap := hok r hr
  rw [← (hh location.space).toWellFormed.setSlot_eq_swap hr (hsize r)] at hswap
  exact hswap

/-- A change in place that keeps the sizes. -/
theorem upholds_modifyResident {location : Location} {f : Resident → Resident}
    (hsize : ∀ r, (f r).size = r.size) (hobject : ∀ r, (f r).object.size = r.object.size) :
    Upholds (Accounted limits) X (HeapM.modifyResident location f) := by
  intro h hh
  refine hh.ends_modifyResident hsize (fun _ => Or.inl hh) fun r hr => ?_
  have ha := hh location.space
  apply hh.setArena
  apply ha.swap hr
  · rw [hsize, hobject]
    exact ha.measured _ r hr
  · rw [hsize, Nat.sub_add_cancel (ha.size_le_used hr)]
    exact ha.used_lt

theorem upholds_modifyObject {id : Handle} {f : Object → Object}
    (hf : ∀ o, (f o).size = o.size) :
    Upholds (Accounted limits) X (HeapM.modifyObject id f) :=
  upholds_heapRead.bind fun _ => upholds_modifyResident (fun _ => rfl) fun r => hf r.object

/-- The object of the other handle takes its place with what it is accounted for. -/
theorem upholds_transplant (source into : Handle) :
    Upholds (Accounted limits) X (HeapM.transplant source into) := by
  -- each step keeps the accounts for itself, so that it may end after any of them
  refine upholds_heapRead.bind fun target => (upholds_take _).bind fun _ => ?_
  refine upholds_heapRead.bind fun location => ?_
  refine (upholds_modifyResident (f := fun r => { r with owner := into }) (fun _ => rfl)
    fun _ => rfl).bind fun _ => ?_
  exact (upholds_bindHandle into location).bind fun _ => upholds_releaseHandle source

/-! ## Measuring again -/

theorem locate_setArena (id : Handle) : (h.setArena space a).locate id = h.locate id := by
  unfold locate
  rw [handles_setArena]

theorem setArena_setArena (b : Arena) :
    (h.setArena space a).setArena space b = h.setArena space b := by
  cases space <;> rfl

/-- A resident is measured where it is, if the bytes of its space fit a machine word then. -/
theorem ends_reaccount_slot {id : Handle} {location : Location} {r : Resident}
    (hlocate : h.locate id = .ok location)
    (hr : (h.arena location.space).slots[location.slot]? = some (some r))
    (hle : r.size ≤ (h.arena location.space).used) {ok : PUnit → Heap → Prop}
    {fail : Fault → Heap → Prop}
    (hok : (h.arena location.space).used - r.size + r.object.size < wordLimit →
      ok ⟨⟩ (h.setArena location.space
        ((h.arena location.space).swap location.slot r { r with size := r.object.size })))
    (hfail : ∀ h', wordLimit ≤ (h.arena location.space).used - r.size + r.object.size →
      (h'.arena location.space).slots = ((h.arena location.space).swap location.slot r
        { r with size := r.object.size }).slots → fail .wordOverflow h') :
    Ends (HeapM.reaccount id) h ok fail := by
  have hread : h.residentAt location = .ok r := by
    unfold residentAt
    rw [hr]
  unfold HeapM.reaccount HeapM.modifyResident
  rw [ends_bind, ends_heapRead_ok hlocate, ends_bind, ends_heapRead_ok hread, ends_bind, ends_bind,
    ends_heapRead_ok hread, ends_modify, ends_bind, ends_get]
  simp only [arena_setArena, if_true, Nat.not_lt.mpr hle, false_or]
  split
  case isTrue hover =>
    -- the size is written before the sum is made, so that the slot has changed all the same
    refine hfail _ hover ?_
    rw [arena_setArena, if_pos rfl]
    rfl
  case isFalse hfits =>
    have hdone := hok (Nat.lt_of_not_le hfits)
    rw [← setArena_setArena] at hdone
    exact hdone

/-- A change in place after which the object is measured.  The sum of the bytes of its space
may not fit a machine word then. -/
theorem upholds_remeasure {id : Handle} (f : Object → Object) :
    Upholds (Accounted limits) Overfull (do HeapM.modifyObject id f; HeapM.reaccount id) := by
  intro h hh
  unfold HeapM.modifyObject
  rw [ends_bind, ends_bind, ends_heapRead]
  refine ⟨fun location hlocate => ?_, fun e _ => Or.inl hh⟩
  refine hh.ends_modifyResident (fun _ => rfl) (fun _ => Or.inl hh) fun r hr => ?_
  have ha := hh location.space
  have hle := ha.size_le_used hr
  apply ends_reaccount_slot (r := { r with object := f r.object })
    ((locate_setArena id).trans hlocate)
  all_goals simp only [arena_setArena, if_true, setArena_setArena, Arena.swap_swap, Arena.swap_used,
    Nat.sub_add_cancel hle]
  · rw [Arena.swap_slots hr, if_pos rfl]
  · exact hle
  · exact fun hfits => hh.setArena (ha.swap hr rfl hfits)
  · intro h' hover hslots
    refine Or.inr ⟨trivial, location.space, ?_⟩
    rw [Arena.objectBytes_congr hslots, ha.objectBytes_swap_eq hr]
    exact hover

/-! ## Collections -/

theorem upholds_markAll (roots : List Handle) :
    Upholds (Accounted limits) X (HeapM.markAll roots) := by
  intro h hh
  unfold Ends HeapM.markAll
  cases h.markFrom h.handles.size roots.reverse 0 .empty with
  | ok count marks => exact hh.of_arenas fun t => by cases t <;> rfl
  | error e marks => exact Or.inl (hh.of_arenas fun t => by cases t <;> rfl)

theorem upholds_sweepSlot (space : Space) (freed : Freed) (slot : Nat) :
    Upholds (Accounted limits) X (HeapM.sweepSlot space freed slot) := by
  refine upholds_get.bind fun h => ?_
  split
  case h_1 => exact upholds_pure
  case h_2 =>
      split
      case isTrue => exact upholds_pure
      case isFalse =>
          exact (upholds_take slot).bind fun r =>
            (upholds_releaseHandle r.owner).bind fun _ => upholds_pure

theorem upholds_sweep (space : Space) : Upholds (Accounted limits) X (HeapM.sweep space) := by
  refine upholds_get.bind fun h => ?_
  refine (upholds_foldlM (upholds_sweepSlot space) _ _).bind fun freed => ?_
  refine Upholds.bind (upholds_modify fun h hh => ?_) fun _ => upholds_pure
  exact hh.setArena (hh space).compactTail

theorem upholds_sweepFor (space : Space) :
    Upholds (Accounted limits) X (HeapM.sweepFor space) := by
  refine (upholds_sweep .young).bind fun young => ?_
  cases space with
  | young => exact (upholds_modify_rest fun h t => by cases t <;> rfl).bind fun _ => upholds_pure
  | old =>
      refine (upholds_sweep .old).bind fun old => ?_
      simp only
      split
      case isTrue => exact upholds_throw
      case isFalse =>
          exact (upholds_modify_rest fun h t => by cases t <;> rfl).bind fun _ => upholds_pure

/-- The young space has a number of slots, and the first ones of them are empty. -/
def EmptyBelow (size k : Nat) (h : Heap) : Prop :=
  (h.arena .young).slots.size = size ∧ ∀ i r, (h.arena .young).slots[i]? = some (some r) → k ≤ i

theorem EmptyBelow.next {size k : Nat} (hempty : h.EmptyBelow size k)
    (hnone : (h.arena .young).slots[k]?.join = none) : h.EmptyBelow size (k + 1) := by
  refine ⟨hempty.1, fun i r hi => Nat.lt_of_le_of_ne (hempty.2 i r hi) ?_⟩
  rintro rfl
  rw [hi] at hnone
  simp at hnone

theorem EmptyBelow.clear {size k : Nat} {r : Resident} (hempty : h.EmptyBelow size k)
    (hr : (h.arena .young).slots[k]? = some (some r)) :
    (h.setArena .young ((h.arena .young).clear k r)).EmptyBelow size (k + 1) := by
  have hslots (i : Nat) := Arena.clear_slots hr i
  refine EmptyBelow.next ⟨?_, fun i x hi => ?_⟩ ?_
  · rw [arena_setArena, if_pos rfl, Arena.clear_size, hempty.1]
  · rw [arena_setArena, if_pos rfl, hslots] at hi
    split at hi
    case isTrue => simp at hi
    case isFalse => exact hempty.2 i x hi
  · rw [arena_setArena, if_pos rfl, hslots, if_pos rfl]
    rfl

/-- An object that is promoted leaves its slot empty, and is accounted for in the old space. -/
theorem Accounted.ends_promoteSlot {size k : Nat} (hh : h.Accounted limits)
    (hempty : h.EmptyBelow size k) (promoted : Nat) :
    Ends (HeapM.promoteSlot promoted k) h
      (fun _ h' => h'.Accounted limits ∧ h'.EmptyBelow size (k + 1))
      (fun _ h' => h'.Accounted limits) := by
  unfold HeapM.promoteSlot
  rw [ends_bind, ends_get]
  cases hslot : h.young.slots[k]?.join with
  | none => exact ⟨hh, hempty.next hslot⟩
  | some r =>
      have hr : (h.arena .young).slots[k]? = some (some r) := Option.join_eq_some_iff.mp hslot
      have hcleared := hh.setArena ((hh .young).clear hr)
      simp only [ends_bind, ends_onArena]
      apply (hh .young).toWellFormed.ends_take hr
      refine Arena.ends_insert (fun hfits => ?_) fun _ => hcleared.setArena (hcleared .old)
      rw [HeapM.bindHandle, ends_modify, ends_pure]
      refine ⟨(hcleared.setArena ((hcleared .old).put ((hh .young).measured k r hr)
        hfits)).of_arenas fun t => by cases t <;> rfl, ?_⟩
      exact hempty.clear hr

theorem upholds_promoteSurvivors :
    Upholds (Accounted limits) X HeapM.promoteSurvivors := by
  intro h hh
  unfold HeapM.promoteSurvivors
  rw [ends_bind, ends_get, ends_bind]
  have hloop : Ends ((List.range h.young.slots.size).foldlM HeapM.promoteSlot 0) h
      (fun _ g => g.Accounted limits ∧ g.EmptyBelow h.young.slots.size h.young.slots.size)
      (fun _ g => g.Accounted limits) :=
    ends_foldlM_range
      (fun k _ (g : Heap) => g.Accounted limits ∧ g.EmptyBelow h.young.slots.size k)
      (fun k promoted g _ hg => hg.1.ends_promoteSlot hg.2 promoted)
      ⟨hh, rfl, fun i _ _ => Nat.zero_le i⟩
  refine hloop.mono (fun promoted g hend => ?_) fun _ _ hfail => Or.inl hfail
  obtain ⟨hg, hsize, hempty⟩ := hend
  have hresidents : (g.arena .young).residents = [] := by
    refine List.eq_nil_iff_forall_not_mem.mpr fun r hr => ?_
    obtain ⟨i, hi⟩ := Arena.mem_residents.mp hr
    have hlt := (Array.getElem?_eq_some_iff.mp hi).1
    have hge := hempty i r hi
    omega
  exact hg.setArena ((hg .young).withoutSlots hresidents)

theorem upholds_collect (space : Space) (roots : List Handle) :
    Upholds (Accounted limits) X (HeapM.collect space roots) :=
  (upholds_markAll roots).bind fun _ => (upholds_sweepFor space).bind fun _ =>
    upholds_promoteSurvivors.bind fun _ =>
      (upholds_modify_rest fun h t => by cases t <;> rfl).bind fun _ => upholds_pure

end Heap

end ManagedHeap
