import ManagedHeap.Proofs.Heap.Moves
import Mathlib.Tactic.ByContra
import Mathlib.Tactic.Set

/-!
# What the operations change

Each operation on a well-formed heap leaves a well-formed heap, and tells what the handle
it is about names afterwards.  All other handles are left alone.

* `Gains`: an object was placed under a handle that named none (`allocate?`);
* `Rewrites`: an object was changed in place (`modifyObject`);
* `Measures`: an object was measured again (`reaccount`);
* `Hands`: one handle took over the object of another (`transplant`).

The only fault that is left is a sum of bytes that does not fit a machine word; what is
taken off a count is always part of it.
-/

namespace ManagedHeap

namespace Heap

variable {h h' : Heap} {id j source into : Handle} {loc : Location} {r : Resident}
  {o : Object} {space : Space}

/-- What `j` names is where it was. -/
def Same (h h' : Heap) (j : Handle) : Prop :=
  ∀ loc r, h'.Houses j loc r ↔ h.Houses j loc r

theorem Same.find (hsame : h.Same h' j) (hw : h.WellFormed) (hw' : h'.WellFormed) :
    h'.find j = h.find j :=
  find_congr (fun r => exists_congr fun loc => hsame loc r) hw' hw

theorem isLive_iff_houses (hw : h.WellFormed) :
    h.isLive id = true ↔ ∃ loc r, h.Houses id loc r := by
  constructor
  · intro hlive
    obtain ⟨loc, r, hh, -⟩ := hw.houses hlive
    exact ⟨loc, r, hh⟩
  · intro h
    obtain ⟨loc, r, hh⟩ := h
    exact hh.isLive

theorem Same.isLive (hsame : h.Same h' j) (hw : h.WellFormed) (hw' : h'.WellFormed) :
    h'.isLive j = h.isLive j :=
  isLive_congr (hsame.find hw hw') hw' hw

theorem Same.spaceOf (hsame : h.Same h' j) (hw : h.WellFormed) (hlive : h.isLive j = true) :
    h'.spaceOf j = h.spaceOf j := by
  obtain ⟨loc, r, hh, -⟩ := hw.houses hlive
  rw [hh.spaceOf, ((hsame loc r).mpr hh).spaceOf]

/-! ## Bytes -/

/-- The bytes in use in both spaces. -/
def bytes (h : Heap) : Nat :=
  (h.arena .young).used + (h.arena .old).used

theorem used_le_bytes (h : Heap) (space : Space) : (h.arena space).used ≤ h.bytes := by
  cases space <;> simp [bytes]

theorem bytes_congr (harena : ∀ t, (h'.arena t).used = (h.arena t).used) : h'.bytes = h.bytes := by
  unfold bytes
  rw [harena, harena]

theorem bytes_place : (h.place space r).bytes = h.bytes + r.size := by
  cases space <;> simp [bytes] <;> omega

theorem bytes_erase_le : (h.erase id loc r).bytes ≤ h.bytes := by
  unfold bytes
  cases hspace : loc.space <;> simp [hspace]

/-! ## Allocation -/

/-- The object `o` was placed in a space under the handle `id`, which named nothing. -/
structure Gains (h : Heap) (id : Handle) (o : Object) (space : Space) (h' : Heap) : Prop where
  wellFormed : h'.WellFormed
  dead : h.isLive id = false
  find : h'.find id = .ok o
  spaceOf : h'.spaceOf id = .ok space
  others : ∀ j, j ≠ id → h.Same h' j
  fullCollections : h'.fullCollections = h.fullCollections

/-- The next handle is the head of a list of free handles, that of the heap itself or one
that was made for it. -/
theorem WellFormed.ends_newHandle (hw : h.WellFormed) {ok : Handle → Heap → Prop}
    {fail : Fault → Heap → Prop}
    (hok : ∀ g id free, g.WellFormed → g.freeHandles = id :: free → (∀ j, h.Same g j) →
      (∀ t, g.arena t = h.arena t) → g.fullCollections = h.fullCollections →
      ok id { g with freeHandles := free }) :
    Ends HeapM.newHandle h ok fail := by
  unfold HeapM.newHandle
  simp only [ends_bind, ends_get]
  cases hfree : h.freeHandles with
  | nil =>
      exact hok h.spare ⟨h.handles.size⟩ [] (hw.spare hfree) rfl
        (fun j loc r => spare_houses) (fun t => spare_arena) rfl
  | cons id free =>
      exact hok h id free hw hfree (fun j loc r => Iff.rfl) (fun t => rfl) rfl

theorem WellFormed.gains_place (hw : h.WellFormed) {free : List Handle}
    (hfree : h.freeHandles = r.owner :: free)
    (hfits : (h.arena space).used + r.size < wordLimit) :
    h.Gains r.owner r.object space (h.place space r) := by
  have hplaced : (h.place space r).Houses r.owner ⟨space, (h.arena space).nextSlot⟩ r :=
    (hw.place_houses hfree).mpr (Or.inl ⟨rfl, rfl, rfl⟩)
  refine ⟨hw.place hfree hfits, ?_, hplaced.find, hplaced.spaceOf, ?_,
    fullCollections_setArena _⟩
  · rw [Bool.eq_false_iff, ne_eq, isLive_iff_houses hw]
    intro h
    obtain ⟨loc, r', hh⟩ := h
    exact hw.not_houses_of_free hfree hh
  · intro j hj loc r'
    rw [hw.place_houses hfree]
    simp [hj]

theorem WellFormed.ends_allocate? (hw : h.WellFormed) (request : HeapM.Request)
    (build : Unit → Object) :
    Ends (HeapM.allocate? request build) h
      (fun found h' => (h.arena request.space).hasRoom request.size = found.isSome ∧
        match found with
        | some id => h.Gains id (build ()) request.space h' ∧ request.size < wordLimit ∧
            h'.bytes = h.bytes + request.size
        | none => h' = h)
      (fun e _ => e = .wordOverflow ∧
        wordLimit ≤ (h.arena request.space).used + request.size) := by
  unfold HeapM.allocate?
  simp only [ends_bind, ends_get]
  split
  case isFalse hfull => exact ⟨Bool.eq_false_iff.mpr hfull, rfl⟩
  case isTrue hroom =>
      simp only [ends_bind]
      apply hw.ends_newHandle
      intro g id free hg hfree hsame harena hfull
      rw [ends_onArena]
      have harena' (t : Space) : ({ g with freeHandles := free } : Heap).arena t = g.arena t := by
        cases t <;> rfl
      rw [harena']
      refine Arena.ends_insert (fun hfits => ?_) fun hover => ⟨rfl, by rwa [← harena]⟩
      simp only [HeapM.bindHandle, ends_modify, ends_pure]
      -- taking the handle, filling the slot and binding one to the other is one placement
      have hplace : ({ ({ g with freeHandles := free } : Heap).setArena request.space
            ((g.arena request.space).put ⟨id, request.size, build ()⟩) with
          handles := (({ g with freeHandles := free } : Heap).setArena request.space
            ((g.arena request.space).put ⟨id, request.size, build ()⟩)).handles.setIfInBounds
              id.index (some ⟨request.space, (g.arena request.space).nextSlot⟩) } : Heap) =
          g.place request.space ⟨id, request.size, build ()⟩ := by
        unfold Heap.place
        rw [hfree]
        cases request.space <;> rfl
      rw [hplace]
      have hgains := hg.gains_place (r := ⟨id, request.size, build ()⟩) hfree hfits
      refine ⟨hroom, ⟨hgains.wellFormed, ?_, hgains.find, hgains.spaceOf, ?_,
        hgains.fullCollections.trans hfull⟩, Nat.lt_of_le_of_lt (Nat.le_add_left _ _) hfits, ?_⟩
      · rw [← (hsame id).isLive hw hg]
        exact hgains.dead
      · intro j hj loc r
        rw [hgains.others j hj loc r, hsame j loc r]
      · rw [bytes_place, bytes_congr fun t => congrArg Arena.used (harena t)]

/-! ## Changes in place -/

/-- The object of `id` was changed to `o` where it is. -/
structure Rewrites (h : Heap) (id : Handle) (o : Object) (h' : Heap) : Prop where
  wellFormed : h'.WellFormed
  find : h'.find id = .ok o
  spaceOf : h'.spaceOf id = h.spaceOf id
  others : ∀ j, j ≠ id → h.Same h' j
  fullCollections : h'.fullCollections = h.fullCollections

theorem ends_modifyResident {f : Resident → Resident} {ok : Unit → Heap → Prop}
    {fail : Fault → Heap → Prop} (hh : h.Houses id loc r)
    (hok : ok () (h.setArena loc.space
      { h.arena loc.space with
        slots := (h.arena loc.space).slots.setIfInBounds loc.slot (some (f r)) })) :
    Ends (HeapM.modifyResident loc f) h ok fail := by
  unfold HeapM.modifyResident
  rw [ends_bind, ends_heapRead_ok hh.residentAt, ends_modify]
  exact hok

/-- A change that keeps the size of a resident moves no bytes. -/
theorem Houses.setArena_slots (hh : h.Houses id loc r) (r' : Resident)
    (ha : (h.arena loc.space).WellFormed) (hsize : r'.size = r.size) :
    h.setArena loc.space
      { h.arena loc.space with
        slots := (h.arena loc.space).slots.setIfInBounds loc.slot (some r') } =
      h.replace loc r r' := by
  have hle := ha.size_le_used hh.2
  unfold replace Arena.swap
  rw [hsize, Nat.sub_add_cancel hle]

theorem WellFormed.ends_modifyObject (hw : h.WellFormed) (hfind : h.find id = .ok o)
    (f : Object → Object) :
    Ends (HeapM.modifyObject id f) h (fun _ h' => h.Rewrites id (f o) h') (fun _ _ => False) := by
  obtain ⟨loc, r, hh, rfl⟩ := houses_of_find hfind
  have hown := hw.owner_eq hh
  unfold HeapM.modifyObject
  rw [ends_bind, ends_heapRead_ok hh.locate]
  apply ends_modifyResident hh
  rw [hh.setArena_slots { r with object := f r.object } (hw.arena _) rfl]
  have hafter : (h.replace loc r { r with object := f r.object }).Houses id loc
      { r with object := f r.object } :=
    (hw.replace_houses hh).mpr (Or.inl ⟨rfl, rfl, rfl⟩)
  refine ⟨hw.replace hh hown ?_, hafter.find, ?_, ?_, fullCollections_setArena _⟩
  · have hle := (hw.arena loc.space).size_le_used hh.2
    have hlt := (hw.arena loc.space).used_lt
    show (h.arena loc.space).used - r.size + r.size < wordLimit
    omega
  · rw [hafter.spaceOf, hh.spaceOf]
  · intro j hj loc' r'
    rw [hw.replace_houses hh]
    simp [hj]

/-- A change in place is not measured. -/
theorem ends_modifyObject_bytes (hfind : h.find id = .ok o) (f : Object → Object) :
    Ends (HeapM.modifyObject id f) h (fun _ h' => h'.bytes = h.bytes) (fun _ _ => False) := by
  obtain ⟨loc, r, hh, rfl⟩ := houses_of_find hfind
  unfold HeapM.modifyObject
  rw [ends_bind, ends_heapRead_ok hh.locate]
  apply ends_modifyResident hh
  refine bytes_congr fun t => ?_
  rw [arena_setArena]
  split
  case isTrue h => rw [h]
  case isFalse => rfl

/-- The object of `id` is where it was, whatever it was measured at. -/
structure Measures (h : Heap) (id : Handle) (h' : Heap) : Prop where
  wellFormed : h'.WellFormed
  find : h'.find id = h.find id
  spaceOf : h'.spaceOf id = h.spaceOf id
  others : ∀ j, j ≠ id → h.Same h' j
  fullCollections : h'.fullCollections = h.fullCollections

/-- An object that was changed can be measured again. -/
theorem Rewrites.measures {h'' : Heap} (hr : h.Rewrites id o h') (hm : h'.Measures id h'') :
    h.Rewrites id o h'' where
  wellFormed := hm.wellFormed
  find := hm.find.trans hr.find
  spaceOf := hm.spaceOf.trans hr.spaceOf
  others j hj loc r := (hm.others j hj loc r).trans (hr.others j hj loc r)
  fullCollections := hm.fullCollections.trans hr.fullCollections

/-- An object that is changed where it was placed might have been placed as it is then. -/
theorem Gains.rewrites {h'' : Heap} {o' : Object} (hg : h.Gains id o space h') (hr : h'.Rewrites id o' h'') :
    h.Gains id o' space h'' where
  wellFormed := hr.wellFormed
  dead := hg.dead
  find := hr.find
  spaceOf := hr.spaceOf.trans hg.spaceOf
  others j hj loc r := (hr.others j hj loc r).trans (hg.others j hj loc r)
  fullCollections := hr.fullCollections.trans hg.fullCollections

theorem WellFormed.ends_reaccount (hw : h.WellFormed) (hlive : h.isLive id = true) :
    Ends (HeapM.reaccount id) h (fun _ h' => h.Measures id h')
      (fun e _ => e = .wordOverflow ∧ ∃ loc r, h.Houses id loc r ∧
        wordLimit ≤ (h.arena loc.space).used - r.size + r.object.size) := by
  obtain ⟨loc, r, hh, hown⟩ := hw.houses hlive
  unfold HeapM.reaccount
  rw [ends_bind, ends_heapRead_ok hh.locate, ends_bind, ends_heapRead_ok hh.residentAt]
  simp only [ends_bind]
  apply ends_modifyResident hh
  simp only [ends_get, arena_setArena, if_true]
  split
  case isTrue hover =>
      rw [ends_bind, ends_throw]
      have hle := (hw.arena loc.space).size_le_used hh.2
      exact ⟨rfl, loc, r, hh, hover.resolve_left (Nat.not_lt.mpr hle)⟩
  case isFalse hfits =>
      obtain ⟨-, hlt⟩ := not_or.mp hfits
      rw [ends_modify]
      -- the two changes of the slot are one, with the size and the sum together
      have hreplace : (h.setArena loc.space
            { h.arena loc.space with
              slots := (h.arena loc.space).slots.setIfInBounds loc.slot
                (some { r with size := r.object.size }) }).setArena loc.space
          { h.arena loc.space with
            slots := (h.arena loc.space).slots.setIfInBounds loc.slot
              (some { r with size := r.object.size })
            used := (h.arena loc.space).used - r.size + r.object.size } =
          h.replace loc r { r with size := r.object.size } := by
        unfold Heap.replace
        cases loc.space <;> rfl
      rw [hreplace]
      have hw' : (h.replace loc r { r with size := r.object.size }).WellFormed :=
        hw.replace hh hown (Nat.lt_of_not_le hlt)
      have hafter : (h.replace loc r { r with size := r.object.size }).Houses id loc
          { r with size := r.object.size } :=
        (hw.replace_houses hh).mpr (Or.inl ⟨rfl, rfl, rfl⟩)
      refine ⟨hw', by rw [hafter.find, hh.find], by rw [hafter.spaceOf, hh.spaceOf],
        fun j hj loc' r' => ?_, fullCollections_setArena _⟩
      rw [hw.replace_houses hh]
      simp [hj]

/-! ## Transplants -/

/-- The heap without the object at `loc`.  The handle of this object still gives the
location. -/
def emptied (h : Heap) (loc : Location) (r : Resident) : Heap :=
  h.setArena loc.space ((h.arena loc.space).clear loc.slot r)

@[simp] theorem emptied_handles : (h.emptied loc r).handles = h.handles :=
  handles_setArena _

@[simp] theorem emptied_arena {t : Space} : (h.emptied loc r).arena t =
    if t = loc.space then (h.arena loc.space).clear loc.slot r else h.arena t :=
  arena_setArena _

theorem Houses.locate_emptied (hh : h.Houses id loc r) : (h.emptied loc r).locate id = .ok loc := by
  rw [Heap.locate, emptied_handles]
  exact hh.locate

theorem Houses.residentAt_emptied (hh : h.Houses id loc r) :
    (h.emptied loc r).residentAt loc = .error .deadObject := by
  rw [Heap.residentAt, emptied_arena, if_pos rfl, Arena.clear_slots hh.2, if_pos rfl]

/-- The heap in which the object at `loc` belongs to `into`, and `source` is free. -/
def rebound (h : Heap) (source into : Handle) (loc : Location) (r : Resident) : Heap :=
  { h.setArena loc.space
      { h.arena loc.space with
        slots := (h.arena loc.space).slots.setIfInBounds loc.slot
          (some { r with owner := into }) } with
    handles := (h.handles.setIfInBounds into.index (some loc)).setIfInBounds source.index none
    freeHandles := source :: h.freeHandles }

section Transplants

variable {target : Location} {old : Resident} {ok : Unit → Heap → Prop}
  {fail : Fault → Heap → Prop} (htarget : h.Houses into target old)
  (hle : old.size ≤ (h.arena target.space).used)

include htarget hle

/-- A transplant drops the former object of `into`, and then lets this handle name the
object of `source`. -/
theorem Houses.ends_transplant (hh : (h.emptied target old).Houses source loc r)
    (hok : ok () ((h.emptied target old).rebound source into loc r)) :
    Ends (HeapM.transplant source into) h ok fail := by
  unfold HeapM.transplant
  rw [ends_bind, ends_heapRead_ok htarget.locate, ends_bind, ends_onArena]
  apply Arena.ends_take htarget.2 hle
  rw [← emptied, ends_bind, ends_heapRead_ok hh.locate, ends_bind]
  apply ends_modifyResident hh
  simp only [HeapM.bindHandle, HeapM.releaseHandle, ends_bind, ends_modify, handles_setArena,
    freeHandles_setArena]
  exact hok

/-- It looks `source` up only when the former object of `into` is gone. -/
theorem Houses.ends_transplant_stranded (hbad : h.isLive source = false ∨ source = into)
    (hfail : fail .deadObject (h.emptied target old)) :
    Ends (HeapM.transplant source into) h ok fail := by
  unfold HeapM.transplant
  rw [ends_bind, ends_heapRead_ok htarget.locate, ends_bind, ends_onArena]
  apply Arena.ends_take htarget.2 hle
  rw [← emptied, ends_bind]
  cases hbad with
  | inl hdead =>
      have hdead' : (h.emptied target old).isLive source = false := by
        rwa [Heap.isLive, emptied_handles]
      exact (ends_heapRead_error (locate_of_dead hdead')).mpr hfail
  | inr heq =>
      subst heq
      rw [ends_heapRead_ok htarget.locate_emptied, ends_bind]
      unfold HeapM.modifyResident
      rw [ends_bind]
      exact (ends_heapRead_error htarget.residentAt_emptied).mpr hfail

end Transplants

/-- Without an object of `into` nothing is done. -/
theorem ends_transplant_dead {ok : Unit → Heap → Prop} {fail : Fault → Heap → Prop}
    (hinto : h.isLive into = false) (hfail : fail .deadObject h) :
    Ends (HeapM.transplant source into) h ok fail := by
  unfold HeapM.transplant
  rw [ends_bind]
  exact (ends_heapRead_error (locate_of_dead hinto)).mpr hfail

/-- The handle `into` took over the object of `source`, which names nothing any more. -/
structure Hands (h : Heap) (source into : Handle) (h' : Heap) : Prop where
  wellFormed : h'.WellFormed
  find : h'.find into = h.find source
  spaceOf : h'.spaceOf into = h.spaceOf source
  dead : h'.isLive source = false
  freed : source ∈ h'.freeHandles
  others : ∀ j, j ≠ source → j ≠ into → h.Same h' j
  fullCollections : h'.fullCollections = h.fullCollections
  bytes : h'.bytes ≤ h.bytes

/-- Dropping an object and rebinding its handle is to take both away, so that the handle is
the next free one, and to let it take over the other object. -/
theorem WellFormed.rebound_emptied {target : Location} {old : Resident} (hw : h.WellFormed)
    (htarget : h.Houses into target old)
    (hh : (h.erase into target old).Houses source loc r) :
    (h.emptied target old).rebound source into loc r =
      (h.erase into target old).rename source into loc r := by
  have harena (t : Space) : (h.emptied target old).arena t = (h.erase into target old).arena t := by
    rw [erase_arena, emptied_arena]
  have hle := ((hw.erase htarget).arena loc.space).size_le_used hh.2
  unfold rebound Heap.rename Arena.swap
  rw [harena, Nat.sub_add_cancel hle]
  generalize (h.erase into target old).arena loc.space = a
  simp only [Heap.erase, emptied, handles_setArena, freeHandles_setArena, List.tail_cons,
    Array.setIfInBounds_setIfInBounds]
  cases loc.space <;> rfl

theorem WellFormed.ends_transplant (hw : h.WellFormed) (hsource : h.isLive source = true)
    (hinto : h.isLive into = true) (hne : source ≠ into) :
    Ends (HeapM.transplant source into) h (fun _ h' => h.Hands source into h')
      (fun _ _ => False) := by
  obtain ⟨loc, r, hh, hown⟩ := hw.houses hsource
  obtain ⟨target, old, htarget, -⟩ := hw.houses hinto
  have hmid := hw.erase htarget
  have hfree : (h.erase into target old).freeHandles = into :: h.freeHandles := rfl
  have hmid_source : (h.erase into target old).Houses source loc r :=
    (hw.erase_houses htarget).mpr ⟨hne, hh⟩
  -- the handle of the object that is dropped still leads to its slot here; the heap between the two
  -- steps is well formed without it
  have hread : (h.emptied target old).Houses source loc r := by
    refine ⟨by rw [emptied_handles, hh.1], ?_⟩
    rw [emptied_arena, ← erase_arena]
    exact hmid_source.2
  apply htarget.ends_transplant ((hw.arena target.space).size_le_used htarget.2) hread
  rw [hw.rebound_emptied htarget hmid_source]
  have hhouses (j : Handle) (loc' : Location) (x : Resident) :
      ((h.erase into target old).rename source into loc r).Houses j loc' x ↔ _ :=
    hmid.rename_houses hfree hmid_source
  have hafter := (hhouses into loc { r with owner := into }).mpr (Or.inl ⟨rfl, rfl, rfl⟩)
  have hw' := hmid.rename hfree hmid_source
  refine ⟨hw', ?_, ?_, ?_, List.mem_cons_self, ?_,
    (fullCollections_setArena _).trans (fullCollections_setArena _), ?_⟩
  · rw [hafter.find, hh.find]
  · rw [hafter.spaceOf, hh.spaceOf]
  · rw [Bool.eq_false_iff, ne_eq, isLive_iff_houses hw']
    intro h
    obtain ⟨loc', x, hx⟩ := h
    rw [hhouses] at hx
    simp [hne] at hx
  · intro j hj hj' loc' x
    rw [hhouses, hw.erase_houses htarget]
    simp [hj, hj']
  · refine Nat.le_trans (Nat.le_of_eq (bytes_congr fun t => ?_))
      (bytes_erase_le : (h.erase into target old).bytes ≤ h.bytes)
    -- the object that is handed over counts what it counted
    rw [rename_arena, replace_arena]
    split
    case isTrue h =>
        have hle := (hmid.arena loc.space).size_le_used hmid_source.2
        rw [h]
        exact Nat.sub_add_cancel hle
    case isFalse => rfl

/-- A transplant that ends with a result had two live handles, and not one of them twice. -/
theorem WellFormed.live_of_transplant (hw : h.WellFormed)
    (hrun : HeapM.transplant source into h = .ok () h') :
    h.isLive source = true ∧ h.isLive into = true ∧ source ≠ into := by
  by_contra hbad
  suffices hfails : Ends (HeapM.transplant source into) h (fun _ _ => False) (fun _ _ => True) from
    hfails.of_ok hrun
  cases hinto : h.isLive into with
  | false => exact ends_transplant_dead hinto trivial
  | true =>
      obtain ⟨target, old, htarget, -⟩ := hw.houses hinto
      refine htarget.ends_transplant_stranded ((hw.arena target.space).size_le_used htarget.2) ?_
        trivial
      by_contra hgood
      obtain ⟨hsource, hne⟩ := not_or.mp hgood
      exact hbad ⟨eq_true_of_ne_false hsource, hinto, hne⟩

end Heap

end ManagedHeap
