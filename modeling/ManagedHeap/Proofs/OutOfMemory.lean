import ManagedHeap.Proofs.Accounting
import ManagedHeap.Proofs.AllocationProtocol
import Mathlib.Algebra.BigOperators.Finprod

/-!
# When a store is out of memory

An allocation that finds no room collects its space and tries once more.  What room there is
then can be told in advance, from what the objects measure that can be reached:

* A collection of the young space moves everything that survives to the old space, whatever the
  limit of the old space is.  So only an object that is larger than the whole young space finds
  no room there.
* A collection of the old space leaves exactly what the roots and the object's own references
  lead to, of both spaces, and all of it is in the old space afterwards.  So an object finds no
  room there if there is none for it at first, and none beside all that is reachable
  (`Store.Exhausts`).

Both rest on two facts: the bytes in use in a space are what its objects measure, and a
collection leaves exactly what is reachable.
-/

namespace ManagedHeap

open Store

/-! ## What objects measure together -/

namespace Heap

variable {h h' : Heap} {ids : Set Handle} {limits : Space → Nat} {space : Space}
  {roots : List Handle} {done : HeapM.Collected}

/-- What the object of a handle measures. -/
def sizeOf (h : Heap) (id : Handle) : Nat :=
  match h.find id with
  | .ok o => o.size
  | .error _ => 0

/-- What the objects of some handles measure together. -/
noncomputable def totalSize (h : Heap) (ids : Set Handle) : Nat :=
  ∑ᶠ id ∈ ids, h.sizeOf id

theorem totalSize_congr (hfind : ∀ id ∈ ids, h'.find id = h.find id) :
    h'.totalSize ids = h.totalSize ids := by
  refine finsum_mem_congr rfl fun id hid => ?_
  unfold sizeOf
  rw [hfind id hid]

/-- The bytes in use in a space are what the objects measure whose handles lead there. -/
theorem WellFormed.used_eq_totalSize (hw : h.WellFormed) (hh : h.Accounted limits)
    (space : Space) :
    (h.arena space).used = h.totalSize {id | h.spaceOf id = .ok space} := by
  have hsizes : ∀ r ∈ (h.arena space).residents, r.object.size = h.sizeOf r.owner := by
    intro r hr
    obtain ⟨i, hi⟩ := Arena.mem_residents.mp hr
    unfold sizeOf
    rw [(hw.houses_of_slot hi).find]
  calc (h.arena space).used
      = ((h.arena space).residents.map fun r => r.object.size).sum :=
        (hh space).used_eq_objectBytes
    _ = (((h.arena space).residents.map Resident.owner).map h.sizeOf).sum := by
        rw [List.map_map]
        exact congrArg List.sum (List.map_congr_left hsizes)
    _ = ∑ id ∈ ((h.arena space).residents.map Resident.owner).toFinset, h.sizeOf id :=
        (List.sum_toFinset _ (hw.nodup_owners space)).symm
    _ = h.totalSize {id | h.spaceOf id = .ok space} := by
        rw [hw.spaceOf_eq_owners, totalSize, finsum_mem_coe_finset]

/-! ## The bytes that a collection leaves -/

theorem Collects.young_used (hc : h.Collects space roots done h') :
    (h'.arena .young).used = 0 :=
  hc.young_empty.2

/-- After a collection of both spaces what is in use is what was reachable. -/
theorem Collects.old_used (hc : h.Collects .old roots done h') (hh : h'.Accounted limits) :
    (h'.arena .old).used = h.totalSize (h.reachable roots) := by
  have hlive (id : Handle) : h'.isLive id = true ↔ id ∈ h.reachable roots :=
    (hc.isLive_iff id).trans (and_congr_right fun _ => by simp)
  have hset : {id | h'.spaceOf id = .ok .old} = h.reachable roots := by
    ext id
    rw [← hlive id]
    refine ⟨fun hspace => ?_, hc.spaceOf id⟩
    obtain ⟨loc, r, hh, -⟩ := hc.wellFormed.spaceOf_eq_iff.mp hspace
    exact hh.isLive
  calc (h'.arena .old).used
      = h'.totalSize {id | h'.spaceOf id = .ok .old} := hc.wellFormed.used_eq_totalSize hh .old
    _ = h'.totalSize (h.reachable roots) := by rw [hset]
    _ = h.totalSize (h.reachable roots) :=
        totalSize_congr fun id hid => hc.find id ((hlive id).mpr hid)

end Heap

/-! ## Room -/

namespace Arena

variable {a : Arena} {size : Nat}

theorem le_limit_of_hasRoom (hroom : a.hasRoom size = true) (hfits : a.used + size < wordLimit) :
    a.used + size ≤ a.limit := by
  have hmin : min (a.used + size) (wordLimit - 1) ≤ a.limit := by simpa [hasRoom] using hroom
  omega

theorem limit_lt_of_full (hfull : a.hasRoom size = false) : a.limit < a.used + size := by
  have hmin : ¬ min (a.used + size) (wordLimit - 1) ≤ a.limit := by simpa [hasRoom] using hfull
  omega

end Arena

/-- An object that was placed can be counted. -/
theorem Heap.ends_allocate?_fits (h : Heap) (request : HeapM.Request) (build : Unit → Object) :
    Ends (HeapM.allocate? request build) h
      (fun found _ => found.isSome = true →
        (h.arena request.space).used + request.size < wordLimit) fun _ _ => True := by
  unfold HeapM.allocate?
  rw [ends_bind, ends_get]
  split
  case isFalse => exact fun hsome => by simp at hsome
  case isTrue =>
      rw [ends_bind]
      refine Ends.mono (h.ends_newHandle_arena) (fun id g harena => ?_) fun _ _ _ => trivial
      rw [ends_bind, ends_onArena, harena]
      exact Arena.ends_insert (fun hfits _ => hfits) fun _ => trivial

theorem ends_attempt_fits (s : Store) (request : HeapM.Request) (build : Unit → Object) :
    Ends (StoreM.attempt request build) s
      (fun found _ => found.isSome = true →
        (s.heap.arena request.space).used + request.size < wordLimit) fun _ _ => True := by
  unfold StoreM.attempt
  rw [ends_bind]
  have hrefused : Ends StoreM.nextRefused s _ fun _ _ => True := ends_nextRefused
  refine hrefused.mono (fun refused s₁ hend => ?_) fun _ _ hfail => hfail
  obtain ⟨-, rfl⟩ := hend
  split
  case isTrue => exact fun hsome => by simp at hsome
  case isFalse =>
      rw [ends_onHeap]
      exact s.heap.ends_allocate?_fits request build

/-! ## Running out of memory -/

namespace Store

variable {s before after : Store} {o : Object} {space : Space} {collections : Nat} {id : Handle}
  {found : Option Handle}

/-- An object has no room in a space, and would have none after a collection of the space. -/
def Exhausts (s : Store) (o : Object) : Space → Prop
  | .young => s.config.youngBytes < o.size
  | .old => s.config.oldBytes < (s.heap.arena .old).used + o.size ∧
      s.config.oldBytes < s.heap.totalSize (s.heap.reachable (s.roots o.children)) + o.size

/-- Where the last attempt begins: at once, or after a first attempt was denied and the space was
collected. -/
theorem Tries.before_accounted (ht : s.Tries o space collections before found after)
    (hs : WellRooted s) : before.heap.Accounted s.config.spaceBytes ∧
      (found.isSome = true ∧ before = s ∨ s.Denies (.of o space) ∧
        ∃ done, s.heap.Collects space (s.roots o.children) done before.heap) ∧
      (s.outages = none → before.outages = none) := by
  have haccounted := hs.accounted
  have hw := hs.ready.1.wellFormed
  cases ht with
  | once => exact ⟨haccounted, Or.inl ⟨rfl, rfl⟩, id⟩
  | @twice refused before after done found hfirst hcollect hsecond =>
      have hdenied := (ends_attempt hw _ _).of_ok hfirst
      obtain ⟨outages, rfl⟩ := hdenied.of_refused
      have hw' : ({ s with outages } : Store).heap.WellFormed := hw
      have hleft := ((indifferent_accounted _).preserves_collect space o.children { s with outages }
        haccounted).of_ok hcollect
      obtain ⟨h', hc, -, rfl⟩ := (ends_collect hw' space o.children).of_ok hcollect
      refine ⟨hleft, Or.inr ⟨hdenied.denied.mp rfl, done, hc⟩, fun hnone => ?_⟩
      have hattempts : outages.map Outages.attempts = none := by
        simpa [attempts?, hnone] using hdenied.attempts
      simpa using hattempts

/-- What was placed had room, at the first attempt or beside what a collection left. -/
theorem Tries.not_exhausts (ht : s.Tries o space collections before (some id) after)
    (hs : WellRooted s) : ¬ s.Exhausts o space := by
  obtain ⟨hbefore, hcourse, -⟩ := ht.before_accounted hs
  have hroom : (before.heap.arena space).used + o.size ≤ s.config.spaceBytes space := by
    have hfree : (before.heap.arena space).hasRoom o.size = true := by
      have hlast := (ht.tried hs.ready.1.toSound).last
      have hdenies : ¬ before.Denies (.of o space) := fun h => by simpa using hlast.mpr h
      exact eq_true_of_ne_false fun hfull => hdenies (Or.inr hfull)
    rw [← (hbefore space).limit_eq]
    obtain ⟨-, -, hattempt⟩ := ht.prepares hs.ready.1.toSound
    exact Arena.le_limit_of_hasRoom hfree ((ends_attempt_fits _ _ _).of_ok hattempt rfl)
  cases space with
  | young => exact Nat.not_lt.mpr ((Nat.le_add_left _ _).trans hroom)
  | old =>
      rintro ⟨hnow, hthen⟩
      change _ ≤ s.config.oldBytes at hroom
      rcases hcourse with ⟨-, rfl⟩ | ⟨-, done, hc⟩
      · omega
      · rw [hc.old_used hbefore] at hroom
        omega

/-- Without outages nothing but the lack of room denies an object a place. -/
theorem Denies.limit_lt (hdenies : s.Denies (.of o space)) (hplan : s.outages = none)
    {limits : Space → Nat} (hh : s.heap.Accounted limits) :
    limits space < (s.heap.arena space).used + o.size := by
  rcases hdenies with ⟨plan, hsome, -⟩ | hfull
  · simp [hplan] at hsome
  · exact (hh space).limit_eq ▸ Arena.limit_lt_of_full hfull

/-- What was denied a place twice had no room, at the first attempt and beside what a collection
left. -/
theorem Tries.exhausts (ht : s.Tries o space collections before none after) (hs : WellRooted s)
    (hplan : s.outages = none) : s.Exhausts o space := by
  obtain ⟨hbefore, hcourse, hplans⟩ := ht.before_accounted hs
  have htried := ht.tried hs.ready.1.toSound
  have hlast := (htried.last.mp rfl).limit_lt (hplans hplan) hbefore
  obtain ⟨hdenied, done, hc⟩ := hcourse.resolve_left fun hfound => by simp at hfound
  cases space with
  | young =>
      rw [hc.young_used, Nat.zero_add] at hlast
      exact hlast
  | old =>
      rw [hc.old_used hbefore] at hlast
      exact ⟨hdenied.limit_lt hplan hs.accounted, hlast⟩

/-- The bytes that an allocation comes to cannot be counted in a machine word. -/
def Overflows (s : Store) (o : Object) (space : Space) : Prop :=
  ∃ s', StoreM.allocate o space s = .error .wordOverflow s'

/-- When an allocation runs out of memory, and when it has a result.  There is no third way,
unless bytes cannot be counted, and then they are more than a machine word can count. -/
structure RunsOutExactly (s : Store) (o : Object) (space : Space) : Prop where
  exhausted : (∃ s', StoreM.allocate o space s = .error (.outOfMemory o.size o.kind space) s') ↔
    s.Exhausts o space ∧ ¬ s.Overflows o space
  placed : (∃ id s', StoreM.allocate o space s = .ok id s') ↔
    ¬ s.Exhausts o space ∧ ¬ s.Overflows o space
  overflow : s.Overflows o space → wordLimit ≤ s.heap.bytes + o.size

end Store

variable {s : Store}

/-- A well-rooted store without outages, whose gate is open, runs out of memory for an object
exactly if the object is larger than the young space that it is meant for, or if the old space
has no room for it now and none beside all that the roots and the object lead to. -/
theorem WellRooted.out_of_memory (hs : WellRooted s) (hplan : s.outages = none)
    (hopen : s.gate.isOpen = true) (o : Object) (space : Space) : s.RunsOutExactly o space := by
  have hends := hs.ready.1.toSound.ends_allocate hopen o space
  -- each of the three endings excludes the other two
  cases hrun : StoreM.allocate o space s with
  | ok id s' =>
      obtain ⟨_, _, _, ht, -⟩ := hends.of_ok hrun
      have hroom := ht.not_exhausts hs
      have hcounts : ¬ s.Overflows o space := by
        rintro ⟨s'', hover⟩
        simp [hrun] at hover
      refine ⟨iff_of_false ?_ fun h => hroom h.1, iff_of_true ⟨id, s', hrun⟩ ⟨hroom, hcounts⟩,
        fun hover => absurd hover hcounts⟩
      rintro ⟨s'', hfail⟩
      simp [hrun] at hfail
  | error e s' =>
      have hnone : ¬ ∃ id s', StoreM.allocate o space s = .ok id s' := by
        rintro ⟨id, s'', hok⟩
        simp [hrun] at hok
      rcases hends.of_error hrun with ⟨rfl, _, _, ht⟩ | ⟨rfl, hwords⟩
      · have hexhausts := ht.exhausts hs hplan
        have hcounts : ¬ s.Overflows o space := by
          rintro ⟨s'', hover⟩
          simp [hrun] at hover
        exact ⟨iff_of_true ⟨s', hrun⟩ ⟨hexhausts, hcounts⟩,
          iff_of_false hnone fun h => h.1 hexhausts, fun hover => absurd hover hcounts⟩
      · have hover : s.Overflows o space := ⟨s', hrun⟩
        refine ⟨iff_of_false ?_ fun h => h.2 hover, iff_of_false hnone fun h => h.2 hover,
          fun _ => hwords⟩
        rintro ⟨s'', hfail⟩
        simp [hrun] at hfail

/-- An old text that nothing keeps alive, in an old space of 480 bytes.  Of two objects for which
there is no room, one has room after a collection. -/
theorem WellRooted.out_of_memory_full : ∃ s : Store, WellRooted s ∧ s.outages = none ∧
    s.gate.isOpen = true ∧ s.RunsOutExactly (.bytes (Array.replicate 60 0)) .old ∧
    s.RunsOutExactly (.bytes (Array.replicate 100 0)) .old ∧
    480 < (s.heap.arena .old).used + (Object.bytes (Array.replicate 60 0)).size ∧
    ¬ s.Exhausts (.bytes (Array.replicate 60 0)) .old ∧
    s.Exhausts (.bytes (Array.replicate 100 0)) .old := by
  have hcheck : (((Store.create { oldBytes := 480 } none).toOption.bind (replay
      [.perform (.newText "abcdefg" .old), .closeScope ⟨0⟩])).any fun s =>
        s.outages.isNone && s.gate.isOpen &&
        decide (480 < (s.heap.arena .old).used + (Object.bytes (Array.replicate 60 0)).size) &&
        (s.result? (StoreM.allocate (.bytes (Array.replicate 60 0)) .old)).isSome &&
        decide (s.fault? (StoreM.allocate (.bytes (Array.replicate 100 0)) .old) =
          some (.outOfMemory 140 .bytes .old))) = true := by
    decide +kernel
  obtain ⟨s, hs, hcheck⟩ := WellRooted.exists_replay hcheck
  simp only [Bool.and_eq_true, Option.isNone_iff_eq_none, decide_eq_true_eq] at hcheck
  obtain ⟨⟨⟨⟨hplan, hopen⟩, hfull⟩, hplaced⟩, hfault⟩ := hcheck
  have hsmall := hs.out_of_memory hplan hopen (.bytes (Array.replicate 60 0)) .old
  have hlarge := hs.out_of_memory hplan hopen (.bytes (Array.replicate 100 0)) .old
  obtain ⟨result, hresult⟩ := Option.isSome_iff_exists.mp hplaced
  obtain ⟨s', hrun⟩ := Store.error_of_fault? hfault
  exact ⟨s, hs, hplan, hopen, hsmall, hlarge, hfull,
    (hsmall.placed.mp ⟨_, _, Store.ok_of_result? hresult⟩).1, (hlarge.exhausted.mp ⟨s', hrun⟩).1⟩

end ManagedHeap
