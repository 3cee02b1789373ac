import ManagedHeap.Heap.Report
import ManagedHeap.Proofs.Heap.Marking
import ManagedHeap.Proofs.Heap.Promotion

/-!
# Collections are exact

A collection keeps what the roots reach, and a collection of the young space also keeps
the objects of the old space, whether they are reached or not.  Everything it keeps is
afterwards in the old space under its handle, unchanged, and nothing else is left
(`Collects`).  The numbers it reports are the numbers of these objects.

The proof puts together marking (`Marking`), the sweeps (`Cleared`) and promotion
(`Gathered`).  It asks of the heap only that it is well formed, which every heap is that
arises by the operations on heaps (`Arises`); in particular the roots and the
children of objects need not be live.
-/

namespace ManagedHeap

open HeapM (Freed Collected)

namespace Heap

variable {h g : Heap} {space t : Space} {roots : List Handle} {id : Handle} {loc : Location}
  {r : Resident} {freed : Freed}

/-! ## Counting objects -/

/-- The handles of the residents of a space are all different. -/
theorem WellFormed.nodup_owners (hw : h.WellFormed) (t : Space) :
    ((h.arena t).residents.map Resident.owner).Nodup := by
  unfold Arena.residents
  rw [List.Nodup, List.pairwise_map, List.pairwise_filterMap, List.pairwise_iff_getElem]
  intro i j hi hj hlt r hr r' hr' heq
  have hslot (k : Nat) (hk : k < (h.arena t).slots.toList.length) (x : Resident)
      (hx : id (h.arena t).slots.toList[k] = some x) :
      h.handles[x.owner.index]? = some (some ⟨t, k⟩) := by
    apply hw.settled t k x
    rw [← Array.getElem?_toList, List.getElem?_eq_getElem hk]
    exact congrArg some hx
  have hfirst := hslot i hi r hr
  rw [heq, hslot j hj r' hr'] at hfirst
  have hij : j = i := by simpa using hfirst
  omega

/-- The handles of the objects of a space are the owners of its residents. -/
theorem WellFormed.spaceOf_eq_owners (hw : h.WellFormed) (t : Space) :
    {id | h.spaceOf id = .ok t} = ((h.arena t).residents.map Resident.owner).toFinset := by
  ext id
  simp only [Set.mem_ofPred_eq, List.coe_toFinset, List.mem_map, Arena.mem_residents,
    hw.spaceOf_eq_iff]
  constructor
  · intro h
    obtain ⟨loc, r, hh, rfl⟩ := h
    exact ⟨r, ⟨loc.slot, hh.2⟩, hw.owner_eq hh⟩
  · intro h
    obtain ⟨r, ⟨i, hi⟩, rfl⟩ := h
    exact ⟨_, r, hw.houses_of_slot hi, rfl⟩

theorem WellFormed.objectsIn_eq_ncard (hw : h.WellFormed) (t : Space) :
    h.objectsIn t = {id | h.spaceOf id = .ok t}.ncard := by
  rw [hw.spaceOf_eq_owners, Set.ncard_coe_finset,
    List.toFinset_card_of_nodup (hw.nodup_owners t), List.length_map]
  rfl

theorem WellFormed.ncard_live (hw : h.WellFormed) :
    h.live.ncard = h.objectsIn .young + h.objectsIn .old := by
  have hunion : h.live = {id | h.spaceOf id = .ok .young} ∪ {id | h.spaceOf id = .ok .old} := by
    ext id
    simp only [live, Set.mem_union, Set.mem_ofPred_eq, hw.spaceOf_eq_iff]
    rw [isLive_iff_houses hw]
    constructor
    · intro h
      obtain ⟨⟨space, slot⟩, r, hh⟩ := h
      cases space with
      | young => exact Or.inl ⟨_, r, hh, rfl⟩
      | old => exact Or.inr ⟨_, r, hh, rfl⟩
    · rintro (⟨loc, r, hh, -⟩ | ⟨loc, r, hh, -⟩) <;> exact ⟨loc, r, hh⟩
  -- what is live lies in one of the two spaces, and only in one
  have hfinite (t : Space) : {id | h.spaceOf id = .ok t}.Finite := by
    have hlive : h.live.Finite := finite_live
    apply hlive.subset
    intro id hid
    obtain ⟨loc, r, hh, -⟩ := hw.spaceOf_eq_iff.mp hid
    exact hh.isLive
  have hdisjoint : Disjoint {id | h.spaceOf id = .ok .young} {id | h.spaceOf id = .ok .old} := by
    apply Set.disjoint_left.mpr
    intro id hyoung hold
    simp only [Set.mem_ofPred_eq] at hyoung hold
    simp [hyoung] at hold
  rw [hunion, Set.ncard_union_eq hdisjoint (hfinite _) (hfinite _), ← hw.objectsIn_eq_ncard,
    ← hw.objectsIn_eq_ncard]

/-! ## All sweeps -/

/-- Whether a collection of a space spares an object, by its mark and its location. -/
def Spared (h : Heap) (space : Space) (id : Handle) (loc : Location) : Prop :=
  h.isMarked id = true ∨ (space = .young ∧ loc.space = .old)

/-- The heap `g` is `h` without the objects that were not spared. -/
structure Purged (h : Heap) (space : Space) (freed : Freed) (g : Heap) : Prop where
  wellFormed : g.WellFormed
  houses : ∀ id loc r, g.Houses id loc r ↔ h.Houses id loc r ∧ h.Spared space id loc
  objects : g.objectsIn .young + g.objectsIn .old + freed.objects =
    h.objectsIn .young + h.objectsIn .old
  bytes : g.bytesIn .young + g.bytesIn .old + freed.bytes = h.bytesIn .young + h.bytesIn .old

theorem Purged.relabel (hp : h.Purged space freed g) (marks : Marks) (a b : Nat) :
    h.Purged space freed { g with marks, scavenges := a, fullCollections := b } :=
  ⟨hp.wellFormed.relabel marks a b, hp.houses, hp.objects, hp.bytes⟩

theorem Cleared.purged (hc : h.Cleared .young freed g) : h.Purged .young freed g where
  wellFormed := hc.wellFormed
  houses id loc r := by
    rw [hc.houses]
    apply and_congr_right
    intro _
    obtain ⟨space, slot⟩ := loc
    cases space <;> simp [Doomed, Spared]
  objects := by
    have hold : g.objectsIn .old = h.objectsIn .old := by
      unfold objectsIn
      rw [hc.others .old (by simp)]
    have hyoung := hc.objects
    omega
  bytes := by
    have hold : g.bytesIn .old = h.bytesIn .old := by
      unfold bytesIn
      rw [hc.others .old (by simp)]
    have hyoung := hc.bytes
    omega

/-- A sweep of the old space after one of the young space leaves the marked objects. -/
theorem Cleared.purged_both {mid : Heap} {young old : Freed} (hyoung : h.Cleared .young young mid)
    (hold : mid.Cleared .old old g) :
    h.Purged .old ⟨young.objects + old.objects, young.bytes + old.bytes⟩ g where
  wellFormed := hold.wellFormed
  houses id loc r := by
    have hmarks : mid.isMarked id = h.isMarked id := by rw [isMarked, hyoung.marks, isMarked]
    -- the second sweep looks at the same marks and at the other space
    rw [hold.houses, hyoung.houses, and_assoc]
    apply and_congr_right
    intro _
    obtain ⟨space, slot⟩ := loc
    cases space <;> simp [Doomed, Spared, hmarks]
  objects := by
    have hfirst := hyoung.purged.objects
    have hsecond := hold.objects
    have hother : g.objectsIn .young = mid.objectsIn .young := by
      unfold objectsIn
      rw [hold.others .young (by simp)]
    simp only
    omega
  bytes := by
    have hfirst := hyoung.purged.bytes
    have hsecond := hold.bytes
    have hother : g.bytesIn .young = mid.bytesIn .young := by
      unfold bytesIn
      rw [hold.others .young (by simp)]
    simp only
    omega

theorem WellFormed.ends_sweepFor (hw : h.WellFormed) :
    Ends (HeapM.sweepFor space) h (h.Purged space)
      (fun e _ => e = .wordOverflow ∧ wordLimit ≤ h.bytesIn .young + h.bytesIn .old) := by
  unfold HeapM.sweepFor
  rw [ends_bind]
  refine hw.ends_sweep.mono (fun young mid hyoung => ?_) fun _ _ hfail => hfail
  cases space with
  | young =>
      simp only [ends_bind, ends_modify, ends_pure]
      exact hyoung.purged.relabel mid.marks (mid.scavenges + 1) mid.fullCollections
  | old =>
      simp only [ends_bind]
      refine hyoung.wellFormed.ends_sweep.mono (fun old g hold => ?_) fun _ _ hfail => hfail
      have hpurged := hyoung.purged_both hold
      split
      case isTrue hover =>
          rw [ends_bind, ends_throw]
          have hbytes : g.bytesIn .young + g.bytesIn .old + (young.bytes + old.bytes) = _ :=
            hpurged.bytes
          exact ⟨rfl, by omega⟩
      case isFalse =>
          exact hpurged.relabel g.marks g.scavenges (g.fullCollections + 1)

/-! ## A whole collection -/

/-- What is live after a collection of a space. -/
def Survives (h : Heap) (space : Space) (roots : List Handle) (id : Handle) : Prop :=
  h.isLive id = true ∧ (h.Reaches roots id ∨ (space = .young ∧ h.spaceOf id = .ok .old))

/-- What a collection of a space leaves, and what it reports. -/
structure Collects (h : Heap) (space : Space) (roots : List Handle) (done : Collected)
    (h' : Heap) : Prop where
  wellFormed : h'.WellFormed
  isLive_iff : ∀ id, h'.isLive id = true ↔ h.Survives space roots id
  find : ∀ id, h'.isLive id = true → h'.find id = h.find id
  spaceOf : ∀ id, h'.isLive id = true → h'.spaceOf id = .ok .old
  young_empty : h'.stats.youngObjects = 0 ∧ h'.stats.youngBytes = 0
  marked : done.marked = (h.reachable roots).ncard
  freed_objects : h'.live.ncard + done.freed.objects = h.live.ncard
  freed_bytes : h'.stats.youngBytes + h'.stats.oldBytes + done.freed.bytes =
    h.stats.youngBytes + h.stats.oldBytes
  promoted : done.promoted = {id | h'.isLive id = true ∧ h.spaceOf id = .ok .young}.ncard

theorem Purged.isLive_iff (hp : h.Purged space freed g) (hw : h.WellFormed)
    (hmarked : ∀ id, h.isMarked id = true ↔ id ∈ h.reachable roots) :
    g.isLive id = true ↔ h.Survives space roots id := by
  rw [isLive_iff_houses hp.wellFormed]
  constructor
  · intro h
    obtain ⟨loc, r, hh⟩ := h
    obtain ⟨hbefore, hspared⟩ := (hp.houses id loc r).mp hh
    refine ⟨hbefore.isLive, ?_⟩
    rcases hspared with hmark | ⟨hyoung, hold⟩
    · exact Or.inl ((hmarked id).mp hmark).2
    · exact Or.inr ⟨hyoung, by rw [hbefore.spaceOf, hold]⟩
  · intro h
    obtain ⟨hlive, hreason⟩ := h
    obtain ⟨loc, r, hh, -⟩ := hw.houses hlive
    refine ⟨loc, r, (hp.houses id loc r).mpr ⟨hh, ?_⟩⟩
    rcases hreason with hreach | ⟨hyoung, hold⟩
    · exact Or.inl ((hmarked id).mpr ⟨hlive, hreach⟩)
    · rw [hh.spaceOf] at hold
      exact Or.inr ⟨hyoung, by simpa using hold⟩

theorem Purged.find (hp : h.Purged space freed g) (hlive : g.isLive id = true) :
    g.find id = h.find id := by
  obtain ⟨loc, r, hh, -⟩ := hp.wellFormed.houses hlive
  rw [hh.find, ((hp.houses id loc r).mp hh).1.find]

theorem Purged.spaceOf_iff (hp : h.Purged space freed g) (hw : h.WellFormed) :
    g.spaceOf id = .ok t ↔ g.isLive id = true ∧ h.spaceOf id = .ok t := by
  rw [hp.wellFormed.spaceOf_eq_iff, isLive_iff_houses hp.wellFormed]
  constructor
  · intro h
    obtain ⟨loc, r, hh, hspace⟩ := h
    have hbefore := ((hp.houses id loc r).mp hh).1
    exact ⟨⟨loc, r, hh⟩, hw.spaceOf_eq_iff.mpr ⟨loc, r, hbefore, hspace⟩⟩
  · intro h
    obtain ⟨⟨loc, r, hh⟩, hspace⟩ := h
    have hbefore := ((hp.houses id loc r).mp hh).1
    rw [hbefore.spaceOf] at hspace
    exact ⟨loc, r, hh, by simpa using hspace⟩

/-- The young objects that are left after the sweeps are promoted. -/
theorem Gathered.collects {g' : Heap} {count total : Nat} (hgathered : g.Gathered count g')
    (hp : h.Purged space freed g) (hw : h.WellFormed)
    (hmarked : ∀ id, h.isMarked id = true ↔ id ∈ h.reachable roots)
    (htotal : total = (h.reachable roots).ncard) :
    h.Collects space roots ⟨space, total, freed, count⟩ g' where
  wellFormed := hgathered.wellFormed
  isLive_iff id := by rw [hgathered.isLive, hp.isLive_iff hw hmarked]
  find id hlive := by rw [hgathered.find, hp.find (hgathered.isLive id ▸ hlive)]
  spaceOf := hgathered.spaceOf
  young_empty := ⟨hgathered.young_objects, hgathered.young_bytes⟩
  marked := htotal
  freed_objects := by
    have hobjects := hp.objects
    have hmoved := hgathered.objects
    have hyoung := hgathered.young_objects
    rw [hgathered.wellFormed.ncard_live, hw.ncard_live]
    simp only
    omega
  freed_bytes := by
    have hbytes := hp.bytes
    have hmoved := hgathered.bytes
    have hyoung := hgathered.young_bytes
    show g'.bytesIn .young + g'.bytesIn .old + freed.bytes = h.bytesIn .young + h.bytesIn .old
    omega
  promoted := by
    have hset : {id | g.spaceOf id = .ok .young} =
        {id | g'.isLive id = true ∧ h.spaceOf id = .ok .young} := by
      ext id
      simp only [Set.mem_ofPred_eq, hp.spaceOf_iff hw, hgathered.isLive]
    rw [← hset, ← hp.wellFormed.objectsIn_eq_ncard]
    exact hgathered.counted

/-- A collection of a well-formed heap ends, and it does what it should.  It fails only if
the bytes of both spaces together do not fit a machine word. -/
theorem WellFormed.ends_collect (hw : h.WellFormed) (space : Space) (roots : List Handle) :
    Ends (HeapM.collect space roots) h (fun done h' => done.space = space ∧
        h.Collects space roots done h')
      (fun e _ => e = .wordOverflow ∧
        wordLimit ≤ h.stats.youngBytes + h.stats.oldBytes) := by
  unfold HeapM.collect
  rw [ends_bind]
  refine (hw.ends_markAll roots).mono ?_ fun _ _ hfail => hfail.elim
  intro total marked hend
  obtain ⟨marks, rfl, hmarks, htotal⟩ := hend
  rw [ends_bind]
  -- the heap with its marks differs from `h` in nothing that counts
  have hwm : ({ h with marks } : Heap).WellFormed := hw.relabel marks h.scavenges h.fullCollections
  have hreach : ({ h with marks } : Heap).reachable roots = h.reachable roots := by
    ext id
    exact and_congr_right fun _ => reaches_congr fun _ => rfl
  have hmarked (id : Handle) : ({ h with marks } : Heap).isMarked id = true ↔
      id ∈ ({ h with marks } : Heap).reachable roots := by
    rw [hreach, ← hmarks]
    rfl
  refine hwm.ends_sweepFor.mono (fun freed g hp => ?_) fun _ _ hfail => hfail
  rw [ends_bind]
  refine hp.wellFormed.ends_promoteSurvivors.mono ?_
    fun e _ hfail => ⟨hfail.1, ?_⟩
  · intro count g' hgathered
    simp only [ends_bind, ends_modify, ends_pure, true_and]
    have hdone := hgathered.collects hp hwm hmarked (hreach ▸ htotal)
    have hsurvives (id : Handle) : ({ h with marks } : Heap).Survives space roots id ↔
        h.Survives space roots id :=
      and_congr_right fun _ => or_congr_left (reaches_congr fun _ => rfl)
    exact { hdone with
      wellFormed := hdone.wellFormed.relabel .empty g'.scavenges g'.fullCollections
      isLive_iff := fun id => (hdone.isLive_iff id).trans (hsurvives id)
      marked := htotal }
  · have hbytes := hp.bytes
    have hover := hfail.2
    show wordLimit ≤ h.bytesIn .young + h.bytesIn .old
    change _ = h.bytesIn .young + h.bytesIn .old at hbytes
    omega

/-! ## The heaps that arise -/

/-- The heaps that the operations on heaps lead to.  Objects are changed in place by any
function, and the children of an object and the roots of a collection may be any handles. -/
inductive Arises : Heap → Prop
  | empty (youngLimit oldLimit : Nat) : Arises (.empty youngLimit oldLimit)
  | allocate {h h' : Heap} {found : Option Handle} (ha : Arises h) (request : HeapM.Request)
      (build : Unit → Object) (hrun : HeapM.allocate? request build h = .ok found h') : Arises h'
  | modify {h h' : Heap} {id : Handle} {f : Object → Object} (ha : Arises h)
      (hrun : HeapM.modifyObject id f h = .ok () h') : Arises h'
  | reaccount {h h' : Heap} {id : Handle} (ha : Arises h)
      (hrun : HeapM.reaccount id h = .ok () h') : Arises h'
  | transplant {h h' : Heap} {source into : Handle} (ha : Arises h)
      (hrun : HeapM.transplant source into h = .ok () h') : Arises h'
  | collect {h h' : Heap} {space : Space} {roots : List Handle} {done : Collected}
      (ha : Arises h) (hrun : HeapM.collect space roots h = .ok done h') : Arises h'

/-- An operation on a handle that names nothing has no result. -/
theorem isLive_of_read {α : Type} {act : Location → HeapM α} {a : α} {h' : Heap}
    (hrun : (do act (← HeapM.read (·.locate id))) h = .ok a h') : h.isLive id = true := by
  by_contra hdead
  have hlocate := locate_of_dead (Bool.eq_false_iff.mpr hdead)
  have hfails : Ends (do act (← HeapM.read (·.locate id))) h (fun _ _ => False)
      (fun _ _ => True) := by
    rw [ends_bind]
    exact (ends_heapRead_error hlocate).mpr trivial
  exact hfails.of_ok hrun

theorem Arises.wellFormed (ha : h.Arises) : h.WellFormed := by
  induction ha with
  | empty youngLimit oldLimit => exact wellFormed_empty youngLimit oldLimit
  | @allocate h h' found ha request build hrun hw =>
      obtain ⟨-, hfound⟩ := (hw.ends_allocate? request build).of_ok hrun
      cases found with
      | none => exact hfound ▸ hw
      | some id => exact hfound.1.wellFormed
  | @modify h h' id f ha hrun hw =>
      obtain ⟨o, hfind⟩ := hw.isLive_iff_find.mp (isLive_of_read hrun)
      exact ((hw.ends_modifyObject hfind f).of_ok hrun).wellFormed
  | @reaccount h h' id ha hrun hw =>
      exact ((hw.ends_reaccount (isLive_of_read hrun)).of_ok hrun).wellFormed
  | transplant ha hrun hw =>
      obtain ⟨hsource, hinto, hne⟩ := hw.live_of_transplant hrun
      exact ((hw.ends_transplant hsource hinto hne).of_ok hrun).wellFormed
  | @collect h h' space roots done ha hrun hw =>
      exact ((hw.ends_collect space roots).of_ok hrun).2.wellFormed

/-- A collection of a heap that arises by operations is exact: it keeps what it should
where it should be, and reports how much that is.  It fails only if the bytes of both
spaces together do not fit a machine word. -/
theorem Arises.collect_exact (ha : h.Arises) (space : Space) (roots : List Handle) :
    Ends (HeapM.collect space roots) h
      (fun done h' => done.space = space ∧ h.Collects space roots done h')
      (fun e _ => e = .wordOverflow ∧ wordLimit ≤ h.stats.youngBytes + h.stats.oldBytes) :=
  ha.wellFormed.ends_collect space roots

/-- A heap with a young number, an array that refers to it and a number that nothing refers
to; the array is the root. -/
theorem Arises.collect_exact_three : ∃ h : Heap, h.Arises ∧ h.stats.youngObjects = 3 ∧
    Ends (HeapM.collect .young [⟨1⟩]) h
      (fun done h' => done.space = .young ∧ h.Collects .young [⟨1⟩] done h')
      (fun e _ => e = .wordOverflow ∧ wordLimit ≤ h.stats.youngBytes + h.stats.oldBytes) := by
  obtain ⟨h, harises, hthree⟩ : ∃ h : Heap, h.Arises ∧ h.stats.youngObjects = 3 := by
    have number := (Arises.empty 1000 1000).allocate (.of (.number .nan) .young)
      (fun _ => .number .nan) rfl
    have array := number.allocate (.of (.array #[.ref ⟨0⟩]) .young)
      (fun _ => .array #[.ref ⟨0⟩]) rfl
    have lonely := array.allocate (.of (.number .infinity) .young) (fun _ => .number .infinity) rfl
    exact ⟨_, lonely, by decide +kernel⟩
  exact ⟨h, harises, hthree, harises.collect_exact .young [⟨1⟩]⟩

end Heap

end ManagedHeap
