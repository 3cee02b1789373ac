import ManagedHeap.Proofs.Heap.Representation

/-!
# Transplants of any two handles

A transplant empties the slot of `into` before it looks `source` up.  It would be all or
nothing if the second step could not fail, and it fails exactly if `source` names nothing
or is `into` itself, whose object was just dropped.  Then `into` is left with the slot that
it had, an empty one that the next allocation takes (`Strands`): the handle counts as
occupied and leads to nothing, and after that allocation to the object of another handle.

Nothing is needed here but that the handles and the slots determine each other and that the
lists of what is free are right (`Matched`).  The counts of bytes matter in one place: what
is taken off the count of a space has to be part of it.
-/

namespace ManagedHeap

namespace Heap

variable {h h' : Heap} {id j source into : Handle} {loc loc' target : Location}
  {r r' old : Resident} {t : Space} {i : Nat}

/-! ## Handles and slots that match -/

/-- The table of handles and the slots determine each other, and the lists of what is free
name exactly what is empty.  Nothing is said of the bytes in use. -/
structure Matched (h : Heap) : Prop where
  linked : ∀ (id : Handle) (loc : Location), h.handles[id.index]? = some (some loc) ↔
    ∃ r, (h.arena loc.space).slots[loc.slot]? = some (some r) ∧ r.owner = id
  freeHandles_nodup : h.freeHandles.Nodup
  mem_freeHandles : ∀ id : Handle, id ∈ h.freeHandles ↔ h.handles[id.index]? = some none
  free_nodup : ∀ t, (h.arena t).free.Nodup
  mem_free : ∀ t i, i ∈ (h.arena t).free ↔ (h.arena t).slots[i]? = some none

theorem Bookkept.matched (hb : h.Bookkept) : h.Matched :=
  ⟨hb.linked, hb.freeHandles_nodup, hb.mem_freeHandles, hb.free_nodup, hb.mem_free⟩

theorem Matched.houses (hm : h.Matched) (hlive : h.isLive id = true) :
    ∃ loc r, h.Houses id loc r ∧ r.owner = id := by
  obtain ⟨loc, hhandle⟩ := isLive_iff.mp hlive
  obtain ⟨r, hslot, hown⟩ := (hm.linked id loc).mp hhandle
  exact ⟨loc, r, ⟨hhandle, hslot⟩, hown⟩

theorem Matched.owner_eq (hm : h.Matched) (hh : h.Houses id loc r) : r.owner = id := by
  obtain ⟨r', hslot, hown⟩ := (hm.linked id loc).mp hh.1
  rw [hh.2] at hslot
  obtain rfl : r = r' := by simpa using hslot
  exact hown

/-- Of two different handles neither gives the location of the other. -/
theorem Matched.loc_ne (hm : h.Matched) (hh : h.Houses id loc r)
    (hhandle : h.handles[j.index]? = some (some loc')) (hne : j ≠ id) : loc' ≠ loc := by
  rintro rfl
  obtain ⟨r', hslot, hown⟩ := (hm.linked j loc').mp hhandle
  rw [hh.2] at hslot
  obtain rfl : r = r' := by simpa using hslot
  exact hne (hown ▸ hm.owner_eq hh)

/-! ## What a transplant does -/

/-- The handle `into` took over the object of `source`, which is free, and its former object
is gone.  Everything else is as it was. -/
structure Transplants (h : Heap) (source into : Handle) (h' : Heap) : Prop where
  matched : h'.Matched
  ne : source ≠ into
  /-- The object is where it was, accounted for as it was. -/
  moved : ∃ loc r, h.Houses source loc r ∧ h'.Houses into loc { r with owner := into }
  dead : h'.isLive source = false
  freed : h'.freeHandles = source :: h.freeHandles
  /-- The former object of `into` is gone from its slot, and its bytes from the count. -/
  dropped : ∃ loc r, h.Houses into loc r ∧
    (h'.arena loc.space).slots[loc.slot]? = some none ∧
    ∀ t, (h.arena t).used = (h'.arena t).used + if t = loc.space then r.size else 0
  others : ∀ j, j ≠ source → j ≠ into → h.Same h' j
  limit : ∀ t, (h'.arena t).limit = (h.arena t).limit
  marks : h'.marks = h.marks
  collections : h'.scavenges = h.scavenges ∧ h'.fullCollections = h.fullCollections

/-- The object of `into` is gone with its bytes, while `into` still gives the slot where it
was. -/
structure Strands (h : Heap) (into : Handle) (h' : Heap) : Prop where
  emptied : ∃ loc r, h.Houses into loc r ∧ h' = h.emptied loc r
  live : h'.isLive into = true
  find : h'.find into = .error .deadObject
  /-- The next object in its space belongs to another handle, and `into` names it as well. -/
  shared : ∀ (request : HeapM.Request) (build : Unit → Object),
    h.spaceOf into = .ok request.space →
    Ends (HeapM.allocate? request build) h'
      (fun found h'' => ∀ id ∈ found, id ≠ into ∧ h''.find id = .ok (build ()) ∧
        h''.find into = .ok (build ()))
      (fun _ _ => True)

/-- What the object of `into` was accounted for is more than its space counts. -/
def Undercounts (h : Heap) (into : Handle) : Prop :=
  ∃ loc r, h.Houses into loc r ∧ (h.arena loc.space).used < r.size

/-- Where the counts are right this does not occur. -/
theorem Bookkept.not_undercounts (hb : h.Bookkept) : ¬ h.Undercounts into := by
  intro hunder
  obtain ⟨loc, r, hh, hlt⟩ := hunder
  have hsum := ((Arena.residents_clear hh.2).map Resident.size).sum_nat
  rw [List.map_cons, List.sum_cons, ← hb.used_eq] at hsum
  omega

/-! ## The heap afterwards -/

theorem Houses.emptied_slots (htarget : h.Houses into target old) :
    ((h.emptied target old).arena t).slots[i]? =
      if (⟨t, i⟩ : Location) = target then some none else (h.arena t).slots[i]? := by
  rw [emptied_arena]
  obtain ⟨u, k⟩ := target
  by_cases ht : t = u
  · subst ht
    rw [if_pos rfl, Arena.clear_slots htarget.2]
    simp
  · simp [ht]

theorem rebound_arena : (h.rebound source into loc r).arena t =
    if t = loc.space then
      { h.arena t with
        slots := (h.arena t).slots.setIfInBounds loc.slot (some { r with owner := into }) }
    else h.arena t := by
  unfold rebound
  rw [arena_handles, arena_setArena]
  split
  case isTrue heq => rw [heq]
  case isFalse => rfl

theorem Houses.rebound_slots (hh : h.Houses source loc r) :
    ((h.rebound source into loc r).arena t).slots[i]? =
      if (⟨t, i⟩ : Location) = loc then some (some { r with owner := into })
      else (h.arena t).slots[i]? := by
  have hlt : loc.slot < (h.arena loc.space).slots.size := (Array.getElem?_eq_some_iff.mp hh.2).1
  rw [rebound_arena]
  obtain ⟨u, k⟩ := loc
  by_cases ht : t = u
  · subst ht
    rw [if_pos rfl, Array.getElem?_setIfInBounds]
    by_cases hk : i = k
    · subst hk
      simp [hlt]
    · simp [hk, Ne.symm hk]
  · simp [ht]

/-- The lists and the counts of the arenas do not depend on who owns what. -/
theorem rebound_books : ((h.rebound source into loc r).arena t).free = (h.arena t).free ∧
    ((h.rebound source into loc r).arena t).used = (h.arena t).used ∧
    ((h.rebound source into loc r).arena t).limit = (h.arena t).limit := by
  rw [rebound_arena]
  split <;> exact ⟨rfl, rfl, rfl⟩

theorem emptied_free : ((h.emptied loc r).arena t).free =
    if t = loc.space then loc.slot :: (h.arena t).free else (h.arena t).free := by
  rw [emptied_arena]
  split
  case isTrue ht => rw [ht]; rfl
  case isFalse => rfl

theorem emptied_freeHandles : (h.emptied loc r).freeHandles = h.freeHandles :=
  freeHandles_setArena _

section Afterwards

variable (hm : h.Matched) (htarget : h.Houses into target old) (hh : h.Houses source loc r)
  (hne : source ≠ into)

include hm htarget hh hne

theorem Matched.emptied_houses : (h.emptied target old).Houses source loc r := by
  refine ⟨by rw [emptied_handles, hh.1], ?_⟩
  rw [htarget.emptied_slots, if_neg (hm.loc_ne htarget hh.1 hne)]
  exact hh.2

/-- Where the residents are after a transplant. -/
theorem Matched.transplanted_slots :
    (((h.emptied target old).rebound source into loc r).arena t).slots[i]? =
      if (⟨t, i⟩ : Location) = loc then some (some { r with owner := into })
      else if (⟨t, i⟩ : Location) = target then some none
      else (h.arena t).slots[i]? := by
  rw [(hm.emptied_houses htarget hh hne).rebound_slots, htarget.emptied_slots]

omit hm hne in
/-- What the handles give after a transplant. -/
theorem Houses.transplanted_handles (j : Handle) :
    ((h.emptied target old).rebound source into loc r).handles[j.index]? =
      if j = source then some none
      else if j = into then some (some loc) else h.handles[j.index]? := by
  show (((h.emptied target old).handles.setIfInBounds into.index
    (some loc)).setIfInBounds source.index none)[j.index]? = _
  rw [emptied_handles, handles_set (by simpa using hh.lt), handles_set htarget.lt]

/-- The handles and slots match again after a transplant. -/
theorem Matched.transplanted : ((h.emptied target old).rebound source into loc r).Matched where
  linked id l := by
    rw [htarget.transplanted_handles hh, hm.transplanted_slots htarget hh hne]
    have hloc : (⟨l.space, l.slot⟩ : Location) = l := rfl
    rw [hloc]
    by_cases hl : l = loc
    · -- the location of `source`, which no other handle gave
      subst hl
      have hother : id ≠ source → h.handles[id.index]? ≠ some (some l) :=
        fun hid hhandle => hm.loc_ne hh hhandle hid rfl
      by_cases hid : id = source
      · simp [hid, hne.symm]
      · by_cases hinto : id = into
        · simp [hinto, hne.symm]
        · simp [hid, hinto, hother hid, Ne.symm hinto]
    by_cases hl' : l = target
    · -- the location of `into`, which is empty now
      subst hl'
      have hother : id ≠ into → h.handles[id.index]? ≠ some (some l) :=
        fun hid hhandle => hm.loc_ne htarget hhandle hid rfl
      by_cases hinto : id = into
      · simp [hinto, hl, hne.symm, Ne.symm hl]
      · by_cases hid : id = source
        · simp [hid, hl]
        · simp [hid, hinto, hl, hother hinto]
    · rw [if_neg hl, if_neg hl', ← hm.linked id l]
      by_cases hid : id = source
      · subst hid
        simp [hh.1, Ne.symm hl]
      · by_cases hinto : id = into
        · subst hinto
          simp [hid, htarget.1, Ne.symm hl, Ne.symm hl']
        · simp [hid, hinto]
  freeHandles_nodup := by
    have hnot : source ∉ h.freeHandles := by
      rw [hm.mem_freeHandles, hh.1]
      simp
    show (source :: (h.emptied target old).freeHandles).Nodup
    rw [emptied_freeHandles]
    exact List.nodup_cons.mpr ⟨hnot, hm.freeHandles_nodup⟩
  mem_freeHandles j := by
    rw [htarget.transplanted_handles hh]
    show j ∈ source :: (h.emptied target old).freeHandles ↔ _
    rw [emptied_freeHandles, List.mem_cons, hm.mem_freeHandles]
    by_cases hj : j = source
    · simp [hj]
    · by_cases hj' : j = into
      · subst hj'
        simp [hj, htarget.1]
      · simp [hj, hj']
  free_nodup t := by
    rw [rebound_books.1, emptied_free]
    split
    case isTrue ht =>
      subst ht
      have hnot : target.slot ∉ (h.arena target.space).free := by
        rw [hm.mem_free, htarget.2]
        simp
      exact List.nodup_cons.mpr ⟨hnot, hm.free_nodup _⟩
    case isFalse => exact hm.free_nodup t
  mem_free t i := by
    have hfree : i ∈ (((h.emptied target old).rebound source into loc r).arena t).free ↔
        (⟨t, i⟩ : Location) = target ∨ i ∈ (h.arena t).free := by
      rw [rebound_books.1, emptied_free]
      obtain ⟨u, k⟩ := target
      by_cases ht : t = u
      · simp [ht]
      · simp [ht]
    rw [hfree, hm.mem_free, hm.transplanted_slots htarget hh hne]
    by_cases hl : (⟨t, i⟩ : Location) = loc
    · -- an occupied slot before and after
      have hne' : (⟨t, i⟩ : Location) ≠ target := hl ▸ hm.loc_ne htarget hh.1 hne
      have hslot : (h.arena t).slots[i]? = some (some r) := by
        subst hl
        exact hh.2
      simp [hl ▸ hne', hl, hslot]
    · rw [if_neg hl]
      by_cases hl' : (⟨t, i⟩ : Location) = target
      · simp [hl']
      · simp [hl']

/-- A handle that is neither of the two names what it named. -/
theorem Matched.transplanted_same (hj : j ≠ source) (hj' : j ≠ into) :
    h.Same ((h.emptied target old).rebound source into loc r) j := by
  intro l x
  unfold Houses
  rw [htarget.transplanted_handles hh, if_neg hj, if_neg hj']
  apply and_congr_right
  intro hhandle
  rw [hm.transplanted_slots htarget hh hne, if_neg (hm.loc_ne hh hhandle hj),
    if_neg (hm.loc_ne htarget hhandle hj')]

theorem Matched.transplants (hle : old.size ≤ (h.arena target.space).used) :
    h.Transplants source into ((h.emptied target old).rebound source into loc r) where
  matched := hm.transplanted htarget hh hne
  ne := hne
  moved := by
    refine ⟨loc, r, hh, ?_, ?_⟩
    · rw [htarget.transplanted_handles hh, if_neg hne.symm, if_pos rfl]
    · rw [hm.transplanted_slots htarget hh hne, if_pos rfl]
  dead := by
    rw [Heap.isLive, htarget.transplanted_handles hh, if_pos rfl]
    rfl
  freed := by
    show source :: (h.emptied target old).freeHandles = _
    rw [emptied_freeHandles]
  dropped := by
    refine ⟨target, old, htarget, ?_, fun t => ?_⟩
    · have hother : target ≠ loc := (hm.loc_ne htarget hh.1 hne).symm
      rw [hm.transplanted_slots htarget hh hne, if_neg hother, if_pos rfl]
    · rw [rebound_books.2.1, emptied_arena]
      split
      case isTrue ht =>
        subst ht
        exact (Nat.sub_add_cancel hle).symm
      case isFalse => rfl
  others j hj hj' := hm.transplanted_same htarget hh hne hj hj'
  limit t := by
    rw [rebound_books.2.2, emptied_arena]
    split
    case isTrue ht => rw [ht]; rfl
    case isFalse => rfl
  marks := (marks_setArena _).trans (marks_setArena _)
  collections :=
    ⟨(scavenges_setArena _).trans (scavenges_setArena _),
      (fullCollections_setArena _).trans (fullCollections_setArena _)⟩

end Afterwards

/-! ## The heap in the middle -/

section Stranded

variable (hm : h.Matched) (htarget : h.Houses into target old)

include hm htarget

/-- The handle that the next allocation gets is another one. -/
theorem Matched.ends_newHandle_stranded : Ends HeapM.newHandle (h.emptied target old)
    (fun id g => id ≠ into ∧ id.index < g.handles.size ∧
      g.handles[into.index]? = some (some target) ∧
      ∀ t, g.arena t = (h.emptied target old).arena t)
    (fun _ _ => False) := by
  have hinto : (h.emptied target old).handles[into.index]? = some (some target) := by
    rw [emptied_handles, htarget.1]
  unfold HeapM.newHandle
  simp only [ends_bind, ends_get]
  cases hfree : (h.emptied target old).freeHandles with
  | cons id free =>
      have hid : h.handles[id.index]? = some none := by
        rw [← hm.mem_freeHandles, ← emptied_freeHandles, hfree]
        exact List.mem_cons_self
      refine ⟨?_, ?_, hinto, fun t => by cases t <;> rfl⟩
      · rintro rfl
        simp [htarget.1] at hid
      · rw [emptied_handles]
        exact (Array.getElem?_eq_some_iff.mp hid).1
  | nil =>
      have hlt := htarget.lt
      refine ⟨?_, by simp, ?_, fun t => by cases t <;> rfl⟩
      · rintro rfl
        simp at hlt
      · show ((h.emptied target old).handles.push none)[into.index]? = _
        rw [emptied_handles, Array.getElem?_push, if_neg (Nat.ne_of_lt hlt), htarget.1]

/-- The slot that was emptied is taken by the next object, to which `into` leads then. -/
theorem Matched.ends_allocate_stranded {request : HeapM.Request}
    (hspace : request.space = target.space) (build : Unit → Object) :
    Ends (HeapM.allocate? request build) (h.emptied target old)
      (fun found h'' => ∀ id ∈ found, id ≠ into ∧ h''.find id = .ok (build ()) ∧
        h''.find into = .ok (build ()))
      (fun _ _ => True) := by
  unfold HeapM.allocate?
  simp only [ends_bind, ends_get]
  split
  case isFalse => exact fun id hid => nomatch hid
  case isTrue =>
      rw [ends_bind]
      refine (hm.ends_newHandle_stranded htarget).mono ?_ fun _ _ _ => trivial
      intro id g hnew
      obtain ⟨hne, hlt, hinto, harena⟩ := hnew
      rw [ends_bind, ends_onArena, hspace, harena, emptied_arena, if_pos rfl]
      refine Arena.ends_insert (fun _ => ?_) fun _ => trivial
      simp only [HeapM.bindHandle, ends_bind, ends_modify, ends_pure, handles_setArena]
      intro id' hid
      obtain rfl : id = id' := by simpa using hid
      -- the slot of `into` is the first of those that are empty
      set a := (h.arena target.space).clear target.slot old
      set made : Resident := ⟨id, request.size, build ()⟩
      set g' : Heap := { g.setArena target.space (a.put made) with
        handles := g.handles.setIfInBounds id.index (some ⟨target.space, a.nextSlot⟩) }
      have hslot : (g'.arena target.space).slots[target.slot]? = some (some made) := by
        have hbound : target.slot < a.slots.size := by
          rw [Arena.clear_size]
          exact (Array.getElem?_eq_some_iff.mp htarget.2).1
        rw [arena_handles, arena_setArena, if_pos rfl]
        exact Array.getElem?_setIfInBounds_self_of_lt hbound
      have hmade : g'.Houses id target made := ⟨by rw [handles_set hlt, if_pos rfl]; rfl, hslot⟩
      have hthere : g'.Houses into target made :=
        ⟨by rw [handles_set hlt, if_neg hne.symm, hinto], hslot⟩
      exact ⟨hne, hmade.find, hthere.find⟩

theorem Matched.strands : h.Strands into (h.emptied target old) where
  emptied := ⟨target, old, htarget, rfl⟩
  live := by
    rw [Heap.isLive, emptied_handles]
    exact htarget.isLive
  find := by
    rw [Heap.find, htarget.locate_emptied, ok_bind, htarget.residentAt_emptied]
    rfl
  shared request build hspace := by
    rw [htarget.spaceOf, Except.ok.injEq] at hspace
    exact hm.ends_allocate_stranded htarget hspace.symm build

end Stranded

theorem Houses.ends_transplant_undercounted {ok : Unit → Heap → Prop} {fail : Fault → Heap → Prop}
    (htarget : h.Houses into target old) (hlt : (h.arena target.space).used < old.size)
    (hfail : ∀ h', fail .wordOverflow h') : Ends (HeapM.transplant source into) h ok fail := by
  unfold HeapM.transplant
  rw [ends_bind, ends_heapRead_ok htarget.locate, ends_bind, ends_onArena]
  unfold Arena.take
  simp only [ends_bind, ends_get, htarget.2, hlt, if_true]
  exact hfail _

/-! ## All or nothing -/

/-- For every heap whose handles and slots match and any two handles, a transplant
completes, or it fails.  It fails and leaves the heap as it was if `into` names nothing.  If
`into` names an object but `source` does not, or is `into` itself, it fails as well, but not
before the object of `into` is gone.  Besides, it fails only where the bytes of this object
were never counted. -/
theorem Matched.transplanting (hm : h.Matched) (source into : Handle) :
    Ends (HeapM.transplant source into) h
      (fun _ h' => h.Transplants source into h')
      (fun e h' =>
        (e = .deadObject ∧ h.isLive into = false ∧ h' = h) ∨
        (e = .deadObject ∧ h.isLive into = true ∧ (h.isLive source = false ∨ source = into) ∧
          h.Strands into h') ∨
        (e = .wordOverflow ∧ h.Undercounts into)) := by
  cases hinto : h.isLive into with
  | false => exact ends_transplant_dead hinto (Or.inl ⟨rfl, rfl, rfl⟩)
  | true =>
      obtain ⟨target, old, htarget, -⟩ := hm.houses hinto
      by_cases hlt : (h.arena target.space).used < old.size
      · exact htarget.ends_transplant_undercounted hlt fun _ =>
          Or.inr (Or.inr ⟨rfl, target, old, htarget, hlt⟩)
      have hle := Nat.le_of_not_lt hlt
      by_cases hbad : h.isLive source = false ∨ source = into
      · exact htarget.ends_transplant_stranded hle hbad
          (Or.inr (Or.inl ⟨rfl, rfl, hbad, hm.strands htarget⟩))
      · obtain ⟨hsource, hne⟩ := not_or.mp hbad
        obtain ⟨loc, r, hh, -⟩ := hm.houses (eq_true_of_ne_false hsource)
        exact htarget.ends_transplant hle (hm.emptied_houses htarget hh hne)
          (hm.transplants htarget hh hne hle)

/-- A young number takes over an old one.  The same transplant again finds no source, and
costs the number. -/
theorem Matched.transplanting_again : ∃ h h' h'' : Heap, h.Matched ∧
    HeapM.transplant ⟨1⟩ ⟨0⟩ h = .ok () h' ∧ h.Transplants ⟨1⟩ ⟨0⟩ h' ∧
    HeapM.transplant ⟨1⟩ ⟨0⟩ h' = .error .deadObject h'' ∧ h'.Strands ⟨0⟩ h'' := by
  obtain ⟨h, harises, h', hrun, h'', hagain⟩ : ∃ h : Heap, h.Arises ∧
      ∃ h', HeapM.transplant ⟨1⟩ ⟨0⟩ h = .ok () h' ∧
      ∃ h'', HeapM.transplant ⟨1⟩ ⟨0⟩ h' = .error .deadObject h'' := by
    have young := (Arises.empty 1000 1000).allocate (.of (.number .nan) .young)
      (fun _ => .number .nan) rfl
    have old := young.allocate (.of (.number .infinity) .old) (fun _ => .number .infinity) rfl
    exact ⟨_, old, _, rfl, _, rfl⟩
  have hm := harises.wellFormed.bookkept.matched
  have hdone := (hm.transplanting ⟨1⟩ ⟨0⟩).of_ok hrun
  obtain ⟨loc, r, -, hthere⟩ := hdone.moved
  have hstranded : h'.Strands ⟨0⟩ h'' := by
    rcases (hdone.matched.transplanting ⟨1⟩ ⟨0⟩).of_error hagain with hnone | hsome | hover
    · obtain ⟨-, hdead, -⟩ := hnone
      rw [hthere.isLive] at hdead
      exact nomatch hdead
    · exact hsome.2.2.2
    · exact nomatch hover.1
  exact ⟨h, h', h'', hm, hrun, hdone, hagain, hstranded⟩

/-- A transplant that fails does not always leave the heap as it was, not even where all the
books are right: the object of `into` is gone if `source` names nothing. -/
theorem not_transplanted_or_kept : ¬ ∀ (h : Heap) (source into : Handle), h.Bookkept →
    Ends (HeapM.transplant source into) h (fun _ h' => h.Transplants source into h')
      (fun _ h' => h' = h) := by
  intro hall
  have hnumber := (Arises.empty 1000 1000).allocate (.of (.number .nan) .young)
    (fun _ => .number .nan) rfl
  have hkept := (hall _ ⟨1⟩ ⟨0⟩ hnumber.wellFormed.bookkept).of_error rfl
  exact absurd hkept (by decide)

end Heap

end ManagedHeap
