import ManagedHeap.Proofs.Heap.Reading
import ManagedHeap.Proofs.Store.Access
import ManagedHeap.Proofs.Store.Allocation
import ManagedHeap.Proofs.Store.Rewriting
import ManagedHeap.Store.Interning

/-!
# Interning content

Interning some content finds the canonical string of the content, or makes one that the
store did not hold before.  Either way it adds to the store.  The allocation on the way may
collect, and so drop entries from the table; but what it drops is not the content that was
looked for, and the table that is left still fits the heap.  Content that is canonical already is
found without an allocation (`run_internUnits_found`).
-/

namespace ManagedHeap

namespace Store

variable {s s' : Store} {id : Handle} {t : Text} {u : Units} {w : List UInt16}

theorem spelled_of_buffer {h : Heap} {config : Config} (htext : h.text id = .ok t)
    (hbuffer : t.buffer? = some u) : h.Spelled config id t where
  shaped := by cases t <;> trivial
  content := by
    refine ⟨u.toList, .buffer htext hbuffer, ?_, ?_⟩
    · cases t <;> simp_all [Text.buffer?, Text.length, Units.length_toList]
    · intro hknown x hx
      refine Units.isNarrowUnit_of_fitsNarrow ?_ hx
      cases t with
      | flat units interned =>
          obtain rfl : units = u := by simpa [Text.buffer?] using hbuffer
          exact Units.fitsNarrow_of_encoding (by simpa [Text.knownNarrow] using hknown)
      | external units interned =>
          obtain rfl : units = u := by simpa [Text.buffer?] using hbuffer
          exact hknown
      | composite node => simp [Text.buffer?] at hbuffer
      | view node => simp [Text.buffer?] at hbuffer

/-- A live string with a buffer is kept alive in the scope, whether it was held or not. -/
theorem adds_track_buffer (hs : s.Sound) (htext : s.heap.text id = .ok t)
    (hbuffer : t.buffer? = some u) : s.Adds { s with scope := s.scope.push id } := by
  have hp : s.Pushed id { s with scope := s.scope.push id } :=
    ⟨rfl, rfl, rfl, rfl, rfl, rfl, Nat.le_refl _, .refl _⟩
  have hfind := Heap.text_eq_ok.mp htext
  have hchildren : t.children = [] := Text.children_of_buffer hbuffer
  refine adds_of_find hs hp.toExtends hs.wellFormed (fun _ _ => rfl) ?_
    ?_ hs.numberTexts hs.table hs.tidy rfl
  · intro j hj
    rcases hp.mem_ownRoots.mp hj with hj | rfl
    · exact hs.rooted j hj
    · exact Heap.isLive_of_find hfind
  · intro j o hj hbefore hfind'
    obtain rfl : j = id := by
      -- a string with a buffer has no children, so that nothing but itself is reached anew
      refine (hj.induct (fun j => s.Holds j ∨ j = id) ?_ ?_).resolve_left hbefore
      · intro r hr hr'
        exact (hp.mem_roots.mp hr).imp_left fun hr => holds_of_root hr hr'
      · rintro p o c (hp | rfl) hfind' hc -
        · exact Or.inl (hs.holds_child hp hfind' hc)
        · obtain rfl := Except.ok.inj (hfind.symm.trans hfind')
          simp [Object.children, hchildren] at hc
    obtain rfl := Except.ok.inj (hfind.symm.trans hfind')
    refine ⟨fun c hc => by simp [Object.children, hchildren] at hc, fun t' ht' => ?_⟩
    obtain rfl : t = t' := by simpa using ht'
    exact spelled_of_buffer htext hbuffer

/-- The result is the canonical string of some content, kept alive in the scope.  It is the
one that there was before, if there was one. -/
structure Interns (s : Store) (w : List UInt16) (id : Handle) (s' : Store) : Prop
    extends s.Pushed id s' where
  interned : s'.heap.Interned id w
  former : ∀ j, s.heap.Interned j w → id = j
  reused : s.heap.isLive id = true →
    s'.heap.find id = s.heap.find id ∨ s.collections < s'.collections

theorem Interns.holds (hi : s.Interns w id s') : s'.Holds id := by
  obtain ⟨t, u, htext, -⟩ := hi.interned
  exact hi.toPushed.holds (Heap.isLive_of_find (Heap.text_eq_ok.mp htext))

/-- What a search leaves as it was. -/
structure Searched (s : Store) (s' : Store) : Prop extends s.Alike s' where
  heap : s'.heap = s.heap
  numberTexts : s'.numberTexts = s.numberTexts
  table : s'.table.entries = s.table.entries

theorem Searched.adds (hd : s.Searched s') (hs : s.Sound) : s.Adds s' :=
  adds_of_alike hs hd.toAlike hd.heap (hd.numberTexts ▸ hs.numberTexts)
    (hs.table.congr hd.table hd.hash fun _ _ => Iff.rfl)

end Store

open Store

variable {s : Store}

theorem runs_search (hs : s.Sound) (units : Units) :
    RunsFrom Adds Rests s (StoreM.search (s.table.hashUnits units) units) s (fun found s' =>
      s.Searched s' ∧ (∀ id, found = some id → s.heap.Interned id units.toList) ∧
        (found = none → ∀ id, ¬ s.heap.Interned id units.toList)) := by
  obtain ⟨found, hfound, hsome, hnone⟩ := hs.table.find? units
  unfold StoreM.search
  refine runs_read ?_ (.refl hs)
  rw [hfound, reads_ok]
  have hd : s.Searched { s with table := s.table.counted found } := by
    cases found <;> exact ⟨⟨rfl, rfl, rfl, rfl, rfl, rfl, Nat.le_refl _, .refl _⟩, rfl, rfl, rfl⟩
  exact ⟨hd.adds hs, hd, hsome, hnone⟩

theorem runs_track_interned {id : Handle} {w : List UInt16} (hs : s.Sound)
    (hinterned : s.heap.Interned id w) :
    RunsFrom Adds Rests s (StoreM.track id) s (fun found s' => found = id ∧ s.Interns w id s' ∧
      s'.heap = s.heap) := by
  obtain ⟨t, u, htext, hflag, hbuffer, hw⟩ := hinterned
  exact ⟨adds_track_buffer hs htext hbuffer, rfl,
    ⟨⟨rfl, rfl, rfl, rfl, rfl, rfl, Nat.le_refl _, .refl _⟩,
      ⟨t, u, htext, hflag, hbuffer, hw⟩, fun j hj =>
        hs.table.unique id j w ⟨t, u, htext, hflag, hbuffer, hw⟩ hj, fun _ => Or.inl rfl⟩, rfl⟩

/-- A string with a buffer can be canonical. -/
theorem ends_checkInternable {id : Handle} {t : Text} {u : Units} {ok : PUnit → Store → Prop}
    {fail : Fault → Store → Prop} (htext : s.heap.text id = .ok t) (hbuffer : t.buffer? = some u) :
    Ends (StoreM.checkInternable id) s ok fail ↔ ok ⟨⟩ s := by
  unfold StoreM.checkInternable
  rw [ends_bind, ends_inspect_ok (Heap.text_eq_ok.mp htext)]
  simp only [hbuffer, Option.isNone_some, Bool.false_eq_true, if_false]
  exact ends_pure

theorem ends_markInterned {id : Handle} {t : Text} {u : Units} (hs : s.Sound) (hash : UInt64)
    (htext : s.heap.text id = .ok t) (hbuffer : t.buffer? = some u) :
    Ends (StoreM.markInterned hash id) s
      (fun _ s' => ∃ h', s.heap.Rewrites id (.string t.intern) h' ∧
        s' = { s with heap := h', table := s.table.insert hash id })
      (fun _ _ => False) := by
  unfold StoreM.markInterned
  rw [ends_bind, ends_checkInternable htext hbuffer, ends_bind]
  refine (ends_modifyObject hs.wellFormed (Heap.text_eq_ok.mp htext) _).mono ?_ fun _ _ hfail => hfail
  intro _ s' hend
  obtain ⟨h', hr, rfl⟩ := hend
  exact ⟨h', hr, rfl⟩

theorem Store.Interns.of_searched {s₁ s₂ : Store} {id : Handle} {w : List UInt16}
    (hi : s₁.Interns w id s₂) (hd : s.Searched s₁) : s.Interns w id s₂ where
  toPushed := hi.toPushed.of_alike hd.toAlike
  interned := hi.interned
  former j hj := hi.former j (hd.heap ▸ hj)
  reused hlive := by
    rw [← hd.heap] at hlive ⊢
    exact (hi.reused hlive).imp_right (Nat.lt_of_le_of_lt hd.collections)

/-- Content that has no canonical string is placed, and what is placed becomes its canonical
string: nothing that was made meanwhile is interned. -/
theorem runs_internNew (hs : s.Sound) (units : Units)
    (hnone : ∀ j, ¬ s.heap.Interned j units.toList) :
    RunsFrom Adds Rests s (do
      let id ← StoreM.allocateFlat units.packed .old
      match ← StoreM.read fun s' => s'.table.find? s'.heap (s.table.hashUnits units) units with
      | some found => StoreM.track found
      | none =>
        StoreM.markInterned (s.table.hashUnits units) id
        return id) s (s.Interns units.toList) := by
  apply RunsFrom.call (runs_allocateFlat_placed hs units.packed .old) fun _ hrests => hrests
  intro id s₁ hadds hend
  obtain ⟨hp, hold, -⟩ := hend
  -- placing the string has interned nothing, so that the second search misses as the first did
  have hnew (j : Handle) : ¬ s₁.heap.Interned j units.toList := fun hj =>
    hnone j (hp.interned j _ hj)
  have hhash : s.table.hashUnits units = s₁.table.hashUnits units := by
    rw [InternTable.hashUnits, InternTable.hashUnits, hp.hash]
  obtain ⟨found, hfound, hsome, -⟩ := hadds.sound.table.find? units
  rw [hhash]
  apply (runs_read_ok hfound).mpr
  cases found with
  | some j => exact absurd (hsome j rfl) (hnew j)
  | none =>
      have htext : s₁.heap.text id = .ok (.flat units.packed false) := Heap.text_eq_ok.mpr hp.find
      have hnew' : ∀ j, ¬ s₁.heap.Interned j units.packed.toList := by simpa using hnew
      unfold RunsFrom
      rw [ends_bind]
      refine (ends_markInterned hadds.sound _ htext rfl).mono ?_ fun _ _ hfail => hfail.elim
      intro _ s₂ hend
      obtain ⟨h', hr, rfl⟩ := hend
      obtain ⟨hsound, -, halike, -⟩ := hadds.sound.intern hp.holds htext rfl rfl hnew' hold hr
      rw [Units.toList_packed] at hsound halike
      refine ⟨hadds.of_fresh hp.fresh halike.toExtends hsound fun j hj =>
        hr.find_of_ne hadds.sound.wellFormed hj, halike.pushed hp.toPushed, ?_,
        fun j hj => absurd hj (hnone j), fun hlive => Or.inr (hp.reused hlive)⟩
      exact (hr.interned_iff hadds.sound.wellFormed htext rfl rfl).mpr
        (Or.inr ⟨rfl, (Units.toList_packed units).symm⟩)

/-- Interning some content gives out the canonical string of it. -/
theorem runs_internUnits (hs : s.Sound) (units : Units) :
    RunsFrom Adds Rests s (StoreM.internUnits units) s (s.Interns units.toList) := by
  unfold StoreM.internUnits
  apply runs_get.mpr
  apply (runs_search hs units).bind
  intro found s₁ hadds₁ hend
  obtain ⟨hd, hsome, hnone⟩ := hend
  have hrests : s.Rests s₁ := ⟨hadds₁, hd.toAlike⟩
  cases found with
  | some id =>
      apply (runs_track_interned hadds₁.sound (hd.heap ▸ hsome id rfl)).then
        (fun _ => hrests.trans hs)
      intro _ s₂ hadds₂ hend
      obtain ⟨rfl, hi, -⟩ := hend
      exact ⟨hadds₁.trans hs hadds₂, hi.of_searched hd⟩
  | none =>
      have hhash : s.table.hashUnits units = s₁.table.hashUnits units := by
        rw [InternTable.hashUnits, InternTable.hashUnits, hd.hash]
      rw [hhash]
      apply (runs_internNew hadds₁.sound units fun j => hd.heap ▸ hnone rfl j).then
        (fun _ => hrests.trans hs)
      intro id s₂ hadds₂ hi
      exact ⟨hadds₁.trans hs hadds₂, hi.of_searched hd⟩

theorem runs_internText (hs : s.Sound) (content : String) :
    RunsFrom Adds Rests s (StoreM.internText content) s (s.Interns (Units.ofText content).toList) :=
  runs_internUnits hs _

theorem runs_internedUnits? (hs : s.Sound) (units : Units) :
    RunsFrom Adds Rests s (StoreM.internedUnits? units) s (fun found s' =>
      s.Searched s' ∧ (∀ id, found = some id → s.heap.Interned id units.toList) ∧
        (found = none → ∀ id, ¬ s.heap.Interned id units.toList)) :=
  runs_get.mpr (runs_search hs units)

/-- The canonical string that was looked up for another string is one that nothing kept alive,
and the search has not changed that. -/
structure Store.FindsUnheld (s : Store) (id found : Handle) (s' : Store) : Prop where
  before : ¬ s.Holds found
  after : ¬ s'.Holds found
  canonical : ∃ w, s.heap.Spells id w ∧ s'.heap.Interned found w

theorem runs_interned? {id : Handle} (hs : s.Sound) (hid : s.Holds id) :
    Runs Adds (StoreM.interned? id) s (fun found s' =>
      ∀ j, found = some j → s'.Holds j ∨ s.FindsUnheld id j s') := by
  unfold StoreM.interned?
  apply runs_text hs hid (.refl hs)
  intro t ht
  split
  case isTrue =>
      refine ⟨.refl hs, fun j hj => Or.inl ?_⟩
      obtain rfl := Option.some.inj hj
      exact hid
  case isFalse =>
      apply runs_text hs hid (.refl hs)
      intro t ht
      obtain ⟨w, hw, hlength⟩ := hs.readable.spells hid ht
      refine runs_inspect ((hs.readable.reads_copyRange hid hw _).mono fun units hunits => ?_)
        (.refl hs)
      have hwhole : units.toList = w := by
        rw [(hunits (Nat.le_of_eq hlength.symm)).1, ← hlength, Heap.part_full]
      refine (runs_internedUnits? hs units).adds.weaken fun found s' _ hend j hj => ?_
      obtain ⟨hsearched, hinterned, -⟩ := hend
      have hsame : s'.Holds j ↔ s.Holds j := by
        rw [Store.Holds, Store.Holds, hsearched.heap, hsearched.toAlike.roots]
      -- the table lists strings that nothing holds, and such a one is not recorded
      by_cases hheld : s.Holds j
      · exact Or.inl (hsame.mpr hheld)
      · refine Or.inr ⟨hheld, hsame.not.mpr hheld, w, hw, ?_⟩
        rw [hsearched.heap, ← hwhole]
        exact hinterned j hj

/-- Interning a range of a string gives out the canonical string of what it covers. -/
theorem runs_internRange {id : Handle} (hs : s.Sound) (hid : s.Holds id) (start count : Nat) :
    Runs Adds (StoreM.internRange id start count) s (fun found s' => s'.Holds found ∧
      ∀ w, s.heap.Spells id w → start + count ≤ w.length →
        s.Interns (Heap.part w start (start + count)) found s') := by
  unfold StoreM.internRange
  apply runs_text hs hid (.refl hs)
  intro t ht
  split
  case isTrue => exact ⟨by simp, Or.inr (.refl hs)⟩
  case isFalse =>
      apply runs_checkBuffer (.refl hs)
      obtain ⟨w, hw, -⟩ := hs.readable.spells hid ht
      refine runs_inspect ((hs.readable.reads_copyRange hid hw _).mono fun units hunits => ?_)
        (.refl hs)
      apply (runs_internUnits hs units).adds.weaken
      intro found s' _ hi
      refine ⟨hi.holds, fun v hv hle => ?_⟩
      obtain rfl := hw.unique hv
      rw [← (hunits hle).1]
      exact hi

/-- Interning a range that can be copied is interning what is copied, unless there can be no
buffer of so many units. -/
theorem run_internRange {id : Handle} {t : Text} {start count : Nat} {units : Units}
    (htext : s.heap.text id = .ok t) (hword : start + count < wordLimit)
    (hunits : s.heap.copyRange id start (start + count) t.encoding = .ok units) :
    StoreM.internRange id start count s = StoreM.internUnits units s ∨
      StoreM.internRange id start count s = .error .bufferTooLarge s ∧
        bufferLimit ≤ 2 * count := by
  unfold StoreM.internRange
  rw [run_bind (show StoreM.text id s = .ok t s from run_inspect htext)]
  simp only [if_neg (Nat.not_le_of_lt hword)]
  rcases Nat.lt_or_ge (count * t.encoding.width) bufferLimit with hbuffer | hlarge
  · left
    rw [run_bind (run_checkBuffer hbuffer), run_bind (run_inspect hunits)]
  · refine Or.inr ⟨run_bind_error (run_checkBuffer_refused hlarge), hlarge.trans ?_⟩
    cases t.encoding <;> simp only [Encoding.width] <;> omega

/-! ## Content that is canonical already -/

section Canonical

variable {id : Handle} {w : List UInt16} (hs : s.Sound) (hi : s.heap.Interned id w)

include hs hi

/-- A search for content that has a canonical string finds it. -/
theorem run_search_found {units : Units} (hunits : units.toList = w) :
    ∃ s', StoreM.search (s.table.hashUnits units) units s = .ok (some id) s' ∧
      s'.heap = s.heap := by
  obtain ⟨found, hfound, hsome, hnone⟩ := hs.table.find? units
  rw [hunits] at hsome hnone
  cases found with
  | none => exact absurd hi (hnone rfl id)
  | some j =>
      obtain rfl := hs.table.unique j id _ (hsome j rfl) hi
      exact ⟨_, run_bind (run_read hfound), rfl⟩

/-- Interning content that has a canonical string finds it, places nothing and cannot fail. -/
theorem run_internUnits_found {units : Units} (hunits : units.toList = w) :
    ∃ s', StoreM.internUnits units s = .ok id s' ∧ s'.heap = s.heap := by
  obtain ⟨s₁, hsearch, hheap⟩ := run_search_found hs hi hunits
  unfold StoreM.internUnits
  rw [run_get, run_bind hsearch]
  exact ⟨_, rfl, hheap⟩

/-- So does making the string of two units, unless they are digits. -/
theorem run_pairOfUnits_found {a b : UInt16} (hw : w = [a, b])
    (hdigits : (StoreM.isDigitUnit a && StoreM.isDigitUnit b) = false) :
    ∃ s', StoreM.pairOfUnits a b s = .ok id s' ∧ s'.heap = s.heap := by
  have hunits : (Units.wide #[a, b]).toList = w := hw.symm
  obtain ⟨s₁, hsearch, hheap⟩ := run_search_found hs hi hunits
  unfold StoreM.pairOfUnits StoreM.internedUnits?
  simp only [hdigits, Bool.false_eq_true, if_false, bind_assoc]
  rw [run_get, run_bind hsearch]
  exact ⟨_, rfl, hheap⟩

end Canonical

/-! ## Strings of one or two units -/

theorem adds_single {id : Handle} {i : Nat} (hs : s.Sound) (hid : s.Holds id)
    (hinterned : s.heap.Interned id [UInt16.ofNat i]) (hnone : s.singles[i]?.join = none) :
    s.Adds { s with singles := s.singles.setIfInBounds i (some id) } := by
  have hkeep (k : Nat) (j : Handle) (hj : s.singles[k]? = some (some j)) :
      (s.singles.setIfInBounds i (some id))[k]? = some (some j) := by
    have hne : i ≠ k := by
      rintro rfl
      simp [hj] at hnone
    rw [Array.getElem?_setIfInBounds_ne hne, hj]
  have he : s.Extends { s with singles := s.singles.setIfInBounds i (some id) } :=
    ⟨rfl, rfl, rfl, List.prefix_rfl, rfl, ⟨Array.size_setIfInBounds, hkeep⟩, Nat.le_refl _,
      .refl _⟩
  have hset (k : Nat) (j : Handle)
      (hk : (s.singles.setIfInBounds i (some id))[k]? = some (some j)) :
      s.singles[k]? = some (some j) ∨ k = i ∧ j = id := by
    rw [Array.getElem?_setIfInBounds] at hk
    split_ifs at hk with hik
    · exact Or.inr ⟨hik.symm, by simpa using hk.symm⟩
    · exact Or.inl hk
  -- the string is the only root that may be new
  have hnew (j : Handle)
      (hj : j ∈ ({ s with singles := s.singles.setIfInBounds i (some id) } : Store).ownRoots) :
      j ∈ s.ownRoots ∨ j = id := by
    rcases Store.mem_ownRoots.mp hj with hj | hj | ⟨k, hk⟩
    · exact Or.inl (Store.mem_ownRoots.mpr (Or.inl hj))
    · exact Or.inl (Store.mem_ownRoots.mpr (Or.inr (Or.inl hj)))
    · rcases hset k j hk with hk | ⟨-, rfl⟩
      · exact Or.inl (Store.mem_ownRoots.mpr (Or.inr (Or.inr ⟨k, hk⟩)))
      · exact Or.inr rfl
  refine adds_of_reroot hs he rfl ?_ ?_ hs.numberTexts hs.table ?_
  · intro j hj
    rcases hnew j hj with hj | rfl
    · exact hs.rooted j hj
    · exact hid.live
  · intro j hj hlive
    rcases mem_roots.mp hj with hj | hj | hj
    · simp at hj
    · rcases hnew j hj with hj | rfl
      · exact holds_of_root (mem_roots.mpr (Or.inr (Or.inl hj))) hlive
      · exact hid
    · exact holds_of_root (mem_roots.mpr (Or.inr (Or.inr hj))) hlive
  · intro k j hk
    rcases hset k j hk with hk | ⟨rfl, rfl⟩
    · exact hs.singles k j hk
    · exact hinterned

theorem runs_track {id : Handle} (hs : s.Sound) (hid : s.Holds id) :
    RunsFrom Adds Rests s (StoreM.track id) s (fun found s' => found = id ∧ s.Pushed id s' ∧
      s'.heap = s.heap) :=
  ⟨adds_track hs hid, rfl, ⟨rfl, rfl, rfl, rfl, rfl, rfl, Nat.le_refl _, .refl _⟩, rfl⟩

theorem runs_singleUnit (hs : s.Sound) (unit : UInt16) :
    Runs Adds (StoreM.singleUnit unit) s (fun id s' => s'.Holds id ∧
      s'.heap.Spells id [unit]) := by
  unfold StoreM.singleUnit
  split
  case isTrue hnarrow =>
      apply runs_get.mpr
      cases hsingle : s.singles[unit.toNat]?.join with
      | some id =>
          rw [Option.join_eq_some_iff] at hsingle
          have hid : s.Holds id := hs.holds_single hsingle
          have hspells := (hs.singles _ id hsingle).spells
          rw [UInt16.ofNat_toNat] at hspells
          apply (runs_track hs hid).adds.weaken
          intro _ s' hadds hend
          obtain ⟨rfl, -⟩ := hend
          exact ⟨hadds.holds hs hid, (hadds.heap_settled hs).spells _ _ hid hspells⟩
      | none =>
          apply RunsFrom.call (runs_internUnits hs _) (fun _ hrests => hrests.adds)
          intro id s₁ hadds hi
          have hnone : s₁.singles[unit.toNat]?.join = none := by rw [hi.singles, hsingle]
          have hinterned : s₁.heap.Interned id [UInt16.ofNat unit.toNat] := by
            rw [UInt16.ofNat_toNat, ← Units.toList_ofByte hnarrow]
            exact hi.interned
          have hlast := adds_single hadds.sound hi.holds hinterned hnone
          refine ⟨hadds.trans hs hlast, hlast.holds hadds.sound hi.holds,
            (hlast.heap_settled hadds.sound).spells _ _ hi.holds ?_⟩
          rw [← Units.toList_ofByte hnarrow]
          exact hi.interned.spells
  case isFalse =>
      exact (runs_allocateFlat hs _ _).adds.weaken fun _ _ _ hp => ⟨hp.holds, hp.spells⟩

/-- A string of two units is the canonical one, if there is one and it was looked up. -/
theorem runs_pairOfUnits (hs : s.Sound) (a b : UInt16) :
    Runs Adds (StoreM.pairOfUnits a b) s (fun id s' => s'.Holds id ∧ s'.heap.Spells id [a, b] ∧
      (s.heap.Interned id [a, b] ∧ s'.heap.Interned id [a, b] ∨
        s.Placed (.string (.flat (.pair a b) false)) id s') ∧
      ((StoreM.isDigitUnit a && StoreM.isDigitUnit b) = false →
        ∀ j, s.heap.Interned j [a, b] → id = j)) := by
  unfold StoreM.pairOfUnits
  split
  case isTrue hdigits =>
      refine (runs_allocateFlat hs _ _).adds.weaken fun id s' _ hp =>
        ⟨hp.holds, Units.toList_pair a b ▸ hp.spells, Or.inr hp, ?_⟩
      simp [hdigits]
  case isFalse =>
      apply (runs_internedUnits? hs (.wide #[a, b])).adds.bind
      intro found s₁ hadds hend
      obtain ⟨hd, hsome, hnone⟩ := hend
      cases found with
      | some id =>
          have hbefore : s.heap.Interned id [a, b] := hsome id rfl
          apply (runs_track_interned hadds.sound (hd.heap ▸ hbefore)).then
            (fun _ hrests => hadds.trans hs hrests.adds)
          intro _ s₂ hadds₂ hend
          obtain ⟨rfl, hi, -⟩ := hend
          exact ⟨hadds.trans hs hadds₂, hi.holds, hi.interned.spells,
            Or.inl ⟨hbefore, hi.interned⟩, fun _ j hj => hi.former j (hd.heap ▸ hj)⟩
      | none =>
          apply (runs_allocateFlat hadds.sound (.pair a b) .young).then
            (fun _ hrests => hadds.trans hs hrests.adds)
          intro id s₂ hadds₂ hp
          refine ⟨hadds.trans hs hadds₂, hp.holds, Units.toList_pair a b ▸ hp.spells, Or.inr ?_,
            fun _ j hj => absurd hj (hnone rfl j)⟩
          exact hp.of_adds hs hadds hd.toAlike (fun e he => hd.numberTexts ▸ he)
            (fun j w hj => hd.heap ▸ hj) (Or.inl (by rw [hd.heap]))

end ManagedHeap
