import ManagedHeap.Proofs.Immutability
import ManagedHeap.Proofs.Store.Refusals
import Mathlib.Data.Set.Card
import Mathlib.Logic.Relation

/-!
# Canonical strings

The interning table of a well-rooted store lists the live strings that are marked as interned,
each of them once, and no two of them spell the same (`Store.Indexed`).  This holds for every
hash function of the contents.

The canonical string of some content can be asked for by its text, by its units in either
encoding, by a string that spells it, or by a string and a range (`Store.Asks`).  Whoever asks
is given the canonical string that there was, or else a new one (`Store.Canonizes`), unless
an object is refused its place on the way (`Store.RefusesContent`).  Only the flattening of a
string and the placement of a new one can be refused, or collect.  If the content is canonical
already, nothing new is placed, and only the flattening is left (`Store.RefusesKnown`).

A canonical string that nothing refers to stays live until a collection of the old space, and
one that stays reachable stays live for good (`Step.Spares`).  For as long as it lives, it is
what everybody is given who asks for its content.
-/

namespace ManagedHeap

open Store

variable {s s' s'' : Store} {h : Heap} {id : Handle} {u w : List UInt16} {op : Operation}

/-! ## The table -/

/-- The live strings that are marked as interned. -/
def Heap.canonical (h : Heap) : Set Handle :=
  {id | ∃ t, h.text id = .ok t ∧ t.isInterned = true}

theorem Heap.Interned.mem_canonical (hi : h.Interned id w) : id ∈ h.canonical := by
  obtain ⟨t, -, htext, hflag, -⟩ := hi
  exact ⟨t, htext, hflag⟩

theorem Heap.interned_of_canonical (hid : id ∈ h.canonical) (hw : h.Spells id w) :
    h.Interned id w := by
  obtain ⟨t, htext, hflag⟩ := hid
  exact interned_of_text htext hflag hw

theorem Heap.exists_interned (hid : id ∈ h.canonical) : ∃ w, h.Interned id w := by
  obtain ⟨t, htext, hflag⟩ := hid
  obtain ⟨u, hu⟩ := Text.exists_buffer_of_interned hflag
  exact ⟨u.toList, t, u, htext, hflag, hu, rfl⟩

/-- The handles that the table lists, the oldest entry first. -/
def InternTable.ids (table : InternTable) : List Handle :=
  table.entries.toList.map Prod.snd

/-- The table lists the canonical strings, and no two of them have one content. -/
structure Store.Indexed (s : Store) : Prop where
  listed : ∀ id, id ∈ s.table.ids ↔ id ∈ s.heap.canonical
  nodup : s.table.ids.Nodup
  size : s.table.size = s.heap.canonical.ncard
  unique : ∀ id id' w, id ∈ s.heap.canonical → id' ∈ s.heap.canonical → s.heap.Spells id w →
    s.heap.Spells id' w → id = id'

theorem Store.Sound.indexed (hs : s.Sound) : s.Indexed := by
  have hlisted (id : Handle) : id ∈ s.table.ids ↔ id ∈ s.heap.canonical := by
    simp only [InternTable.ids, List.mem_map, Array.mem_toList_iff]
    constructor
    · intro h
      obtain ⟨e, he, rfl⟩ := h
      obtain ⟨w, hw, -⟩ := hs.table.entries e he
      exact hw.mem_canonical
    · intro hid
      obtain ⟨w, hw⟩ := Heap.exists_interned hid
      obtain ⟨hash, hmem⟩ := hs.table.complete id w hw
      exact ⟨(hash, id), hmem, rfl⟩
  refine ⟨hlisted, hs.table.nodup, ?_, fun id id' w hid hid' hw hw' =>
    hs.table.unique id id' w (Heap.interned_of_canonical hid hw)
      (Heap.interned_of_canonical hid' hw')⟩
  have hset : s.heap.canonical = (s.table.ids.toFinset : Set Handle) := by
    ext id
    rw [List.coe_toFinset]
    exact (hlisted id).symm
  calc s.table.size = s.table.ids.length := by simp [InternTable.size, InternTable.ids]
    _ = s.table.ids.toFinset.card := (List.toFinset_card_of_nodup hs.table.nodup).symm
    _ = s.heap.canonical.ncard := by rw [hset, Set.ncard_coe_finset]

/-! ## Asking for canonical strings -/

/-- The operation asks for the canonical string of some content. -/
inductive Store.Asks (s : Store) : Operation → List UInt16 → Prop
  | text (content : String) : Asks s (.internText content) (Utf16.encode content)
  | units (units : Units) : Asks s (.internUnits units) units.toList
  | string {id : Handle} {w : List UInt16} (hid : s.Holds id) (hw : s.heap.Spells id w) :
      Asks s (.internString id) w
  | range {id : Handle} {w : List UInt16} {start count : Nat} (hid : s.Holds id)
      (hw : s.heap.Spells id w) (hrange : start + count ≤ w.length) :
      Asks s (.internRange id start count) (Heap.part w start (start + count))

theorem Store.Asks.rooted (ha : s.Asks op u) : (Step.perform op).Rooted s where
  given id hid := by
    cases ha with
    | text | units => simp [Step.handles, Operation.handles] at hid
    | string hheld | range hheld =>
        obtain rfl : id = _ := by simpa [Step.handles, Operation.handles] using hid
        exact hheld
  plain object space hop := by
    cases ha <;> simp at hop

/-- The canonical string of some content is given out.  If there was one, it is that one. -/
def Store.Canonizes (s : Store) (u : List UInt16) (id : Handle) (s' : Store) : Prop :=
  s'.Holds id ∧ s'.heap.Interned id u ∧ ∀ j, s.heap.Interned j u → id = j

/-- The reasons for which the canonical string of some content can be refused: there is no
place for two flat strings of its length, or there can be no buffer for it. -/
def Store.RefusesContent (s : Store) (u : List UInt16) (e : Fault) (s' : Store) : Prop :=
  s.Refuses (2 * flatBytes u.length) e s' ∨ e = .bufferTooLarge ∧ bufferLimit ≤ 2 * u.length

/-- A composite is asked for its content, which is flattened first. -/
def Store.AsksComposite (s : Store) (op : Operation) : Prop :=
  ∃ id node, op = .internString id ∧ s.heap.text id = .ok (.composite node)

/-- The reasons for which content that is canonical already can be refused: there is no place for
the flat copy of a composite, or there can be no buffer for a range. -/
def Store.RefusesKnown (s : Store) (u : List UInt16) (op : Operation) (e : Fault) (s' : Store) :
    Prop :=
  s.AsksComposite op ∧ s.Refuses (flatBytes u.length) e s' ∨
    (∃ id start count, op = .internRange id start count) ∧ e = .bufferTooLarge ∧
      bufferLimit ≤ 2 * u.length

theorem Store.Interns.canonizes (hi : s.Interns u id s') : s.Canonizes u id s' :=
  ⟨hi.holds, hi.interned, hi.former⟩

theorem ends_internUnits (hs : s.Sound) (units : Units) :
    Ends (StoreM.internUnits units) s (s.Canonizes units.toList)
      (s.RefusesContent units.toList) := by
  refine Ends.mono (adding_internUnits hs units)
    (fun _ _ hend => hend.2.2.canonizes) fun _ _ hfail => Or.inl (hfail.mono ?_)
  rw [Units.length_toList]
  omega

/-- Whoever asks for the canonical string of some content is given it, or is refused. -/
theorem Store.Asks.ends (ha : s.Asks op u) (hs : s.Ready) (hvalid : s.config.error? = none) :
    Ends op.run s (fun outcome s' => ∃ id, outcome = .handle id ∧ s.Canonizes u id s')
      (s.RefusesContent u) := by
  have hhandle {m : StoreM Handle} (hm : Ends m s (s.Canonizes u) (s.RefusesContent u)) :
      Ends (m >>= fun id => pure (Outcome.handle id)) s
        (fun outcome s' => ∃ id, outcome = .handle id ∧ s.Canonizes u id s')
        (s.RefusesContent u) := by
    rw [ends_bind]
    exact hm.mono (fun id s' hend => ⟨id, rfl, hend⟩) fun _ _ hfail => hfail
  have hunits (units : Units) (hu : units.toList = u) :
      Ends (StoreM.internUnits units) s (s.Canonizes u) (s.RefusesContent u) :=
    hu ▸ ends_internUnits hs.toSound units
  cases ha with
  | text content => exact hhandle (hunits (.ofText content) (Units.toList_ofText content))
  | units units => exact hhandle (hunits units rfl)
  | @string id w hid hw =>
      obtain ⟨t, htext⟩ := hw.text
      -- the text and its content are known, so that a copy of it needs no more room than the
      -- content
      have htakes := takes_internString hs hid htext
      rw [← hs.readable.length_eq hid htext hw] at htakes
      refine hhandle ((Ends.and (runs_internString hs hid) htakes).mono
        (fun found s' hend => ?_) fun _ _ hfail => Or.inl hfail.2)
      obtain ⟨⟨-, ⟨hholds, -⟩, hcanonical⟩, -⟩ := hend
      exact ⟨hholds, hcanonical u hw⟩
  | @range id w start count hid hw hrange =>
      obtain ⟨t, htext⟩ := hw.text
      have hlength : (Heap.part w start (start + count)).length = count := by
        rw [Heap.length_part hrange, Nat.add_sub_cancel_left]
      refine hhandle ((Ends.and (runs_internRange hs.toSound hid start count)
        (ends_internRange hs.toSound hvalid hid htext hw hrange)).mono (fun found s' hend => ?_)
        fun e _ hfail => ?_)
      · exact (hend.1.2.2 w hw hrange).canonizes
      · rw [Store.RefusesContent, hlength]
        exact hfail.2.imp_left fun hrefused => hrefused.mono (by omega)

/-! ## Asking for what is canonical already -/

section Known

variable {source : Handle} {t : Text} (hi : s.heap.Interned id u)

include hi

/-- A string whose content has a canonical string gives out this one.  It is flattened before if it
is a composite, which collects no old space, so that the canonical string is found afterwards. -/
theorem ends_internString_known (hs : s.Ready) (hid : s.Holds source)
    (htext : s.heap.text source = .ok t) (hw : s.heap.Spells source u) :
    Ends (StoreM.internString source) s
      (fun found s' => found = id ∧ ((∀ node, t ≠ .composite node) → s'.heap = s.heap))
      (fun e s' => (∃ node, t = .composite node) ∧ s.Refuses (flatBytes u.length) e s') := by
  have hread : StoreM.text source s = .ok t s := run_inspect htext
  unfold StoreM.internString
  rw [ends_bind_ok hread]
  split
  case isTrue hflag =>
      have hsame := hs.table.unique source id _ (Heap.interned_of_text htext hflag hw) hi
      exact ⟨hsame, fun _ => rfl⟩
  case isFalse =>
      have htakes := takes_flatten hs hid htext
      rw [← hs.readable.length_eq hid htext hw] at htakes
      rw [ends_bind]
      refine (((runs_flatten hs hid).and htakes).and (ends_flatten_kind htext)).mono ?_
        fun _ _ hfail => ⟨hfail.2, hfail.1.2⟩
      rintro found s₁ ⟨⟨⟨hsettles, rfl, hflat⟩, -⟩, hsame⟩
      -- no collection of the old space was done, so the canonical string is still there
      have hs₁ : s₁.Sound := hsettles.ready.toSound
      have hi₁ : s₁.heap.Interned id u := hflat.retains.interned hflat.fullCollections id u hi
      have hw₁ : s₁.heap.Spells found u := hflat.spells hsettles hw
      obtain ⟨t₁, ht₁, -⟩ := hflat.text
      obtain ⟨loc, r, hhouses, -⟩ := hs₁.wellFormed.houses hflat.holds.live
      rw [ends_bind_ok (run_inspect hhouses.spaceOf),
        ends_bind_ok (show StoreM.text found s₁ = .ok t₁ s₁ from run_inspect ht₁)]
      split
      case isTrue hplace =>
          simp only [Bool.and_eq_true, decide_eq_true_eq, Option.isSome_iff_exists] at hplace
          obtain ⟨v, hv⟩ := hplace.2
          obtain ⟨s₂, hsearch, hheap⟩ :=
            run_search_found hs₁ hi₁ ((Heap.Spells.buffer ht₁ hv).unique hw₁)
          rw [ends_bind_ok (run_read (InternTable.hashOf_of_buffer ht₁ hv)),
            ends_bind_ok (run_inspect (Heap.content_of_buffer ht₁ hv)), ends_bind_ok hsearch]
          exact ⟨rfl, fun hnot => hsame hnot ▸ hheap⟩
      case isFalse =>
          have hlength := hs₁.readable.length_eq hflat.holds ht₁ hw₁
          obtain ⟨units, hunits, hcontent, -⟩ := hs₁.readable.copyRange_encoding hs₁.tidy
            hflat.holds hw₁ ht₁ 0 (Nat.le_of_eq hlength.symm)
          have hwhole : units.toList = u := by rw [hcontent, ← hlength, Heap.part_full]
          obtain ⟨s₂, hrun, hheap⟩ := run_internUnits_found hs₁ hi₁ hwhole
          rw [ends_bind_ok (run_inspect hunits)]
          exact .of_run hrun ⟨rfl, fun hnot => hsame hnot ▸ hheap⟩

/-- Whoever asks for content that is canonical already is given its canonical string.  Nothing is
placed, and so nothing can be refused, unless a composite is flattened; of a range, the buffer that
is searched for may be too large. -/
theorem Store.Asks.known (ha : s.Asks op u) (hs : s.Ready) (hvalid : s.config.error? = none) :
    Ends op.run s
      (fun outcome s' => outcome = .handle id ∧ (¬ s.AsksComposite op → s'.heap = s.heap))
      (s.RefusesKnown u op) := by
  have hfound {m : StoreM Handle} (hm : ∃ s', m s = .ok id s' ∧ s'.heap = s.heap) :
      Ends (m >>= fun id => pure (Outcome.handle id)) s
        (fun outcome s' => outcome = .handle id ∧ (¬ s.AsksComposite op → s'.heap = s.heap))
        (s.RefusesKnown u op) := by
    obtain ⟨s', hrun, hheap⟩ := hm
    rw [ends_bind_ok hrun]
    exact ⟨rfl, fun _ => hheap⟩
  have hsound := hs.toSound
  cases ha with
  | text content =>
      exact hfound (run_internUnits_found hsound hi (Units.toList_ofText content))
  | units units => exact hfound (run_internUnits_found hsound hi rfl)
  | @string source w hid hw =>
      obtain ⟨t, htext⟩ := hw.text
      unfold Operation.run
      rw [ends_bind]
      refine (ends_internString_known hi hs hid htext hw).mono ?_ ?_
      · rintro found s' ⟨rfl, hheap⟩
        exact ⟨rfl, fun hnot => hheap fun node hnode =>
          hnot ⟨source, node, rfl, hnode ▸ htext⟩⟩
      · rintro e s' ⟨⟨node, rfl⟩, hrefused⟩
        exact Or.inl ⟨⟨source, node, rfl, htext⟩, hrefused⟩
  | @range source w start count hid hw hrange =>
      obtain ⟨t, htext⟩ := hw.text
      have hword := hsound.readable.length_lt_wordLimit hsound.tidy
        (Config.maxStringLength_lt hvalid) hid htext
      rw [← hsound.readable.length_eq hid htext hw] at hword
      have hend : start + count < wordLimit := Nat.lt_of_le_of_lt hrange hword
      obtain ⟨units, hunits, hcontent, -⟩ :=
        hsound.readable.copyRange_encoding hsound.tidy hid hw htext start hrange
      -- the buffer for the units of the range is made before the table is asked
      rcases run_internRange htext hend hunits with hrun | ⟨hrun, hlarge⟩
      · refine hfound ?_
        rw [hrun]
        exact run_internUnits_found hsound hi hcontent
      · refine .of_run_error (run_bind_error hrun)
          (Or.inr ⟨⟨source, start, count, rfl⟩, rfl, ?_⟩)
        rwa [Heap.length_part hrange, Nat.add_sub_cancel_left]

end Known

/-! ## How long canonical strings live -/

/-- A step during which a canonical string stays live: there is no collection of the old
space, or the string stays reachable, or its handle names the same string in the end. -/
inductive Step.Spares (id : Handle) (s s' : Store) : Prop
  | unswept {step : Step} (hstep : step.Leads s s')
      (hfull : s'.heap.fullCollections = s.heap.fullCollections)
  | reachable {step : Step} (hstep : step.Keeps id s s')
  | found {step : Step} (hstep : step.Leads s s') (hfind : s'.heap.find id = s.heap.find id)

theorem Step.Spares.leads (hspares : Step.Spares id s s') : ∃ step : Step, step.Leads s s' := by
  cases hspares with
  | unswept hstep => exact ⟨_, hstep⟩
  | reachable hstep => exact ⟨_, hstep.leads⟩
  | found hstep => exact ⟨_, hstep⟩

theorem Step.Spares.interned (hspares : Step.Spares id s s') (hs : WellRooted s)
    (hi : s.heap.Interned id u) : s'.heap.Interned id u := by
  cases hspares with
  | unswept hstep hfull =>
      obtain ⟨given, ha⟩ := hstep.alters hs.ready.1 hs.ready.2
      exact ha.retains.interned hfull id u hi
  | reachable hstep =>
      have hremains := hstep.remains hs
      have hspells := hi.spells
      obtain ⟨t, -, htext, hflag, -⟩ := hi
      obtain ⟨o, o', ho, ho', hchange⟩ := hremains.object
      obtain rfl := Except.ok.inj ((Heap.text_eq_ok.mp htext).symm.trans ho)
      obtain ⟨t', rfl, hsettles⟩ := Step.Changes.settles hchange
      exact Heap.interned_of_text (Heap.text_eq_ok.mpr ho') (hsettles.isInterned hflag)
        (hremains.spells u hspells)
  | found hstep hfind => exact (Heap.interned_congr hfind).mpr hi

/-- A canonical string that stays live during a run stays the canonical one. -/
theorem Step.Spares.interned_run (hrun : Relation.ReflTransGen (Step.Spares id) s s')
    (hs : WellRooted s) (hi : s.heap.Interned id u) : WellRooted s' ∧ s'.heap.Interned id u := by
  induction hrun with
  | refl => exact ⟨hs, hi⟩
  | tail _ hlast ih =>
      obtain ⟨step, hstep⟩ := hlast.leads
      exact ⟨ih.1.step hstep, hlast.interned ih.1 ih.2⟩

/-! ## Interning -/

end ManagedHeap
