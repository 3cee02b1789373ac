import ManagedHeap.Proofs.Store.Flattening
import ManagedHeap.Store.Strings

/-!
# Slicing

A short slice is a copy, and adds to the store.  A long one is a view of the part of the
string that holds the whole range.  If that part is a composite it is flattened first, and
so may let its parts go; the view refers to nothing that the former roots do not lead to.

A slice spells the range that it was asked for.  Views record their offset in 32 bits, so
this needs that strings are not longer than that (`Store.Short`), and the empty slice is
the canonical empty string.
-/

namespace ManagedHeap

open Store

variable {s : Store} {id source : Handle} {h : Heap} {config : Config} {held : Handle → Prop}
  {w : List UInt16} {start stop length offset : Nat}

/-- The strings that the store holds have fewer units than 32 bits can count. -/
def Store.Short (s : Store) : Prop :=
  ∀ id t, s.Holds id → s.heap.text id = .ok t → t.length < UInt32.size

/-- The part of a string that holds a whole range is as long as the range needs, and spells
there what the string spells in the range. -/
theorem Heap.Readable.reads_descend (hr : h.Readable config held) (steps : Nat) (hid : held id)
    (hw : h.Spells id w) (hrange : offset + length ≤ w.length) :
    Reads (StoreM.descend h length steps id offset) fun found => held found.1 ∧
      ∃ v, h.Spells found.1 v ∧ found.2 + length ≤ v.length ∧ v.length ≤ w.length ∧
        Heap.part v found.2 (found.2 + length) = Heap.part w offset (offset + length) := by
  induction steps generalizing id offset w with
  | zero => simp [StoreM.descend, reads_error]
  | succ steps ih =>
      unfold StoreM.descend
      rw [reads_bind]
      apply (hr.reads_text hid).mono
      intro t htext
      cases t with
      | composite node =>
          obtain ⟨a, b, ha, hb, rfl⟩ := hw.of_composite htext
          have hleft : held node.left := hr.text_child hid htext (by simp [Text.children])
          rw [List.length_append] at hrange
          simp only [reads_bind]
          apply (hr.reads_textLength hleft ha).mono
          rintro _ rfl
          split
          case isTrue hle =>
              rw [Heap.part_append_right hle]
              refine (ih (hr.text_child hid htext (by simp [Text.children])) hb (by omega)).mono ?_
              rintro found ⟨hfound, v, hv, hfits, hshorter, hsame⟩
              exact ⟨hfound, v, hv, hfits, hshorter.trans (by simp), hsame⟩
          case isFalse =>
              split
              case isTrue hfits =>
                  rw [Heap.part_append_left hfits]
                  refine (ih hleft ha hfits).mono ?_
                  rintro found ⟨hfound, v, hv, hfits, hshorter, hsame⟩
                  exact ⟨hfound, v, hv, hfits, hshorter.trans (by simp), hsame⟩
              case isFalse =>
                  exact ⟨hid, _, hw, by rwa [List.length_append], Nat.le_refl _, rfl⟩
      | _ => exact ⟨hid, w, hw, hrange, Nat.le_refl _, rfl⟩

/-- A view of a range of a held string with a buffer fits. -/
theorem Store.fits_view {node : View} {p : Text} {u : Units} (hparent : s.Holds node.parent)
    (hp : s.heap.text node.parent = .ok p) (hu : p.buffer? = some u)
    (hrange : node.offset + node.length ≤ u.size) (hencoding : node.encoding = p.encoding)
    (hmin : s.config.viewMinLength ≤ node.length) : s.Fits (.string (.view node)) where
  children c hc := by
    obtain rfl : c = node.parent := by simpa [Object.children, Text.children] using hc
    exact hparent
  short t u' ht hu' := by
    obtain rfl : Text.view node = t := by simpa using ht
    simp [Text.buffer?] at hu'
  string t ht := by
    obtain rfl : Text.view node = t := by simpa using ht
    have hencoding' : node.encoding = u.encoding := by
      rw [hencoding]
      cases p <;> simp_all [Text.buffer?, Text.encoding]
    refine ⟨rfl, ⟨p, u, hp, hu, hrange, hencoding', hmin⟩, _, ⟨_, .buffer hp hu, rfl⟩, ?_, ?_⟩
    · simp only [List.length_take, List.length_drop, Units.length_toList, Text.length]
      omega
    · intro hnarrow x hx
      have hfits : u.fitsNarrow = true :=
        Units.fitsNarrow_of_encoding (by simpa [Text.knownNarrow, hencoding'] using hnarrow)
      exact Units.isNarrowUnit_of_fitsNarrow hfits (List.mem_of_mem_drop (List.mem_of_mem_take hx))

/-- The view is placed once its parent has a buffer. -/
theorem runs_placeView {s' : Store} {parent : Handle} {p : Text} {u : Units}
    (hsettles : s.Settles s') (halike : s.Alike s') (hparent : s'.Holds parent)
    (hp : s'.heap.text parent = .ok p) (hu : p.buffer? = some u)
    (hrange : offset + length ≤ u.size) (hmin : s.config.viewMinLength ≤ length) :
    RunsFrom Settles Keeps s (do
      let encoding := (← StoreM.text parent).encoding
      StoreM.allocate
        (.string (.view ⟨parent, StoreM.recordedOffset offset, length, encoding⟩)) .young)
      s' (fun id s'' => s'.GivesOut id s'' ∧ (u.size < UInt32.size →
        s''.heap.Spells id (Heap.part u.toList offset (offset + length)))) := by
  have hs' := hsettles.ready.toSound
  apply runs_text hs' hparent (hsettles.keeps halike)
  intro t ht
  obtain rfl := Except.ok.inj (hp.symm.trans ht)
  have hrecorded : StoreM.recordedOffset offset ≤ offset := Nat.mod_le _ _
  have hfits : s'.Fits (.string
      (.view ⟨parent, StoreM.recordedOffset offset, length, p.encoding⟩)) :=
    fits_view hparent hp hu (by simp only; omega) rfl (halike.config ▸ hmin)
  refine (runs_allocate hs' hfits .young).then (fun _ hr => hr.keeps hsettles halike)
    fun id s'' ha hplaced => ⟨hsettles.trans (ha.settles hsettles.ready),
      hplaced.givesOut hs' ha hfits.children, fun hshort => ?_⟩
  have hexact : StoreM.recordedOffset offset = offset ∨ length = 0 := by
    unfold StoreM.recordedOffset
    rcases Nat.eq_zero_or_pos length with hzero | hpos
    · exact Or.inr hzero
    · exact Or.inl (Nat.mod_eq_of_lt (by omega))
  have hafter : s''.heap.Spells parent u.toList :=
    (ha.heap_settled hs').spells parent _ hparent (.buffer hp hu)
  have hview := Heap.Spells.view (Heap.text_eq_ok.mpr hplaced.find) hafter
  rcases hexact with hexact | rfl
  · simpa [Heap.part, hexact] using hview
  · simpa [Heap.part] using hview

theorem runs_newView (hs : s.Ready) (hid : s.Holds source) (hw : s.heap.Spells source w)
    (hrange : start + length ≤ w.length) (hmin : s.config.viewMinLength ≤ length) :
    RunsFrom Settles Keeps s (StoreM.newView source start length) s
      (fun id s' => (s'.Holds id ∧ s.Recycles id s') ∧
        (s.Short → s'.heap.Spells id (Heap.part w start (start + length)))) := by
  have hrefl : s.Keeps s := (Adds.refl hs.toSound).keeps hs
  unfold StoreM.newView
  refine runs_checkCount hrefl fun _ => ?_
  refine runs_inspect ((hs.readable.reads_descend _ hid hw hrange).mono ?_) hrefl
  rintro ⟨part, offset⟩ ⟨hpart, v, hv, hle, -, hsame⟩
  simp only at hpart hv hle hsame ⊢
  apply runs_text hs.toSound hpart hrefl
  intro t ht
  split
  case h_1 node =>
      obtain ⟨p, u, hp, hu, hfit, -⟩ := (hs.readable.spelled part _ hpart ht).shaped
      have hlength : v.length = node.length := hs.readable.length_eq hpart ht hv
      obtain ⟨a, ha, rfl⟩ := hv.of_view ht
      obtain rfl := ha.unique (.buffer hp hu)
      have hparent := hs.readable.text_child hpart ht (c := node.parent) (by simp [Text.children])
      refine (runs_placeView hrefl.settles (.refl s) hparent hp hu (by omega) hmin).weaken
        fun id s' _ hend => ⟨⟨hend.1.holds, hend.1.adds.recycles hs.toSound id⟩, fun hshort => ?_⟩
      rw [← hsame, Heap.part_take_drop (by omega), Nat.add_right_comm]
      exact hend.2 (Text.length_of_buffer hu ▸ hshort _ p hparent hp)
  case h_2 hview =>
      apply (runs_flatten hs hpart).bind
      intro found s₁ hsettles hend
      obtain ⟨hfound, hflat⟩ := hend
      obtain rfl : part = found := hfound.symm
      obtain ⟨t', u, ht', hu⟩ := hflat.exists_buffer ht hview
      obtain rfl : v = u.toList := (hflat.spells hsettles hv).unique (.buffer ht' hu)
      rw [Units.length_toList] at hle
      refine (runs_placeView hsettles hflat.toAlike hflat.holds ht' hu hle hmin).weaken
        fun id s' _ hend => ⟨⟨hend.1.holds,
          hflat.recycles hs.toSound hsettles.ready.toSound hend.1⟩, fun hshort => ?_⟩
      rw [← hsame]
      apply hend.2
      rw [← Units.length_toList, hs.readable.length_eq hpart ht hv]
      exact hshort part t hpart ht

theorem runs_properSlice (hs : s.Ready) (hid : s.Holds source) {stop : Nat}
    (hw : s.heap.Spells source w) (hrange : start ≤ stop ∧ stop ≤ w.length) :
    RunsFrom Settles Keeps s (StoreM.properSlice source start stop) s
      (fun id s' => (s'.Holds id ∧ s.Recycles id s') ∧
        (s.Short → s.heap.Spells s.canonical.emptyString [] →
          s'.heap.Spells id (Heap.part w start stop))) := by
  have hrefl : s.Keeps s := (Adds.refl hs.toSound).keeps hs
  -- all slices but views are runs that add
  have hadds {m : StoreM Handle} {p q : Prop}
      (hm : Runs Adds m s fun id s' => s'.Holds id ∧
        (p → q → s'.heap.Spells id (Heap.part w start stop))) :
      RunsFrom Settles Keeps s m s fun id s' => (s'.Holds id ∧ s.Recycles id s') ∧
        (p → q → s'.heap.Spells id (Heap.part w start stop)) :=
    hm.then (fun _ ha => ha.keeps hs) fun id s' ha hend =>
      ⟨ha.settles hs, ⟨hend.1, ha.recycles hs.toSound id⟩, hend.2⟩
  have hrefl' : s.Adds s := .refl hs.toSound
  have hunit (i : Nat) := hs.readable.reads_unitAt (i := i) hid hw
  unfold StoreM.properSlice
  split
  case h_1 hnone =>
      have hempty : s.Holds s.canonical.emptyString :=
        hs.holds_canonical (by simp [Canonical.toList])
      refine hadds (runs_get.mpr ((runs_track hs.toSound hempty).adds.weaken ?_))
      intro _ s' ha hend
      obtain ⟨rfl, -⟩ := hend
      refine ⟨ha.holds hs.toSound hempty, fun _ hspells => ?_⟩
      rw [Heap.part_of_le (by omega)]
      exact (ha.heap_settled hs.toSound).spells _ _ hempty hspells
  case h_2 hone =>
      refine hadds (runs_inspect ((hunit start).mono fun unit hunit => ?_) hrefl')
      refine (runs_singleUnit hs.toSound unit).weaken fun _ _ _ hend => ⟨hend.1, fun _ _ => ?_⟩
      rw [Heap.part_one hone (hunit (by omega))]
      exact hend.2
  case h_3 htwo =>
      refine hadds (runs_inspect ((hunit start).mono fun a ha => ?_) hrefl')
      refine runs_inspect ((hunit (start + 1)).mono fun b hb => ?_) hrefl'
      refine (runs_pairOfUnits hs.toSound a b).weaken fun _ _ _ hend => ⟨hend.1, fun _ _ => ?_⟩
      rw [Heap.part_two htwo (ha (by omega)) (hb (by omega))]
      exact hend.2.1
  case h_4 length _ _ _ =>
      apply runs_get.mpr
      simp only
      split
      case isTrue =>
          refine hadds (runs_text hs.toSound hid hrefl' fun t _ => ?_)
          refine runs_inspect ((hs.readable.reads_copyRange hid hw _).mono fun units hunits => ?_)
            hrefl'
          refine (runs_allocateFlat hs.toSound units .young).adds.weaken fun _ _ _ hp =>
            ⟨hp.holds, fun _ _ => ?_⟩
          rw [← (hunits hrange.2).1]
          exact hp.spells
      case isFalse hlong =>
          simp only [Bool.or_eq_true, Bool.not_eq_true', decide_eq_true_eq, not_or,
            Nat.not_lt] at hlong
          refine (runs_newView hs hid hw (by omega) hlong.2).weaken fun _ _ _ hend =>
            ⟨hend.1, fun hshort _ => ?_⟩
          rw [← Nat.add_sub_cancel' hrange.1]
          exact hend.2 hshort

theorem runs_slice (hs : s.Ready) (hid : s.Holds source) (start stop : Nat) :
    RunsFrom Settles Keeps s (StoreM.slice source start stop) s
      (fun id s' => s'.Holds id ∧ s.Recycles id s') := by
  have hrefl : s.Keeps s := (Adds.refl hs.toSound).keeps hs
  unfold StoreM.slice
  apply runs_text hs.toSound hid hrefl
  intro t ht
  obtain ⟨w, hw, hlength⟩ := hs.readable.spells hid ht
  simp only
  split
  case isTrue => exact ⟨by simp, Or.inr hrefl⟩
  case isFalse hrange =>
      split
      case isTrue => exact ⟨hrefl.settles, hid, (Adds.refl hs.toSound).recycles hs.toSound source⟩
      case isFalse =>
          exact (runs_properSlice hs hid hw (by omega)).weaken fun _ _ _ hend => hend.1

end ManagedHeap
