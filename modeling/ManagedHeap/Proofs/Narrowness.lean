import ManagedHeap.Proofs.InternalFaults.Strings

/-!
# Narrow strings

A string records an encoding, and a wide composite records besides whether its parts were known
to be narrow when it was made.  Both are copied from the parts and never checked against the
units, while the parts may be flattened or interned later on.  They stay true all the same,
since a string keeps its content and its encoding whatever becomes of its layout
(`Text.Settles`).

`Heap.Narrowness` lists what can be relied on: narrow strings have narrow units only, a
composite is narrow exactly if both parts are, and a string that is known to be narrow is
narrow.  A buffer of the encoding that a string records can therefore take its units, and no
copy of a string is refused because a unit does not fit (`WellRooted.narrowness`).
-/

namespace ManagedHeap

open Store

variable {s : Store} {id : Handle} {t : Text} {w : List UInt16}

theorem Encoding.join_eq_narrow_iff {e e' : Encoding} :
    e.join e' = .narrow ↔ e = .narrow ∧ e' = .narrow := by
  refine ⟨Encoding.join_eq_narrow, ?_⟩
  rintro ⟨rfl, rfl⟩
  rfl

namespace Heap

variable {h : Heap} {config : Config} {held : Handle → Prop}

/-- What the string `t` with the content `w` tells about the width of its units. -/
structure Narrowness (h : Heap) (id : Handle) (t : Text) (w : List UInt16) : Prop where
  encoding : t.encoding = .narrow → ∀ x ∈ w, x ≤ 0xff
  composite : ∀ node, t = .composite node → ∃ left right,
    h.text node.left = .ok left ∧ h.text node.right = .ok right ∧
      (node.encoding = .narrow ↔ left.encoding = .narrow ∧ right.encoding = .narrow)
  -- the check always has an answer, and is to be believed if it is `true`
  known : ∃ answer, h.knownNarrow id = .ok answer ∧ (answer = true → ∀ x ∈ w, x ≤ 0xff)
  copies : ∀ start stop, stop ≤ w.length → ∃ units,
    h.copyRange id start stop t.encoding = .ok units ∧ units.toList = part w start stop ∧
      units.encoding = t.encoding

theorem knownNarrow_eq_ok (htext : h.text id = .ok t) : h.knownNarrow id = .ok t.knownNarrow := by
  rw [knownNarrow, htext]
  rfl

/-- The strings of a readable set tell the truth about the width of their units. -/
theorem Readable.narrowness_of_spells (hr : h.Readable config held) (ht : h.Tidy) (hid : held id)
    (htext : h.text id = .ok t) (hw : h.Spells id w) : h.Narrowness id t w := by
  have hspelled := hr.spelled id t hid htext
  have hknown (hnarrow : t.knownNarrow = true) : ∀ x ∈ w, x ≤ 0xff := by
    obtain ⟨w', hw', -, hunits⟩ := hspelled.content
    obtain rfl := hw.unique hw'
    exact fun x hx => of_decide_eq_true (hunits hnarrow x hx)
  refine ⟨fun hnarrow => hknown (Text.knownNarrow_of_encoding hnarrow), ?_,
    ⟨_, knownNarrow_eq_ok htext, hknown⟩,
    fun start stop hstop => hr.copyRange_encoding ht hid hw htext start hstop⟩
  rintro node rfl
  obtain ⟨left, right, hleft, hright, -, -, -, hjoin, -⟩ := hspelled.shaped
  exact ⟨left, right, hleft, hright, hjoin ▸ Encoding.join_eq_narrow_iff⟩

end Heap

theorem Faultless.fits {α : Type} {m : StoreM α} (hm : Faultless m s) :
    Ends m s (fun _ _ => True) fun e _ => e ≠ .unitTooWide :=
  hm.mono (fun _ _ h => h) fun e _ hnot he => by simp [he, Fault.isInternal] at hnot

/-- The strings that a well-rooted store holds tell the truth about the width of their units.
Flattening one and concatenating two gives all of their units, and is never refused because a
unit does not fit. -/
theorem WellRooted.narrowness (hs : WellRooted s) (hid : s.Holds id)
    (htext : s.heap.text id = .ok t) :
    ∃ w, s.heap.Spells id w ∧ s.heap.Narrowness id t w ∧
      Ends (StoreM.flatten id) s (fun found s' => found = id ∧ s'.heap.Spells id w)
        (fun e _ => e ≠ .unitTooWide) ∧
      ∀ other b, s.Holds other → s.heap.Spells other b →
        Ends (StoreM.concat id other) s (fun joined s' => s'.heap.Spells joined (w ++ b))
          (fun e _ => e ≠ .unitTooWide) ∧
        Ends (StoreM.flatConcat id other) s (fun joined s' => s'.heap.Spells joined (w ++ b))
          (fun e _ => e ≠ .unitTooWide) := by
  obtain ⟨hready, hvalid⟩ := hs.ready
  obtain ⟨w, hw, -⟩ := hready.readable.spells hid htext
  refine ⟨w, hw, hready.readable.narrowness_of_spells hready.tidy hid htext hw, ?_,
    fun other b hother hb => ⟨?_, ?_⟩⟩
  -- that the copy fits its encoding is one of the faults that cannot occur
  · refine (Ends.and (runs_flatten hready hid) (faultless_flatten hready hid).fits).mono ?_
      fun _ _ hfail => hfail.2
    rintro found s' ⟨⟨hsettles, hfound, hflat⟩, -⟩
    exact ⟨hfound, hflat.spells hsettles hw⟩
  · exact (Ends.and (runs_concat hready.toSound hvalid hid hother hw hb)
      (faultless_concat hready.toSound hvalid hid hother).fits).mono
      (fun _ _ hend => hend.1.2.spells) fun _ _ hfail => hfail.2
  · refine (Ends.and (runs_flatConcat hready.toSound hid hother hw hb)
      (faultless_flatConcat hready.toSound hid hother).fits).mono ?_ fun _ _ hfail => hfail.2
    rintro joined s' ⟨⟨-, units, hplaced, hunits⟩, -⟩
    exact hunits ▸ .buffer (Heap.text_eq_ok.mpr hplaced.find) rfl

/-- A wide composite of a narrow string and of a wide buffer of the host with narrow units,
below another composite.  The inner one is flattened, and then only the outer one is known to be
narrow. -/
theorem WellRooted.narrowness_hinted : ∃ s : Store, WellRooted s ∧ s.Holds ⟨11⟩ ∧
    s.heap.text ⟨11⟩ = .ok (.composite ⟨⟨10⟩, ⟨8⟩, 21, .wide, true⟩) ∧
    s.heap.text ⟨10⟩ = .ok (.flat (.ofTextWide "abcdefghijklmn") false) ∧
    s.heap.knownNarrow ⟨10⟩ = .ok false ∧ s.heap.knownNarrow ⟨11⟩ = .ok true ∧
    ∃ w, s.heap.Spells ⟨11⟩ w ∧
      s.heap.Narrowness ⟨11⟩ (.composite ⟨⟨10⟩, ⟨8⟩, 21, .wide, true⟩) w ∧
      Ends (StoreM.flatten ⟨11⟩) s (fun found s' => found = ⟨11⟩ ∧ s'.heap.Spells ⟨11⟩ w)
        (fun e _ => e ≠ .unitTooWide) ∧
      ∀ other b, s.Holds other → s.heap.Spells other b →
        Ends (StoreM.concat ⟨11⟩ other) s (fun joined s' => s'.heap.Spells joined (w ++ b))
          (fun e _ => e ≠ .unitTooWide) ∧
        Ends (StoreM.flatConcat ⟨11⟩ other) s (fun joined s' => s'.heap.Spells joined (w ++ b))
          (fun e _ => e ≠ .unitTooWide) := by
  have hcheck : (((Store.create {} none).toOption.bind (replay
      [.perform (.newText "abcdefg" .young), .perform (.newExternal (.ofTextWide "hijklmn")),
        .perform (.concat ⟨8⟩ ⟨9⟩), .perform (.concat ⟨10⟩ ⟨8⟩),
        .perform (.flatten ⟨10⟩)])).any fun s =>
        s.isLiveRoot ⟨11⟩ &&
        decide (s.heap.text ⟨11⟩ = .ok (.composite ⟨⟨10⟩, ⟨8⟩, 21, .wide, true⟩)) &&
        decide (s.heap.text ⟨10⟩ = .ok (.flat (.ofTextWide "abcdefghijklmn") false)) &&
        decide (s.heap.knownNarrow ⟨10⟩ = .ok false) &&
        decide (s.heap.knownNarrow ⟨11⟩ = .ok true)) = true := by
    decide +kernel
  obtain ⟨s, hs, hcheck⟩ := WellRooted.exists_replay hcheck
  simp only [Bool.and_eq_true, decide_eq_true_eq] at hcheck
  obtain ⟨⟨⟨⟨hroot, hnode⟩, hpart⟩, hwide⟩, hknown⟩ := hcheck
  have hid : s.Holds ⟨11⟩ := holds_of_isLiveRoot hroot
  exact ⟨s, hs, hid, hnode, hpart, hwide, hknown, hs.narrowness hid hnode⟩

end ManagedHeap
