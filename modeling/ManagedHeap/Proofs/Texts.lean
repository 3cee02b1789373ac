import ManagedHeap.Proofs.Store.Answers
import ManagedHeap.Proofs.Text.Utf16
import ManagedHeap.Proofs.WellRooted

/-!
# Texts

A text goes into the store as code units, narrow ones if they fit, and comes out by decoding
what the string spells.  The units of a string may lie in several buffers, of either encoding,
that were cut anywhere; the text is decoded from the whole content, so it depends on the content
only, and two halves of a pair that lie in different buffers are joined.

`Store.KeepsTexts` collects what follows.  Whatever a string was assembled from, its text is
`content` if it spells the units of `content`, since decoding takes back encoding
(`Utf16.decode_encode`); and this is so for the strings that are made of a text at once.
-/

namespace ManagedHeap

/-- A text is stored narrow exactly if each of its characters fits a narrow unit. -/
theorem Units.encoding_ofText (content : String) :
    (Units.ofText content).encoding = .narrow ↔ ∀ c ∈ content.toList, c.toNat ≤ 0xff := by
  unfold Units.ofText
  split
  case isTrue hnarrow =>
      refine iff_of_true rfl fun c hc => ?_
      exact of_decide_eq_true (List.all_eq_true.mp hnarrow c hc)
  case isFalse hwide =>
      refine iff_of_false nofun fun hall => hwide (List.all_eq_true.mpr fun c hc => ?_)
      exact decide_eq_true (hall c hc)

namespace Store

variable {s s' : Store} {id : Handle} {w : List UInt16} {content : String}

/-- The text of a held string is decoded from all that the string spells. -/
theorem Sound.toText_eq (hs : s.Sound) (hid : s.Holds id) (hw : s.heap.Spells id w) :
    StoreM.toText id s = .ok (Utf16.decode w) s := by
  obtain ⟨t, htext⟩ := hw.text
  obtain ⟨units, hunits⟩ := hs.content_ok hid htext
  have hcontent : s.heap.Spells id units.toList :=
    (hs.readable.reads_content hid).of_ok hunits
  unfold StoreM.toText
  rw [run_bind (run_inspect hunits), Units.text, hcontent.unique hw]
  rfl

/-- Text that comes out as it was put in. -/
theorem Sound.toText_encode (hs : s.Sound) (hid : s.Holds id)
    (hw : s.heap.Spells id (Utf16.encode content)) : StoreM.toText id s = .ok content s := by
  rw [hs.toText_eq hid hw, Utf16.decode_encode]

/-- The string was made of a text. -/
structure Stored (content : String) (id : Handle) (s' : Store) : Prop where
  holds : s'.Holds id
  flat : ∃ units, s'.heap.text id = .ok (.flat units false) ∧
    units.toList = Utf16.encode content ∧
    (units.encoding = .narrow ↔ ∀ c ∈ content.toList, c.toNat ≤ 0xff)
  text : StoreM.toText id s' = .ok content s'

theorem Placed.stored (hp : s.Placed (.string (.flat (.ofText content) false)) id s')
    (hs' : s'.Sound) : Stored content id s' := by
  have htext := Heap.text_eq_ok.mpr hp.find
  have hunits := Units.toList_ofText content
  exact ⟨hp.holds, ⟨_, htext, hunits, Units.encoding_ofText content⟩,
    hs'.toText_encode hp.holds (hunits ▸ .buffer htext rfl)⟩

/-- A text has as many units as its buffer, however they are stored. -/
theorem size_ofText (content : String) :
    (Units.ofText content).size = (Utf16.encode content).length := by
  rw [← Units.length_toList, Units.toList_ofText]

/-- Texts come out of a store as they went in. -/
structure KeepsTexts (s : Store) : Prop where
  decoded : ∀ id t, s.Holds id → s.heap.text id = .ok t → ∃ w, s.heap.Spells id w ∧
    StoreM.toText id s = .ok (Utf16.decode w) s
  assembled : ∀ id content, s.Holds id → s.heap.Spells id (Utf16.encode content) →
    StoreM.toText id s = .ok content s
  made : ∀ content space, (Utf16.encode content).length ≤ s.config.maxStringLength →
    Ends (StoreM.newText content space) s (Stored content)
      (s.Refuses (flatBytes (Utf16.encode content).length))
  interned : ∀ content, Ends (StoreM.internText content) s
    (fun id s' => s'.Holds id ∧ s'.heap.Interned id (Utf16.encode content) ∧
      StoreM.toText id s' = .ok content s')
    (s.Refuses (flatBytes (Utf16.encode content).length))

theorem Sound.ends_newText (hs : s.Sound) (space : Space)
    (hlength : (Utf16.encode content).length ≤ s.config.maxStringLength) :
    Ends (StoreM.newText content space) s (Stored content)
      (s.Refuses (flatBytes (Utf16.encode content).length)) := by
  unfold StoreM.newText StoreM.newString StoreM.checkLength
  rw [bind_assoc, ends_bind, ends_get, size_ofText,
    if_neg (Nat.not_lt_of_le hlength), ends_bind, ends_pure, ← size_ofText]
  exact Ends.mono (adding_allocateFlat hs (.ofText content) space)
    (fun _ _ hend => hend.2.2.stored hend.1.sound) fun _ _ hfail => hfail

theorem Sound.ends_internText (hs : s.Sound) (content : String) :
    Ends (StoreM.internText content) s
      (fun id s' => s'.Holds id ∧ s'.heap.Interned id (Utf16.encode content) ∧
        StoreM.toText id s' = .ok content s')
      (s.Refuses (flatBytes (Utf16.encode content).length)) := by
  rw [← size_ofText]
  refine Ends.mono (adding_internUnits hs (.ofText content)) ?_ fun _ _ hfail => hfail
  rintro id s' ⟨hadds, -, hinterns⟩
  rw [Units.toList_ofText] at hinterns
  exact ⟨hinterns.holds, hinterns.interned,
    hadds.sound.toText_encode hinterns.holds hinterns.interned.spells⟩

theorem Sound.keepsTexts (hs : s.Sound) : s.KeepsTexts where
  decoded id t hid htext := by
    obtain ⟨w, hw, -⟩ := hs.readable.spells hid htext
    exact ⟨w, hw, hs.toText_eq hid hw⟩
  assembled _ _ hid hw := hs.toText_encode hid hw
  made _ space hlength := hs.ends_newText space hlength
  interned content := hs.ends_internText content

end Store

open Store

/-- In every well-rooted store the text of a string is decoded from its whole content, and a
text that went in comes out. -/
theorem WellRooted.texts {s : Store} (hs : WellRooted s) : s.KeepsTexts :=
  hs.ready.1.keepsTexts

/-- A text is cut between the two halves of a pair, and put together again. -/
theorem WellRooted.texts_joined : ∃ s : Store, WellRooted s ∧ s.KeepsTexts ∧ s.Holds ⟨9⟩ ∧
    s.Holds ⟨11⟩ ∧ s.heap.text ⟨9⟩ = .ok (.view ⟨⟨8⟩, 0, 13, .wide⟩) ∧
    s.heap.text ⟨11⟩ = .ok (.composite ⟨⟨9⟩, ⟨10⟩, 26, .wide, false⟩) ∧
    StoreM.toText ⟨9⟩ s = .ok "abcdefghijkl\ufffd" s ∧
    StoreM.toText ⟨11⟩ s = .ok "abcdefghijkl😀mnopqrstuvwx" s := by
  have hcheck : (((Store.create {} none).toOption.bind (replay
      [.perform (.newText "abcdefghijkl😀mnopqrstuvwx" .young), .perform (.slice ⟨8⟩ 0 13),
        .perform (.slice ⟨8⟩ 13 26), .perform (.concat ⟨9⟩ ⟨10⟩)])).any fun s =>
        s.isLiveRoot ⟨9⟩ && s.isLiveRoot ⟨11⟩ &&
        decide (s.heap.text ⟨9⟩ = .ok (.view ⟨⟨8⟩, 0, 13, .wide⟩)) &&
        decide (s.heap.text ⟨11⟩ = .ok (.composite ⟨⟨9⟩, ⟨10⟩, 26, .wide, false⟩)) &&
        decide ((s.result? (StoreM.toText ⟨9⟩)).map Prod.fst = some "abcdefghijkl\ufffd") &&
        decide ((s.result? (StoreM.toText ⟨11⟩)).map Prod.fst =
          some "abcdefghijkl😀mnopqrstuvwx")) = true := by
    decide +kernel
  obtain ⟨s, hs, hcheck⟩ := WellRooted.exists_replay hcheck
  simp only [Bool.and_eq_true, decide_eq_true_eq] at hcheck
  obtain ⟨⟨⟨⟨⟨hpart, hwhole⟩, hview⟩, hnode⟩, hcut⟩, hjoined⟩ := hcheck
  have hkeeps := hs.texts
  -- the text is decoded from the content, whatever that is, so that it is enough to look at the
  -- result
  have htoText {id : Handle} {t : Text} {content : String} (hid : s.Holds id)
      (htext : s.heap.text id = .ok t)
      (hresult : (s.result? (StoreM.toText id)).map Prod.fst = some content) :
      StoreM.toText id s = .ok content s := by
    obtain ⟨w, -, hrun⟩ := hkeeps.decoded id t hid htext
    have hcontent : Utf16.decode w = content := by simpa [result?, hrun] using hresult
    rw [hrun, hcontent]
  have hid : s.Holds ⟨9⟩ := holds_of_isLiveRoot hpart
  have hid' : s.Holds ⟨11⟩ := holds_of_isLiveRoot hwhole
  exact ⟨s, hs, hkeeps, hid, hid', hview, hnode, htoText hid hview hcut,
    htoText hid' hnode hjoined⟩

end ManagedHeap
