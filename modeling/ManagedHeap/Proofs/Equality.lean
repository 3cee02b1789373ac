import ManagedHeap.Proofs.Heap.Layers
import ManagedHeap.Proofs.WellRooted

/-!
# Equality of strings

Two strings that a well-rooted store holds are equal exactly if they spell the same,
whatever their layouts and encodings are, and comparing them always has an answer.  The
comparison has several exits: one string twice, different lengths, two interned strings, two
buffers, and two copies of different layouts.  That two different interned strings are never
equal is what the interning table is for: no content has two of them.
-/

namespace ManagedHeap

namespace Heap

variable {h : Heap} {a b : Handle} {w v : List UInt16} {held : Handle → Prop}
  {config : Config}

/-- Strings of a readable heap are compared by what they spell, if no content has two
canonical strings. -/
theorem Readable.sameText_eq (hr : h.Readable config held) (ht : h.Tidy)
    (hunique : ∀ id id' w, h.Interned id w → h.Interned id' w → id = id') (ha : held a)
    (hb : held b) (hw : h.Spells a w) (hv : h.Spells b v) :
    h.sameText a b = .ok (decide (w = v)) := by
  obtain ⟨first, hfirst⟩ := hw.text
  obtain ⟨second, hsecond⟩ := hv.text
  have hwlength := hr.length_eq ha hfirst hw
  have hvlength := hr.length_eq hb hsecond hv
  unfold sameText
  simp only [hfirst, hsecond, ok_bind]
  split
  case isTrue hab =>
      subst hab
      simp [hw.unique hv, pure, Except.pure]
  case isFalse hab =>
      split
      case isTrue hlength =>
          have hne : w ≠ v := fun heq => hlength (by rw [← hwlength, ← hvlength, heq])
          simp [hne, pure, Except.pure]
      case isFalse hlength =>
          have hlength' : first.length = second.length := not_not.mp hlength
          split
          case isTrue hflags =>
              rw [Bool.and_eq_true] at hflags
              -- two handles of one content would be one entry of the table
              have hne : w ≠ v := by
                rintro rfl
                exact hab (hunique a b w (interned_of_text hfirst hflags.1 hw)
                  (interned_of_text hsecond hflags.2 hv))
              simp [hne, pure, Except.pure]
          case isFalse =>
              split
              case h_1 u u' hu hu' =>
                  have hsame : u.sameContent u' = true ↔ w = v := by
                    rw [Units.sameContent_iff, (Spells.buffer hfirst hu).unique hw,
                      (Spells.buffer hsecond hu').unique hv]
                  exact congrArg Except.ok (Bool.eq_iff_iff.mpr (by rw [hsame, decide_eq_true_eq]))
              case h_2 =>
                  -- both are copied to wide buffers, which can hold any units
                  obtain ⟨u, hu, huw, hwide⟩ := hr.copyRange_ok ht ha hw 0
                    (Nat.le_refl w.length) .wide (by simp)
                  obtain ⟨u', hu', huv, hwide'⟩ := hr.copyRange_ok ht hb hv 0
                    (Nat.le_refl v.length) .wide (by simp)
                  rw [part_full] at huw huv
                  rw [hwlength] at hu
                  rw [hvlength, ← hlength'] at hu'
                  rw [hu, ok_bind, hu', ok_bind]
                  have hsame : u = u' ↔ w = v := by
                    rw [Units.eq_iff_toList (hwide.trans hwide'.symm), huw, huv]
                  exact congrArg Except.ok (Bool.eq_iff_iff.mpr (by
                    rw [beq_iff_eq, hsame, decide_eq_true_eq]))

end Heap

open Store

variable {s : Store} {a b : Handle} {first second : Text}

/-- Comparing two strings that a well-rooted store holds tells whether they have the same
content, and changes nothing.  In particular two different interned strings never have. -/
theorem WellRooted.equality (hs : WellRooted s) (ha : s.Holds a) (hb : s.Holds b)
    (hfirst : s.heap.text a = .ok first) (hsecond : s.heap.text b = .ok second) :
    ∃ w v, s.heap.Spells a w ∧ s.heap.Spells b v ∧
      Ends (StoreM.sameText a b) s (fun answer s' => s' = s ∧ (answer = true ↔ w = v))
        (fun _ _ => False) ∧
      (first.isInterned = true → second.isInterned = true → a ≠ b → w ≠ v) := by
  obtain ⟨hready, -⟩ := hs.ready
  obtain ⟨w, hw, -⟩ := hready.readable.spells ha hfirst
  obtain ⟨v, hv, -⟩ := hready.readable.spells hb hsecond
  refine ⟨w, v, hw, hv, ?_, ?_⟩
  · unfold StoreM.sameText
    rw [ends_inspect_ok (hready.readable.sameText_eq hready.tidy hready.table.unique ha hb hw hv)]
    exact ⟨rfl, decide_eq_true_iff⟩
  · rintro hflag hflag' hne rfl
    exact hne (hready.table.unique a b w (Heap.interned_of_text hfirst hflag hw)
      (Heap.interned_of_text hsecond hflag' hv))

/-- A composite and a flat string of the same content. -/
theorem WellRooted.equality_composite : ∃ s : Store, WellRooted s ∧
    s.Holds ⟨10⟩ ∧ s.Holds ⟨11⟩ ∧
    s.heap.text ⟨10⟩ = .ok (.composite ⟨⟨8⟩, ⟨9⟩, 14, .narrow, false⟩) ∧
    s.heap.text ⟨11⟩ = .ok (.flat (.ofText "abcdefghijklmn") false) ∧
    ∃ w v, s.heap.Spells ⟨10⟩ w ∧ s.heap.Spells ⟨11⟩ v ∧
      Ends (StoreM.sameText ⟨10⟩ ⟨11⟩) s (fun answer s' => s' = s ∧ (answer = true ↔ w = v))
        (fun _ _ => False) ∧
      ((Text.composite ⟨⟨8⟩, ⟨9⟩, 14, .narrow, false⟩).isInterned = true →
        (Text.flat (.ofText "abcdefghijklmn") false).isInterned = true →
        (⟨10⟩ : Handle) ≠ ⟨11⟩ → w ≠ v) := by
  have hcheck : (((Store.create {} none).toOption.bind (replay
      (joinTexts .young ++ [.perform (.newText "abcdefghijklmn" .young)]))).any fun s =>
        s.isLiveRoot ⟨10⟩ && s.isLiveRoot ⟨11⟩ &&
        decide (s.heap.text ⟨10⟩ = .ok (.composite ⟨⟨8⟩, ⟨9⟩, 14, .narrow, false⟩)) &&
        decide (s.heap.text ⟨11⟩ = .ok (.flat (.ofText "abcdefghijklmn") false))) = true := by
    decide +kernel
  obtain ⟨s, hs, hcheck⟩ := WellRooted.exists_replay hcheck
  simp only [Bool.and_eq_true, decide_eq_true_eq] at hcheck
  obtain ⟨⟨⟨hroot, hroot'⟩, hnode⟩, hflat⟩ := hcheck
  have ha : s.Holds ⟨10⟩ := holds_of_isLiveRoot hroot
  have hb : s.Holds ⟨11⟩ := holds_of_isLiveRoot hroot'
  exact ⟨s, hs, ha, hb, hnode, hflat, hs.equality ha hb hnode hflat⟩

end ManagedHeap
