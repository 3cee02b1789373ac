import ManagedHeap.Proofs.CollectionSafety

/-!
# Strings are immutable

The content of a string is what it spells: the units of its buffer, those of its parts one
after the other, or those of the range that it shows of its parent.  A rooted step leaves
the content, the length and the encoding of every string alone that is held before and
afterwards.  All that can become of such a string is that it settles: a composite becomes a
flat string under its handle, and a string with a buffer becomes the canonical one.

There is one exception to this.  Slicing and interning flatten a string on the way, and so
let its parts go.  If a collection runs before they place their result, then the result can
get the handle of such a part (`immutable_unless_reused`).  The handle was held through the
composite before, and it is held as the result afterwards, but it names another string
(`not_immutable_of_held`).  A string whose handle stays reachable is never affected
(`Step.Keeping.text`).
-/

namespace ManagedHeap

open Store

variable {s s' : Store} {id : Handle} {t : Text} {o' : Object} {step : Step} {steps : List Step}
  {w : List UInt16}

/-! ## What becomes of a string -/

/-- The string of a handle has the content that it had, with the same length and encoding. -/
structure Store.SameString (s s' : Store) (id : Handle) (t : Text) : Prop where
  record : ∃ t', s'.heap.text id = .ok t' ∧ t.Settles t' ∧ t'.length = t.length ∧
    t'.encoding = t.encoding
  content : ∃ w, s.heap.Spells id w ∧ s'.heap.Spells id w

/-- A string that a step changes in place settles. -/
theorem Step.Changes.settles (hchange : step.Changes id (.string t) o') :
    ∃ t', o' = .string t' ∧ t.Settles t' := by
  rcases hchange.inv with hs | hg | ⟨_, _, _, harray, -⟩ | ⟨_, _, _, hdictionary, -⟩
  · cases hs with
    | refl => exact ⟨t, rfl, .refl t⟩
    | string hs => exact ⟨_, rfl, hs⟩
  · exact ⟨t, hg.string, .refl t⟩
  · exact nomatch harray
  · exact nomatch hdictionary

/-- A string remains the same string. -/
theorem Store.Remains.sameString (hremains : Remains step.Changes s s' id) (hs : s.Sound)
    (hid : s.Holds id) (htext : s.heap.text id = .ok t) : s.SameString s' id t := by
  obtain ⟨o, o', ho, ho', hchange⟩ := hremains.object
  obtain rfl := Except.ok.inj ((Heap.text_eq_ok.mp htext).symm.trans ho)
  obtain ⟨t', rfl, hsettles⟩ := Step.Changes.settles hchange
  obtain ⟨w, hw, -⟩ := hs.readable.spells hid htext
  exact ⟨⟨t', Heap.text_eq_ok.mpr ho', hsettles, hsettles.length, hsettles.encoding⟩,
    w, hw, hremains.spells w hw⟩

theorem Store.SameString.trans {s'' : Store} {t' : Text} (hfirst : s.SameString s' id t)
    (htext : s'.heap.text id = .ok t') (hsecond : s'.SameString s'' id t') :
    s.SameString s'' id t := by
  obtain ⟨⟨t₁, ht₁, hsettles, hlength, hencoding⟩, w, hw, hw'⟩ := hfirst
  obtain ⟨⟨t₂, ht₂, hsettles', hlength', hencoding'⟩, w', hw₁, hw''⟩ := hsecond
  obtain rfl := Except.ok.inj (htext.symm.trans ht₁)
  obtain rfl := hw'.unique hw₁
  exact ⟨⟨t₂, ht₂, hsettles.trans hsettles', hlength'.trans hlength,
    hencoding'.trans hencoding⟩, w, hw, hw''⟩

/-! ## One step -/

/-- Whatever step is taken in a well-rooted store, whether it has a result or fails, the
strings that are held before and afterwards are the same, unless slicing or interning a
string has let go of one and given out its handle again. -/
theorem WellRooted.immutable_unless_reused (hs : WellRooted s) (hr : step.Rooted s) :
    Ends step.run s
      (fun outcome s' => ∀ id t, s.Holds id → s'.Holds id → s.heap.text id = .ok t →
        s.SameString s' id t ∨ step.LetsGo outcome s s' id)
      (fun e s' => e = .wordOverflow ∨
        ∀ id t, s.Holds id → s'.Holds id → s.heap.text id = .ok t → s.SameString s' id t) := by
  refine (hs.alters hr).mono ?_ ?_
  · intro outcome s' ha id t hid hid' htext
    rcases ha.remains id hid hid' with hremains | ⟨hgiven, hlost, hless⟩
    · exact Or.inl (hremains.sameString hs.ready.1.toSound hid htext)
    · exact Or.inr ⟨hlost, hless, hgiven⟩
  · intro e s' hend
    apply hend.2.imp_right
    intro ha id t hid hid' htext
    rcases ha.remains id hid hid' with hremains | ⟨hgiven, -⟩
    · exact hremains.sameString hs.ready.1.toSound hid htext
    · exact hgiven.elim

/-- A composite that is flattened. -/
theorem WellRooted.immutable_unless_reused_flatten : ∃ s : Store,
    WellRooted s ∧ (Step.perform (.flatten ⟨10⟩)).Rooted s ∧
    s.heap.text ⟨10⟩ = .ok (.composite ⟨⟨8⟩, ⟨9⟩, 14, .narrow, false⟩) ∧
    Ends (Step.perform (.flatten ⟨10⟩)).run s
      (fun outcome s' => ∀ id t, s.Holds id → s'.Holds id → s.heap.text id = .ok t →
        s.SameString s' id t ∨ (Step.perform (.flatten ⟨10⟩)).LetsGo outcome s s' id)
      (fun e s' => e = .wordOverflow ∨
        ∀ id t, s.Holds id → s'.Holds id → s.heap.text id = .ok t → s.SameString s' id t) := by
  have hcheck : (((Store.create {} none).toOption.bind (replay (joinTexts .young))).any fun s =>
      (Step.perform (.flatten ⟨10⟩)).isDirect s &&
        decide (s.heap.text ⟨10⟩ = .ok (.composite ⟨⟨8⟩, ⟨9⟩, 14, .narrow, false⟩))) = true := by
    decide +kernel
  obtain ⟨s, hs, hcheck⟩ := WellRooted.exists_replay hcheck
  rw [Bool.and_eq_true, decide_eq_true_eq] at hcheck
  have hr := Step.rooted_of_isDirect hcheck.1
  exact ⟨s, hs, hr, hcheck.2, hs.immutable_unless_reused hr⟩

/-- Interning a composite flattens it.  If this leaves no room for the canonical string, then
the collection gives the handle of a part free, and the canonical string gets it. -/
theorem not_immutable_of_held : ¬ ∀ (s s' : Store) (step : Step) (outcome : Outcome)
    (id : Handle) (t : Text), WellRooted s → step.Rooted s → step.run s = .ok outcome s' →
    s.Holds id → s'.Holds id → s.heap.text id = .ok t → s.SameString s' id t := by
  intro himmutable
  have hcheck : (((Store.create { oldBytes := 480 } none).toOption.bind
      (replay (joinTexts .old))).any fun s =>
        (s.roots []).contains ⟨10⟩ && s.heap.isLive ⟨9⟩ &&
        decide (s.heap.text ⟨10⟩ = .ok (.composite ⟨⟨8⟩, ⟨9⟩, 14, .narrow, false⟩)) &&
        decide (s.heap.text ⟨9⟩ = .ok (.flat (.ofText "hijklmn") false)) &&
        (replay [.perform (.internString ⟨10⟩)] s).any fun s' =>
          (s'.roots []).contains ⟨9⟩ && s'.heap.isLive ⟨9⟩ &&
            decide (s'.heap.text ⟨9⟩ = .ok (.flat (.ofText "abcdefghijklmn") true))) = true := by
    decide +kernel
  obtain ⟨s, hs, hcheck⟩ := WellRooted.exists_replay hcheck
  simp only [Bool.and_eq_true, List.contains_iff_mem, decide_eq_true_eq,
    Option.any_eq_true] at hcheck
  obtain ⟨⟨⟨⟨hroot, hlive⟩, hnode⟩, hpart⟩, s', hrun, ⟨hroot', hlive'⟩, hresult⟩ := hcheck
  obtain ⟨outcome, between, hr, hstep, hrest⟩ := Step.result_of_replay hrun
  obtain rfl : between = s' := by simpa [replay] using hrest
  -- the part is held through the composite before, and as the result afterwards
  have hid : s.Holds ⟨9⟩ :=
    ⟨hlive, .child (.root hroot) (Heap.text_eq_ok.mp hnode)
      (by simp [Object.children, Text.children])⟩
  have hid' : between.Holds ⟨9⟩ := holds_of_root hroot' hlive'
  obtain ⟨t', ht', -, hlength, -⟩ :=
    (himmutable s between _ outcome ⟨9⟩ _ hs hr hstep hid hid' hpart).record
  obtain rfl := Except.ok.inj (hresult.symm.trans ht')
  revert hlength
  decide

/-! ## Runs -/

/-- A string whose handle stays reachable during a run is the same string in the end. -/
theorem Step.Keeping.text (hk : Step.Keeping id steps s s') (hs : WellRooted s)
    (hid : s.Holds id) (htext : s.heap.text id = .ok t) : s.SameString s' id t := by
  induction hk generalizing t with
  | nil s =>
      obtain ⟨w, hw, -⟩ := hs.ready.1.readable.spells hid htext
      exact ⟨⟨t, htext, .refl t, rfl, rfl⟩, w, hw, hw⟩
  | cons hstep _ ih =>
      have hfirst := (hstep.remains hs).sameString hs.ready.1.toSound hid htext
      obtain ⟨t', ht', -⟩ := hfirst.record
      exact hfirst.trans ht' (ih (hs.step hstep.leads) hstep.after ht')

end ManagedHeap
