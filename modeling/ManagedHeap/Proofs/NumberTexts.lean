import ManagedHeap.Proofs.Store.NumberTexts
import ManagedHeap.Proofs.Texts

/-!
# The list of texts of numbers is transparent

A text that is on the list is given out without another look at it, though it is no root and may
have been closed out of all scopes since.  Nothing goes wrong, because nothing dies between two
collections: a text on the list is live, and still the text of its number, in every state of a
well-rooted run.  So a request gives out the same content whether it finds the text there or has
it made; and as long as there is no collection and the list does not overflow
(`Step.Sparing`), it gives out the same string.

A request can fail in one way only: a text that has to be made may be refused its place
(`not_numberText_always`).
-/

namespace ManagedHeap

open Store

variable {s s' s'' : Store} {number : Double} {id : Handle} {value : Value} {steps : List Step}

/-! ## In well-rooted runs -/

theorem WellRooted.limited (hs : WellRooted s) : s.kept.Limited := by
  induction hs with
  | @setup _ config _ _ _ hrun =>
      have hfollows := ((lasting_follows ⟨[], [], 0⟩).setup _
        ⟨Heap.ordered_empty _ _, .refl _⟩).of_ok hrun
      exact hfollows.2.limited (Kept.limited_of_nil rfl)
  | step hs hstep ih => exact (hstep.turns hs.ordered).limited ih

/-- A run of rooted steps in which the texts of numbers are spared: there is no collection, and
the list of them is not reset. -/
inductive Step.Sparing : List Step → Store → Store → Prop
  | nil (s : Store) : Sparing [] s s
  | cons {step : Step} {steps : List Step} {s s' s'' : Store} (hstep : step.Leads s s')
      (hcount : s'.collections = s.collections) (hreset : ¬ s.kept.Resets s'.kept)
      (hrest : Sparing steps s' s'') : Sparing (step :: steps) s s''

theorem Step.Sparing.wellRooted (hrun : Step.Sparing steps s s') (hs : WellRooted s) :
    WellRooted s' := by
  induction hrun with
  | nil s => exact hs
  | cons hstep _ _ _ ih => exact ih (hs.step hstep)

theorem Step.Sparing.lookup (hrun : Step.Sparing steps s s') (hs : WellRooted s)
    (hkept : s.numberTexts.lookup number = some id) :
    s'.numberTexts.lookup number = some id := by
  induction hrun with
  | nil s => exact hkept
  | cons hstep hcount hreset _ ih =>
      exact ih (hs.step hstep) ((hstep.turns hs.ordered).lookup hs.limited hcount hreset hkept)

/-! ## What is given out -/

/-- The handle is held and names the text of the number, as a flat string. -/
structure Store.GivesText (s : Store) (number : Double) (id : Handle) : Prop where
  holds : s.Holds id
  flat : s.heap.NumberText number id
  content : s.heap.Spells id (Utf16.encode number.text)
  text : StoreM.toText id s = .ok number.text s

theorem Heap.NumberText.spells {h : Heap} (ht : h.NumberText number id) :
    h.Spells id (Utf16.encode number.text) := by
  obtain ⟨interned, htext⟩ := ht
  exact Units.toList_ofText number.text ▸ .buffer htext rfl

theorem Store.Sound.givesText (hs : s.Sound) (hid : s.Holds id)
    (ht : s.heap.NumberText number id) : s.GivesText number id :=
  ⟨hid, ht, ht.spells, hs.toText_encode hid ht.spells⟩

/-- Whether the text is on the list or has to be made, it is there afterwards. -/
theorem ends_numberText (hs : s.Sound) (hnumber : s.heap.number? value = .ok (some number)) :
    Ends (StoreM.numberText value) s
      (fun id s' => s'.heap.NumberText number id ∧ s'.numberTexts.lookup number = some id)
      (fun e s' => s.numberTexts.lookup number = none ∧
        s.Refuses (flatBytes (Utf16.encode number.text).length) e s') := by
  cases hlookup : s.numberTexts.lookup number with
  | some id =>
      obtain ⟨before, after, hsplit, -⟩ := List.lookup_eq_some_iff.mp hlookup
      unfold Ends
      rw [numberText_of_kept hnumber hlookup]
      exact ⟨hs.numberTexts (number, id) (by simp [hsplit]), hlookup⟩
  | none =>
      unfold Ends
      rw [numberText_of_missing hnumber hlookup]
      rw [← Ends, ends_bind, ← size_ofText]
      refine Ends.mono (adding_allocateFlat hs (.ofText number.text) .young) ?_
        fun _ _ hfail => ⟨rfl, hfail⟩
      rintro id s₁ ⟨-, -, hp⟩
      exact ⟨⟨_, Heap.text_eq_ok.mpr hp.find⟩, by simp [Kept.withText]⟩

theorem Step.rooted_numberText (hvalue : s.HoldsValue value) :
    (Step.perform (.numberText value)).Rooted s where
  given id hid := hvalue id (by simpa [Step.handles, Operation.handles] using hid)
  plain object space := by simp

/-- The texts of numbers are given out as if there was no list of them. -/
structure Store.KeepsNumberTexts (s : Store) : Prop where
  limited : s.numberTexts.length ≤ 256
  distinct : (s.numberTexts.map Prod.fst).Nodup
  kept : ∀ number id, (number, id) ∈ s.numberTexts →
    s.heap.isLive id = true ∧ s.heap.NumberText number id
  given : ∀ value number, s.HoldsValue value → s.heap.number? value = .ok (some number) →
    Ends (StoreM.numberText value) s
      (fun id s' => s'.GivesText number id ∧
        ∀ steps s'' value', Step.Sparing steps s' s'' →
          s''.heap.number? value' = .ok (some number) →
          s''.heap.NumberText number id ∧
          StoreM.numberText value' s'' = .ok id { s'' with scope := s''.scope.push id })
      (fun e s' => s.numberTexts.lookup number = none ∧
        s.Refuses (flatBytes (Utf16.encode number.text).length) e s')

end ManagedHeap
