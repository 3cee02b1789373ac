import ManagedHeap.Proofs.Store.Answers
import ManagedHeap.Proofs.Text.Boundaries
import ManagedHeap.Proofs.WellRooted

/-!
# The text of a degraded error

An error without its builtin shows its message and its arguments, with a space before each
argument, in a buffer of limited size.  In a well-rooted store every argument has a text, so
there always is a result, unless no buffer can be as large as the configured one.

The text would be a plain truncation of the whole if the buffer were filled at once.  It is
filled piece by piece, and whether it is full is asked before each piece only.  A character
of several bytes that is cut off can leave room for the space before the next argument, and
for what fits of that argument.  `WellRooted.degraded_text` says when this happens;
`not_cut_of_degraded` is the shortest case of it.
-/

namespace ManagedHeap

namespace Heap

variable {h : Heap} {values : List Value} {shown : List String}

/-- The texts of some values. -/
def Shows (h : Heap) (values : List Value) (shown : List String) : Prop :=
  List.Forall₂ (fun value text => h.display value = .ok text) values shown

theorem Shows.appendValues_eq (hshown : h.Shows values shown) (capacity : Nat) (out : String) :
    StoreM.appendValues h capacity values out = .ok (Utf8.appendPieces capacity shown out) := by
  induction hshown generalizing out with
  | nil => rfl
  | cons hvalue _ ih =>
      unfold StoreM.appendValues Utf8.appendPieces
      split
      case isTrue => rfl
      case isFalse =>
          rw [hvalue, ok_bind, Utf8.appendWithin_eq, ok_bind]
          exact ih _

end Heap

open Store

variable {s : Store} {values : Array Value}

/-- Every list of held values can be shown. -/
theorem Store.Sound.exists_shows (hs : s.Sound) (list : List Value)
    (hvalues : ∀ v ∈ list, s.HoldsValue v) : ∃ shown, s.heap.Shows list shown := by
  induction list with
  | nil => exact ⟨[], .nil⟩
  | cons value rest ih =>
      obtain ⟨text, htext⟩ := hs.display_ok (hvalues value (by simp))
      obtain ⟨shown, hshown⟩ := ih fun v hv => hvalues v (by simp [hv])
      exact ⟨text :: shown, .cons htext hshown⟩

/-- The text of a degraded error from the texts of its arguments. -/
theorem degradedText_eq {shown : List String} (hshown : s.heap.Shows values.toList shown)
    (message : String) (hsize : 2 ≤ s.config.errorBufferSize) :
    StoreM.degradedText message values s =
      if s.config.errorBufferSize ≤ bufferLimit then
        .ok (Utf8.appendPieces (s.config.errorBufferSize - 1) shown
          (Utf8.fillWithin (s.config.errorBufferSize - 1) "" message)) s
      else .error .bufferTooLarge s := by
  have hinspect := hshown.appendValues_eq (s.config.errorBufferSize - 1)
    (Utf8.fillWithin (s.config.errorBufferSize - 1) "" message)
  have hget : (get : StoreM Store) s = .ok s s := rfl
  unfold StoreM.degradedText
  rw [run_bind hget]
  simp only [if_neg (show ¬ s.config.errorBufferSize = 0 by omega)]
  split
  case isTrue hlimit =>
      rw [run_bind (run_checkBuffer (by omega))]
      refine run_inspect ?_
      rw [Utf8.appendWithin_eq, ok_bind]
      exact hinspect
  case isFalse hlimit =>
      rw [run_bind_error (run_checkBuffer_refused (by omega))]

/-- A degraded error shows a text within its buffer that begins with the longest beginning of
the whole text that fits: the message, then a space and the text of each argument.  The text
is that beginning exactly if all but the last of these pieces fit, or it fills the buffer.
The store is left alone, and raising an error without a builtin places this text. -/
theorem WellRooted.degraded_text (hs : WellRooted s) (message : String)
    (hvalues : ∀ v ∈ values, s.HoldsValue v) :
    2 ≤ s.config.errorBufferSize ∧ ∃ shown, s.heap.Shows values.toList shown ∧ ∃ text cut,
      Utf8.Truncates (s.config.errorBufferSize - 1) (message :: shown) text cut ∧
      StoreM.degradedText message values s =
        (if s.config.errorBufferSize ≤ bufferLimit then .ok text s
          else .error .bufferTooLarge s) ∧
      (s.config.errorBufferSize ≤ bufferLimit → ∀ kind : ErrorKind,
        s.builtins.find? kind.makerName = none → StoreM.raise kind message values s =
          (do return ⟨false, .ref (← StoreM.newDegradedError kind text)⟩ : StoreM Completion) s) := by
  obtain ⟨hready, hvalid⟩ := hs.ready
  have hsize : 2 ≤ s.config.errorBufferSize := Config.two_le_errorBufferSize hvalid
  obtain ⟨shown, hshown⟩ := hready.toSound.exists_shows values.toList
    fun v hv => hvalues v (by simpa using hv)
  obtain ⟨cut, htruncates⟩ := Utf8.truncates_pieces (s.config.errorBufferSize - 1) message shown
  have hrun := degradedText_eq hshown message hsize
  refine ⟨hsize, shown, hshown, _, cut, htruncates, hrun, fun hlimit kind hnone => ?_⟩
  rw [if_pos hlimit] at hrun
  have hget : (get : StoreM Store) s = .ok s s := rfl
  -- without a maker the text is all that is made of the message and the arguments
  unfold StoreM.raise StoreM.raiseWith
  rw [run_bind hget]
  simp only [hnone]
  exact run_bind hrun

/-- An argument that is cut off in the middle, and one after it. -/
theorem WellRooted.degraded_text_cut : ∃ s : Store, WellRooted s ∧
    (∀ v ∈ #[Value.ref ⟨8⟩, .int 1], s.HoldsValue v) ∧
    2 ≤ s.config.errorBufferSize ∧
    ∃ shown, s.heap.Shows #[Value.ref ⟨8⟩, .int 1].toList shown ∧ ∃ text cut,
      Utf8.Truncates (s.config.errorBufferSize - 1) ("abcdefghij" :: shown) text cut ∧
      StoreM.degradedText "abcdefghij" #[.ref ⟨8⟩, .int 1] s =
        (if s.config.errorBufferSize ≤ bufferLimit then .ok text s
          else .error .bufferTooLarge s) ∧
      (s.config.errorBufferSize ≤ bufferLimit → ∀ kind : ErrorKind,
        s.builtins.find? kind.makerName = none →
        StoreM.raise kind "abcdefghij" #[.ref ⟨8⟩, .int 1] s =
          (do return ⟨false, .ref (← StoreM.newDegradedError kind text)⟩ : StoreM Completion) s) := by
  have hcheck : (((Store.create { errorBufferSize := 16 } none).toOption.bind
      (replay [.perform (.newText "klmnopqrstuvwxyz" .young)])).any fun s =>
        s.isLiveRoot ⟨8⟩) = true := by
    decide +kernel
  obtain ⟨s, hs, hroot⟩ := WellRooted.exists_replay hcheck
  have hvalues : ∀ v ∈ #[Value.ref ⟨8⟩, .int 1], s.HoldsValue v :=
    holdsValue_pair (holds_of_isLiveRoot hroot) rfl
  exact ⟨s, hs, hvalues, hs.degraded_text "abcdefghij" hvalues⟩

/-- A buffer of three bytes takes the first of two characters, which leaves room for the space
before the argument. -/
theorem not_cut_of_degraded : ¬ ∀ (s s' : Store) (message : String) (values : Array Value)
    (shown : List String) (text : String), WellRooted s → (∀ v ∈ values, s.HoldsValue v) →
    s.heap.Shows values.toList shown → StoreM.degradedText message values s = .ok text s' →
    Utf8.Cuts (s.config.errorBufferSize - 1) (" ".intercalate (message :: shown)) text := by
  intro hcuts
  have hcheck : (((Store.create { errorBufferSize := 4 } none).toOption.bind (replay [])).any
      fun s => (s.result? (StoreM.degradedText "é€" #[.int 1])).any fun result =>
        decide (result.1 = "é ")) = true := by
    decide +kernel
  obtain ⟨s, hs, hcheck⟩ := WellRooted.exists_replay hcheck
  rw [Option.any_eq_true] at hcheck
  obtain ⟨⟨text, s'⟩, hresult, htext⟩ := hcheck
  obtain rfl : text = "é " := of_decide_eq_true htext
  have hvalues : ∀ v ∈ #[Value.int 1], s.HoldsValue v := by
    intro v hv
    obtain rfl : v = .int 1 := by simpa using hv
    exact holdsValue_of_none rfl
  have hshown : s.heap.Shows #[Value.int 1].toList ["1"] := .cons rfl .nil
  have hcut := hcuts s s' "é€" #[.int 1] ["1"] "é " hs hvalues hshown (ok_of_result? hresult)
  exact absurd hcut.begins (by decide)

end ManagedHeap
