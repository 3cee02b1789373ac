import ManagedHeap.Proofs.DegradedText

/-!
# A degraded error stays within its buffer

The buffer of a degraded error is filled in rounds: each takes a space and what fits of an
argument.  The space is written without a look at the room, and the rest is cut by a search
that goes back byte by byte, so neither the bound nor the end of the search is plain.

Both are matters of one round.  A round begins only if a byte is left, which is the byte of
the space (`size_push_le`), and what is appended after it never fails and takes the room that
is left at most (`exists_appendWithin_fits`).  By induction on the arguments the text stays
within the capacity, and only an argument that has no text can stop it
(`Heap.writes_appendValues`).

So there are two ways left in which a degraded error has no text, and neither is a matter of
cutting: its buffer cannot be made, or an argument refers to an object that is gone.
`Store.bounded_text` says that there are no others, and `not_bounded_text_always` shows both.
-/

namespace ManagedHeap

/-! ## One round -/

namespace Utf8

variable {capacity : Nat} {out : String}

theorem exists_appendWithin_fits (text : String) (hfits : out.utf8ByteSize ≤ capacity) :
    ∃ longer, appendWithin capacity out text = .ok longer ∧ longer.utf8ByteSize ≤ capacity := by
  obtain ⟨kept, hc, happend⟩ := exists_cuts_appendWithin capacity out text
  exact ⟨out ++ kept, happend, hc.size_append_le hfits⟩

/-- The space takes the one byte that is sure to be left. -/
theorem size_push_le (hroom : out.utf8ByteSize < capacity) :
    (out.push ' ').utf8ByteSize ≤ capacity :=
  calc (out.push ' ').utf8ByteSize
      = out.utf8ByteSize + 1 := String.utf8ByteSize_push
    _ ≤ capacity := hroom

end Utf8

/-! ## All rounds -/

namespace Heap

variable {h : Heap} {capacity : Nat} {rest : List Value} {r : Except Fault String}

/-- What becomes of writing values to a buffer: a text within its capacity, or the fault of a
value that has no text. -/
def Writes (h : Heap) (values : List Value) (capacity : Nat) : Except Fault String → Prop
  | .ok text => text.utf8ByteSize ≤ capacity
  | .error e => ∃ v ∈ values, h.display v = .error e

theorem Writes.cons (hr : h.Writes rest capacity r) (value : Value) :
    h.Writes (value :: rest) capacity r := by
  cases r with
  | ok text => exact hr
  | error e =>
      obtain ⟨v, hv, hfail⟩ := hr
      exact ⟨v, List.mem_cons_of_mem value hv, hfail⟩

theorem writes_appendValues (h : Heap) (values : List Value) {out : String}
    (hfits : out.utf8ByteSize ≤ capacity) :
    h.Writes values capacity (StoreM.appendValues h capacity values out) := by
  -- on the arguments: what a round leaves in the buffer is what the next one begins with
  induction values generalizing out with
  | nil => exact hfits
  | cons value rest ih =>
      unfold StoreM.appendValues
      split
      case isTrue => exact hfits
      case isFalse hroom =>
          cases hvalue : h.display value with
          | error e => exact ⟨value, List.mem_cons_self, hvalue⟩
          | ok shown =>
              obtain ⟨longer, happend, hlonger⟩ := Utf8.exists_appendWithin_fits shown
                (Utf8.size_push_le (Nat.lt_of_not_le hroom))
              rw [ok_bind, happend, ok_bind]
              exact (ih hlonger).cons value

end Heap

/-! ## Degraded errors -/

open Store

variable {s : Store} {values : Array Value}

/-- The text of a degraded error is within its buffer, unless there is no such buffer or an
argument has no text. -/
theorem ends_degradedText (message : String) (values : Array Value)
    (hsize : 2 ≤ s.config.errorBufferSize) :
    Ends (StoreM.degradedText message values) s
      (fun text s' => s' = s ∧ text.utf8ByteSize ≤ s.config.errorBufferSize - 1)
      fun e s' => s' = s ∧ (bufferLimit < s.config.errorBufferSize ∧ e = .bufferTooLarge ∨
        ∃ v ∈ values, s.heap.display v = .error e) := by
  unfold StoreM.degradedText
  rw [ends_bind, ends_get]
  simp only [if_neg (show ¬ s.config.errorBufferSize = 0 by omega)]
  by_cases hlimit : s.config.errorBufferSize ≤ bufferLimit
  · have hempty : "".utf8ByteSize ≤ s.config.errorBufferSize - 1 := Nat.zero_le _
    obtain ⟨out, happend, hfits⟩ := Utf8.exists_appendWithin_fits message hempty
    have hwrites := s.heap.writes_appendValues values.toList hfits
    rw [ends_bind_ok (run_checkBuffer (by omega)), ends_inspect, happend, ok_bind]
    refine ⟨fun text htext => ?_, fun e hfail => ?_⟩
    · rw [htext] at hwrites
      exact ⟨rfl, hwrites⟩
    · rw [hfail] at hwrites
      obtain ⟨v, hv, hshown⟩ := hwrites
      exact ⟨rfl, Or.inr ⟨v, by simpa using hv, hshown⟩⟩
  · unfold Ends
    rw [run_bind_error (run_checkBuffer_refused (by omega))]
    exact ⟨rfl, Or.inl ⟨Nat.lt_of_not_le hlimit, rfl⟩⟩

/-- Held values have texts, so all that a well-rooted store needs is a buffer that can be made. -/
theorem WellRooted.degradedText_ok (hs : WellRooted s) (message : String)
    (hvalues : ∀ v ∈ values, s.HoldsValue v) (hlimit : s.config.errorBufferSize ≤ bufferLimit) :
    ∃ text, StoreM.degradedText message values s = .ok text s ∧
      text.utf8ByteSize ≤ s.config.errorBufferSize - 1 := by
  obtain ⟨hready, hvalid⟩ := hs.ready
  have hends := ends_degradedText message values (Config.two_le_errorBufferSize hvalid)
  cases hrun : StoreM.degradedText message values s with
  | ok text s' =>
      obtain ⟨rfl, hfits⟩ := hends.of_ok hrun
      exact ⟨text, rfl, hfits⟩
  | error e s' =>
      obtain ⟨-, ⟨hlarge, -⟩ | ⟨v, hv, hfail⟩⟩ := hends.of_error hrun
      · exact absurd hlarge (Nat.not_lt_of_le hlimit)
      · obtain ⟨shown, hshown⟩ := hready.toSound.display_ok (hvalues v hv)
        simp [hshown] at hfail

/-- Appending to a buffer within its capacity never fails, and appends the longest beginning of
whole characters that keeps it there.  So the text of a degraded error is within its buffer,
whatever the message and the arguments are.  There is no such text only if the buffer cannot be
made or an argument has no text; in a well-rooted store every held argument has one. -/
theorem Store.bounded_text :
    (∀ (capacity : Nat) (out text : String), out.utf8ByteSize ≤ capacity →
      ∃ kept, Utf8.appendWithin capacity out text = .ok (out ++ kept) ∧
        Utf8.Cuts (capacity - out.utf8ByteSize) text kept ∧
        (out ++ kept).utf8ByteSize ≤ capacity) ∧
    ∀ (s : Store) (message : String) (values : Array Value), 2 ≤ s.config.errorBufferSize →
      Ends (StoreM.degradedText message values) s
        (fun text s' => s' = s ∧ text.toUTF8.IsValidUTF8 ∧
          text.toUTF8.size ≤ s.config.errorBufferSize - 1)
        (fun e s' => s' = s ∧ (bufferLimit < s.config.errorBufferSize ∧ e = .bufferTooLarge ∨
          ∃ v ∈ values, s.heap.display v = .error e)) ∧
      (WellRooted s → (∀ v ∈ values, s.HoldsValue v) →
        s.config.errorBufferSize ≤ bufferLimit →
        ∃ text, StoreM.degradedText message values s = .ok text s ∧
          text.toUTF8.size ≤ s.config.errorBufferSize - 1) := by
  refine ⟨fun capacity out text hfits => ?_, fun s message values hsize => ⟨?_, ?_⟩⟩
  · obtain ⟨kept, hc, happend⟩ := Utf8.exists_cuts_appendWithin capacity out text
    exact ⟨kept, happend, hc, hc.size_append_le hfits⟩
  · refine (ends_degradedText message values hsize).mono ?_ fun _ _ hfail => hfail
    rintro text s' ⟨hsame, hbound⟩
    exact ⟨hsame, text.isValidUTF8, hbound⟩
  · intro hs hvalues hlimit
    exact hs.degradedText_ok message hvalues hlimit

/-- A character of three bytes where one byte is left, and an argument of such characters. -/
theorem Store.bounded_text_cut : ∃ s : Store, WellRooted s ∧
    (∀ v ∈ #[Value.ref ⟨8⟩, .int 1], s.HoldsValue v) ∧ 2 ≤ s.config.errorBufferSize ∧
    s.config.errorBufferSize ≤ bufferLimit ∧ "ab".utf8ByteSize ≤ 5 ∧
    (∃ kept, Utf8.appendWithin 5 "ab" "π€" = .ok ("ab" ++ kept) ∧
      Utf8.Cuts (5 - "ab".utf8ByteSize) "π€" kept ∧ ("ab" ++ kept).utf8ByteSize ≤ 5) ∧
    Ends (StoreM.degradedText "abcdefghij" #[.ref ⟨8⟩, .int 1]) s
      (fun text s' => s' = s ∧ text.toUTF8.IsValidUTF8 ∧
        text.toUTF8.size ≤ s.config.errorBufferSize - 1)
      (fun e s' => s' = s ∧ (bufferLimit < s.config.errorBufferSize ∧ e = .bufferTooLarge ∨
        ∃ v ∈ #[Value.ref ⟨8⟩, .int 1], s.heap.display v = .error e)) ∧
    ∃ text, StoreM.degradedText "abcdefghij" #[.ref ⟨8⟩, .int 1] s = .ok text s ∧
      text.toUTF8.size ≤ s.config.errorBufferSize - 1 := by
  have hcheck : (((Store.create { errorBufferSize := 16 } none).toOption.bind
      (replay [.perform (.newText "π€😀" .young)])).any fun s =>
        s.isLiveRoot ⟨8⟩ && decide (s.config.errorBufferSize = 16)) = true := by
    decide +kernel
  obtain ⟨s, hs, hcheck⟩ := WellRooted.exists_replay hcheck
  simp only [Bool.and_eq_true, decide_eq_true_eq] at hcheck
  obtain ⟨hroot, hsize⟩ := hcheck
  have hvalues : ∀ v ∈ #[Value.ref ⟨8⟩, .int 1], s.HoldsValue v :=
    holdsValue_pair (holds_of_isLiveRoot hroot) rfl
  have htwo : 2 ≤ s.config.errorBufferSize := hsize ▸ (by decide)
  have hlimit : s.config.errorBufferSize ≤ bufferLimit := hsize ▸ (by decide)
  have hroom : "ab".utf8ByteSize ≤ 5 := by decide
  obtain ⟨happend, htexts⟩ := Store.bounded_text
  obtain ⟨hends, hok⟩ := htexts s "abcdefghij" #[.ref ⟨8⟩, .int 1] htwo
  exact ⟨s, hs, hvalues, htwo, hlimit, hroom, happend 5 "ab" "π€" hroom, hends,
    hok hs hvalues hlimit⟩

/-- A degraded error has no text if its buffer would have one byte too many, and none if its
argument was collected before. -/
theorem not_bounded_text_always :
    (¬ ∀ (s : Store) (message : String) (values : Array Value), WellRooted s →
      (∀ v ∈ values, s.HoldsValue v) → 2 ≤ s.config.errorBufferSize →
      ∃ text s', StoreM.degradedText message values s = .ok text s') ∧
    ¬ ∀ (s : Store) (message : String) (values : Array Value), WellRooted s →
      2 ≤ s.config.errorBufferSize → s.config.errorBufferSize ≤ bufferLimit →
      ∃ text s', StoreM.degradedText message values s = .ok text s' := by
  constructor
  · intro hall
    have hcheck : (((Store.create { errorBufferSize := bufferLimit + 1 } none).toOption.bind
        (replay [])).any fun s =>
          decide (2 ≤ s.config.errorBufferSize) &&
          decide (s.fault? (StoreM.degradedText "x" #[]) = some .bufferTooLarge)) = true := by
      decide +kernel
    obtain ⟨s, hs, hcheck⟩ := WellRooted.exists_replay hcheck
    simp only [Bool.and_eq_true, decide_eq_true_eq] at hcheck
    obtain ⟨hsize, hfault⟩ := hcheck
    obtain ⟨text, s', hrun⟩ := hall s "x" #[] hs (by simp) hsize
    simp [fault?_of_ok hrun] at hfault
  · intro hall
    have hcheck : (((Store.create { errorBufferSize := 3 } none).toOption.bind
        (replay [.perform (.newText "abc" .young), .closeScope ⟨0⟩,
          .perform (.collectGarbage .young)])).any fun s =>
            decide (s.config.errorBufferSize = 3) &&
            decide (s.fault? (StoreM.degradedText "x" #[.ref ⟨8⟩]) = some .deadObject)) = true := by
      decide +kernel
    obtain ⟨s, hs, hcheck⟩ := WellRooted.exists_replay hcheck
    simp only [Bool.and_eq_true, decide_eq_true_eq] at hcheck
    obtain ⟨hsize, hfault⟩ := hcheck
    obtain ⟨text, s', hrun⟩ := hall s "x" #[.ref ⟨8⟩] hs (hsize ▸ (by decide)) (hsize ▸ (by decide))
    simp [fault?_of_ok hrun] at hfault

end ManagedHeap
