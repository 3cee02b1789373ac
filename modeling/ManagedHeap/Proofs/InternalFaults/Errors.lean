import ManagedHeap.Proofs.DegradedText
import ManagedHeap.Proofs.InternalFaults.Objects

/-!
# Errors without internal faults

Whatever an error shows has a text, since it is held.  The text of a degraded error is written
into a buffer that has room for more than its terminator, as the configuration says.  Builtins
call each other to a limited depth, and the induction is on it.
-/

namespace ManagedHeap

open Store

variable {β : Type} {s : Store} {id message : Handle} {values : Array Value} {call : Invocation}

/-! ## Texts -/

theorem faultless_toText {g : String → StoreM β} (hs : s.Sound) (hid : s.Holds id)
    (hnext : ∀ text, Faultless (g text) s) : Faultless (StoreM.toText id >>= g) s := by
  unfold StoreM.toText
  rw [bind_assoc]
  cases htext : s.heap.text id with
  | ok t =>
      obtain ⟨units, hunits⟩ := hs.content_ok hid htext
      rw [faultless_inspect hunits]
      exact hnext _
  | error e =>
      obtain rfl := Heap.text_error (hs.find hid) htext
      unfold Faultless Ends
      rw [run_bind_error (run_inspect_error (Heap.content_error htext))]
      rfl

theorem faultless_degradedText {g : String → StoreM β} (hs : s.Sound)
    (hvalid : s.config.error? = none) (hvalues : ∀ v ∈ values, s.HoldsValue v) (text : String)
    (hnext : ∀ content, Faultless (g content) s) :
    Faultless (StoreM.degradedText text values >>= g) s := by
  obtain ⟨shown, hshown⟩ := hs.exists_shows values.toList
    fun v hv => hvalues v (by simpa using hv)
  have hrun := degradedText_eq hshown text (Config.two_le_errorBufferSize hvalid)
  unfold Faultless Ends
  split at hrun
  case isTrue =>
      rw [run_bind hrun]
      exact hnext _
  case isFalse =>
      rw [run_bind_error hrun]
      rfl

/-- The values of the arguments, which are none if the arguments are no array. -/
theorem Store.Sound.argumentValues_ok {arguments : Option Handle} (hs : s.Sound)
    (harguments : ∀ id, arguments = some id → s.Holds id) :
    ∃ values, s.heap.argumentValues arguments = .ok values ∧ ∀ v ∈ values, s.HoldsValue v := by
  suffices hok : ∃ values, s.heap.argumentValues arguments = .ok values by
    obtain ⟨values, hvalues⟩ := hok
    exact ⟨values, hvalues, (hs.readable.reads_argumentValues harguments).of_ok hvalues⟩
  unfold Heap.argumentValues
  cases arguments with
  | none => exact ⟨_, rfl⟩
  | some id =>
      obtain ⟨o, ho⟩ := hs.find (harguments id rfl)
      simp only
      rw [ho, ok_bind]
      split <;> exact ⟨_, rfl⟩

/-! ## Making errors -/

theorem faultless_newErrorObject (hs : s.Sound) (kind : ErrorKind) (message : Handle)
    (arguments : Option Handle) : Faultless (StoreM.newErrorObject kind message arguments) s :=
  faultless_allocate hs _ .young

theorem faultless_newDegradedError (hs : s.Sound) (kind : ErrorKind) (content : String) :
    Faultless (StoreM.newDegradedError kind content) s := by
  unfold StoreM.newDegradedError
  rw [faultless_get]
  simp only
  split
  case isTrue =>
      refine (faultless_allocateFlat hs _ .old).bind (runs_allocateFlat hs _ .old) ?_
      rintro message s₁ ⟨ha, -⟩
      exact faultless_allocate ha.sound _ .old
  case isFalse => exact faultless_allocate hs _ .old

theorem faultless_expandMessage (hs : s.Sound) (hc : s.HoldsCall call) :
    Faultless (StoreM.expandMessage call) s := by
  unfold StoreM.expandMessage
  apply faultless_toText hs hc.message
  intro template
  obtain ⟨values, hread, hvalues⟩ := hs.argumentValues_ok hc.arguments
  obtain ⟨content, hcontent⟩ := hs.fillTemplate_ok hvalues template.toList ""
  rw [faultless_inspect hread, faultless_inspect hcontent, faultless_get]
  split
  case isTrue => exact faultless_allocateFlat hs _ .young
  case isFalse => exact faultless_pure _ s

theorem faultless_sourceValue (hs : s.Sound) (call : Invocation) (source : Source) :
    Faultless (StoreM.sourceValue call source) s := by
  unfold StoreM.sourceValue
  split
  case h_1 => exact faultless_pure _ s
  case h_2 => exact faultless_pure _ s
  case h_3 => split <;> exact faultless_pure _ s
  case h_4 => exact (takes_internUnits hs _).faultless.map _

/-! ## Calls -/

/-- An error of a kind, where the builtins that are called have no internal fault. -/
theorem faultless_raiseWith {invoke : Builtin → Invocation → StoreM Completion} (hs : s.Ready)
    (hvalid : s.config.error? = none)
    (hinvoke : ∀ s builtin call, s.Ready → s.config.error? = none → s.HoldsCall call →
      Faultless (invoke builtin call) s)
    (kind : ErrorKind) (text : String) (hvalues : ∀ v ∈ values, s.HoldsValue v) :
    Faultless (StoreM.raiseWith invoke kind text values) s := by
  have hsound := hs.toSound
  unfold StoreM.raiseWith
  rw [faultless_get]
  split
  case h_1 =>
      apply faultless_degradedText hsound hvalid hvalues
      intro content
      exact (faultless_newDegradedError hsound kind content).map _
  case h_2 builtin _ =>
      refine (takes_internUnits hsound _).faultless.bind (runs_internText hsound text) ?_
      rintro message s₁ ⟨ha₁, hmessage⟩
      have hs₁ := ha₁.ready hs
      refine (faultless_newArray hs₁.toSound values .young).bind (runs_newArray hs₁
        (fun v hv => ha₁.holdsValue hsound (hvalues v hv)) .young) ?_
      rintro array s₂ ⟨ha₂, harray⟩
      have hconfig : s₂.config = s.config := ha₂.config.trans ha₁.config
      refine hinvoke s₂ builtin _ (ha₂.ready hs₁) (hconfig ▸ hvalid)
        ⟨ha₂.holds hs₁.toSound hmessage.holds, fun j hj => ?_⟩
      cases hj
      exact harray

theorem faultless_invoke (depth : Nat) (hs : s.Ready) (hvalid : s.config.error? = none)
    (builtin : Builtin) (hc : s.HoldsCall call) :
    Faultless (StoreM.invoke depth builtin call) s := by
  have hsound := hs.toSound
  -- on the depth of calls: an inner call begins in the store that the outer one has left
  induction depth generalizing s builtin call with
  | zero => exact faultless_throw rfl
  | succ depth ih =>
      unfold StoreM.invoke
      cases builtin with
      | expand =>
          refine (faultless_expandMessage hsound hc).bind (runs_expandMessage hsound hc) ?_
          rintro message s₁ ⟨ha, -⟩
          exact (faultless_newErrorObject ha.sound call.kind message call.arguments).map _
      | construct => exact (faultless_newErrorObject hsound call.kind call.message none).map _
      | answer throws source => exact (faultless_sourceValue hsound call source).map _
      | nest kind template =>
          refine faultless_raiseWith hs hvalid (fun s builtin call hs hvalid hc =>
            ih hs hvalid builtin hc hs.toSound) kind template ?_
          simpa using holdsValue_ref hc.message
      | delegate name passMessage fallback =>
          simp only
          rw [faultless_get]
          split
          case h_1 builtin _ =>
              refine ih hs hvalid builtin ⟨hc.message, fun j hj => ?_⟩ hsound
              cases passMessage with
              | false => simp at hj
              | true =>
                  obtain rfl : call.message = j := by simpa using hj
                  exact hc.message
          case h_2 => exact faultless_pure _ s

theorem faultless_call (hs : s.Ready) (hvalid : s.config.error? = none) (builtin : Builtin)
    (hc : s.HoldsCall call) : Faultless (StoreM.call builtin call) s :=
  faultless_get.mpr (faultless_invoke _ hs hvalid builtin hc)

theorem faultless_raise (hs : s.Ready) (hvalid : s.config.error? = none) (kind : ErrorKind)
    (text : String) (hvalues : ∀ v ∈ values, s.HoldsValue v) :
    Faultless (StoreM.raise kind text values) s :=
  faultless_raiseWith hs hvalid (fun _ builtin _ hs hvalid hc =>
    faultless_call hs hvalid builtin hc) kind text hvalues

theorem faultless_raiseMessage (hs : s.Ready) (hvalid : s.config.error? = none)
    (kind : ErrorKind) (hmessage : s.Holds message) :
    Faultless (StoreM.raiseMessage kind message) s := by
  have hsound := hs.toSound
  unfold StoreM.raiseMessage
  rw [faultless_get]
  split
  case h_1 =>
      apply faultless_toText hsound hmessage
      intro text
      apply faultless_degradedText hsound hvalid (by simp)
      intro content
      exact (faultless_newDegradedError hsound kind content).map _
  case h_2 builtin _ => exact faultless_call hs hvalid builtin ⟨hmessage, by simp⟩

end ManagedHeap
