import ManagedHeap.Proofs.Store.Steady
import ManagedHeap.Proofs.Store.Values
import ManagedHeap.Proofs.Text.Boundaries
import ManagedHeap.Store.Errors

/-!
# Errors

Making an error adds to the store, whichever builtins are called on the way.  The calls are
bounded by a depth, and the induction is on it: what a builtin is called with is held, and
so is what it calls others with.

What a builtin answers with is held, too, if it is made of these.  Some builtins answer with
values of their own, and nothing but their installer can see to it that these are held
(`Store.HoldsAnswers`).  Which builtins are installed does not change on the way.
-/

namespace ManagedHeap

/-- The values that a builtin may answer with whatever it is called with. -/
def Builtin.constants : Builtin → List Value
  | .answer _ (.constant value) => [value]
  | .delegate _ _ fallback => [fallback]
  | _ => []

namespace Store

variable {s s' : Store} {builtin : Builtin}

/-- What a builtin is called with is held. -/
structure HoldsCall (s : Store) (call : Invocation) : Prop where
  message : s.Holds call.message
  arguments : ∀ id, call.arguments = some id → s.Holds id

/-- The values of its own that a builtin may answer with are held. -/
def HoldsConstants (s : Store) (builtin : Builtin) : Prop :=
  ∀ v ∈ builtin.constants, s.HoldsValue v

/-- The values of their own that installed builtins may answer with are held. -/
def HoldsAnswers (s : Store) : Prop :=
  ∀ name builtin, s.builtins.find? name = some builtin → s.HoldsConstants builtin

theorem HoldsConstants.of_adds (hc : s.HoldsConstants builtin) (hs : s.Sound) (ha : s.Adds s') :
    s'.HoldsConstants builtin :=
  fun v hv => ha.holdsValue hs (hc v hv)

theorem HoldsAnswers.of_adds (hc : s.HoldsAnswers) (hs : s.Sound) (ha : s.Adds s')
    (hsame : s'.builtins = s.builtins) : s'.HoldsAnswers :=
  fun name builtin hfound => (hc name builtin (hsame ▸ hfound)).of_adds hs ha

end Store

/-- A run of a computation that leaves the builtins alone. -/
theorem RunsFrom.steady {α : Type} {R E : Store → Store → Prop} {s s' : Store} {m : StoreM α}
    {Q : α → Store → Prop} (h : RunsFrom R E s m s' Q) (hm : Steady Store.builtins m) :
    RunsFrom R E s m s' fun a s'' => Q a s'' ∧ s''.builtins = s'.builtins :=
  (Ends.and h (hm s')).mono (fun _ _ hend => ⟨hend.1.1, hend.1.2, hend.2⟩)
    fun _ _ hfail => hfail.1

open Store

variable {s s' : Store} {message : Handle} {arguments : Option Handle} {values : Array Value}
  {call : Invocation}

theorem Store.HoldsCall.of_adds (hc : s.HoldsCall call) (hs : s.Sound) (ha : s.Adds s') :
    s'.HoldsCall call :=
  ⟨ha.holds hs hc.message, fun id hid => ha.holds hs (hc.arguments id hid)⟩

theorem runs_newErrorObject (hs : s.Sound) (kind : ErrorKind) (hmessage : s.Holds message)
    (harguments : ∀ id, arguments = some id → s.Holds id) :
    Runs Adds (StoreM.newErrorObject kind message arguments) s (fun id s' => s'.Holds id) := by
  refine (runs_place hs .young (fun j hj => ?_) (by simp)).adds.weaken fun _ _ _ hp => hp.holds
  rcases List.mem_append.mp hj with hj | hj
  · obtain rfl : j = message := by simpa using hj
    exact hmessage
  · exact harguments j (by simpa using hj)

/-! ## Messages -/

theorem Heap.Readable.reads_appendValues {h : Heap} {config : Config} {held : Handle → Prop}
    (hr : h.Readable config held) {list : List Value} (hvalues : ∀ v ∈ list, Heap.HeldValue held v)
    (capacity : Nat) (out : String) :
    Reads (StoreM.appendValues h capacity list out) fun _ => True := by
  induction list generalizing out with
  | nil => trivial
  | cons value rest ih =>
      unfold StoreM.appendValues
      split
      case isTrue => trivial
      case isFalse =>
          simp only [reads_bind]
          apply (hr.reads_display (hvalues value (by simp))).mono
          intro shown _
          rw [Utf8.appendWithin_eq]
          exact ih (fun v hv => hvalues v (by simp [hv])) _

theorem runs_degradedText (hs : s.Sound) (hvalues : ∀ v ∈ values, s.HoldsValue v)
    (text : String) :
    RunsFrom Adds Rests s (StoreM.degradedText text values) s (fun _ s' => s' = s) := by
  unfold StoreM.degradedText
  apply runs_get.mpr
  simp only
  split
  case isTrue => exact ⟨by simp, Or.inr (.refl hs)⟩
  case isFalse =>
      refine runs_checkBuffer (.refl hs) (runs_inspect_end ?_ (.refl hs))
      rw [Utf8.appendWithin_eq, ok_bind]
      exact (hs.readable.reads_appendValues (by simpa using hvalues) _ _).mono fun _ _ =>
        ⟨.refl hs, rfl⟩

/-- The error without a builtin, once its message is there. -/
theorem runs_placeDegraded (hs : s.Sound) (kind : ErrorKind) (hmessage : s.Holds message) :
    Runs Adds (StoreM.allocate (.error ⟨kind, message, none, true⟩) .old) s
      (fun id s' => s'.Holds id) := by
  refine (runs_place hs .old (fun j hj => ?_) (by simp)).adds.weaken fun _ _ _ hp => hp.holds
  obtain rfl : j = message := by simpa [Object.children] using hj
  exact hmessage

theorem runs_newDegradedError (hs : s.Ready) (kind : ErrorKind) (content : String) :
    Runs Adds (StoreM.newDegradedError kind content) s (fun id s' => s'.Holds id) := by
  unfold StoreM.newDegradedError
  apply runs_get.mpr
  simp only
  split
  case isTrue =>
      apply (runs_allocateFlat hs.toSound _ .old).adds.bind
      intro message s₁ ha hp
      exact (runs_placeDegraded ha.sound kind hp.holds).then (fun _ => ha.trans hs.toSound)
        fun id s' hlast hid => ⟨ha.trans hs.toSound hlast, hid⟩
  case isFalse =>
      exact runs_placeDegraded hs.toSound kind (hs.holds_canonical (by simp [Canonical.toList]))

theorem runs_toText {β : Type} {R E : Store → Store → Prop} {s₀ : Store} {id : Handle}
    {g : String → StoreM β} {Q : β → Store → Prop} (hs : s.Sound) (hid : s.Holds id)
    (hfail : E s₀ s) (hnext : ∀ text, RunsFrom R E s₀ (g text) s Q) :
    RunsFrom R E s₀ (StoreM.toText id >>= g) s Q := by
  unfold StoreM.toText
  rw [bind_assoc]
  exact runs_inspect ((hs.readable.reads_content hid).mono fun units _ => hnext _) hfail

theorem runs_expandMessage (hs : s.Sound) (hc : s.HoldsCall call) :
    Runs Adds (StoreM.expandMessage call) s (fun id s' => s'.Holds id) := by
  unfold StoreM.expandMessage
  apply runs_toText hs hc.message (.refl hs)
  intro template
  refine runs_inspect ((hs.readable.reads_argumentValues hc.arguments).mono
    fun values hvalues => ?_) (.refl hs)
  refine runs_inspect ((hs.readable.reads_fillTemplate hvalues _ _).mono fun content _ => ?_)
    (.refl hs)
  apply runs_get.mpr
  split
  case isTrue => exact (runs_allocateFlat hs _ .young).adds.weaken fun _ _ _ hp => hp.holds
  case isFalse => exact ⟨.refl hs, hc.message⟩

theorem runs_sourceValue (hs : s.Sound) (hc : s.HoldsCall call) (source : Source) :
    Runs Adds (StoreM.sourceValue call source) s (fun value s' =>
      (∀ v, source = .constant v → s.HoldsValue v) → s'.HoldsValue value) := by
  have hrefl : s.Adds s := .refl hs
  unfold StoreM.sourceValue
  split
  case h_1 value => exact ⟨hrefl, fun hconstant => hconstant value rfl⟩
  case h_2 => exact ⟨hrefl, fun _ => holdsValue_ref hc.message⟩
  case h_3 =>
      split
      case h_1 id hid => exact ⟨hrefl, fun _ => holdsValue_ref (hc.arguments id hid)⟩
      case h_2 => exact ⟨hrefl, fun _ => holdsValue_of_none rfl⟩
  case h_4 =>
      exact (runs_internText hs _).adds.bind fun _ _ ha hi => ⟨ha, fun _ => holdsValue_ref hi.holds⟩

/-! ## Calls -/

/-- Making a degraded error, once its text is there. -/
theorem runs_degraded (hs : s.Ready) (kind : ErrorKind) (content : String) :
    Runs Adds (do return (⟨false, .ref (← StoreM.newDegradedError kind content)⟩ : Completion)) s
      (fun c s' => s'.HoldsValue c.value) :=
  (runs_newDegradedError hs kind content).bind fun _ _ ha hid => ⟨ha, holdsValue_ref hid⟩

/-- An error of a kind, where the builtins that are called add to the store. -/
theorem runs_raiseWith {invoke : Builtin → Invocation → StoreM Completion} (hs : s.Ready)
    (hinvoke : ∀ s builtin call, s.Ready → s.HoldsCall call →
      Runs Adds (invoke builtin call) s (fun c s' =>
        s.HoldsAnswers → s.HoldsConstants builtin → s'.HoldsValue c.value))
    (kind : ErrorKind) (text : String) (hvalues : ∀ v ∈ values, s.HoldsValue v) :
    Runs Adds (StoreM.raiseWith invoke kind text values) s
      (fun c s' => s.HoldsAnswers → s'.HoldsValue c.value) := by
  unfold StoreM.raiseWith
  apply runs_get.mpr
  split
  case h_1 =>
      apply RunsFrom.call (runs_degradedText hs.toSound hvalues text) (fun _ hr => hr.adds)
      rintro content s₁ - hsame
      obtain rfl : s = s₁ := hsame.symm
      exact (runs_degraded hs kind content).weaken fun _ _ _ hvalue _ => hvalue
  case h_2 builtin hbuiltin =>
      -- the message is held in the scope while the array is made, and both are while the builtin
      -- runs
      apply ((runs_internText hs.toSound text).steady (steady_internUnits _)).adds.bind
      intro message s₁ ha₁ hend
      obtain ⟨hmessage, hsame₁⟩ := hend
      have hs₁ := ha₁.ready hs
      apply RunsFrom.call ((runs_newArray hs₁
        (fun v hv => ha₁.holdsValue hs.toSound (hvalues v hv)) .young).steady
          (steady_newArray _ _)) (fun _ => ha₁.trans hs.toSound)
      intro array s₂ ha₂ hend
      obtain ⟨harray, hsame₂⟩ := hend
      have ha : s.Adds s₂ := ha₁.trans hs.toSound ha₂
      refine (hinvoke s₂ builtin _ (ha.ready hs) ⟨ha₂.holds hs₁.toSound hmessage.holds, ?_⟩).then
        (fun _ => ha.trans hs.toSound) fun _ _ hlast hvalue => ⟨ha.trans hs.toSound hlast, ?_⟩
      · intro j hj
        cases hj
        exact harray
      · intro hanswers
        exact hvalue (hanswers.of_adds hs.toSound ha (hsame₂.trans hsame₁))
          ((hanswers _ builtin hbuiltin).of_adds hs.toSound ha)

theorem runs_invoke (depth : Nat) (hs : s.Ready) (builtin : Builtin) (hc : s.HoldsCall call) :
    Runs Adds (StoreM.invoke depth builtin call) s (fun c s' =>
      s.HoldsAnswers → s.HoldsConstants builtin → s'.HoldsValue c.value) := by
  have hrefl : s.Adds s := .refl hs.toSound
  -- on the depth of calls: an inner call begins in the store that the outer one has left
  induction depth generalizing s builtin call with
  | zero => exact ⟨by simp, Or.inr hrefl⟩
  | succ depth ih =>
      unfold StoreM.invoke
      cases builtin with
      | expand =>
          apply (runs_expandMessage hs.toSound hc).bind
          intro message s₁ ha hmessage
          refine RunsFrom.call (runs_newErrorObject ha.sound call.kind hmessage
            (hc.of_adds hs.toSound ha).arguments) (fun _ => ha.trans hs.toSound)
            fun id s₂ hlast hid => ⟨ha.trans hs.toSound hlast, fun _ _ => holdsValue_ref hid⟩
      | construct =>
          exact (runs_newErrorObject hs.toSound call.kind hc.message (by simp)).bind
            fun _ _ ha hid => ⟨ha, fun _ _ => holdsValue_ref hid⟩
      | answer throws source =>
          refine (runs_sourceValue hs.toSound hc source).bind fun _ _ ha hvalue =>
            ⟨ha, fun _ hconstants => hvalue fun v hv => hconstants v ?_⟩
          subst hv
          exact List.mem_singleton_self v
      | nest kind template =>
          refine (runs_raiseWith hs (fun s builtin call hs hc => ih hs builtin hc
            (.refl hs.toSound)) kind template ?_).weaken fun _ _ _ hvalue hanswers _ =>
              hvalue hanswers
          simpa using holdsValue_ref hc.message
      | delegate name passMessage fallback =>
          apply runs_get.mpr
          split
          case h_1 builtin hbuiltin =>
              have hcall : s.HoldsCall ⟨call.kind, call.message,
                  if passMessage then some call.message else none⟩ := by
                refine ⟨hc.message, fun j hj => ?_⟩
                cases passMessage with
                | false => simp at hj
                | true =>
                    obtain rfl : call.message = j := by simpa using hj
                    exact hc.message
              exact (ih hs builtin hcall hrefl).weaken fun _ _ _ hvalue hanswers _ =>
                hvalue hanswers (hanswers name builtin hbuiltin)
          case h_2 =>
              exact ⟨hrefl, fun _ hconstants => hconstants fallback (List.mem_singleton_self _)⟩

theorem runs_call (hs : s.Ready) (builtin : Builtin) (hc : s.HoldsCall call) :
    Runs Adds (StoreM.call builtin call) s (fun c s' =>
      s.HoldsAnswers → s.HoldsConstants builtin → s'.HoldsValue c.value) :=
  runs_get.mpr (runs_invoke _ hs builtin hc)

theorem runs_raise (hs : s.Ready) (kind : ErrorKind) (text : String)
    (hvalues : ∀ v ∈ values, s.HoldsValue v) :
    Runs Adds (StoreM.raise kind text values) s
      (fun c s' => s.HoldsAnswers → s'.HoldsValue c.value) :=
  runs_raiseWith hs (fun _ builtin _ hs hc => runs_call hs builtin hc) kind text hvalues

theorem runs_raiseMessage (hs : s.Ready) (kind : ErrorKind) (hmessage : s.Holds message) :
    Runs Adds (StoreM.raiseMessage kind message) s
      (fun c s' => s.HoldsAnswers → s'.HoldsValue c.value) := by
  have hrefl : s.Adds s := .refl hs.toSound
  unfold StoreM.raiseMessage
  apply runs_get.mpr
  split
  case h_1 =>
      apply runs_toText hs.toSound hmessage hrefl
      intro text
      apply RunsFrom.call (runs_degradedText hs.toSound (by simp) text) (fun _ hr => hr.adds)
      rintro content s₁ - hsame
      obtain rfl : s = s₁ := hsame.symm
      exact (runs_degraded hs kind content).weaken fun _ _ _ hvalue _ => hvalue
  case h_2 builtin hbuiltin =>
      exact (runs_call hs builtin ⟨hmessage, by simp⟩).weaken fun _ _ _ hvalue hanswers =>
        hvalue hanswers (hanswers _ builtin hbuiltin)

end ManagedHeap
