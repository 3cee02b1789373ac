import ManagedHeap.Proofs.Store.Runs
import ManagedHeap.Store.Allocation

/-!
# Looking at objects on the way

An operation looks up the objects that it is given before it does anything with them.  An
object that the store holds is found; if it is of another kind than the operation needs,
the operation fails and says so.  Each rule below takes a run past one such step, with what
the step has found out.
-/

namespace ManagedHeap

open Store

variable {β : Type} {R E : Store → Store → Prop} {s s' : Store} {id : Handle}
  {Q : β → Store → Prop}

theorem runs_find {g : Object → StoreM β} (hs : s'.Sound) (hid : s'.Holds id) (hfail : E s s')
    (hnext : ∀ o, s'.heap.find id = .ok o → RunsFrom R E s (g o) s' Q) :
    RunsFrom R E s (StoreM.inspect (·.find id) >>= g) s' Q := by
  refine runs_inspect ((reads_self (hs.find_ne_dead hid)).mono fun o ho => ?_) hfail
  exact hnext o ho

theorem runs_text {g : Text → StoreM β} (hs : s'.Sound) (hid : s'.Holds id) (hfail : E s s')
    (hnext : ∀ t, s'.heap.text id = .ok t → RunsFrom R E s (g t) s' Q) :
    RunsFrom R E s (StoreM.text id >>= g) s' Q := by
  refine runs_inspect ((hs.readable.reads_text hid).mono fun t ht => ?_) hfail
  exact hnext t ht

/-! ## Objects of a kind -/

theorem runs_context {g : Context → StoreM β} (hs : s'.Sound) (hid : s'.Holds id) (hfail : E s s')
    (hnext : ∀ c, s'.heap.find id = .ok (.context c) → RunsFrom R E s (g c) s' Q) :
    RunsFrom R E s (StoreM.context id >>= g) s' Q := by
  unfold StoreM.context
  rw [bind_assoc]
  apply runs_find hs hid hfail
  intro o ho
  cases o with
  | context c => exact hnext c ho
  | _ => exact ⟨by simp, Or.inr hfail⟩

theorem runs_closure {g : Closure → StoreM β} (hs : s'.Sound) (hid : s'.Holds id) (hfail : E s s')
    (hnext : ∀ c, s'.heap.find id = .ok (.closure c) → RunsFrom R E s (g c) s' Q) :
    RunsFrom R E s (StoreM.closure id >>= g) s' Q := by
  unfold StoreM.closure
  rw [bind_assoc]
  apply runs_find hs hid hfail
  intro o ho
  cases o with
  | closure c => exact hnext c ho
  | _ => exact ⟨by simp, Or.inr hfail⟩

theorem runs_shape {g : Shape → StoreM β} (hs : s'.Sound) (hid : s'.Holds id) (hfail : E s s')
    (hnext : ∀ layout, s'.heap.find id = .ok (.shape layout) → RunsFrom R E s (g layout) s' Q) :
    RunsFrom R E s (StoreM.shape id >>= g) s' Q := by
  unfold StoreM.shape
  rw [bind_assoc]
  apply runs_find hs hid hfail
  intro o ho
  cases o with
  | shape layout => exact hnext layout ho
  | _ => exact ⟨by simp, Or.inr hfail⟩

theorem runs_shapeCache {g : ShapeCache → StoreM β} (hs : s'.Sound) (hid : s'.Holds id)
    (hfail : E s s')
    (hnext : ∀ c, s'.heap.find id = .ok (.shapeCache c) → RunsFrom R E s (g c) s' Q) :
    RunsFrom R E s (StoreM.shapeCache id >>= g) s' Q := by
  unfold StoreM.shapeCache
  rw [bind_assoc]
  apply runs_find hs hid hfail
  intro o ho
  cases o with
  | shapeCache c => exact hnext c ho
  | _ => exact ⟨by simp, Or.inr hfail⟩

theorem runs_array {g : Array Value → StoreM β} (hs : s'.Sound) (hid : s'.Holds id) (hfail : E s s')
    (hnext : ∀ items, s'.heap.find id = .ok (.array items) → RunsFrom R E s (g items) s' Q) :
    RunsFrom R E s (StoreM.array id >>= g) s' Q := by
  unfold StoreM.array
  rw [bind_assoc]
  apply runs_find hs hid hfail
  intro o ho
  cases o with
  | array items => exact hnext items ho
  | _ => exact ⟨by simp, Or.inr hfail⟩

theorem runs_dictionary {g : Dictionary → StoreM β} (hs : s'.Sound) (hid : s'.Holds id)
    (hfail : E s s')
    (hnext : ∀ d, s'.heap.find id = .ok (.dictionary d) → RunsFrom R E s (g d) s' Q) :
    RunsFrom R E s (StoreM.dictionary id >>= g) s' Q := by
  unfold StoreM.dictionary
  rw [bind_assoc]
  apply runs_find hs hid hfail
  intro o ho
  cases o with
  | dictionary d => exact hnext d ho
  | _ => exact ⟨by simp, Or.inr hfail⟩

theorem run_context {x : Context} (hx : s.heap.find id = .ok (.context x)) :
    StoreM.context id s = .ok x s := by
  unfold StoreM.context
  rw [run_bind (run_inspect hx)]
  rfl

theorem run_shapeCache {t : ShapeCache} (ht : s.heap.find id = .ok (.shapeCache t)) :
    StoreM.shapeCache id s = .ok t s := by
  unfold StoreM.shapeCache
  rw [run_bind (run_inspect ht)]
  rfl

theorem run_shape {l : Shape} (hl : s.heap.find id = .ok (.shape l)) :
    StoreM.shape id s = .ok l s := by
  unfold StoreM.shape
  rw [run_bind (run_inspect hl)]
  rfl

/-! ## Limits -/

/-- A refusal that is no dead object. -/
theorem runs_unless {p : Prop} [Decidable p] {e : Fault} {g : PUnit → StoreM β}
    (he : e ≠ .deadObject) (hfail : E s s') (hnext : ¬ p → RunsFrom R E s (g ⟨⟩) s' Q) :
    RunsFrom R E s ((if p then throw e else pure ⟨⟩ : StoreM PUnit) >>= g) s' Q := by
  split
  case isTrue => exact ⟨he, Or.inr hfail⟩
  case isFalse hp => exact hnext hp

theorem runs_checkBuffer {bytes : Nat} {g : Unit → StoreM β} (hfail : E s s')
    (hnext : RunsFrom R E s (g ()) s' Q) :
    RunsFrom R E s (StoreM.checkBuffer bytes >>= g) s' Q :=
  runs_unless (by simp) hfail fun _ => hnext

theorem run_checkBuffer {s : Store} {bytes : Nat} (hfits : bytes < bufferLimit) :
    StoreM.checkBuffer bytes s = .ok () s := by
  rw [StoreM.checkBuffer, if_neg (Nat.not_le_of_lt hfits)]
  rfl

theorem runs_checkCount {count : Nat} {g : Unit → StoreM β} (hfail : E s s')
    (hnext : count < UInt32.size → RunsFrom R E s (g ()) s' Q) :
    RunsFrom R E s (StoreM.checkCount count >>= g) s' Q :=
  runs_unless (by simp) hfail fun hfits => hnext (Nat.lt_of_not_le hfits)

theorem run_checkCount {s : Store} {count : Nat} (hfits : count < UInt32.size) :
    StoreM.checkCount count s = .ok () s := by
  rw [StoreM.checkCount, if_neg (Nat.not_le_of_lt hfits)]
  rfl

theorem run_checkBuffer_refused {s : Store} {bytes : Nat} (hlarge : bufferLimit ≤ bytes) :
    StoreM.checkBuffer bytes s = .error .bufferTooLarge s := by
  rw [StoreM.checkBuffer, if_pos hlarge]
  rfl

end ManagedHeap
