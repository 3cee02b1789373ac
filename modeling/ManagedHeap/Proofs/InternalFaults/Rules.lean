import ManagedHeap.Proofs.Store.Answers

/-!
# Faults that no caller can cause

Most faults tell a caller that an argument was refused or that there was no place for an
object.  The others tell of a mistake in the library itself: a buffer was expected where there
is none, a range goes past the end of a buffer, a unit does not fit the encoding that was
chosen for it, a cache is no cache.  They are internal (`Fault.isInternal`).

`Faultless m s` says that a computation does not end with one of them when it starts in the
store `s`.  What its steps find depends on the steps before, so a step is followed at the
stores that it is known to lead to (`Faultless.bind`).
-/

namespace ManagedHeap

/-- Whether a fault tells of a mistake in the library. -/
def Fault.isInternal : Fault → Bool
  | .operandWithoutBuffer _ => true
  | .hashWithoutBuffer _ => true
  | .internWithoutBuffer => true
  | .unreachable => true
  | .notAShapeCache _ => true
  | .outOfRange => true
  | .unitTooWide => true
  | .bufferTooSmall => true
  | _ => false

/-- The computation does not end with an internal fault. -/
def Faultless {α : Type} (m : StoreM α) (s : Store) : Prop :=
  Ends m s (fun _ _ => True) fun e _ => e.isInternal = false

open Store

variable {α β : Type} {s : Store} {id : Handle} {m : StoreM α} {ok : α → Store → Prop}
  {fail : Fault → Store → Prop} {bytes : Nat}

/-! ## The rules -/

theorem Faultless.of_ends (hm : Ends m s ok fail)
    (hfail : ∀ e s', fail e s' → e.isInternal = false) : Faultless m s :=
  hm.mono (fun _ _ _ => trivial) hfail

theorem Faultless.bind {f : α → StoreM β} (hm : Faultless m s) (hends : Ends m s ok fail)
    (hnext : ∀ a s', ok a s' → Faultless (f a) s') : Faultless (m >>= f) s := by
  unfold Faultless
  rw [ends_bind]
  exact (hm.and hends).mono (fun a s' hend => hnext a s' hend.2) fun _ _ hfail => hfail.1

/-- A step after which nothing can go wrong. -/
theorem Faultless.last {f : α → StoreM β} (hm : Faultless m s)
    (hnext : ∀ a s', Faultless (f a) s') : Faultless (m >>= f) s :=
  hm.bind (ends_self m s) fun a s' _ => hnext a s'

theorem faultless_pure (a : α) (s : Store) : Faultless (pure a : StoreM α) s :=
  trivial

/-- What is made of a result at the end. -/
theorem Faultless.map (hm : Faultless m s) (f : α → β) :
    Faultless (do return f (← m)) s :=
  hm.last fun a s' => faultless_pure (f a) s'

/-- A change of the store that is no deed of the heap. -/
theorem faultless_update (f : Store → Store) (a : α) (s : Store) :
    Faultless (do modify f; return a) s :=
  trivial

theorem faultless_throw {e : Fault} (he : e.isInternal = false) :
    Faultless (throw e : StoreM α) s :=
  he

theorem faultless_get {g : Store → StoreM β} :
    Faultless (get >>= g) s ↔ Faultless (g s) s :=
  Iff.rfl

theorem faultless_modify {f : Store → Store} {g : PUnit → StoreM β} :
    Faultless (modify f >>= g) s ↔ Faultless (g ⟨⟩) (f s) :=
  Iff.rfl

theorem faultless_inspect {f : Heap → Except Fault α} {g : α → StoreM β} {a : α}
    (hf : f s.heap = .ok a) : Faultless (StoreM.inspect f >>= g) s ↔ Faultless (g a) s := by
  unfold Faultless
  rw [ends_bind, ends_inspect_ok hf]

/-- A refusal that is the fault of the caller. -/
theorem faultless_unless {p : Prop} [Decidable p] {e : Fault} {g : PUnit → StoreM β}
    (he : e.isInternal = false) (hnext : ¬ p → Faultless (g ⟨⟩) s) :
    Faultless ((if p then throw e else pure ⟨⟩ : StoreM PUnit) >>= g) s := by
  split
  case isTrue => exact he
  case isFalse hp => exact hnext hp

theorem faultless_checkBuffer {g : Unit → StoreM β} (hnext : Faultless (g ()) s) :
    Faultless (StoreM.checkBuffer bytes >>= g) s :=
  faultless_unless rfl fun _ => hnext

/-! ## Placing objects -/

theorem Store.Refuses.isInternal {e : Fault} {s' : Store} (hr : s.Refuses bytes e s') :
    e.isInternal = false := by
  cases hr <;> rfl

/-- What can only be refused a place has no internal fault. -/
theorem Takes.faultless (hm : Takes bytes m s) : Faultless m s :=
  Faultless.of_ends hm fun _ _ hr => hr.isInternal

theorem faultless_fulfil (hs : s.Sound) (request : HeapM.Request) (held : List Handle)
    (build : Unit → Object) : Faultless (StoreM.fulfil request held build) s :=
  .of_ends (ends_fulfil hs request held) fun _ _ hr => hr.isInternal

theorem faultless_allocate (hs : s.Sound) (o : Object) (space : Space) :
    Faultless (StoreM.allocate o space) s :=
  faultless_fulfil hs _ _ _

theorem faultless_allocateFlat (hs : s.Sound) (units : Units) (space : Space) :
    Faultless (StoreM.allocateFlat units space) s :=
  faultless_allocate hs _ space

theorem faultless_modifyObject (hs : s.Sound) (hid : s.Holds id) (f : Object → Object) :
    Faultless (StoreM.onHeap (HeapM.modifyObject id f)) s := by
  obtain ⟨o, ho⟩ := hs.find hid
  exact .of_ends (ends_modifyObject hs.wellFormed ho f) fun _ _ hfail => hfail.elim

theorem faultless_growObject (hs : s.Sound) (hid : s.Holds id) (f : Object → Object) :
    Faultless (StoreM.growObject id f) s := by
  obtain ⟨o, ho⟩ := hs.find hid
  exact .of_ends (ends_growObject hs.wellFormed ho f) fun _ _ hfail => hfail ▸ rfl

/-! ## Looking at objects -/

theorem faultless_find {g : Object → StoreM β} (hs : s.Sound) (hid : s.Holds id)
    (hnext : ∀ o, s.heap.find id = .ok o → Faultless (g o) s) :
    Faultless (StoreM.inspect (·.find id) >>= g) s := by
  obtain ⟨o, ho⟩ := hs.find hid
  exact (faultless_inspect ho).mpr (hnext o ho)

theorem faultless_text {g : Text → StoreM β} (hs : s.Sound) (hid : s.Holds id)
    (hnext : ∀ t, s.heap.text id = .ok t → Faultless (g t) s) :
    Faultless (StoreM.text id >>= g) s := by
  unfold Faultless StoreM.text
  rw [ends_bind, ends_inspect]
  refine ⟨hnext, fun e he => ?_⟩
  rw [Heap.text_error (hs.find hid) he]
  rfl

theorem faultless_context {g : Context → StoreM β} (hs : s.Sound) (hid : s.Holds id)
    (hnext : ∀ c, s.heap.find id = .ok (.context c) → Faultless (g c) s) :
    Faultless (StoreM.context id >>= g) s := by
  unfold StoreM.context
  rw [bind_assoc]
  apply faultless_find hs hid
  intro o ho
  cases o with
  | context c => exact hnext c ho
  | _ => rfl

theorem faultless_closure {g : Closure → StoreM β} (hs : s.Sound) (hid : s.Holds id)
    (hnext : ∀ c, s.heap.find id = .ok (.closure c) → Faultless (g c) s) :
    Faultless (StoreM.closure id >>= g) s := by
  unfold StoreM.closure
  rw [bind_assoc]
  apply faultless_find hs hid
  intro o ho
  cases o with
  | closure c => exact hnext c ho
  | _ => rfl

theorem faultless_shape {g : Shape → StoreM β} (hs : s.Sound) (hid : s.Holds id)
    (hnext : ∀ layout, s.heap.find id = .ok (.shape layout) → Faultless (g layout) s) :
    Faultless (StoreM.shape id >>= g) s := by
  unfold StoreM.shape
  rw [bind_assoc]
  apply faultless_find hs hid
  intro o ho
  cases o with
  | shape layout => exact hnext layout ho
  | _ => rfl

theorem faultless_array {g : Array Value → StoreM β} (hs : s.Sound) (hid : s.Holds id)
    (hnext : ∀ items, s.heap.find id = .ok (.array items) → Faultless (g items) s) :
    Faultless (StoreM.array id >>= g) s := by
  unfold StoreM.array
  rw [bind_assoc]
  apply faultless_find hs hid
  intro o ho
  cases o with
  | array items => exact hnext items ho
  | _ => rfl

theorem faultless_dictionary {g : Dictionary → StoreM β} (hs : s.Sound) (hid : s.Holds id)
    (hnext : ∀ d, s.heap.find id = .ok (.dictionary d) → Faultless (g d) s) :
    Faultless (StoreM.dictionary id >>= g) s := by
  unfold StoreM.dictionary
  rw [bind_assoc]
  apply faultless_find hs hid
  intro o ho
  cases o with
  | dictionary d => exact hnext d ho
  | _ => rfl

/-- A cache of shapes has to be known as one beforehand. -/
theorem faultless_shapeCache {g : ShapeCache → StoreM β} {c : ShapeCache}
    (hfind : s.heap.find id = .ok (.shapeCache c)) (hnext : Faultless (g c) s) :
    Faultless (StoreM.shapeCache id >>= g) s := by
  unfold StoreM.shapeCache
  rw [bind_assoc, faultless_inspect hfind]
  exact hnext

end ManagedHeap
