import ManagedHeap.Proofs.Durable

/-!
# Invariants of the heap that operations uphold

Most invariants say something of the heap, and of what the store keeps by hand.  They have
nothing to do with the stack of roots, so closing a scope keeps them, too.  If such an invariant
is kept by each of the elementary deeds of operations (`Lasting`), it is durable
(`Lasting.durable`), and then every step keeps it (`Lasting.step`).
-/

namespace ManagedHeap

variable {α β : Type} {I X : Heap → Kept → Prop}

/-- The computation keeps the invariant if it starts in this store. -/
abbrev PreservesFrom (I X : Heap → Kept → Prop) (s : Store) (m : StoreM α) : Prop :=
  Ends m s (fun _ s' => I s'.heap s'.kept)
    fun e s' => I s'.heap s'.kept ∨ e = .wordOverflow ∧ X s'.heap s'.kept

/-- The invariant has nothing to do with the texts of numbers. -/
def IgnoresTexts (I : Heap → Kept → Prop) : Prop :=
  ∀ h kept numberTexts collections, I h kept → I h { kept with numberTexts, collections }

/-- An invariant that the elementary deeds of operations keep. -/
structure Lasting (I X : Heap → Kept → Prop) : Prop where
  collect : ∀ space held, Preserves I X (StoreM.collect space held)
  fulfil : ∀ (request : HeapM.Request) (held : List Handle) (build : Unit → Object),
    request.size = (build ()).size → (build ()).isLayout = false →
      Preserves I X (StoreM.fulfil request held build)
  modifyObject : ∀ (id : Handle) (f : Object → Object), Object.SparesLayouts f →
    (∀ o, (f o).size = o.size) → Preserves I X (StoreM.onHeap (HeapM.modifyObject id f))
  growObject : ∀ (id : Handle) (f : Object → Object), Object.SparesLayouts f →
    Preserves I X (StoreM.growObject id f)
  flatten : ∀ id, Preserves I X (StoreM.flatten id)
  newNativeContext : Preserves I X StoreM.newNativeContext
  innerContext : ∀ (s : Store) (kind : ContextKind) (closure : Value) (previous : Option Handle)
    (extension : Value) (inside native : Handle) (slots : Array Value) (space : Space),
    I s.heap s.kept → s.heap.Native inside native →
      PreservesFrom I X s (StoreM.allocate (.context
        (StoreM.innerContext kind closure previous extension native slots)) space)
  shapeFor : ∀ id names, Preserves I X (StoreM.shapeFor id names)

/-- An invariant of the heap and of what is kept by hand has nothing to do with roots. -/
theorem trackable_kept : Trackable fun s => I s.heap s.kept where
  agrees s s' ha hs := by rwa [ha.heap, ha.kept]
  track _ _ hs := hs

theorem preserves_closeScope (mark : StoreM.ScopeMark) :
    Preserves I X (StoreM.closeScope mark) :=
  preserves_modify fun _ => ⟨rfl, rfl, rfl, rfl⟩

namespace Lasting

variable (hl : Lasting I X)

include hl

theorem durable : Durable (fun s => I s.heap s.kept) (fun s => X s.heap s.kept) where
  toTrackable := trackable_kept
  collect := hl.collect
  fulfil := hl.fulfil
  modifyObject := hl.modifyObject
  growObject := hl.growObject
  flatten := hl.flatten
  newNativeContext := hl.newNativeContext
  innerContext s kind closure previous extension inside native slots space hs hnative _ _ :=
    hl.innerContext s kind closure previous extension inside native slots space hs hnative
  shapeFor := hl.shapeFor

/-- Every operation keeps the invariant, apart from those that place an object made by hand or
change what is persistent. -/
theorem operation {op : Operation} (hop : op.isOrdinary = true)
    (htexts : op.asksText = true → IgnoresTexts I) : Preserves I X op.run :=
  hl.durable.operation hop fun hasks s _ hs => htexts hasks _ _ _ s.collections hs

theorem step {step : Step} (hstep : step.isOrdinary = true)
    (htexts : step.asksText = true → IgnoresTexts I) : Preserves I X step.run :=
  hl.durable.step preserves_closeScope hstep fun hasks s _ hs => htexts hasks _ _ _ s.collections hs

/-- The setup of a store keeps the invariant. -/
theorem setup : Preserves I X (StoreM.handleScope StoreM.makeCanonical) :=
  hl.durable.setup preserves_closeScope

end Lasting

/-! ## Invariants of whatever objects there are -/

/-- An invariant that is kept when objects are placed and changed, whatever objects they are. -/
structure Uniform (I X : Heap → Kept → Prop) : Prop where
  fulfil : ∀ (request : HeapM.Request) (held : List Handle) (build : Unit → Object),
    request.size = (build ()).size → Preserves I X (StoreM.fulfil request held build)
  modifyObject : ∀ (id : Handle) (f : Object → Object), (∀ o, (f o).size = o.size) →
    Preserves I X (StoreM.onHeap (HeapM.modifyObject id f))
  growObject : ∀ (id : Handle) (f : Object → Object), Preserves I X (StoreM.growObject id f)

theorem Uniform.impartial (hu : Uniform I X) :
    Impartial (fun s => I s.heap s.kept) (fun s => X s.heap s.kept) where
  toTrackable := trackable_kept
  fulfil := hu.fulfil
  modifyObject := hu.modifyObject
  growObject := hu.growObject

/-- An invariant that each change of a heap keeps, whatever objects the change is about. -/
structure Indifferent (I X : Heap → Kept → Prop) : Prop where
  ignoresTexts : IgnoresTexts I
  collect : ∀ kept space roots,
    Upholds (I · kept) (X · kept) (HeapM.collect space roots)
  allocate? : ∀ kept (request : HeapM.Request) (build : Unit → Object),
    request.size = (build ()).size →
      Upholds (I · kept) (X · kept) (HeapM.allocate? request build)
  modifyObject : ∀ kept id (f : Object → Object), (∀ o, (f o).size = o.size) →
    Upholds (I · kept) (X · kept) (HeapM.modifyObject id f)
  remeasure : ∀ kept id (f : Object → Object),
    Upholds (I · kept) (X · kept) (do HeapM.modifyObject id f; HeapM.reaccount id)
  transplant : ∀ kept source into,
    Upholds (I · kept) (X · kept) (HeapM.transplant source into)

namespace Indifferent

variable (hi : Indifferent I X)

include hi

theorem preserves_collect (space : Space) (held : List Handle) :
    Preserves I X (StoreM.collect space held) :=
  Upholds.bind (upholds_modify fun _ hs => hi.ignoresTexts _ _ _ _ hs) fun _ =>
    Upholds.bind (preserves_modify fun _ => ⟨rfl, rfl, rfl, rfl⟩) fun _ =>
      upholds_get.bind fun _ =>
        (preserves_onHeap fun kept => hi.collect kept space _).bind fun _ =>
          Upholds.bind (upholds_modify fun _ hs => hi.ignoresTexts _ _ _ _ hs) fun _ =>
            upholds_pure

theorem preserves_fulfil {request : HeapM.Request} (held : List Handle) {build : Unit → Object}
    (hsize : request.size = (build ()).size) :
    Preserves I X (StoreM.fulfil request held build) :=
  trackable_kept.fulfil (preserves_onHeap fun kept => hi.allocate? kept request build hsize)
    (hi.preserves_collect _ held)

theorem uniform : Uniform I X where
  fulfil _ held _ hsize := hi.preserves_fulfil held hsize
  modifyObject id f hf := preserves_onHeap fun kept => hi.modifyObject kept id f hf
  growObject id f := preserves_onHeap fun kept => hi.remeasure kept id f

theorem preserves_flatten (id : Handle) : Preserves I X (StoreM.flatten id) := by
  refine (upholds_text id).bind fun t => ?_
  split
  case h_1 node =>
      refine upholds_inspect.bind fun units => upholds_get.bind fun s =>
        (trackable_kept.trackRoot id).bind fun _ =>
          (hi.uniform.impartial.allocate _ _).bind fun flat => ?_
      exact (preserves_onHeap fun kept => hi.transplant kept flat id).bind fun _ =>
        (preserves_closeScope _).bind fun _ => upholds_pure
  case h_2 => exact upholds_pure

theorem lasting : Lasting I X where
  collect := hi.preserves_collect
  fulfil request held build hsize _ := hi.uniform.fulfil request held build hsize
  modifyObject id f _ hf := hi.uniform.modifyObject id f hf
  growObject id f _ := hi.uniform.growObject id f
  flatten := hi.preserves_flatten
  newNativeContext := hi.uniform.impartial.newNativeContext
  innerContext s _ _ _ _ _ _ _ _ hs _ := hi.uniform.impartial.allocate _ _ s hs
  shapeFor := hi.uniform.impartial.shapeFor

end Indifferent

end ManagedHeap
