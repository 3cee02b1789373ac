import ManagedHeap.Proofs.Store.Layouts
import ManagedHeap.Proofs.Upholding
import ManagedHeap.Proofs.WellRooted

/-!
# Invariants that operations uphold

Most operations have no business with contexts, shapes and caches of shapes: they read, place
other objects, and change other objects in place.  A few operations make these layouts, and
one moves an object to another handle.  An invariant of stores is durable if each of these
elementary deeds keeps it (`Durable`); then every operation keeps it, on whatever store and
with whatever arguments it is carried out, and whether it has a result or fails
(`Durable.operation`).

An invariant may depend on the heap, on what the store keeps by hand and on the stack of roots.
Operations put handles on this stack and drop only what they put there themselves, so closing
a scope is not among the deeds.

The operations left out are the one that places an object made by hand, and those that change
what is persistent.  The two that ask for the text of a number keep the invariant only if it has
nothing to do with these texts.
-/

namespace ManagedHeap

variable {α β : Type} {I X : Store → Prop}

/-! ## Ordinary operations -/

/-- Whether an operation neither places an object made by hand nor changes what is persistent. -/
def Operation.isOrdinary : Operation → Bool
  | .allocate _ _ => false
  | .persist _ => false
  | .unpersist _ => false
  | _ => true

/-- Whether an operation asks for the text of a number. -/
def Operation.asksText : Operation → Bool
  | .numberText _ => true
  | .unsignedText _ => true
  | _ => false

def Step.isOrdinary : Step → Bool
  | .perform op => op.isOrdinary
  | _ => true

def Step.asksText : Step → Bool
  | .perform op => op.asksText
  | _ => false

theorem Step.exists_of_asksText (step : Step) (hasks : step.asksText = true) :
    (∃ value, step = .perform (.numberText value)) ∨
      ∃ value, step = .perform (.unsignedText value) := by
  cases step with
  | perform op =>
      cases op with
      | numberText value => exact Or.inl ⟨value, rfl⟩
      | unsignedText value => exact Or.inr ⟨value, rfl⟩
      | _ => simp [asksText, Operation.asksText] at hasks
  | _ => simp [asksText] at hasks

/-- The steps that are not ordinary. -/
theorem Step.isOrdinary_or (step : Step) : step.isOrdinary = true ∨
    (∃ object space, step = .perform (.allocate object space)) ∨
    ∃ id, step = .perform (.persist id) ∨ step = .perform (.unpersist id) := by
  cases step with
  | perform op =>
      cases op with
      | allocate object space => exact Or.inr (Or.inl ⟨object, space, rfl⟩)
      | persist id => exact Or.inr (Or.inr ⟨id, Or.inl rfl⟩)
      | unpersist id => exact Or.inr (Or.inr ⟨id, Or.inr rfl⟩)
      | _ => exact Or.inl rfl
  | _ => exact Or.inl rfl

/-- The stores have the same heap and the same roots, and have kept the same by hand. -/
structure Store.Agrees (s s' : Store) : Prop where
  heap : s'.heap = s.heap
  kept : s'.kept = s.kept
  scope : s'.scope = s.scope

/-- The computation keeps the invariant if it starts in this store. -/
abbrev UpholdsFrom (I X : Store → Prop) (s : Store) (m : StoreM α) : Prop :=
  Ends m s (fun _ s' => I s') fun e s' => I s' ∨ e = .wordOverflow ∧ X s'

/-- The invariant has nothing to do with the texts of numbers. -/
def ForgetsTexts (I : Store → Prop) : Prop :=
  ∀ (s : Store) numberTexts, I s → I { s with numberTexts }

/-- The invariant depends on nothing else, and is kept when a handle becomes a root. -/
structure Trackable (I : Store → Prop) : Prop where
  agrees : ∀ s s' : Store, s.Agrees s' → I s → I s'
  track : ∀ (s : Store) (id : Handle), I s → I { s with scope := s.scope.push id }

/-- An invariant that the elementary deeds of operations keep.  The context that a new one has
before it is the native context, or the one that it is made inside of; this takes a young one. -/
structure Durable (I X : Store → Prop) : Prop extends Trackable I where
  collect : ∀ space held, Upholds I X (StoreM.collect space held)
  fulfil : ∀ (request : HeapM.Request) (held : List Handle) (build : Unit → Object),
    request.size = (build ()).size → (build ()).isLayout = false →
      Upholds I X (StoreM.fulfil request held build)
  modifyObject : ∀ (id : Handle) (f : Object → Object), Object.SparesLayouts f →
    (∀ o, (f o).size = o.size) → Upholds I X (StoreM.onHeap (HeapM.modifyObject id f))
  growObject : ∀ (id : Handle) (f : Object → Object), Object.SparesLayouts f →
    Upholds I X (StoreM.growObject id f)
  flatten : ∀ id, Upholds I X (StoreM.flatten id)
  newNativeContext : Upholds I X StoreM.newNativeContext
  innerContext : ∀ (s : Store) (kind : ContextKind) (closure : Value) (previous : Option Handle)
    (extension : Value) (inside native : Handle) (slots : Array Value) (space : Space),
    I s → s.heap.Native inside native → kind ≠ .native →
      (∀ p ∈ previous, p = native ∨ p = inside ∧ space = .young) →
      UpholdsFrom I X s (StoreM.allocate (.context
        (StoreM.innerContext kind closure previous extension native slots)) space)
  shapeFor : ∀ id names, Upholds I X (StoreM.shapeFor id names)

/-! ## Readers -/

theorem upholds_text (id : Handle) : Upholds I X (StoreM.text id) :=
  upholds_inspect

theorem upholds_context (id : Handle) : Upholds I X (StoreM.context id) := by
  refine upholds_inspect.bind fun o => ?_
  split
  · exact upholds_pure
  · exact upholds_throw

theorem upholds_closure (id : Handle) : Upholds I X (StoreM.closure id) := by
  refine upholds_inspect.bind fun o => ?_
  split
  · exact upholds_pure
  · exact upholds_throw

theorem upholds_shape (id : Handle) : Upholds I X (StoreM.shape id) := by
  refine upholds_inspect.bind fun o => ?_
  split
  · exact upholds_pure
  · exact upholds_throw

theorem upholds_shapeCache (id : Handle) : Upholds I X (StoreM.shapeCache id) := by
  refine upholds_inspect.bind fun o => ?_
  split
  · exact upholds_pure
  · exact upholds_throw

theorem upholds_array (id : Handle) : Upholds I X (StoreM.array id) := by
  refine upholds_inspect.bind fun o => ?_
  split
  · exact upholds_pure
  · exact upholds_throw

theorem upholds_dictionary (id : Handle) : Upholds I X (StoreM.dictionary id) := by
  refine upholds_inspect.bind fun o => ?_
  split
  · exact upholds_pure
  · exact upholds_throw

theorem upholds_nativeContextOf (id : Handle) : Upholds I X (StoreM.nativeContextOf id) :=
  (upholds_context id).bind fun _ => upholds_pure

theorem upholds_element (items : Array Value) (index : Nat) :
    Upholds I X (StoreM.element items index) := by
  unfold StoreM.element
  split
  · exact upholds_pure
  · exact upholds_throw

theorem upholds_toText (id : Handle) : Upholds I X (StoreM.toText id) :=
  upholds_inspect.bind fun _ => upholds_pure

theorem upholds_sameText (a b : Handle) : Upholds I X (StoreM.sameText a b) :=
  upholds_inspect

/-! ## Checks -/

theorem upholds_unless {p : Prop} [Decidable p] {e : Fault} :
    Upholds I X (if p then throw e else pure ⟨⟩ : StoreM PUnit) := by
  split
  · exact upholds_throw
  · exact upholds_pure

theorem upholds_checkBuffer (bytes : Nat) : Upholds I X (StoreM.checkBuffer bytes) :=
  upholds_unless

theorem upholds_checkCount (count : Nat) : Upholds I X (StoreM.checkCount count) :=
  upholds_unless

theorem upholds_checkLength (length : Nat) : Upholds I X (StoreM.checkLength length) :=
  upholds_get.bind fun _ => upholds_unless

/-- A change that is made if something can be counted. -/
theorem upholds_counted {count : Store → Nat} {m : StoreM α} (hm : Upholds I X m) :
    Upholds I X (do
      StoreM.checkCount (count (← get))
      m) :=
  upholds_get.bind fun _ => (upholds_checkCount _).bind fun _ => hm

theorem upholds_persist {id : Handle} (hf : ∀ s : Store, I s →
    I { s with persistent := StoreM.addRelease id s.persistent }) :
    Upholds I X (Operation.persist id).run :=
  (upholds_counted (upholds_modify hf)).bind fun _ => upholds_pure

theorem upholds_checkNames (names : Array Handle) :
    Upholds I X (StoreM.checkNames names) := by
  obtain ⟨list, rfl⟩ : ∃ list, names = List.toArray list := ⟨names.toList, by simp⟩
  unfold StoreM.checkNames
  rw [Array.forM_eq_forM, List.forM_toArray, List.forM_eq_forM]
  exact upholds_forM (fun name => (upholds_text name).bind fun _ => upholds_unless) list

theorem upholds_globalConstant? (name : Handle) :
    Upholds I X (StoreM.globalConstant? name) := by
  refine upholds_get.bind fun s => (upholds_sameText _ _).bind fun isUndefined => ?_
  split
  case isTrue => exact upholds_pure
  case isFalse =>
      refine (upholds_sameText _ _).bind fun isNan => ?_
      split
      case isTrue => exact upholds_pure
      case isFalse =>
          refine (upholds_sameText _ _).bind fun isInfinity => ?_
          split
          · exact upholds_pure
          · exact upholds_pure

theorem upholds_property? (id name : Handle) : Upholds I X (StoreM.property? id name) := by
  refine upholds_inspect.bind fun o => ?_
  split
  case h_1 plain =>
      refine (upholds_shape plain.shape).bind fun layout => ?_
      split
      · exact upholds_pure
      · exact upholds_pure
  case h_2 => exact upholds_pure

theorem upholds_contextSlot (id : Handle) (index : Nat) :
    Upholds I X (StoreM.contextSlot id index) := by
  refine (upholds_context id).bind fun c => ?_
  simp only
  split
  case isTrue => exact upholds_throw
  case isFalse =>
      split
      · exact upholds_pure
      · exact upholds_throw

theorem upholds_recordField (id : Handle) (index : Nat) :
    Upholds I X (StoreM.recordField id index) := by
  refine upholds_inspect.bind fun o => ?_
  split
  · exact upholds_element _ index
  · exact upholds_throw

theorem upholds_degradedText (message : String) (arguments : Array Value) :
    Upholds I X (StoreM.degradedText message arguments) := by
  refine upholds_get.bind fun s => ?_
  simp only
  split
  case isTrue => exact upholds_throw
  case isFalse => exact (upholds_checkBuffer _).bind fun _ => upholds_inspect

/-! ## Contexts -/

/-- What is made inside of a context gets the native context of that one. -/
theorem upholds_inside {inside : Handle} {f : Handle → StoreM Handle}
    (hf : ∀ s native, I s → s.heap.Native inside native →
      UpholdsFrom I X s (f native)) :
    Upholds I X (StoreM.nativeContextOf inside >>= f) := by
  intro s hs
  unfold StoreM.nativeContextOf StoreM.context
  simp only [ends_bind]
  rw [ends_inspect]
  refine ⟨fun o ho => ?_, fun _ _ => Or.inl hs⟩
  split
  case h_1 c => exact hf s _ hs ⟨c, ho, rfl⟩
  case h_2 => exact Or.inl hs

theorem upholds_emptySlots_from {s : Store} {count : Nat} {f : Array Value → StoreM Handle}
    (hs : I s) (hf : ∀ slots, UpholdsFrom I X s (f slots)) :
    UpholdsFrom I X s (StoreM.emptySlots count >>= f) := by
  unfold UpholdsFrom StoreM.emptySlots StoreM.checkBuffer
  rw [bind_assoc, ends_bind]
  split
  case isTrue => exact Or.inl hs
  case isFalse => exact hf _

/-- Nothing that the invariant may depend on is changed. -/
theorem Trackable.assign (ht : Trackable I) {f : Store → Store}
    (hf : ∀ s : Store, s.Agrees (f s)) : Upholds I X (modify f : StoreM PUnit) :=
  upholds_modify fun s => ht.agrees s (f s) (hf s)

theorem Trackable.trackRoot (ht : Trackable I) (id : Handle) : Upholds I X (StoreM.track id) :=
  (upholds_modify fun s => ht.track s id).bind fun _ => upholds_pure

/-! ## Placing what is asked for -/

/-- One attempt to place an object does to the invariant what the attempt on the heap does. -/
theorem Trackable.attempt (ht : Trackable I) {request : HeapM.Request} {build : Unit → Object}
    (hallocate : Upholds I X (StoreM.onHeap (HeapM.allocate? request build))) :
    Upholds I X (StoreM.attempt request build) := by
  have hrefused : Upholds I X StoreM.nextRefused := by
    refine upholds_get.bind fun s => ?_
    split
    · exact upholds_pure
    · exact Upholds.bind (ht.assign fun _ => ⟨rfl, rfl, rfl⟩) fun _ => upholds_pure
  refine hrefused.bind fun refused => ?_
  split
  · exact Upholds.bind (ht.assign fun _ => ⟨rfl, rfl, rfl⟩) fun _ => upholds_pure
  · exact hallocate

/-- There are two attempts, and a collection between them. -/
theorem Trackable.fulfil (ht : Trackable I) {request : HeapM.Request} {held : List Handle}
    {build : Unit → Object}
    (hallocate : Upholds I X (StoreM.onHeap (HeapM.allocate? request build)))
    (hcollect : Upholds I X (StoreM.collect request.space held)) :
    Upholds I X (StoreM.fulfil request held build) := by
  have hattempt := ht.attempt hallocate
  refine upholds_get.bind fun s => ?_
  simp only
  split
  case isTrue => exact upholds_throw
  case isFalse =>
      refine hattempt.bind fun found => ?_
      split
      case h_1 => exact ht.trackRoot _
      case h_2 =>
          refine hcollect.bind fun _ => hattempt.bind fun found => ?_
          split
          · exact ht.trackRoot _
          · exact upholds_throw

namespace Durable

variable (hd : Durable I X)

include hd

theorem search (hash : UInt64) (units : Units) :
    Upholds I X (StoreM.search hash units) :=
  upholds_read.bind fun _ =>
    Upholds.bind (hd.assign fun _ => ⟨rfl, rfl, rfl⟩) fun _ => upholds_pure

theorem internedUnits? (units : Units) :
    Upholds I X (StoreM.internedUnits? units) :=
  upholds_get.bind fun _ => hd.search _ units

theorem interned? (id : Handle) : Upholds I X (StoreM.interned? id) := by
  refine (upholds_text id).bind fun t => ?_
  simp only
  split
  case isTrue => exact upholds_pure
  case isFalse =>
      exact (upholds_text id).bind fun _ => upholds_inspect.bind fun units =>
        hd.internedUnits? units

/-! ## Placing objects -/

theorem allocate {o : Object} (space : Space) (ho : o.isLayout = false) :
    Upholds I X (StoreM.allocate o space) :=
  hd.fulfil _ _ _ rfl ho

theorem allocateFlat (units : Units) (space : Space) :
    Upholds I X (StoreM.allocateFlat units space) :=
  hd.allocate space rfl

theorem newString (units : Units) (space : Space) :
    Upholds I X (StoreM.newString units space) :=
  (upholds_checkLength _).bind fun _ => hd.allocateFlat units space

theorem newExternal (units : Units) : Upholds I X (StoreM.newExternal units) :=
  (upholds_checkLength _).bind fun _ => hd.allocate _ rfl

theorem newHeapNumber (value : Double) (space : Space) :
    Upholds I X (StoreM.newHeapNumber value space) :=
  hd.allocate space rfl

theorem newNumber (value : Double) (space : Space) :
    Upholds I X (StoreM.newNumber value space) := by
  unfold StoreM.newNumber
  split
  · exact upholds_pure
  · exact (hd.newHeapNumber value space).bind fun _ => upholds_pure

theorem newArray (items : Array Value) (space : Space) :
    Upholds I X (StoreM.newArray items space) := by
  unfold StoreM.newArray
  split
  · exact upholds_get.bind fun _ => hd.trackRoot _
  · exact hd.allocate space rfl

/-- An array of one element in all places measures what is asked for. -/
theorem newUniform {kind : Kind} {width length : Nat} {space : Space} {build : Unit → Object}
    (hsize : (build ()).size = Object.baseSize + width * length)
    (hbuild : (build ()).isLayout = false) :
    Upholds I X (StoreM.newUniform kind width length space build) :=
  (upholds_checkBuffer _).bind fun _ => hd.fulfil _ _ _ hsize.symm hbuild

theorem newRecord (kind : RecordKind) (fields : Array Value) :
    Upholds I X (StoreM.newRecord kind fields) :=
  hd.allocate _ rfl

theorem newScript (source : Handle) : Upholds I X (StoreM.newScript source) :=
  upholds_get.bind fun _ => Upholds.bind (hd.assign fun _ => ⟨rfl, rfl, rfl⟩) fun _ =>
    hd.allocate _ rfl

theorem newFunction (name context : Handle) : Upholds I X (StoreM.newFunction name context) :=
  hd.allocate _ rfl

theorem newPlain (id : Handle) (values : Array Value) :
    Upholds I X (StoreM.newPlain id values) := by
  refine (upholds_shape id).bind fun layout => ?_
  simp only
  split
  · exact upholds_throw
  · exact hd.allocate _ rfl

theorem newErrorObject (kind : ErrorKind) (message : Handle) (arguments : Option Handle) :
    Upholds I X (StoreM.newErrorObject kind message arguments) :=
  hd.allocate _ rfl

theorem newDictionary (kind : KeyKind) (capacity : Nat) :
    Upholds I X (StoreM.newDictionary kind capacity) := by
  unfold StoreM.newDictionary
  split
  · exact hd.allocate _ rfl
  · exact upholds_throw

/-! ## Strings -/

theorem pairOfUnits (a b : UInt16) : Upholds I X (StoreM.pairOfUnits a b) := by
  unfold StoreM.pairOfUnits
  split
  case isTrue => exact hd.allocateFlat _ _
  case isFalse =>
      refine (hd.internedUnits? _).bind fun found => ?_
      split
      · exact hd.trackRoot _
      · exact hd.allocateFlat _ _

theorem markInterned (hash : UInt64) (id : Handle) :
    Upholds I X (StoreM.markInterned hash id) := by
  have hcheck : Upholds I X (StoreM.checkInternable id) := by
    refine upholds_inspect.bind fun o => ?_
    split
    · exact upholds_unless
    · exact upholds_throw
  refine hcheck.bind fun _ => ((hd.modifyObject id _ (fun o => ?_) fun o => ?_)).bind fun _ =>
    hd.assign fun _ => ⟨rfl, rfl, rfl⟩
  · cases o <;> simp [Object.isLayout]
  · cases o with
    | string t => cases t <;> rfl
    | _ => rfl

theorem internUnits (units : Units) : Upholds I X (StoreM.internUnits units) := by
  refine upholds_get.bind fun s => (hd.search _ units).bind fun found => ?_
  split
  case h_1 => exact hd.trackRoot _
  case h_2 =>
      refine (hd.allocateFlat _ _).bind fun id => upholds_read.bind fun found => ?_
      split
      · exact hd.trackRoot _
      · exact (hd.markInterned _ id).bind fun _ => upholds_pure

theorem internText (content : String) : Upholds I X (StoreM.internText content) :=
  hd.internUnits _

theorem internString (id : Handle) : Upholds I X (StoreM.internString id) := by
  refine (upholds_text id).bind fun t => ?_
  split
  case isTrue => exact upholds_pure
  case isFalse =>
      refine (hd.flatten id).bind fun id => upholds_inspect.bind fun space =>
        (upholds_text id).bind fun string => ?_
      split
      case isTrue =>
          refine upholds_read.bind fun hash => upholds_inspect.bind fun units =>
            (hd.search hash units).bind fun found => ?_
          split
          · exact hd.trackRoot _
          · exact (hd.markInterned hash id).bind fun _ => upholds_pure
      case isFalse => exact upholds_inspect.bind fun units => hd.internUnits units

theorem internRange (id : Handle) (start count : Nat) :
    Upholds I X (StoreM.internRange id start count) := by
  refine (upholds_text id).bind fun t => ?_
  simp only
  split
  case isTrue => exact upholds_throw
  case isFalse =>
      exact (upholds_checkBuffer _).bind fun _ => upholds_inspect.bind fun units =>
        hd.internUnits units

theorem singleUnit (unit : UInt16) : Upholds I X (StoreM.singleUnit unit) := by
  unfold StoreM.singleUnit
  split
  case isTrue =>
      refine upholds_get.bind fun s => ?_
      split
      · exact hd.trackRoot _
      · exact (hd.internUnits _).bind fun _ =>
          Upholds.bind (hd.assign fun _ => ⟨rfl, rfl, rfl⟩) fun _ => upholds_pure
  case isFalse => exact hd.allocateFlat _ _

theorem concat (left right : Handle) : Upholds I X (StoreM.concat left right) := by
  refine (upholds_text left).bind fun first => ?_
  simp only
  split
  case isTrue => exact upholds_pure
  case isFalse =>
      refine (upholds_text right).bind fun second => ?_
      split
      case isTrue => exact upholds_pure
      case isFalse =>
          split
          case isTrue =>
              exact upholds_inspect.bind fun a => upholds_inspect.bind fun b =>
                hd.pairOfUnits a b
          case isFalse =>
              refine (upholds_checkLength _).bind fun _ => (upholds_text left).bind fun _ =>
                (upholds_text right).bind fun _ => upholds_get.bind fun s => ?_
              split
              · exact upholds_inspect.bind fun units => hd.allocateFlat units _
              · exact hd.allocate _ rfl

theorem flatConcat (left right : Handle) : Upholds I X (StoreM.flatConcat left right) :=
  (upholds_text left).bind fun _ => (upholds_text right).bind fun _ =>
    (upholds_checkLength _).bind fun _ => upholds_inspect.bind fun units =>
      hd.allocateFlat units _

theorem newView (source : Handle) (start length : Nat) :
    Upholds I X (StoreM.newView source start length) := by
  refine (upholds_checkCount length).bind fun _ => upholds_inspect.bind fun ⟨part, offset⟩ =>
    (upholds_text part).bind fun t => ?_
  have hview (parent : Handle) (offset : Nat) : Upholds I X (do
      let encoding := (← StoreM.text parent).encoding
      StoreM.allocate (.string (.view ⟨parent, StoreM.recordedOffset offset, length, encoding⟩))
        .young) :=
    (upholds_text parent).bind fun _ => hd.allocate _ rfl
  split
  · exact hview _ _
  · exact (hd.flatten part).bind fun parent => hview parent offset

theorem properSlice (source : Handle) (start stop : Nat) :
    Upholds I X (StoreM.properSlice source start stop) := by
  unfold StoreM.properSlice
  split
  · exact upholds_get.bind fun _ => hd.trackRoot _
  · exact upholds_inspect.bind fun unit => hd.singleUnit unit
  · exact upholds_inspect.bind fun a => upholds_inspect.bind fun b => hd.pairOfUnits a b
  · refine upholds_get.bind fun s => ?_
    simp only
    split
    · exact (upholds_text source).bind fun _ => upholds_inspect.bind fun units =>
        hd.allocateFlat units _
    · exact hd.newView source start _

theorem slice (source : Handle) (start stop : Nat) :
    Upholds I X (StoreM.slice source start stop) := by
  refine (upholds_text source).bind fun t => ?_
  simp only
  split
  case isTrue => exact upholds_throw
  case isFalse =>
      split
      · exact upholds_pure
      · exact hd.properSlice source start stop

/-! ## Numbers -/

theorem numberText (hi : ForgetsTexts I) (value : Value) :
    Upholds I X (StoreM.numberText value) := by
  refine upholds_inspect.bind fun number => ?_
  split
  case h_1 => exact upholds_throw
  case h_2 =>
      refine upholds_get.bind fun s => ?_
      split
      · exact hd.trackRoot _
      · exact (hd.allocateFlat _ _).bind fun _ =>
          Upholds.bind (upholds_modify fun _ hs => hi _ _ hs) fun _ => upholds_pure

theorem unsignedText (hi : ForgetsTexts I) (value : UInt32) :
    Upholds I X (StoreM.unsignedText value) :=
  (hd.newNumber _ _).bind fun v => hd.numberText hi v

/-! ## Arrays and dictionaries -/

theorem emptyOrUniform {length : Nat} {space : Space} {build : Unit → Object}
    (hsize : (build ()).size = Object.baseSize + 8 * length)
    (hbuild : (build ()).isLayout = false) :
    Upholds I X (do
      if length = 0 then StoreM.track (← get).canonical.emptyArray
      else StoreM.newUniform .array 8 length space build) := by
  split
  · exact upholds_get.bind fun _ => hd.trackRoot _
  · exact hd.newUniform hsize hbuild

theorem copyArray (id : Handle) : Upholds I X (StoreM.copyArray id) :=
  (upholds_array id).bind fun items => hd.newArray items _

theorem copyArrayOfSize (id : Handle) (length : Nat) :
    Upholds I X (StoreM.copyArrayOfSize id length) :=
  (upholds_array id).bind fun _ => (upholds_checkBuffer _).bind fun _ => hd.newArray _ _

theorem arraySet (id : Handle) (index : Nat) (value : Value) :
    Upholds I X (StoreM.arraySet id index value) := by
  refine (upholds_array id).bind fun items => ?_
  simp only
  split
  case isTrue => exact upholds_throw
  case isFalse =>
      refine (hd.modifyObject id _ (fun o => ?_) fun o => ?_)
      · cases o <;> simp [Object.isLayout]
      · cases o <;> simp [Object.size]

theorem dictionaryPut (id : Handle) (kind : KeyKind) (key : Key) (value : Value) :
    Upholds I X (StoreM.dictionaryPut id kind key value) := by
  refine (upholds_dictionary id).bind fun d => ?_
  simp only
  split
  case isTrue => exact upholds_throw
  case isFalse =>
      refine (hd.growObject id _ fun o => ?_).bind fun _ => upholds_pure
      · cases o <;> simp [Object.isLayout]

theorem dictionaryPutName (id name : Handle) (value : Value) :
    Upholds I X (StoreM.dictionaryPutName id name value) := by
  refine (upholds_text name).bind fun t => ?_
  simp only
  split
  · exact upholds_throw
  · exact hd.dictionaryPut id _ _ value

/-! ## Contexts and functions -/

theorem newGlobalContext (inside : Handle) (closure globalObject : Value) (slots : Nat) :
    Upholds I X (StoreM.newGlobalContext inside closure globalObject slots) :=
  upholds_inside fun s native hs hnative => upholds_emptySlots_from hs fun slots =>
    hd.innerContext s _ _ _ _ inside native slots _ hs hnative (by simp) (by simp)

theorem newModuleContext (inside : Handle) (slots : Nat) :
    Upholds I X (StoreM.newModuleContext inside slots) :=
  upholds_inside fun s native hs hnative => upholds_emptySlots_from hs fun slots =>
    hd.innerContext s _ _ _ _ inside native slots _ hs hnative (by simp) (by simp)

theorem newFunctionContext (length : Nat) (function : Handle) :
    Upholds I X (StoreM.newFunctionContext length function) := by
  unfold StoreM.newFunctionContext
  split
  case isTrue => exact upholds_throw
  case isFalse =>
    refine (upholds_closure function).bind fun c => ?_
    exact upholds_inside fun s native hs hnative => upholds_emptySlots_from hs fun slots =>
      hd.innerContext s _ _ _ _ c.context native slots _ hs hnative (by simp) (by simp)

theorem newCatchContext (closure : Value) (previous name : Handle) (thrown : Value) :
    Upholds I X (StoreM.newCatchContext closure previous name thrown) :=
  upholds_inside fun s native hs hnative =>
    hd.innerContext s _ _ _ _ previous native _ _ hs hnative (by simp) (by simp)

theorem newWithContext (closure : Value) (previous : Handle) (extension : Value) :
    Upholds I X (StoreM.newWithContext closure previous extension) :=
  upholds_inside fun s native hs hnative =>
    hd.innerContext s _ _ _ _ previous native _ _ hs hnative (by simp) (by simp)

theorem newBlockContext (closure : Value) (previous : Handle) (slots : Nat) :
    Upholds I X (StoreM.newBlockContext closure previous slots) :=
  upholds_inside fun s native hs hnative => upholds_emptySlots_from hs fun slots =>
    hd.innerContext s _ _ _ _ previous native slots _ hs hnative (by simp) (by simp)

theorem newLiteral (id : Handle) (names : Array Handle) (values : Array Value) :
    Upholds I X (StoreM.newLiteral id names values) := by
  unfold StoreM.newLiteral
  split
  · exact upholds_throw
  · exact (hd.shapeFor id names).bind fun found => (upholds_shape found).bind fun layout =>
      hd.newPlain found _

theorem newFunctionWithPrototype (name context : Handle) :
    Upholds I X (StoreM.newFunctionWithPrototype name context) := by
  refine (hd.newFunction name context).bind fun function =>
    (upholds_nativeContextOf context).bind fun native => upholds_get.bind fun s =>
      (hd.newLiteral native _ _).bind fun prototype =>
        (upholds_closure function).bind fun _ => ?_
  refine ((hd.modifyObject function _ (fun o => ?_) fun o => ?_)).bind fun _ => upholds_pure
  · cases o <;> simp [Object.isLayout]
  · cases o <;> rfl

/-! ## Errors -/

theorem newDegradedError (kind : ErrorKind) (content : String) :
    Upholds I X (StoreM.newDegradedError kind content) := by
  refine upholds_get.bind fun s => ?_
  simp only
  split
  · exact (hd.allocateFlat _ _).bind fun _ => hd.allocate _ rfl
  · exact upholds_pure.bind fun _ => hd.allocate _ rfl

theorem expandMessage (call : Invocation) : Upholds I X (StoreM.expandMessage call) := by
  refine (upholds_toText _).bind fun template => upholds_inspect.bind fun arguments =>
    upholds_inspect.bind fun content => upholds_get.bind fun s => ?_
  split
  · exact hd.allocateFlat _ _
  · exact upholds_pure

theorem sourceValue (call : Invocation) (source : Source) :
    Upholds I X (StoreM.sourceValue call source) := by
  unfold StoreM.sourceValue
  split
  case h_1 => exact upholds_pure
  case h_2 => exact upholds_pure
  case h_3 =>
      split
      · exact upholds_pure
      · exact upholds_pure
  case h_4 => exact (hd.internText _).bind fun _ => upholds_pure

/-- An error is raised by whatever builtins do. -/
theorem raiseWith {invoke : Builtin → Invocation → StoreM Completion}
    (hinvoke : ∀ builtin call, Upholds I X (invoke builtin call)) (kind : ErrorKind)
    (message : String) (arguments : Array Value) :
    Upholds I X (StoreM.raiseWith invoke kind message arguments) := by
  refine upholds_get.bind fun s => ?_
  split
  case h_1 =>
      exact (upholds_degradedText _ _).bind fun content =>
        (hd.newDegradedError kind content).bind fun _ => upholds_pure
  case h_2 builtin _ =>
      exact (hd.internText message).bind fun _ => (hd.newArray arguments _).bind fun _ =>
        hinvoke builtin _

theorem invoke (depth : Nat) (builtin : Builtin) (call : Invocation) :
    Upholds I X (StoreM.invoke depth builtin call) := by
  -- on the depth of calls
  induction depth generalizing builtin call with
  | zero => exact upholds_throw
  | succ depth ih =>
      cases builtin with
      | expand =>
          exact (hd.expandMessage call).bind fun message =>
            (hd.newErrorObject _ message _).bind fun _ => upholds_pure
      | construct => exact (hd.newErrorObject _ _ _).bind fun _ => upholds_pure
      | answer throws source => exact (hd.sourceValue call source).bind fun _ => upholds_pure
      | nest kind template => exact hd.raiseWith ih kind template _
      | delegate name passMessage fallback =>
          refine upholds_get.bind fun s => ?_
          split
          · exact ih _ _
          · exact upholds_pure

theorem call (builtin : Builtin) (invocation : Invocation) :
    Upholds I X (StoreM.call builtin invocation) :=
  upholds_get.bind fun _ => hd.invoke _ builtin invocation

theorem raiseMessage (kind : ErrorKind) (message : Handle) :
    Upholds I X (StoreM.raiseMessage kind message) := by
  refine upholds_get.bind fun s => ?_
  split
  case h_1 =>
      exact (upholds_toText message).bind fun text => (upholds_degradedText text _).bind
        fun content => (hd.newDegradedError kind content).bind fun _ => upholds_pure
  case h_2 builtin _ => exact hd.call builtin _

/-! ## Operations -/

theorem changeBuiltins (f : Builtins → Builtins) :
    Upholds I X (do
      modify fun (s : Store) => { s with builtins := f s.builtins }
      return Outcome.done) :=
  Upholds.bind (hd.assign fun _ => ⟨rfl, rfl, rfl⟩) fun _ => upholds_pure

/-- Every operation keeps the invariant, apart from those that place an object made by hand or
change what is persistent. -/
theorem operation {op : Operation} (hop : op.isOrdinary = true)
    (htexts : op.asksText = true → ForgetsTexts I) : Upholds I X op.run := by
  -- one case for each operation, by the lemma of the function that it runs
  cases op with
  | newText content space => exact (hd.newString _ space).bind fun _ => upholds_pure
  | newString units space => exact (hd.newString units space).bind fun _ => upholds_pure
  | newPacked units space => exact (hd.newString _ space).bind fun _ => upholds_pure
  | newExternal units => exact (hd.newExternal units).bind fun _ => upholds_pure
  | concat left right => exact (hd.concat left right).bind fun _ => upholds_pure
  | flatConcat left right => exact (hd.flatConcat left right).bind fun _ => upholds_pure
  | slice source start stop => exact (hd.slice source start stop).bind fun _ => upholds_pure
  | flatten id => exact (hd.flatten id).bind fun _ => upholds_pure
  | singleUnit unit => exact (hd.singleUnit unit).bind fun _ => upholds_pure
  | internText content => exact (hd.internText content).bind fun _ => upholds_pure
  | internUnits units => exact (hd.internUnits units).bind fun _ => upholds_pure
  | internString id => exact (hd.internString id).bind fun _ => upholds_pure
  | internRange id start count =>
      exact (hd.internRange id start count).bind fun _ => upholds_pure
  | interned id => exact (hd.interned? id).bind fun _ => upholds_pure
  | newNumber value space => exact (hd.newNumber value space).bind fun _ => upholds_pure
  | newUnsigned value => exact (hd.newNumber _ _).bind fun _ => upholds_pure
  | newHeapNumber value space =>
      exact (hd.newHeapNumber value space).bind fun _ => upholds_pure
  | numberText value => exact (hd.numberText (htexts rfl) value).bind fun _ => upholds_pure
  | unsignedText value => exact (hd.unsignedText (htexts rfl) value).bind fun _ => upholds_pure
  | globalConstant name => exact (upholds_globalConstant? name).bind fun _ => upholds_pure
  | newArray items space => exact (hd.newArray items space).bind fun _ => upholds_pure
  | newArrayOfSize length space =>
      exact Upholds.bind (hd.emptyOrUniform (by simp [Object.size]) rfl) fun _ => upholds_pure
  | newArrayOfHoles length space =>
      exact Upholds.bind (hd.emptyOrUniform (by simp [Object.size]) rfl) fun _ => upholds_pure
  | newDoubles length space =>
      exact Upholds.bind (hd.newUniform (by simp [Object.size]) rfl) fun _ => upholds_pure
  | newBytes length space =>
      exact Upholds.bind (hd.newUniform (by simp [Object.size]) rfl) fun _ => upholds_pure
  | copyArray id => exact (hd.copyArray id).bind fun _ => upholds_pure
  | copyArrayOfSize id length =>
      exact (hd.copyArrayOfSize id length).bind fun _ => upholds_pure
  | arrayGet id index =>
      exact ((upholds_array id).bind fun items => upholds_element items index).bind
        fun _ => upholds_pure
  | arraySet id index value => exact (hd.arraySet id index value).bind fun _ => upholds_pure
  | newDictionary kind capacity =>
      exact (hd.newDictionary kind capacity).bind fun _ => upholds_pure
  | dictionaryPutName id name value =>
      exact (hd.dictionaryPutName id name value).bind fun _ => upholds_pure
  | dictionaryPutIndex id index value =>
      exact (hd.dictionaryPut id _ _ value).bind fun _ => upholds_pure
  | dictionaryGet id key =>
      exact ((upholds_dictionary id).bind fun _ => upholds_pure).bind fun _ => upholds_pure
  | newNativeContext => exact hd.newNativeContext.bind fun _ => upholds_pure
  | newGlobalContext inside closure globalObject slots =>
      exact (hd.newGlobalContext inside closure globalObject slots).bind fun _ => upholds_pure
  | newModuleContext inside slots =>
      exact (hd.newModuleContext inside slots).bind fun _ => upholds_pure
  | newFunctionContext length function =>
      exact (hd.newFunctionContext length function).bind fun _ => upholds_pure
  | newCatchContext closure previous name thrown =>
      exact (hd.newCatchContext closure previous name thrown).bind fun _ => upholds_pure
  | newWithContext closure previous extension =>
      exact (hd.newWithContext closure previous extension).bind fun _ => upholds_pure
  | newBlockContext closure previous slots =>
      exact (hd.newBlockContext closure previous slots).bind fun _ => upholds_pure
  | nativeContextOf id => exact (upholds_nativeContextOf id).bind fun _ => upholds_pure
  | contextSlot id index => exact (upholds_contextSlot id index).bind fun _ => upholds_pure
  | newFunction name context => exact (hd.newFunction name context).bind fun _ => upholds_pure
  | newFunctionWithPrototype name context =>
      exact (hd.newFunctionWithPrototype name context).bind fun _ => upholds_pure
  | prototype id => exact (upholds_closure id).bind fun _ => upholds_pure
  | newBlankRecord kind => exact (hd.newRecord kind _).bind fun _ => upholds_pure
  | newBox value => exact (hd.newRecord _ _).bind fun _ => upholds_pure
  | newAccessorPair => exact (hd.newRecord _ _).bind fun _ => upholds_pure
  | newAliasedArgumentsEntry contextSlot =>
      exact (hd.newRecord _ _).bind fun _ => upholds_pure
  | newTypeFeedbackInfo => exact (hd.newRecord _ _).bind fun _ => upholds_pure
  | recordField id index => exact (upholds_recordField id index).bind fun _ => upholds_pure
  | newScript source => exact (hd.newScript source).bind fun _ => upholds_pure
  | setLastScriptId scriptId =>
      exact Upholds.bind (hd.assign fun _ => ⟨rfl, rfl, rfl⟩) fun _ => upholds_pure
  | shapeFor context names => exact (hd.shapeFor context names).bind fun _ => upholds_pure
  | newPlain shape values => exact (hd.newPlain shape values).bind fun _ => upholds_pure
  | newLiteral context names values =>
      exact (hd.newLiteral context names values).bind fun _ => upholds_pure
  | property id name => exact (upholds_property? id name).bind fun _ => upholds_pure
  | newErrorObject kind message arguments =>
      exact (hd.newErrorObject kind message arguments).bind fun _ => upholds_pure
  | raise kind message arguments =>
      exact (hd.raiseWith hd.call kind message arguments).bind fun _ => upholds_pure
  | raiseMessage kind message =>
      exact (hd.raiseMessage kind message).bind fun _ => upholds_pure
  | installStandard => exact hd.changeBuiltins _
  | register name builtin => exact hd.changeBuiltins (·.register name builtin)
  | removeBuiltin name => exact hd.changeBuiltins (·.erase name)
  | allocate object space => simp [Operation.isOrdinary] at hop
  | collectGarbage space => exact (hd.collect space []).bind fun _ => upholds_pure
  | persist id => simp [Operation.isOrdinary] at hop
  | unpersist id => simp [Operation.isOrdinary] at hop

/-! ## Steps -/

/-- Every step keeps the invariant if its operation does and closing a scope does. -/
theorem step (hclose : ∀ mark, Upholds I X (StoreM.closeScope mark)) {step : Step}
    (hstep : step.isOrdinary = true) (htexts : step.asksText = true → ForgetsTexts I) :
    Upholds I X step.run := by
  have hassign {f : Store → Store} (hf : ∀ s : Store, s.Agrees (f s)) :
      Upholds I X (do modify f; return Outcome.done) :=
    Upholds.bind (hd.assign hf) fun _ => upholds_pure
  cases step with
  | perform op => exact hd.operation hstep htexts
  | ask question => exact upholds_inspect.bind fun _ => upholds_pure
  | closeScope mark => exact (hclose mark).bind fun _ => upholds_pure
  | escape mark id =>
      exact (hclose mark).bind fun _ => (hd.trackRoot id).bind fun _ => upholds_pure
  | enterGate =>
      have henter : Upholds I X StoreM.enterGate :=
        upholds_counted (hd.assign fun _ => ⟨rfl, rfl, rfl⟩)
      exact henter.bind fun _ => upholds_pure
  | leaveGate => exact hassign fun _ => ⟨rfl, rfl, rfl⟩
  | plan outages => exact hassign fun _ => ⟨rfl, rfl, rfl⟩

/-- The setup of a store keeps the invariant, too. -/
theorem setup (hclose : ∀ mark, Upholds I X (StoreM.closeScope mark)) :
    Upholds I X (StoreM.handleScope StoreM.makeCanonical) := by
  have hown (record : Canonical → Canonical) : Upholds I X (StoreM.own record) :=
    hd.assign fun _ => ⟨rfl, rfl, rfl⟩
  -- an object is made and written down, eight times
  have hcanonical : Upholds I X StoreM.makeCanonical :=
    (hd.internUnits _).bind fun _ => (hown _).bind fun _ =>
      (hd.allocate _ rfl).bind fun _ => (hown _).bind fun _ =>
      (hd.newHeapNumber _ _).bind fun _ => (hown _).bind fun _ =>
      (hd.newHeapNumber _ _).bind fun _ => (hown _).bind fun _ =>
      (hd.internText _).bind fun _ => (hown _).bind fun _ =>
      (hd.internText _).bind fun _ => (hown _).bind fun _ =>
      (hd.internText _).bind fun _ => (hown _).bind fun _ =>
      (hd.internText _).bind fun _ => hown _
  exact upholds_get.bind fun _ => hcanonical.bind fun _ => (hclose _).bind fun _ => upholds_pure

end Durable

/-! ## Invariants of heaps -/

namespace Durable

variable {P : Heap → Prop} {s s' : Store}

/-- What is asked of the heap alone is kept wherever a step leads. -/
theorem leads {step : Step} (hd : Durable (fun s => P s.heap) X) (hl : step.Leads s s')
    (hs : P s.heap) : P s'.heap := by
  have hkeeps : UpholdsFrom (fun s => P s.heap) X s step.run := by
    rcases step.isOrdinary_or with hstep | ⟨object, space, rfl⟩ | ⟨id, rfl | rfl⟩
    · exact hd.step (fun _ => upholds_modify fun _ hs => hs) hstep (fun _ _ _ hs => hs) s hs
    · exact absurd rfl (hl.1.plain object space)
    -- what is persistent is no part of the heap
    · exact upholds_persist (I := fun s => P s.heap) (fun _ hs => hs) s hs
    · exact hs
  rcases hl.2 with ⟨outcome, hrun⟩ | ⟨e, hrun, he⟩
  · exact hkeeps.of_ok hrun
  · exact (hkeeps.of_error hrun).resolve_right fun hover => he hover.1

/-- It holds in well-rooted runs if it holds of empty heaps. -/
theorem wellRooted (hd : Durable (fun s => P s.heap) X)
    (hempty : ∀ youngBytes oldBytes, P (Heap.empty youngBytes oldBytes)) (hs : WellRooted s) :
    P s.heap := by
  induction hs with
  | setup _ hrun =>
      exact (hd.setup (fun _ => upholds_modify fun _ hs => hs) _ (hempty _ _)).of_ok hrun
  | step _ hstep ih => exact hd.leads hstep ih

end Durable

/-! ## Invariants of whatever objects there are -/

/-- An invariant that is kept when objects are placed and changed, whatever objects they are. -/
structure Impartial (I X : Store → Prop) : Prop extends Trackable I where
  fulfil : ∀ (request : HeapM.Request) (held : List Handle) (build : Unit → Object),
    request.size = (build ()).size → Upholds I X (StoreM.fulfil request held build)
  modifyObject : ∀ (id : Handle) (f : Object → Object), (∀ o, (f o).size = o.size) →
    Upholds I X (StoreM.onHeap (HeapM.modifyObject id f))
  growObject : ∀ (id : Handle) (f : Object → Object), Upholds I X (StoreM.growObject id f)

namespace Impartial

variable (hm : Impartial I X)

include hm

theorem allocate (o : Object) (space : Space) : Upholds I X (StoreM.allocate o space) :=
  hm.fulfil _ _ _ rfl

theorem newNativeContext : Upholds I X StoreM.newNativeContext := by
  refine (hm.allocate _ _).bind fun template => (hm.allocate _ _).bind fun id =>
    (upholds_context id).bind fun _ => ?_
  refine (hm.modifyObject id _ fun o => ?_).bind fun _ => upholds_pure
  cases o <;> rfl

theorem shapeCacheOf (id : Handle) : Upholds I X (StoreM.shapeCacheOf id) := by
  refine (upholds_context id).bind fun c => ?_
  split
  case h_1 => exact upholds_pure
  case h_2 =>
      refine (hm.allocate _ _).bind fun cache => (upholds_context id).bind fun _ => ?_
      refine (hm.modifyObject id _ fun o => ?_).bind fun _ => upholds_pure
      cases o <;> rfl

theorem shapeFor (id : Handle) (names : Array Handle) :
    Upholds I X (StoreM.shapeFor id names) := by
  have hshape : Upholds I X (StoreM.newShape id names) :=
    (upholds_nativeContextOf id).bind fun native => (upholds_context native).bind fun _ =>
      hm.allocate _ _
  refine (upholds_checkNames names).bind fun _ => (hm.shapeCacheOf id).bind fun cache =>
    (upholds_shapeCache cache).bind fun c => ?_
  split
  · exact Upholds.bind (hm.assign fun _ => ⟨rfl, rfl, rfl⟩) fun _ => hm.trackRoot _
  · exact Upholds.bind (hm.assign fun _ => ⟨rfl, rfl, rfl⟩) fun _ => hshape.bind fun shape =>
      (upholds_shapeCache cache).bind fun _ => (hm.growObject _ _).bind fun _ => upholds_pure

/-- Such an invariant is durable, if collections and flattening keep it. -/
theorem durable (hcollect : ∀ space held, Upholds I X (StoreM.collect space held))
    (hflatten : ∀ id, Upholds I X (StoreM.flatten id)) : Durable I X where
  toTrackable := hm.toTrackable
  collect := hcollect
  fulfil request held build hsize _ := hm.fulfil request held build hsize
  modifyObject id f _ hf := hm.modifyObject id f hf
  growObject id f _ := hm.growObject id f
  flatten := hflatten
  newNativeContext := hm.newNativeContext
  innerContext s _ _ _ _ _ _ _ _ hs _ _ _ := hm.allocate _ _ s hs
  shapeFor := hm.shapeFor

end Impartial

end ManagedHeap
