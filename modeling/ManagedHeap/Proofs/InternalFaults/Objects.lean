import ManagedHeap.Proofs.InternalFaults.Strings
import ManagedHeap.Proofs.Layouts

/-!
# Other objects without internal faults

Numbers, arrays, dictionaries, contexts, records and plain objects are looked up by their kind,
and an object of another kind is the fault of the caller.  The one exception is the cache of
shapes of a context, which no caller names.  What a context has as its cache is one, whatever
was collected since it was made (`Heap.LaidOut.cache`), and it stays one while a shape is made
for it.
-/

namespace ManagedHeap

open Store

variable {α β : Type} {s : Store} {id name context : Handle} {value closure : Value}
  {items values : Array Value} {names : Array Handle} {e : Fault}

/-! ## Numbers -/

theorem faultless_newHeapNumber (hs : s.Sound) (number : Double) (space : Space) :
    Faultless (StoreM.newHeapNumber number space) s :=
  faultless_allocate hs _ space

theorem faultless_newNumber (hs : s.Sound) (number : Double) (space : Space) :
    Faultless (StoreM.newNumber number space) s := by
  unfold StoreM.newNumber
  split
  case h_1 => exact faultless_pure _ s
  case h_2 => exact (faultless_newHeapNumber hs number space).map _

theorem Store.Sound.number?_ok (hs : s.Sound) (hvalue : s.HoldsValue value) :
    ∃ found, s.heap.number? value = .ok found := by
  unfold Heap.number?
  split
  case h_2 id =>
      obtain ⟨o, ho⟩ := hs.find (hvalue id rfl)
      rw [ho, ok_bind]
      split <;> exact ⟨_, rfl⟩
  all_goals exact ⟨_, rfl⟩

theorem faultless_numberText (hs : s.Sound) (hvalue : s.HoldsValue value) :
    Faultless (StoreM.numberText value) s := by
  obtain ⟨found, hfound⟩ := hs.number?_ok hvalue
  unfold StoreM.numberText
  rw [faultless_inspect hfound]
  split
  case h_1 => exact faultless_throw rfl
  case h_2 number =>
      rw [faultless_get]
      split
      case h_1 id _ => exact (takes_track s id).faultless
      case h_2 => exact (faultless_allocateFlat hs _ .young).last fun _ _ => trivial

theorem faultless_unsignedText (hs : s.Sound) (number : UInt32) :
    Faultless (StoreM.unsignedText number) s :=
  (faultless_newNumber hs _ .young).bind (runs_newUnsigned hs number) fun _ _ hend =>
    faultless_numberText hend.1.sound hend.2

theorem faultless_globalConstant? (hs : s.Ready) (hname : s.Holds name) :
    Faultless (StoreM.globalConstant? name) s := by
  have hcanonical {id : Handle} (hid : id ∈ s.canonical.toList) : s.Holds id :=
    hs.holds_canonical hid
  unfold StoreM.globalConstant?
  rw [faultless_get]
  apply faultless_sameText hs.toSound hname (hcanonical (by simp [Canonical.toList]))
  intro first
  split
  case isTrue => exact faultless_pure _ s
  case isFalse =>
  apply faultless_sameText hs.toSound hname (hcanonical (by simp [Canonical.toList]))
  intro second
  split
  case isTrue => exact faultless_pure _ s
  case isFalse =>
  apply faultless_sameText hs.toSound hname (hcanonical (by simp [Canonical.toList]))
  intro third
  split <;> exact faultless_pure _ s

/-! ## Arrays and dictionaries -/

theorem faultless_newArray (hs : s.Sound) (items : Array Value) (space : Space) :
    Faultless (StoreM.newArray items space) s := by
  unfold StoreM.newArray
  split
  case isTrue => exact faultless_get.mpr (takes_track s _).faultless
  case isFalse => exact faultless_allocate hs _ space

theorem faultless_newUniform (hs : s.Sound) (kind : Kind) (width length : Nat) (space : Space)
    (build : Unit → Object) : Faultless (StoreM.newUniform kind width length space build) s :=
  faultless_checkBuffer (faultless_fulfil hs _ _ build)

theorem faultless_emptyOrUniform (hs : s.Sound) (length : Nat) (space : Space)
    (build : Unit → Object) : Faultless (do
      if length = 0 then StoreM.track (← get).canonical.emptyArray
      else StoreM.newUniform .array 8 length space build) s := by
  split
  case isTrue => exact faultless_get.mpr (takes_track s _).faultless
  case isFalse => exact faultless_newUniform hs _ _ _ _ build

theorem faultless_copyArray (hs : s.Sound) (hid : s.Holds id) :
    Faultless (StoreM.copyArray id) s :=
  faultless_array hs hid fun items _ => faultless_newArray hs items .young

theorem faultless_copyArrayOfSize (hs : s.Sound) (hid : s.Holds id) (length : Nat) :
    Faultless (StoreM.copyArrayOfSize id length) s :=
  faultless_array hs hid fun _ _ => faultless_checkBuffer (faultless_newArray hs _ .young)

theorem faultless_element (items : Array Value) (index : Nat) (s : Store) :
    Faultless (StoreM.element items index) s := by
  unfold StoreM.element
  split
  case h_1 => exact faultless_pure _ s
  case h_2 => exact faultless_throw rfl

theorem faultless_arrayGet (hs : s.Sound) (hid : s.Holds id) (index : Nat) :
    Faultless (StoreM.arrayGet id index) s :=
  faultless_array hs hid fun items _ => faultless_element items index s

theorem faultless_arraySet (hs : s.Sound) (hid : s.Holds id) (index : Nat) (value : Value) :
    Faultless (StoreM.arraySet id index value) s := by
  unfold StoreM.arraySet
  apply faultless_array hs hid
  intro items _
  split
  case isTrue => exact faultless_throw rfl
  case isFalse => exact faultless_modifyObject hs hid _

theorem faultless_newDictionary (hs : s.Sound) (kind : KeyKind) (capacity : Nat) :
    Faultless (StoreM.newDictionary kind capacity) s := by
  unfold StoreM.newDictionary
  split
  case h_1 => exact faultless_allocate hs _ .young
  case h_2 => exact faultless_throw rfl

theorem faultless_dictionaryPut (hs : s.Sound) (hid : s.Holds id) (kind : KeyKind) (key : Key)
    (value : Value) : Faultless (StoreM.dictionaryPut id kind key value) s := by
  unfold StoreM.dictionaryPut
  apply faultless_dictionary hs hid
  intro d _
  split
  case isTrue => exact faultless_throw rfl
  case isFalse => exact (faultless_growObject hs hid _).last fun _ s' => faultless_pure id s'

theorem faultless_dictionaryPutName (hs : s.Sound) (hid : s.Holds id) (hname : s.Holds name)
    (value : Value) : Faultless (StoreM.dictionaryPutName id name value) s := by
  unfold StoreM.dictionaryPutName
  apply faultless_text hs hname
  intro t _
  split
  case isTrue => exact faultless_throw rfl
  case isFalse => exact faultless_dictionaryPut hs hid _ _ value

theorem faultless_dictionaryGet (hs : s.Sound) (hid : s.Holds id) (key : Key) :
    Faultless (StoreM.dictionaryGet id key) s :=
  faultless_dictionary hs hid fun _ _ => faultless_pure _ s

/-! ## Records and scripts -/

theorem faultless_recordField (hs : s.Sound) (hid : s.Holds id) (index : Nat) :
    Faultless (StoreM.recordField id index) s := by
  unfold StoreM.recordField
  apply faultless_find hs hid
  intro o _
  split
  case h_1 r _ => exact faultless_element r.fields index s
  case h_2 => exact faultless_throw rfl

theorem faultless_newScript (hs : s.Sound) (source : Handle) :
    Faultless (StoreM.newScript source) s := by
  unfold StoreM.newScript
  rw [faultless_get, faultless_modify]
  exact faultless_allocate (adds_settings hs _ _ _ _ _).sound _ .old

/-! ## Contexts -/

/-- The native context of a held context is held. -/
theorem faultless_nativeContextOf {g : Handle → StoreM β} (hs : s.Sound) (hid : s.Holds id)
    (hnext : ∀ native, s.Holds native → Faultless (g native) s) :
    Faultless (StoreM.nativeContextOf id >>= g) s := by
  have hm : Faultless (StoreM.nativeContextOf id) s :=
    faultless_context hs hid fun _ _ => faultless_pure _ s
  refine hm.bind (runs_nativeContextOf hs hid) ?_
  rintro native s' ⟨-, rfl, hnative⟩
  exact hnext native hnative

theorem faultless_emptySlots {g : Array Value → StoreM β} {count : Nat}
    (hnext : ∀ slots, Faultless (g slots) s) : Faultless (StoreM.emptySlots count >>= g) s := by
  unfold StoreM.emptySlots
  rw [bind_assoc]
  exact faultless_checkBuffer (hnext _)

/-- A context inside another one. -/
theorem faultless_inside (hs : s.Sound) (hid : s.Holds id) (o : Handle → Object) (space : Space) :
    Faultless (do StoreM.allocate (o (← StoreM.nativeContextOf id)) space) s :=
  faultless_nativeContextOf hs hid fun _ _ => faultless_allocate hs _ space

/-- A context inside another one that has slots. -/
theorem faultless_insideSlots (hs : s.Sound) (hid : s.Holds id) (count : Nat)
    (o : Handle → Array Value → Object) (space : Space) : Faultless (do
      let native ← StoreM.nativeContextOf id
      let slots ← StoreM.emptySlots count
      StoreM.allocate (o native slots) space) s :=
  faultless_nativeContextOf hs hid fun _ _ => faultless_emptySlots fun _ =>
    faultless_allocate hs _ space

theorem faultless_newFunctionContext {function : Handle} (hs : s.Sound)
    (hfunction : s.Holds function) (length : Nat) :
    Faultless (StoreM.newFunctionContext length function) s := by
  unfold StoreM.newFunctionContext
  split
  case isTrue => exact faultless_throw rfl
  case isFalse =>
      apply faultless_closure hs hfunction
      intro c hc
      have hprevious : s.Holds c.context := hs.holds_child hfunction hc (by simp [Object.children])
      exact faultless_insideSlots hs hprevious _ _ .young

theorem faultless_newNativeContext (hs : s.Sound) : Faultless StoreM.newNativeContext s := by
  unfold StoreM.newNativeContext
  refine (faultless_allocate hs _ .old).bind
    (runs_place hs .old (by simp [Object.children, Shape.ofNames, Shape.distinct]) (by simp)) ?_
  rintro template s₁ ⟨ha₁, hp₁⟩
  refine (faultless_allocate ha₁.sound _ .old).bind
    (runs_place ha₁.sound .old (fun j hj => ?_) (by simp)) ?_
  · obtain rfl : j = template := by
      simpa [Object.children, Value.handle?, Object.handlesOf] using hj
    exact hp₁.holds
  rintro id s₂ ⟨ha₂, hp₂⟩
  apply faultless_context ha₂.sound hp₂.holds
  intro c _
  exact (faultless_modifyObject ha₂.sound hp₂.holds _).last fun _ s' => faultless_pure id s'

theorem faultless_contextSlot (hs : s.Sound) (hid : s.Holds id) (index : Nat) :
    Faultless (StoreM.contextSlot id index) s := by
  unfold StoreM.contextSlot
  apply faultless_context hs hid
  intro c _
  by_cases hheader : index < contextHeaderSlots
  · rw [if_pos hheader]
    exact faultless_throw rfl
  · rw [if_neg hheader]
    split
    case h_1 => exact faultless_pure _ s
    case h_2 => exact faultless_throw rfl

/-! ## Shapes -/

theorem faultless_checkNames (hs : s.Sound) (hnames : ∀ name ∈ names, s.Holds name) :
    Faultless (StoreM.checkNames names) s := by
  refine (ends_checkNames_texts s names).mono (fun _ _ _ => trivial) fun e s' hfail => ?_
  obtain ⟨-, name, hname, hrefused⟩ := hfail
  cases hrefused with
  | unread htext =>
      rw [Heap.text_error (hs.find (hnames name hname)) htext]
      rfl
  | notInterned => rfl

theorem faultless_shapeCacheOf (hs : s.Sound) (hid : s.Holds id) :
    Faultless (StoreM.shapeCacheOf id) s := by
  unfold StoreM.shapeCacheOf
  apply faultless_context hs hid
  intro c _
  split
  case h_1 cache _ => exact faultless_pure cache s
  case h_2 =>
      refine (faultless_allocate hs _ .old).bind
        (runs_place hs .old (by simp [Object.children, ShapeCache.sized]) (by simp)) ?_
      rintro cache s₁ ⟨ha, -⟩
      have hid₁ := ha.holds hs hid
      apply faultless_context ha.sound hid₁
      intro _ _
      exact (faultless_modifyObject ha.sound hid₁ _).last fun _ s' => faultless_pure cache s'

theorem faultless_newShape (hs : s.Sound) (hid : s.Holds id) (names : Array Handle) :
    Faultless (StoreM.newShape id names) s := by
  unfold StoreM.newShape
  apply faultless_nativeContextOf hs hid
  intro native hnative
  apply faultless_context hs hnative
  intro c _
  exact faultless_allocate hs _ .old

/-- What is found as the cache of a context is a cache, before and after a shape is made. -/
theorem faultless_shapeFor (hs : s.Sound) (hordered : s.heap.Ordered) (hid : s.Holds id)
    (hnames : ∀ name ∈ names, s.Holds name) : Faultless (StoreM.shapeFor id names) s := by
  unfold StoreM.shapeFor
  refine (faultless_checkNames hs hnames).bind (runs_checkNames hs hnames) ?_
  rintro - s₁ ⟨-, rfl⟩
  refine (faultless_shapeCacheOf hs hid).bind
    ((runs_shapeCacheOf hs hid).and (ends_shapeCacheOf hordered id)) ?_
  rintro cache s₂ ⟨⟨hgrows, hcache⟩, hordered₂, howns, -⟩
  -- the cache is found again because the context owns it, in whatever order the layouts are
  obtain ⟨⟨c, hc⟩, -⟩ := hordered₂.cache id cache howns
  apply faultless_shapeCache hc
  split
  case h_1 shape _ =>
      rw [faultless_modify]
      exact (takes_track _ shape).faultless
  case h_2 =>
      have hmiss : s₂.Adds { s₂ with shapeMisses := s₂.shapeMisses + 1 } :=
        adds_settings hgrows.sound _ _ _ _ _
      have hid₂ := hmiss.holds hgrows.sound (hgrows.holds hid)
      rw [faultless_modify]
      refine (faultless_newShape hmiss.sound hid₂ names).bind
        (runs_newShape hmiss.sound hid₂ fun name hname =>
          hmiss.holds hgrows.sound (hgrows.holds (hnames name hname))) ?_
      rintro shape s₃ ⟨hadds, -⟩
      have hadds₃ : s₂.Adds s₃ := hmiss.trans hgrows.sound hadds
      apply faultless_shapeCache ((hadds₃.find cache hcache).trans hc)
      exact (faultless_growObject hadds.sound (hadds₃.holds hgrows.sound hcache) _).last
        fun _ s' => faultless_pure shape s'

/-! ## Plain objects and functions -/

theorem faultless_newPlain (hs : s.Sound) (hid : s.Holds id) (values : Array Value) :
    Faultless (StoreM.newPlain id values) s := by
  unfold StoreM.newPlain
  apply faultless_shape hs hid
  intro layout _
  split
  case isTrue => exact faultless_throw rfl
  case isFalse => exact faultless_allocate hs _ .young

theorem faultless_newLiteral (hs : s.Sound) (hordered : s.heap.Ordered) (hid : s.Holds id)
    (hnames : ∀ name ∈ names, s.Holds name) (values : Array Value) :
    Faultless (StoreM.newLiteral id names values) s := by
  unfold StoreM.newLiteral
  split
  case isTrue => exact faultless_throw rfl
  case isFalse =>
      refine (faultless_shapeFor hs hordered hid hnames).bind (runs_shapeFor hs hid hnames) ?_
      rintro found s₁ ⟨hgrows, hfound⟩
      apply faultless_shape hgrows.sound hfound
      intro layout _
      exact faultless_newPlain hgrows.sound hfound _

theorem faultless_property? (hs : s.Sound) (hid : s.Holds id) (name : Handle) :
    Faultless (StoreM.property? id name) s := by
  unfold StoreM.property?
  apply faultless_find hs hid
  intro o ho
  split
  case h_1 plain =>
      apply faultless_shape hs (hs.holds_child hid ho (by simp [Object.children]))
      intro layout _
      split <;> exact faultless_pure _ s
  case h_2 => exact faultless_pure _ s

theorem faultless_newFunctionWithPrototype (hs : s.Ready) (hordered : s.heap.Ordered)
    (hname : s.Holds name) (hcontext : s.Holds context) :
    Faultless (StoreM.newFunctionWithPrototype name context) s := by
  unfold StoreM.newFunctionWithPrototype
  -- the prototype is laid out in the store that the function was placed in
  refine (faultless_allocate hs.toSound _ .old).bind
    ((runs_newFunction hs.toSound hname hcontext).and
      (lasting_ordered.durable.newFunction name context s hordered)) ?_
  rintro function s₁ ⟨⟨ha, hp⟩, hordered₁⟩
  apply faultless_nativeContextOf ha.sound (ha.holds hs.toSound hcontext)
  intro native hnative
  rw [faultless_get]
  have hnames : ∀ n ∈ #[s₁.canonical.constructorString], s₁.Holds n := by
    simpa using (ha.ready hs).holds_canonical (by simp [Canonical.toList])
  have hvalues : ∀ v ∈ #[Value.ref function], s₁.HoldsValue v := by
    simpa using holdsValue_ref hp.holds
  refine (faultless_newLiteral ha.sound hordered₁ hnative hnames _).bind
    (runs_newLiteral ha.sound hnative hnames hvalues) ?_
  rintro prototype s₂ ⟨hgrows, -⟩
  have hfunction := hgrows.holds hp.holds
  apply faultless_closure hgrows.sound hfunction
  intro c _
  exact (faultless_modifyObject hgrows.sound hfunction _).last fun _ s' =>
    faultless_pure function s'

end ManagedHeap
