import ManagedHeap.Proofs.Heap.Display
import ManagedHeap.Proofs.Store.Interning
import ManagedHeap.Store.Numbers
import ManagedHeap.Store.Records

/-!
# Numbers, arrays and records

These constructors place one object each that refers to held objects only.  The empty array
is the canonical one, and the text of a number may be one that was made before and that
nothing but the cache of texts knows any more; it is live as long as it is in the cache.
-/

namespace ManagedHeap

open Store

variable {s s' : Store} {id : Handle} {o : Object} {value : Value} {items : Array Value}

namespace Store

/-- The object that a value refers to, if any, is held. -/
abbrev HoldsValue (s : Store) (value : Value) : Prop :=
  Heap.HeldValue s.Holds value

theorem Adds.holdsValue (ha : s.Adds s') (hs : s.Sound) (hvalue : s.HoldsValue value) :
    s'.HoldsValue value :=
  fun id hid => ha.holds hs (hvalue id hid)

theorem holdsValue_of_none (hnone : value.handle? = none) : s.HoldsValue value :=
  fun c hc => by simp [hnone] at hc

theorem holdsValue_ref (hid : s.Holds id) : s.HoldsValue (.ref id) := by
  intro j hj
  cases hj
  exact hid

theorem holdsValue_pair (hid : s.Holds id) (hnone : value.handle? = none) :
    ∀ v ∈ #[.ref id, value], s.HoldsValue v := by
  intro v hv
  simp only [List.mem_toArray, List.mem_cons, List.not_mem_nil, or_false] at hv
  rcases hv with rfl | rfl
  · exact holdsValue_ref hid
  · exact holdsValue_of_none hnone

theorem holds_of_mem_handlesOf {c : Handle} (hitems : ∀ v ∈ items, s.HoldsValue v)
    (hc : c ∈ Object.handlesOf items) : s.Holds c := by
  obtain ⟨v, hv, hhandle⟩ := List.mem_filterMap.mp hc
  exact hitems v (by simpa using hv) c hhandle

/-- The values of an array that is held. -/
theorem Sound.holdsValue_of_array {v : Value} (hs : s.Sound) (hid : s.Holds id)
    (hfind : s.heap.find id = .ok (.array items)) (hv : v ∈ items) : s.HoldsValue v := by
  intro c hc
  exact hs.holds_child hid hfind (List.mem_filterMap.mpr ⟨v, by simpa using hv, hc⟩)

end Store

/-- An object that is no string and refers to held objects can be placed. -/
theorem runs_place (hs : s.Sound) (space : Space) (hchildren : ∀ c ∈ o.children, s.Holds c)
    (hstring : ∀ t, o ≠ .string t) :
    RunsFrom Adds Rests s (StoreM.allocate o space) s (s.Placed o) :=
  runs_allocate hs (fits_of_not_string hchildren hstring) space

/-! ## Numbers -/

theorem runs_newHeapNumber (hs : s.Sound) (number : Double) (space : Space) :
    RunsFrom Adds Rests s (StoreM.newHeapNumber number space) s (s.Placed (.number number)) :=
  runs_place hs space (by simp [Object.children]) (by simp)

theorem runs_newNumber (hs : s.Sound) (number : Double) (space : Space) :
    Runs Adds (StoreM.newNumber number space) s (fun value s' => s'.HoldsValue value) := by
  unfold StoreM.newNumber
  split
  case h_1 => exact ⟨.refl hs, fun _ h => by simp [Value.handle?] at h⟩
  case h_2 =>
      apply (runs_newHeapNumber hs number space).adds.bind
      intro id s' ha hp
      exact ⟨ha, holdsValue_ref hp.holds⟩

theorem runs_newUnsigned (hs : s.Sound) (number : UInt32) :
    Runs Adds (StoreM.newUnsigned number) s (fun value s' => s'.HoldsValue value) :=
  runs_newNumber hs _ _

theorem runs_numberText (hs : s.Sound) (hvalue : s.HoldsValue value) :
    Runs Adds (StoreM.numberText value) s (fun id s' => s'.Holds id) := by
  unfold StoreM.numberText
  refine runs_inspect ((hs.readable.reads_number? hvalue).mono fun found _ => ?_) (.refl hs)
  split
  case h_1 => exact ⟨by simp, Or.inr (.refl hs)⟩
  case h_2 number =>
      apply runs_get.mpr
      cases hlookup : s.numberTexts.lookup number with
      | some id =>
          -- the text is live, whether the store holds it or not
          obtain ⟨before, after, hsplit, -⟩ := List.lookup_eq_some_iff.mp hlookup
          obtain ⟨interned, htext⟩ := hs.numberTexts (number, id) (by simp [hsplit])
          have hp : s.Pushed id { s with scope := s.scope.push id } :=
            ⟨rfl, rfl, rfl, rfl, rfl, rfl, Nat.le_refl _, .refl _⟩
          exact ⟨adds_track_buffer hs htext rfl,
            hp.holds (Heap.isLive_of_find (Heap.text_eq_ok.mp htext))⟩
      | none =>
          apply (runs_allocateFlat hs _ .young).adds.bind
          intro id s₁ ha hp
          have hkept : ∀ e ∈ (number, id) :: (if StoreM.numberTextLimit ≤ s₁.numberTexts.length
              then [] else s₁.numberTexts), s₁.heap.NumberText e.1 e.2 := by
            intro e he
            rcases List.mem_cons.mp he with rfl | he
            · exact ⟨_, Heap.text_eq_ok.mpr hp.find⟩
            · split at he
              · simp at he
              · exact ha.sound.numberTexts e he
          have hlast := adds_numberTexts ha.sound hkept
          exact ⟨ha.trans hs hlast, hlast.holds ha.sound hp.holds⟩

theorem runs_unsignedText (hs : s.Sound) (number : UInt32) :
    Runs Adds (StoreM.unsignedText number) s (fun id s' => s'.Holds id) := by
  unfold StoreM.unsignedText
  apply (runs_newUnsigned hs number).bind
  intro value s₁ ha hvalue
  exact (runs_numberText ha.sound hvalue).then (fun _ => ha.trans hs) fun id s' hlast hid =>
    ⟨ha.trans hs hlast, hid⟩

theorem runs_globalConstant? (hs : s.Ready) {name : Handle} (hname : s.Holds name) :
    Runs Adds (StoreM.globalConstant? name) s
      (fun found s' => ∀ v, found = some v → s'.HoldsValue v) := by
  have hrefl : s.Adds s := .refl hs.toSound
  have hcanonical {id : Handle} (hid : id ∈ s.canonical.toList) : s.Holds id :=
    hs.holds_canonical hid
  have hsame {constant : Handle} (hid : s.Holds constant) :=
    hs.readable.reads_sameText hname hid
  unfold StoreM.globalConstant?
  apply runs_get.mpr
  refine runs_inspect ((hsame (hcanonical (by simp [Canonical.toList]))).mono
    fun first _ => ?_) hrefl
  split
  case isTrue =>
      refine ⟨hrefl, ?_⟩
      rintro v ⟨⟩ id ⟨⟩
  case isFalse =>
      refine runs_inspect ((hsame (hcanonical (by simp [Canonical.toList]))).mono
        fun second _ => ?_) hrefl
      split
      case isTrue =>
          refine ⟨hrefl, ?_⟩
          intro v hv
          cases hv
          exact holdsValue_ref (hcanonical (by simp [Canonical.toList]))
      case isFalse =>
          refine runs_inspect ((hsame (hcanonical (by simp [Canonical.toList]))).mono
            fun third _ => ?_) hrefl
          split
          case isTrue =>
              refine ⟨hrefl, ?_⟩
              intro v hv
              cases hv
              exact holdsValue_ref (hcanonical (by simp [Canonical.toList]))
          case isFalse => exact ⟨hrefl, by simp⟩

/-! ## Arrays -/

theorem runs_newArray (hs : s.Ready) (hitems : ∀ v ∈ items, s.HoldsValue v) (space : Space) :
    Runs Adds (StoreM.newArray items space) s (fun id s' => s'.Holds id) := by
  unfold StoreM.newArray
  split
  case isTrue =>
      have hempty : s.Holds s.canonical.emptyArray :=
        hs.holds_canonical (by simp [Canonical.toList])
      refine runs_get.mpr ((runs_track hs.toSound hempty).adds.weaken ?_)
      intro _ s' ha hend
      obtain ⟨rfl, -⟩ := hend
      exact ha.holds hs.toSound hempty
  case isFalse =>
      have hchildren : ∀ c ∈ (Object.array items).children, s.Holds c :=
        fun _ hc => holds_of_mem_handlesOf hitems hc
      exact (runs_place hs.toSound space hchildren (by simp)).adds.weaken fun _ _ _ hp => hp.holds

/-- An array with the same element everywhere refers to nothing. -/
theorem runs_newUniform {build : Unit → Object} (hs : s.Sound)
    (hchildren : (build ()).children = []) (hstring : ∀ t, build () ≠ .string t) (kind : Kind)
    (width length : Nat) (space : Space) :
    Runs Adds (StoreM.newUniform kind width length space build) s (fun id s' => s'.Holds id) := by
  have hfits : s.Fits (build ()) := fits_of_not_string (by simp [hchildren]) hstring
  have hplaced := runs_fulfil hs hfits ⟨kind, Object.baseSize + width * length, space⟩
    (fun t ht => absurd ht (hstring t)) []
  exact runs_checkBuffer (.refl hs) (hplaced.adds.weaken fun _ _ _ hp => hp.holds)

theorem runs_emptyOrUniform (hs : s.Ready) (value : Value) (hvalue : value.handle? = none)
    (length : Nat) (space : Space) : Runs Adds (do
      if length = 0 then StoreM.track (← get).canonical.emptyArray
      else StoreM.newUniform .array 8 length space fun _ => .array (Array.replicate length value)) s
      (fun id s' => s'.Holds id) := by
  split
  case isTrue =>
      have hnone : ∀ v ∈ (#[] : Array Value), s.HoldsValue v := by simp
      exact runs_newArray hs hnone space
  case isFalse =>
      refine runs_newUniform hs.toSound ?_ (by simp) _ _ _ _
      simp [Object.children, Object.handlesOf, hvalue]

theorem runs_copyArray (hs : s.Ready) (hid : s.Holds id) :
    Runs Adds (StoreM.copyArray id) s (fun id s' => s'.Holds id) := by
  apply runs_array hs.toSound hid (.refl hs.toSound)
  intro items hitems
  exact runs_newArray hs (fun v hv => hs.holdsValue_of_array hid hitems hv) .young

theorem runs_copyArrayOfSize (hs : s.Ready) (hid : s.Holds id) (length : Nat) :
    Runs Adds (StoreM.copyArrayOfSize id length) s (fun id s' => s'.Holds id) := by
  apply runs_array hs.toSound hid (.refl hs.toSound)
  intro items hitems
  refine runs_checkBuffer (.refl hs.toSound) (runs_newArray hs (fun v hv => ?_) .young)
  rcases Array.mem_append.mp hv with hv | hv
  · obtain ⟨k, hk, rfl⟩ := Array.mem_extract_iff_getElem.mp hv
    exact hs.holdsValue_of_array hid hitems (Array.getElem_mem _)
  · obtain rfl := (Array.mem_replicate.mp hv).2
    intro j hj
    cases hj

theorem runs_element {index : Nat} (hs : s.Sound) :
    Runs Adds (StoreM.element items index) s (fun value _ => value ∈ items) := by
  unfold StoreM.element
  split
  case h_1 value hvalue => exact ⟨.refl hs, Array.mem_of_getElem? hvalue⟩
  case h_2 => exact ⟨by simp, Or.inr (.refl hs)⟩

theorem runs_arrayGet (hs : s.Sound) (hid : s.Holds id) (index : Nat) :
    Runs Adds (StoreM.arrayGet id index) s (fun value s' => s'.HoldsValue value) := by
  apply runs_array hs hid (.refl hs)
  intro items hitems
  exact (runs_element hs).weaken fun value s' ha hv =>
    ha.holdsValue hs (hs.holdsValue_of_array hid hitems hv)

/-- Setting the value of a key adds one entry at most. -/
theorem Dictionary.mem_insert {d : Dictionary} {key : Key} {value : Value} {e : Key × Value}
    (he : e ∈ (d.insert key value).entries) : e ∈ d.entries ∨ e = (key, value) := by
  unfold Dictionary.insert at he
  split at he
  case h_1 => exact Array.mem_or_eq_of_mem_setIfInBounds he
  case h_2 => exact Array.mem_push.mp he

theorem runs_newDictionary (hs : s.Sound) (kind : KeyKind) (capacity : Nat) :
    Runs Adds (StoreM.newDictionary kind capacity) s (fun id s' => s'.Holds id) := by
  unfold StoreM.newDictionary
  split
  case h_1 d hd =>
      have hempty : d = .empty kind capacity := by
        unfold Dictionary.withCapacity? at hd
        split at hd <;> simp_all
      subst hempty
      refine (runs_place hs .young (by simp [Object.children, Dictionary.empty])
        (by simp)).adds.weaken fun _ _ _ hp => hp.holds
  case h_2 => exact ⟨by simp, Or.inr (.refl hs)⟩

theorem runs_dictionaryGet (hs : s.Sound) (hid : s.Holds id) (key : Key) :
    Runs Adds (StoreM.dictionaryGet id key) s
      (fun found s' => ∀ v, found = some v → s'.HoldsValue v) := by
  refine runs_dictionary hs hid (.refl hs) fun d hd => ⟨.refl hs, fun v hv c hc => ?_⟩
  obtain ⟨e, he, rfl⟩ := Option.map_eq_some_iff.mp hv
  refine hs.holds_child hid hd (List.mem_flatMap.mpr ⟨e, ?_, ?_⟩)
  · exact Array.mem_toList_iff.mpr (Array.mem_of_find?_eq_some he)
  · exact List.mem_append_right _ (Option.mem_toList.mpr hc)

/-! ## Records and scripts -/

theorem runs_newRecord (hs : s.Sound) (kind : RecordKind) (hitems : ∀ v ∈ items, s.HoldsValue v) :
    RunsFrom Adds Rests s (StoreM.newRecord kind items) s
      (s.Placed (.record ⟨kind, items⟩)) :=
  runs_place hs .young (fun _ hc => holds_of_mem_handlesOf hitems hc) (by simp)

theorem runs_recordField (hs : s.Sound) (hid : s.Holds id) (index : Nat) :
    Runs Adds (StoreM.recordField id index) s (fun value s' => s'.HoldsValue value) := by
  unfold StoreM.recordField
  apply runs_find hs hid (.refl hs)
  intro o ho
  split
  case h_1 r =>
      refine (runs_element hs).weaken fun value s' ha hv => ha.holdsValue hs ?_
      intro c hc
      exact hs.holds_child hid ho (List.mem_filterMap.mpr ⟨value, by simpa using hv, hc⟩)
  case h_2 => exact ⟨by simp, Or.inr (.refl hs)⟩

theorem runs_newScript (hs : s.Sound) {source : Handle} (hsource : s.Holds source) :
    Runs Adds (StoreM.newScript source) s (fun id s' => s'.Holds id) := by
  unfold StoreM.newScript
  refine runs_get.mpr (runs_modify.mpr ?_)
  have ha : s.Adds { s with lastScriptId := StoreM.nextScriptId s.lastScriptId } :=
    adds_settings hs _ _ _ _ _
  refine (runs_place ha.sound .old ?_ (by simp)).then (fun _ hr => ha.trans hs hr.adds)
    fun id s' hlast hp => ⟨ha.trans hs hlast, hp.holds⟩
  intro c hc
  obtain rfl : c = source := by simpa [Object.children, Value.handle?] using hc
  exact ha.holds hs hsource

end ManagedHeap
