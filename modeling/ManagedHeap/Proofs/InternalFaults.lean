import ManagedHeap.Proofs.InternalFaults.Errors

/-!
# Internal faults do not occur

No step of a well-rooted run ends with an internal fault, nor does the setup of a store, if the
configuration is one that a store can be made with.  What excludes the faults are the invariants
of these runs: strings tell the truth about their content and their encoding, short strings have
buffers, and a cache of shapes is one as long as its context has it.

The only exceptions are two steps that ask for units of a string without a check of the
position, and only where the position is past the end of the string (`Step.Oversteps`).  Such
a step ends with a fault that says so, or with none.
-/

namespace ManagedHeap

open Store

variable {s : Store} {op : Operation} {question : Question} {step : Step}

/-- The step asks for units past the end of a string. -/
def Step.Oversteps (s : Store) : Step → Prop
  | .perform (.internRange id start count) =>
    ∃ t, s.heap.text id = .ok t ∧ t.length < start + count
  | .ask (.unit id i) => ∃ t, s.heap.text id = .ok t ∧ t.length ≤ i
  | _ => False

/-- The step ends with an internal fault only if it oversteps a string. -/
def Step.Sane (step : Step) (s : Store) : Prop :=
  Ends step.run s (fun _ _ => True) fun e _ =>
    e.isInternal = true → e = .outOfRange ∧ step.Oversteps s

theorem Faultless.sane (hm : Faultless step.run s) : step.Sane s :=
  hm.mono (fun _ _ h => h) fun e _ hnot hinternal => absurd hinternal (by simp [hnot])

/-! ## Operations -/

/-- An operation that does not intern a range of a string has no internal fault. -/
theorem Operation.faultless (op : Operation) (hs : s.Ready) (hvalid : s.config.error? = none)
    (hordered : s.heap.Ordered) (hgiven : ∀ id ∈ op.handles, s.Holds id)
    (hrange : ∀ id start count, op ≠ .internRange id start count) : Faultless op.run s := by
  have hsound := hs.toSound
  unfold Operation.handles at hgiven
  -- one case for each operation, which is faultless as the function that it runs is
  cases op with
  | newText content space => exact (faultless_newString hsound _ space).map _
  | newString units space => exact (faultless_newString hsound units space).map _
  | newPacked units space => exact (faultless_newString hsound _ space).map _
  | newExternal units => exact (faultless_newExternal hsound units).map _
  | concat left right =>
      exact (faultless_concat hsound hvalid (hgiven left (by simp))
        (hgiven right (by simp))).map _
  | flatConcat left right =>
      exact (faultless_flatConcat hsound (hgiven left (by simp)) (hgiven right (by simp))).map _
  | slice source start stop =>
      exact (faultless_slice hs (hgiven source (by simp)) start stop).map _
  | flatten id => exact (faultless_flatten hs (hgiven id (by simp))).map _
  | singleUnit unit => exact (takes_singleUnit hsound unit).faultless.map _
  | internText content => exact (takes_internUnits hsound _).faultless.map _
  | internUnits units => exact (takes_internUnits hsound units).faultless.map _
  | internString id => exact (faultless_internString hs (hgiven id (by simp))).map _
  | internRange id start count => exact absurd rfl (hrange id start count)
  | interned id => exact (faultless_interned? hsound (hgiven id (by simp))).map _
  | newNumber value space => exact (faultless_newNumber hsound value space).map _
  | newUnsigned value => exact (faultless_newNumber hsound _ .young).map _
  | newHeapNumber value space => exact (faultless_newHeapNumber hsound value space).map _
  | numberText value => exact (faultless_numberText hsound (holdsValue_of_given hgiven)).map _
  | unsignedText value => exact (faultless_unsignedText hsound value).map _
  | globalConstant name => exact (faultless_globalConstant? hs (hgiven name (by simp))).map _
  | newArray items space => exact (faultless_newArray hsound items space).map _
  | newArrayOfSize length space => exact (faultless_emptyOrUniform hsound length space _).map _
  | newArrayOfHoles length space => exact (faultless_emptyOrUniform hsound length space _).map _
  | newDoubles length space => exact (faultless_newUniform hsound .doubles 8 length space _).map _
  | newBytes length space => exact (faultless_newUniform hsound .bytes 1 length space _).map _
  | copyArray id => exact (faultless_copyArray hsound (hgiven id (by simp))).map _
  | copyArrayOfSize id length =>
      exact (faultless_copyArrayOfSize hsound (hgiven id (by simp)) length).map _
  | arrayGet id index => exact (faultless_arrayGet hsound (hgiven id (by simp)) index).map _
  | arraySet id index value =>
      exact (faultless_arraySet hsound (hgiven id (by simp)) index value).map _
  | newDictionary kind capacity => exact (faultless_newDictionary hsound kind capacity).map _
  | dictionaryPutName id name value =>
      exact (faultless_dictionaryPutName hsound (hgiven id (by simp)) (hgiven name (by simp))
        value).map _
  | dictionaryPutIndex id index value =>
      exact (faultless_dictionaryPut hsound (hgiven id (by simp)) _ _ value).map _
  | dictionaryGet id key =>
      exact (faultless_dictionaryGet hsound (hgiven id (by simp)) key).map _
  | newNativeContext => exact (faultless_newNativeContext hsound).map _
  | newGlobalContext inside closure globalObject slots =>
      exact (faultless_insideSlots hsound (hgiven inside (by simp)) slots _ .old).map _
  | newModuleContext inside slots =>
      exact (faultless_insideSlots hsound (hgiven inside (by simp)) slots _ .old).map _
  | newFunctionContext length function =>
      exact (faultless_newFunctionContext hsound (hgiven function (by simp)) length).map _
  | newCatchContext closure previous name thrown =>
      exact (faultless_inside hsound (hgiven previous (by simp)) _ .young).map _
  | newWithContext closure previous extension =>
      exact (faultless_inside hsound (hgiven previous (by simp)) _ .young).map _
  | newBlockContext closure previous slots =>
      exact (faultless_insideSlots hsound (hgiven previous (by simp)) slots _ .young).map _
  | nativeContextOf id =>
      exact faultless_nativeContextOf hsound (hgiven id (by simp)) fun _ _ => faultless_pure _ s
  | contextSlot id index => exact (faultless_contextSlot hsound (hgiven id (by simp)) index).map _
  | newFunction name context => exact (faultless_allocate hsound _ .old).map _
  | newFunctionWithPrototype name context =>
      exact (faultless_newFunctionWithPrototype hs hordered (hgiven name (by simp))
        (hgiven context (by simp))).map _
  | prototype id =>
      exact faultless_closure hsound (hgiven id (by simp)) fun _ _ => faultless_pure _ s
  | newBlankRecord kind => exact (faultless_allocate hsound _ .young).map _
  | newBox value => exact (faultless_allocate hsound _ .young).map _
  | newAccessorPair => exact (faultless_allocate hsound _ .young).map _
  | newAliasedArgumentsEntry contextSlot => exact (faultless_allocate hsound _ .young).map _
  | newTypeFeedbackInfo => exact (faultless_allocate hsound _ .young).map _
  | recordField id index =>
      exact (faultless_recordField hsound (hgiven id (by simp)) index).map _
  | newScript source => exact (faultless_newScript hsound source).map _
  | setLastScriptId scriptId => exact faultless_update _ _ s
  | shapeFor context names =>
      exact (faultless_shapeFor hsound hordered (hgiven context (by simp))
        fun name hname => hgiven name (by simp [hname])).map _
  | newPlain shape values =>
      exact (faultless_newPlain hsound (hgiven shape (by simp)) values).map _
  | newLiteral context names values =>
      exact (faultless_newLiteral hsound hordered (hgiven context (by simp))
        (fun name hname => hgiven name (by simp [hname])) values).map _
  | property id name => exact (faultless_property? hsound (hgiven id (by simp)) name).map _
  | newErrorObject kind message arguments =>
      exact (faultless_newErrorObject hsound kind message arguments).map _
  | raise kind message arguments =>
      exact (faultless_raise hs hvalid kind message (holdsValue_of_givenAll hgiven)).map _
  | raiseMessage kind message =>
      exact (faultless_raiseMessage hs hvalid kind (hgiven message (by simp))).map _
  | installStandard => exact faultless_update _ _ s
  | register name builtin => exact faultless_update _ _ s
  | removeBuiltin name => exact faultless_update _ _ s
  | allocate object space => exact (faultless_allocate hsound object space).map _
  | collectGarbage space =>
      have hm : Faultless (StoreM.collectGarbage space) s :=
        .of_ends (ends_collect_adds hsound space []) fun _ _ hfail => hfail.1 ▸ rfl
      exact hm.map _
  | persist id =>
      have hm : Faultless (StoreM.persist id) s :=
        .of_ends (ends_persist s id) fun _ _ hfail => hfail.2.1 ▸ rfl
      exact hm.map _
  | unpersist id => exact faultless_update _ _ s

/-! ## Questions -/

/-- A question has an internal fault only if it is about a unit past the end of a string. -/
theorem Question.sane (hs : s.Sound) (hgiven : ∀ id ∈ question.handles, s.Holds id) :
    (Step.ask question).Sane s := by
  unfold Step.Sane Step.run
  rw [ends_bind, ends_inspect]
  refine ⟨fun _ _ => trivial, fun e hfail hinternal => ?_⟩
  have habsurd {P : Prop} (hnot : e.isInternal = false) : P := by simp [hnot] at hinternal
  have htext {id : Handle} {P : Prop} (hid : s.Holds id) (hfail : s.heap.text id = .error e) : P :=
    habsurd (by rw [Heap.text_error (hs.find hid) hfail]; rfl)
  unfold Question.handles at hgiven
  unfold Question.ask at hfail
  -- a reading fails for what it is given, or not at all
  cases question with
  | object id =>
      obtain ⟨o, ho⟩ := hs.find (hgiven id (by simp))
      cases ho.symm.trans (error_of_discard hfail)
  | space id =>
      obtain ⟨loc, r, hhouses, -⟩ := hs.wellFormed.houses (hgiven id (by simp)).live
      cases hhouses.spaceOf.symm.trans (error_of_discard hfail)
  | text id => exact htext (hgiven id (by simp)) (error_of_discard hfail)
  | unit id i =>
      exact hs.outOfRange_of_unitAt (hgiven id (by simp)) (error_of_discard hfail) hinternal
  | content id =>
      have hid : s.Holds id := hgiven id (by simp)
      have hcontent := error_of_discard hfail
      cases ht : s.heap.text id with
      | error e' =>
          obtain rfl := Except.error.inj ((Heap.content_error ht).symm.trans hcontent)
          exact htext hid ht
      | ok t =>
          obtain ⟨units, hunits⟩ := hs.content_ok hid ht
          cases hunits.symm.trans hcontent
  | sameText a b =>
      exact habsurd (hs.sameText_error (hgiven a (by simp)) (hgiven b (by simp))
        (error_of_discard hfail))
  | number value =>
      obtain ⟨found, hfound⟩ := hs.number?_ok (holdsValue_of_given hgiven)
      cases hfound.symm.trans (error_of_discard hfail)
  | display value =>
      obtain ⟨shown, hshown⟩ := hs.display_ok (holdsValue_of_given hgiven)
      cases hshown.symm.trans (error_of_discard hfail)

/-! ## Steps -/

theorem Step.Rooted.sane (hr : step.Rooted s) (hs : s.Ready) (hvalid : s.config.error? = none)
    (hordered : s.heap.Ordered) : step.Sane s := by
  cases step with
  | perform op =>
      by_cases hrange : ∃ id start count, op = .internRange id start count
      · obtain ⟨id, start, count, rfl⟩ := hrange
        unfold Step.Sane Step.run Operation.run
        rw [ends_bind]
        exact (outOfRange_of_internRange hs.toSound
          (hr.given id (by simp [Step.handles, Operation.handles])) start count).mono
          (fun _ _ _ => trivial) fun _ _ hfail => hfail
      · exact Faultless.sane (op.faultless hs hvalid hordered hr.given fun id start count hop =>
          hrange ⟨id, start, count, hop⟩)
  | ask question => exact Question.sane hs.toSound hr.given
  | closeScope mark => exact Faultless.sane (faultless_update _ _ s)
  | escape mark id => exact Faultless.sane (faultless_update _ _ s)
  | enterGate =>
      have hm : Faultless StoreM.enterGate s :=
        .of_ends (ends_enterGate s) fun _ _ hfail => hfail.2.1 ▸ rfl
      exact Faultless.sane (hm.map _)
  | leaveGate => exact Faultless.sane (faultless_update _ _ s)
  | plan outages => exact Faultless.sane (faultless_update _ _ s)

/-- With a configuration that passes its check, a store is set up and used without internal
faults.  A unit of a string can be asked for at any position. -/
theorem no_internal_fault {config : Config} (hvalid : config.error? = none) :
    (∀ hash outages, Faultless (StoreM.handleScope StoreM.makeCanonical)
      (.blankWith hash config outages)) ∧
    ∀ s, WellRooted s → s.config = config →
      (∀ step : Step, step.Rooted s → Ends step.run s (fun _ _ => True) fun e _ =>
        e.isInternal = true → e = .outOfRange ∧ step.Oversteps s) ∧
      ∀ id i, s.Holds id → Faultless (StoreM.unitAt id i) s := by
  refine ⟨fun hash outages => ?_, fun s hs hconfig => ⟨fun step hr => ?_, fun id i hid => ?_⟩⟩
  · exact .of_ends (ends_setup hash config outages) fun _ _ ⟨_, _, hrefused⟩ =>
      hrefused.isInternal
  · exact hr.sane hs.ready.1 (hconfig ▸ hvalid) hs.ordered
  · exact faultless_unitAt hs.ready.1.toSound hid i

/-- A range within a composite, one past its end, and a unit past its end. -/
theorem no_internal_fault_composite : ∃ s : Store, s.config.error? = none ∧ WellRooted s ∧
    s.heap.text ⟨10⟩ = .ok (.composite ⟨⟨8⟩, ⟨9⟩, 14, .narrow, false⟩) ∧
    s.fault? (StoreM.internRange ⟨10⟩ 5 4) = none ∧
    s.fault? (StoreM.internRange ⟨10⟩ 10 10) = some .outOfRange ∧
    (∀ start count, Ends (Step.perform (.internRange ⟨10⟩ start count)).run s (fun _ _ => True)
      fun e _ => e.isInternal = true →
        e = .outOfRange ∧ (Step.perform (.internRange ⟨10⟩ start count)).Oversteps s) ∧
    Faultless (StoreM.unitAt ⟨10⟩ 20) s := by
  have hcheck : (((Store.create {} none).toOption.bind
      (replay (joinTexts .young))).any fun s =>
        s.isLiveRoot ⟨10⟩ &&
        decide (s.heap.text ⟨10⟩ = .ok (.composite ⟨⟨8⟩, ⟨9⟩, 14, .narrow, false⟩)) &&
        decide (s.fault? (StoreM.internRange ⟨10⟩ 5 4) = none) &&
        decide (s.fault? (StoreM.internRange ⟨10⟩ 10 10) = some .outOfRange)) = true := by
    decide +kernel
  obtain ⟨s, hs, hcheck⟩ := WellRooted.exists_replay hcheck
  simp only [Bool.and_eq_true, decide_eq_true_eq] at hcheck
  obtain ⟨⟨⟨hroot, htext⟩, hwithin⟩, hpast⟩ := hcheck
  have hid : s.Holds ⟨10⟩ := holds_of_isLiveRoot hroot
  have hvalid := hs.ready.2
  obtain ⟨-, hrun⟩ := no_internal_fault hvalid
  obtain ⟨hsteps, hunits⟩ := hrun s hs rfl
  refine ⟨s, hvalid, hs, htext, hwithin, hpast, fun start count => hsteps _ ⟨?_, by simp⟩,
    hunits _ _ hid⟩
  intro j hj
  obtain rfl : j = ⟨10⟩ := by simpa [Step.handles, Operation.handles] using hj
  exact hid

end ManagedHeap
