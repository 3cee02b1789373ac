import ManagedHeap.Proofs.Heap.Accounting
import ManagedHeap.Proofs.Lasting

/-!
# Every byte is accounted for

A store counts the bytes in use in each space when it places, moves, measures and removes
objects; it never adds them up.  Nevertheless the count of a space is always the sum of what the
objects measure that are in the space now (`Attained.accounting`).  The three things that could
make the count drift are these:

* **Objects grow.**  Dictionaries and shape caches are measured again after they have grown.
  All other changes in place keep the size of the object.
* **Objects move.**  Promotion and flattening move whole residents, with what they were
  accounted for.
* **Operations fail.**  The count and the slots of an arena change together, so a failure
  between two changes leaves right accounts.

Nothing is assumed of what the client does: it may use dead handles, place objects made by hand
and go on after failures (`Attained`).
-/

namespace ManagedHeap

open Heap (Overfull)

variable {limits : Space → Nat}

/-! ## The accounts last -/

/-- The computation keeps the accounts of the heap right. -/
abbrev PreservesAccounts {α : Type} (limits : Space → Nat) (m : StoreM α) : Prop :=
  Preserves (fun h _ => h.Accounted limits) (fun h _ => h.Overfull) m

theorem indifferent_accounted (limits : Space → Nat) :
    Indifferent (fun h _ => h.Accounted limits) (fun h _ => h.Overfull) where
  ignoresTexts _ _ _ _ h := h
  collect _ := Heap.upholds_collect
  allocate? _ _ _ hsize := Heap.upholds_allocate? hsize
  modifyObject _ _ _ hf := Heap.upholds_modifyObject hf
  remeasure _ _ f := Heap.upholds_remeasure f
  transplant _ := Heap.upholds_transplant

/-- Every step keeps the accounts right, whatever it is given. -/
theorem Step.preservesAccounts (step : Step) : PreservesAccounts limits step.run := by
  have hi := indifferent_accounted limits
  rcases step.isOrdinary_or with hstep | ⟨object, space, rfl⟩ | ⟨id, rfl | rfl⟩
  · exact hi.lasting.step hstep fun _ => hi.ignoresTexts
  · exact (hi.uniform.impartial.allocate object space).bind fun _ => upholds_pure
  · exact upholds_persist fun _ hs => hs
  · exact fun s hs => hs

/-! ## Runs -/

/-- The limit of bytes for each space. -/
def Config.spaceBytes (config : Config) : Space → Nat
  | .young => config.youngBytes
  | .old => config.oldBytes

theorem accounted_of_setup {hash : List UInt16 → UInt64} {config : Config}
    {outages : Option Outages} {s : Store}
    (hrun : StoreM.handleScope StoreM.makeCanonical (.blankWith hash config outages) = .ok () s) :
    s.heap.Accounted config.spaceBytes :=
  ((indifferent_accounted config.spaceBytes).lasting.setup _ (Heap.accounted_empty _)).of_ok hrun

/-- The stores that can be attained by any steps, with whatever arguments, and whether they have
results or fail.  Only the failure to count the objects of a space in a machine word ends a
run, if they have come to be that many bytes. -/
inductive Attained : Store → Prop
  | setup {hash : List UInt16 → UInt64} {config : Config} {outages : Option Outages} {s : Store}
      (hrun : StoreM.handleScope StoreM.makeCanonical (.blankWith hash config outages) = .ok () s) :
      Attained s
  | done {step : Step} {s s' : Store} {outcome : Outcome} (hs : Attained s)
      (hrun : step.run s = .ok outcome s') : Attained s'
  | failed {step : Step} {s s' : Store} {e : Fault} (hs : Attained s)
      (hrun : step.run s = .error e s') (hcounts : e = .wordOverflow → ¬ s'.heap.Overfull) :
      Attained s'

variable {s : Store}

theorem Attained.accounted (hs : Attained s) : ∃ limits, s.heap.Accounted limits := by
  -- on the run: a failure leaves the accounts right, too, but for an overfull space
  induction hs with
  | setup hrun => exact ⟨_, accounted_of_setup hrun⟩
  | @done step _ _ _ _ hrun ih =>
      obtain ⟨limits, hs⟩ := ih
      exact ⟨limits, (step.preservesAccounts _ hs).of_ok hrun⟩
  | @failed step _ _ _ _ hrun hcounts ih =>
      obtain ⟨limits, hs⟩ := ih
      refine ⟨limits, ((step.preservesAccounts _ hs).of_error hrun).resolve_right ?_⟩
      exact fun hfull => hcounts hfull.1 hfull.2

/-- The bytes in use in a space are what the objects measure that are in it now. -/
theorem Attained.accounting (hs : Attained s) (space : Space) :
    (s.heap.arena space).used =
      ((s.heap.arena space).residents.map fun r => r.object.size).sum := by
  obtain ⟨limits, hs⟩ := hs.accounted
  exact (hs space).used_eq_objectBytes

theorem WellRooted.attained (hs : WellRooted s) : Attained s := by
  induction hs with
  | setup _ hrun => exact .setup hrun
  | step _ hstep ih =>
      rcases hstep.2 with ⟨outcome, hrun⟩ | ⟨e, hrun, he⟩
      · exact .done ih hrun
      · exact .failed ih hrun fun hover => absurd hover he

/-- In a well-rooted store the limits of the spaces are the configured ones. -/
theorem WellRooted.accounted (hs : WellRooted s) : s.heap.Accounted s.config.spaceBytes := by
  induction hs with
  | setup _ hrun => exact (ready_of_setup hrun).2.1 ▸ accounted_of_setup hrun
  | @step step _ _ hs hstep ih =>
      obtain ⟨_, ha⟩ := hstep.alters hs.ready.1 hs.ready.2
      rw [ha.config]
      rcases hstep.2 with ⟨outcome, hrun⟩ | ⟨e, hrun, he⟩
      · exact (step.preservesAccounts _ ih).of_ok hrun
      · exact ((step.preservesAccounts _ ih).of_error hrun).resolve_right fun hfull => he hfull.1

/-- A composite that was flattened and then promoted, a dictionary that outgrew its first table,
and a shape in the cache of a context. -/
theorem Attained.accounting_promoted : ∃ s : Store, Attained s ∧
    s.heap.find ⟨10⟩ = .ok (.string (.flat (.ofText "abcdefghijklmn") false)) ∧
    s.heap.spaceOf ⟨10⟩ = .ok .old ∧
    (s.heap.find ⟨11⟩).map Object.size = .ok (Object.size (.dictionary (.empty .number 7))) ∧
    (s.heap.find ⟨14⟩).map Object.kind = .ok .shapeCache ∧
    ∀ space, (s.heap.arena space).used =
      ((s.heap.arena space).residents.map fun r => r.object.size).sum := by
  have hcheck : (((Store.create {} none).toOption.bind (replay (joinTexts .young ++
      [.perform (.flatten ⟨10⟩), .perform (.newDictionary .number 3),
        .perform (.dictionaryPutIndex ⟨11⟩ 0 .null), .perform (.dictionaryPutIndex ⟨11⟩ 1 .null),
        .perform (.dictionaryPutIndex ⟨11⟩ 2 .null), .perform (.dictionaryPutIndex ⟨11⟩ 3 .null),
        .perform .newNativeContext, .perform (.shapeFor ⟨13⟩ #[⟨7⟩, ⟨6⟩]),
        .perform (.collectGarbage .young)]))).any fun s =>
      decide (s.heap.find ⟨10⟩ = .ok (.string (.flat (.ofText "abcdefghijklmn") false))) &&
        decide (s.heap.spaceOf ⟨10⟩ = .ok .old) &&
        decide ((s.heap.find ⟨11⟩).map Object.size =
          .ok (Object.size (.dictionary (.empty .number 7)))) &&
        decide ((s.heap.find ⟨14⟩).map Object.kind = .ok .shapeCache)) = true := by
    decide +kernel
  obtain ⟨s, hs, hcheck⟩ := WellRooted.exists_replay hcheck
  simp only [Bool.and_eq_true, decide_eq_true_eq] at hcheck
  obtain ⟨⟨⟨hflat, hold⟩, hgrown⟩, hcache⟩ := hcheck
  exact ⟨s, hs.attained, hflat, hold, hgrown, hcache, hs.attained.accounting⟩

end ManagedHeap
