import ManagedHeap.Proofs.WellRooted

/-!
# Collections are safe

Nothing that a well-rooted store can come to is dead (`Store.Safe`): its roots, what the
objects refer to that the roots lead to, the texts of numbers, and the canonical strings of
its table.  So no rooted step comes to a dead object.

A handle stays reachable during a step if it is held before and afterwards, and the step has
not let go of it on the way (`Step.Keeps`).  A step that flattens a string lets go of its
parts.  If one of them is collected before the step places its result, then the result can
get its handle, so that the handle is held again; this is the only way in which a handle can
be held before and afterwards without staying reachable.

As long as a handle stays reachable it names one object, whatever was allocated and collected
meanwhile.  What a run of steps makes of that object is what its steps make of it one after
the other (`Step.ChangesAll`).
-/

namespace ManagedHeap

open Store

variable {s s' s'' : Store} {id : Handle} {o o' : Object} {step : Step} {steps : List Step}

/-! ## What has to be alive -/

/-- Nothing that the store can come to is dead. -/
structure Store.Safe (s : Store) : Prop where
  roots : ∀ id ∈ s.roots [], s.heap.isLive id = true
  children : ∀ id o c, s.heap.Reaches (s.roots []) id → s.heap.find id = .ok o →
    c ∈ o.children → s.heap.isLive c = true
  numberTexts : ∀ e ∈ s.numberTexts, s.heap.isLive e.2 = true
  table : ∀ e ∈ s.table.entries, s.heap.isLive e.2 = true

theorem Store.Ready.safe (hs : s.Ready) : s.Safe where
  roots id hid := hs.live_of_root hid
  children id o c hreach hfind hc := (hs.holds_child (hs.holds_iff.mpr hreach) hfind hc).live
  numberTexts e he := (hs.numberTexts e he).isLive
  table e he := by
    obtain ⟨w, ⟨t, u, htext, -⟩, -⟩ := hs.table.entries e he
    exact Heap.isLive_of_find (Heap.text_eq_ok.mp htext)

/-! ## One step -/

/-- The handle stays reachable while a step leads from one store to the other. -/
structure Step.Keeps (step : Step) (id : Handle) (s s' : Store) : Prop where
  rooted : step.Rooted s
  before : s.Holds id
  after : s'.Holds id
  run : (∃ outcome, step.run s = .ok outcome s' ∧ ¬ step.LetsGo outcome s s' id) ∨
    ∃ e, step.run s = .error e s' ∧ e ≠ .wordOverflow

theorem Step.Keeps.leads (hk : step.Keeps id s s') : step.Leads s s' :=
  ⟨hk.rooted, hk.run.imp_left fun ⟨outcome, hrun, _⟩ => ⟨outcome, hrun⟩⟩

/-- What a step leaves of an object whose handle stays reachable. -/
theorem Step.Keeps.remains (hk : step.Keeps id s s') (hs : WellRooted s) :
    Remains step.Changes s s' id := by
  rcases hk.run with ⟨outcome, hrun, hkept⟩ | ⟨e, hrun, he⟩
  · have ha := (hs.alters hk.rooted).of_ok hrun
    apply (ha.remains id hk.before hk.after).resolve_right
    exact fun ⟨hreused, hlost, hless⟩ => hkept ⟨hlost, hless, hreused⟩
  · have ha := ((hs.alters hk.rooted).of_error hrun).2.resolve_left he
    exact (ha.remains id hk.before hk.after).resolve_right fun hgiven => hgiven.1

/-- No change in place makes an object one of another kind. -/
theorem Step.Changes.kind (hchange : step.Changes id o o') : o'.kind = o.kind := by
  rcases hchange.inv with hs | hg | ⟨_, _, _, rfl, rfl⟩ | ⟨_, _, _, rfl, rfl⟩
  · cases hs <;> rfl
  · cases hg <;> rfl
  · rfl
  · rfl

/-! ## Runs -/

/-- A run of steps during which a handle stays reachable. -/
inductive Step.Keeping (id : Handle) : List Step → Store → Store → Prop
  | nil (s : Store) : Keeping id [] s s
  | cons {step : Step} {steps : List Step} {s s' s'' : Store} (hstep : step.Keeps id s s')
      (hrest : Keeping id steps s' s'') : Keeping id (step :: steps) s s''

/-- The steps change the object one after the other. -/
def Step.ChangesAll (id : Handle) : List Step → Object → Object → Prop
  | [], o, o' => o = o'
  | step :: steps, o, o' => ∃ between, step.Changes id o between ∧ ChangesAll id steps between o'

theorem Step.ChangesAll.kind (hchange : Step.ChangesAll id steps o o') : o'.kind = o.kind := by
  induction steps generalizing o with
  | nil =>
      obtain rfl : o = o' := hchange
      rfl
  | cons step steps ih =>
      obtain ⟨between, hfirst, hrest⟩ := hchange
      exact (ih hrest).trans hfirst.kind

/-- As long as a handle stays reachable it names one object. -/
theorem Step.Keeping.object (hk : Step.Keeping id steps s s') (hs : WellRooted s)
    (hid : s.Holds id) : ∃ o o', s.heap.find id = .ok o ∧ s'.heap.find id = .ok o' ∧
      Step.ChangesAll id steps o o' := by
  -- on the run: the store is well rooted before each step, so that the step leaves the object but
  -- for its changes
  induction hk with
  | nil s =>
      obtain ⟨o, ho⟩ := hs.ready.1.find hid
      exact ⟨o, o, ho, ho, rfl⟩
  | cons hstep _ ih =>
      obtain ⟨o, between, ho, hbetween, hfirst⟩ := (hstep.remains hs).object
      obtain ⟨o₁, o', ho₁, ho', hrest⟩ := ih (hs.step hstep.leads) hstep.after
      obtain rfl := Except.ok.inj (hbetween.symm.trans ho₁)
      exact ⟨o, o', ho, ho', between, hfirst, hrest⟩

/-- Every well-rooted store is safe; no rooted step comes to a dead object there; and
whatever run of steps follows, a handle that stays reachable during it keeps naming the same
object, with the changes in place that these very steps make. -/
theorem WellRooted.collection_safety (hs : WellRooted s) :
    s.Safe ∧
    (∀ step : Step, step.Rooted s → ∀ s', step.run s ≠ .error .deadObject s') ∧
    ∀ id steps s', s.Holds id → Step.Keeping id steps s s' →
      ∃ o o', s.heap.find id = .ok o ∧ s'.heap.find id = .ok o' ∧ o'.kind = o.kind ∧
        Step.ChangesAll id steps o o' := by
  refine ⟨hs.ready.1.safe, ?_, ?_⟩
  · intro step hr s' hrun
    exact ((hs.alters hr).of_error hrun).1 rfl
  · intro id steps s' hid hk
    obtain ⟨o, o', ho, ho', hchange⟩ := hk.object hs hid
    exact ⟨o, o', ho, ho', hchange.kind, hchange⟩

/-- A composite that is the only root left, and a collection that moves it and its parts to
the old space. -/
theorem WellRooted.collection_safety_composite : ∃ s s' : Store,
    Step.Keeping ⟨10⟩ [.perform (.collectGarbage .young)] s s' ∧
    s.heap.spaceOf ⟨10⟩ = .ok .young ∧ s'.heap.spaceOf ⟨10⟩ = .ok .old ∧ s.Safe ∧
    (∀ step : Step, step.Rooted s → ∀ s', step.run s ≠ .error .deadObject s') ∧
    ∃ o o', s.heap.find ⟨10⟩ = .ok o ∧ s'.heap.find ⟨10⟩ = .ok o' ∧ o'.kind = o.kind ∧
      Step.ChangesAll ⟨10⟩ [.perform (.collectGarbage .young)] o o' := by
  have hcheck : (((Store.create {} none).toOption.bind (replay (joinTexts .young))).any fun s =>
      (s.roots []).contains ⟨10⟩ && s.heap.isLive ⟨10⟩ &&
        decide (s.heap.spaceOf ⟨10⟩ = .ok .young) &&
        (replay [.perform (.collectGarbage .young)] s).any fun s' =>
          (s'.roots []).contains ⟨10⟩ && s'.heap.isLive ⟨10⟩ &&
            decide (s'.heap.spaceOf ⟨10⟩ = .ok .old)) = true := by
    decide +kernel
  obtain ⟨s, hs, hcheck⟩ := WellRooted.exists_replay hcheck
  simp only [Bool.and_eq_true, List.contains_iff_mem, decide_eq_true_eq,
    Option.any_eq_true] at hcheck
  obtain ⟨⟨⟨hroot, hlive⟩, hyoung⟩, s', hrun, ⟨hroot', hlive'⟩, hold⟩ := hcheck
  obtain ⟨outcome, between, hr, hstep, hrest⟩ := Step.result_of_replay hrun
  obtain rfl : between = s' := by simpa [replay] using hrest
  have hid := holds_of_root hroot hlive
  have hkeeping : Step.Keeping ⟨10⟩ [.perform (.collectGarbage .young)] s between :=
    .cons ⟨hr, hid, holds_of_root hroot' hlive', Or.inl ⟨outcome, hstep, fun hgo => hgo.reused⟩⟩
      (.nil between)
  obtain ⟨hsafe, halive, hsame⟩ := hs.collection_safety
  exact ⟨s, between, hkeeping, hyoung, hold, hsafe, halive, hsame ⟨10⟩ _ between hid hkeeping⟩

end ManagedHeap
