import ManagedHeap.Proofs.Store.Operations
import ManagedHeap.Proofs.Store.Setup
import Mathlib.Logic.Relation

/-!
# Well-rooted runs

A client of a store takes one step after the other: it carries out operations, asks
questions, closes scopes, and may forbid allocations or change the plan of outages between
its operations.  A step is rooted if the store holds every object that the step is given,
and if it places no object that was made by hand.

A store is well rooted if a client can come to it from the setup of a store, whatever the
configuration, the hash function and the plan of outages are, by rooted steps only.  Steps
that fail count: the client may go on after a failure.  Only a sum of bytes that does not
fit a machine word ends the run, since it stops a collection half-way.

Every well-rooted store is ready (`WellRooted.ready`), and a rooted step leaves of what is
held before and afterwards what it says it leaves (`WellRooted.alters`).  What it gives out is
held afterwards (`Step.Rooted.gives`).
-/

namespace ManagedHeap

/-! ## Questions -/

/-- What can be asked about objects and values. -/
inductive Question where
  | object (id : Handle)
  | space (id : Handle)
  | text (id : Handle)
  | unit (id : Handle) (i : Nat)
  | content (id : Handle)
  | sameText (a b : Handle)
  | number (value : Value)
  | display (value : Value)
deriving DecidableEq, Repr

namespace Question

def handles : Question → List Handle
  | .object id => [id]
  | .space id => [id]
  | .text id => [id]
  | .unit id _ => [id]
  | .content id => [id]
  | .sameText a b => [a, b]
  | .number value => value.handle?.toList
  | .display value => value.handle?.toList

/-- Asks a question.  What is of interest here is whether there is an answer. -/
def ask (h : Heap) : Question → Except Fault Unit
  | .object id => discard (h.find id)
  | .space id => discard (h.spaceOf id)
  | .text id => discard (h.text id)
  | .unit id i => discard (h.unitAt id i)
  | .content id => discard (h.content id)
  | .sameText a b => discard (h.sameText a b)
  | .number value => discard (h.number? value)
  | .display value => discard (h.display value)

end Question

/-- A question fails where the reader below it fails. -/
theorem error_of_discard {α : Type} {r : Except Fault α} {e : Fault}
    (hfail : (discard r : Except Fault Unit) = .error e) : r = .error e := by
  cases r with
  | ok a => cases hfail
  | error e' =>
      cases hfail
      rfl

theorem discard_ne_dead {α : Type} {r : Except Fault α} (hr : r ≠ .error .deadObject) :
    (discard r : Except Fault Unit) ≠ .error .deadObject :=
  fun hfail => hr (error_of_discard hfail)

theorem Heap.Readable.unitAt_ne_dead {h : Heap} {config : Config} {held : Handle → Prop}
    {id : Handle} (hr : h.Readable config held) (hid : held id) (i : Nat) :
    h.unitAt id i ≠ .error .deadObject := by
  cases htext : h.text id with
  | ok t =>
      obtain ⟨w, hw, -⟩ := hr.spells hid htext
      exact (hr.reads_unitAt hid hw).ne_dead
  | error e =>
      have he := (hr.reads_text hid).ne_dead
      unfold Heap.unitAt
      cases h.pathBound i with
      | zero => simp [Heap.unitWithin]
      | succ steps => simpa [Heap.unitWithin, htext, bind, Except.bind] using he

/-- A question about held objects does not come to a dead one. -/
theorem Question.ask_ne_dead {s : Store} {question : Question} (hs : s.Sound)
    (hgiven : ∀ id ∈ question.handles, s.Holds id) :
    question.ask s.heap ≠ .error .deadObject := by
  unfold Question.handles at hgiven
  cases question with
  | object id => exact discard_ne_dead (hs.find_ne_dead (hgiven id (by simp)))
  | space id => exact discard_ne_dead (hs.spaceOf_ne_dead (hgiven id (by simp)))
  | text id => exact discard_ne_dead (hs.readable.reads_text (hgiven id (by simp))).ne_dead
  | unit id i => exact discard_ne_dead (hs.readable.unitAt_ne_dead (hgiven id (by simp)) i)
  | content id => exact discard_ne_dead (hs.readable.reads_content (hgiven id (by simp))).ne_dead
  | sameText a b =>
      exact discard_ne_dead
        (hs.readable.reads_sameText (hgiven a (by simp)) (hgiven b (by simp))).ne_dead
  | number value =>
      exact discard_ne_dead (hs.readable.reads_number? (holdsValue_of_given hgiven)).ne_dead
  | display value =>
      exact discard_ne_dead (hs.readable.reads_display (holdsValue_of_given hgiven)).ne_dead

/-! ## Steps -/

/-- What a client of a store does at a time. -/
inductive Step where
  | perform (op : Operation)
  | ask (question : Question)
  | closeScope (mark : StoreM.ScopeMark)
  /-- Closes a scope and keeps an object alive in the outer one. -/
  | escape (mark : StoreM.ScopeMark) (id : Handle)
  | enterGate
  | leaveGate
  | plan (outages : Option Outages)

namespace Step

variable {s s' : Store} {step : Step}

def run : Step → StoreM Outcome
  | .perform op => op.run
  | .ask question => do
    StoreM.inspect question.ask
    return .done
  | .closeScope mark => do
    StoreM.closeScope mark
    return .done
  | .escape mark id => do
    StoreM.closeScope mark
    return .handle (← StoreM.track id)
  | .enterGate => do
    StoreM.enterGate
    return .done
  | .leaveGate => do
    StoreM.leaveGate
    return .done
  | .plan outages => do
    modify fun s => { s with outages }
    return .done

/-- The objects that a step is given. -/
def handles : Step → List Handle
  | .perform op => op.handles
  | .ask question => question.handles
  | .escape _ id => [id]
  | _ => []

/-- The changes in place that a step makes. -/
def Changes : Step → Handle → Object → Object → Prop
  | .perform op => op.Changes
  | _ => fun _ o o' => o = o'

/-- The handles that a step may give out for another object than they named before. -/
def Reuses : Step → Outcome → Handle → Prop
  | .perform op => op.Reuses
  | _ => fun _ _ => False

theorem Changes.refl (step : Step) (id : Handle) (o : Object) : step.Changes id o o := by
  cases step with
  | perform op => exact .same o
  | _ => rfl

/-- The ways in which a step changes an object in place: a string settles, a layout grows, or
something is put into an array or into a dictionary. -/
theorem Changes.inv {id : Handle} {o o' : Object} (hchange : step.Changes id o o') :
    o.Settles o' ∨ o.Grows o' ∨
      (∃ items index value, o = .array items ∧ o' = .array (items.setIfInBounds index value)) ∨
      ∃ d key value, o = .dictionary d ∧ o' = .dictionary (d.insert key value) := by
  cases step with
  | perform op =>
      cases hchange with
      | same => exact Or.inl (.refl o)
      | flatten hs | slice hs | internString hs => exact Or.inl hs
      | shapeFor hg | newLiteral hg | newFunctionWithPrototype hg => exact Or.inr (Or.inl hg)
      | arraySet items => exact Or.inr (Or.inr (Or.inl ⟨items, _, _, rfl, rfl⟩))
      | dictionaryPutName d => exact Or.inr (Or.inr (Or.inr ⟨d, _, _, rfl, rfl⟩))
      | dictionaryPutIndex d => exact Or.inr (Or.inr (Or.inr ⟨d, _, _, rfl, rfl⟩))
  | _ =>
      obtain rfl : o = o' := hchange
      exact Or.inl (.refl o)

/-- There is nothing to change in an empty array. -/
theorem Changes.emptyArray {id : Handle} {o : Object} (hchange : step.Changes id (.array #[]) o) :
    o = .array #[] := by
  rcases hchange.inv with hs | hg | ⟨items, index, value, hitems, rfl⟩ | ⟨_, _, _, hnone, -⟩
  · cases hs
    rfl
  · cases hg
    rfl
  · obtain rfl := Object.array.inj hitems
    rfl
  · exact nomatch hnone

/-- The store holds what the step is given, and the step places no object made by hand. -/
structure Rooted (step : Step) (s : Store) : Prop where
  given : ∀ id ∈ step.handles, s.Holds id
  plain : ∀ object space, step ≠ .perform (.allocate object space)

/-- A step that ended with a result has let go of what a handle named, so that a collection
gave the handle free, and has given it out again for a new object. -/
structure LetsGo (step : Step) (outcome : Outcome) (s s' : Store) (id : Handle) : Prop where
  lost : ¬ s'.heap.Reaches (s.roots []) id
  collected : s.collections < s'.collections
  reused : step.Reuses outcome id

/-- A step leads from one store to another one with a result, or by a failure after which
the client can go on. -/
def Leads (step : Step) (s s' : Store) : Prop :=
  step.Rooted s ∧
    ((∃ outcome, step.run s = .ok outcome s') ∨ ∃ e, step.run s = .error e s' ∧ e ≠ .wordOverflow)

end Step

/-- The stores that a client can come to. -/
inductive WellRooted : Store → Prop
  | setup {hash : List UInt16 → UInt64} {config : Config} {outages : Option Outages} {s : Store}
      (hvalid : config.error? = none)
      (hrun : StoreM.handleScope StoreM.makeCanonical (.blankWith hash config outages) = .ok () s) :
      WellRooted s
  | step {step : Step} {s s' : Store} (hs : WellRooted s) (hstep : step.Leads s s') :
      WellRooted s'

open Store

variable {s s' : Store} {step : Step}

/-! ## What a step leaves -/

theorem Step.Rooted.performs {op : Operation} (hr : (Step.perform op).Rooted s) (hs : s.Ready)
    (hvalid : s.config.error? = none) : op.Performs s :=
  op.performs hs hvalid hr.given fun object space hop =>
    hr.plain object space (congrArg Step.perform hop)

/-- A rooted step keeps a store ready and leaves what it says it leaves. -/
theorem Step.Rooted.alters (hr : step.Rooted s) (hs : s.Ready) (hvalid : s.config.error? = none) :
    Ends step.run s (fun outcome s' => s.Alters step.Changes (step.Reuses outcome) s')
      (fun e s' => e ≠ .deadObject ∧
        (e = .wordOverflow ∨ s.Alters step.Changes (fun _ => False) s')) := by
  have hcounts {outcome : Outcome} {s' : Store} (hreroots : s.Reroots s')
      (hroots : ∀ id ∈ s'.ownRoots, s.Holds id) :
      s.Alters step.Changes (step.Reuses outcome) s' :=
    hreroots.alters hs (Step.Changes.refl step) hroots
  have hrefl : s.Reroots s := ⟨rfl, rfl, rfl, rfl, rfl, rfl⟩
  -- but for operations a step changes at most the roots, and these to what is held
  cases step with
  | perform op =>
      exact (hr.performs hs hvalid).mono (fun _ _ hend => hend.1) fun _ _ hfail => hfail
  | ask question =>
      have hnot := Question.ask_ne_dead hs.toSound hr.given
      unfold Step.run
      rw [ends_bind, ends_inspect]
      refine ⟨fun _ _ => hcounts hrefl fun _ => hs.holds_of_ownRoot, fun e he => ⟨?_, Or.inr ?_⟩⟩
      · rintro rfl
        exact hnot he
      · exact hrefl.alters hs (fun _ => Step.Changes.refl _ _) fun _ => hs.holds_of_ownRoot
  | closeScope mark => exact hcounts ⟨rfl, rfl, rfl, rfl, rfl, rfl⟩ fun _ => hs.holds_of_closeScope
  | escape mark id =>
      exact hcounts ⟨rfl, rfl, rfl, rfl, rfl, rfl⟩ fun _ =>
        hs.holds_of_escape (hr.given id (by simp [Step.handles]))
  | enterGate =>
      unfold Step.run
      rw [ends_bind]
      refine (ends_enterGate s).mono ?_ ?_
      · rintro _ s' ⟨-, rfl⟩
        exact hcounts ⟨rfl, rfl, rfl, rfl, rfl, rfl⟩ fun _ => hs.holds_of_ownRoot
      · rintro e s' ⟨-, rfl, rfl⟩
        exact ⟨by simp, Or.inr (hrefl.alters hs (fun _ => Step.Changes.refl _ _)
          fun _ => hs.holds_of_ownRoot)⟩
  | leaveGate => exact hcounts ⟨rfl, rfl, rfl, rfl, rfl, rfl⟩ fun _ => hs.holds_of_ownRoot
  | plan outages => exact hcounts ⟨rfl, rfl, rfl, rfl, rfl, rfl⟩ fun _ => hs.holds_of_ownRoot

/-- What a rooted step gives out is held, unless it is a canonical string that was looked up. -/
theorem Step.Rooted.gives (hr : step.Rooted s) (hs : s.Ready) (hvalid : s.config.error? = none)
    (hanswers : s.HoldsAnswers) :
    Ends step.run s
      (fun outcome s' => ∀ found ∈ outcome.handle?, s'.Holds found ∨
        ∃ id, step = .perform (.interned id) ∧ s.FindsUnheld id found s')
      fun _ _ => True := by
  have hdone {s' : Store} : ∀ found ∈ Outcome.done.handle?, s'.Holds found ∨
      ∃ id, step = .perform (.interned id) ∧ s.FindsUnheld id found s' := by
    intro found hfound
    simp [Outcome.handle?, Outcome.value?] at hfound
  cases step with
  | perform op =>
      refine (hr.performs hs hvalid).mono (fun outcome s' hend found hfound => ?_)
        fun _ _ _ => trivial
      rcases hend.2 hanswers found hfound with hheld | ⟨id, hop, hfinds⟩
      · exact Or.inl hheld
      · exact Or.inr ⟨id, congrArg Step.perform hop, hfinds⟩
  | ask question =>
      unfold Step.run
      rw [ends_bind, ends_inspect]
      exact ⟨fun _ _ => hdone, fun _ _ => trivial⟩
  | escape mark id =>
      -- the handle that is given out is the one that was pushed onto the outer scope
      intro found hfound
      obtain rfl : id = found := by
        simpa [Outcome.handle?, Outcome.value?, Outcome.handle, Value.handle?] using hfound
      refine Or.inl (holds_of_root (mem_roots.mpr (Or.inr (Or.inl ?_)))
        (hr.given id (by simp [Step.handles])).live)
      simp [ownRoots]
  | closeScope mark => exact hdone
  | enterGate =>
      unfold Step.run
      rw [ends_bind]
      exact (ends_enterGate s).mono (fun _ _ _ => hdone) fun _ _ _ => trivial
  | leaveGate => exact hdone
  | plan outages => exact hdone

/-- Wherever a step leads, it leaves what it says it leaves. -/
theorem Step.Leads.alters (hl : step.Leads s s') (hs : s.Ready) (hvalid : s.config.error? = none) :
    ∃ given, s.Alters step.Changes given s' := by
  obtain ⟨hr, ⟨outcome, hrun⟩ | ⟨e, hrun, he⟩⟩ := hl
  · exact ⟨_, (hr.alters hs hvalid).of_ok hrun⟩
  · exact ⟨_, ((hr.alters hs hvalid).of_error hrun).2.resolve_left he⟩

/-- The invariant of well-rooted runs. -/
theorem WellRooted.ready (hs : WellRooted s) : s.Ready ∧ s.config.error? = none := by
  induction hs with
  | setup hvalid hrun =>
      obtain ⟨hready, hconfig, -⟩ := ready_of_setup hrun
      exact ⟨hready, hconfig ▸ hvalid⟩
  | step _ hstep ih =>
      obtain ⟨given, ha⟩ := hstep.alters ih.1 ih.2
      exact ⟨ha.ready, ha.config ▸ ih.2⟩

theorem WellRooted.alters (hs : WellRooted s) (hr : step.Rooted s) :
    Ends step.run s (fun outcome s' => s.Alters step.Changes (step.Reuses outcome) s')
      (fun e s' => e ≠ .deadObject ∧
        (e = .wordOverflow ∨ s.Alters step.Changes (fun _ => False) s')) :=
  hr.alters hs.ready.1 hs.ready.2

/-- The empty string of a store is empty, since it is a root that no step takes away. -/
theorem WellRooted.spells_emptyString (hs : WellRooted s) :
    s.heap.Spells s.canonical.emptyString [] := by
  induction hs with
  | setup hvalid hrun => exact (ready_of_setup hrun).2.2.emptyString
  | @step step s s' hs hstep ih =>
      have hready := hs.ready.1
      obtain ⟨given, ha⟩ := hstep.alters hready hs.ready.2
      have hempty : s.canonical.emptyString ∈ s.canonical.toList := by simp [Canonical.toList]
      have hafter : s'.Holds s.canonical.emptyString :=
        ha.ready.holds_canonical (ha.canonical ▸ hempty)
      rw [ha.canonical]
      exact (ha.remains_of_root hready (mem_roots.mpr (Or.inr (Or.inr hempty))) hafter).spells _ ih

/-- The empty array of a store is empty: writing into it is refused at every index. -/
theorem WellRooted.find_emptyArray (hs : WellRooted s) :
    s.heap.find s.canonical.emptyArray = .ok (.array #[]) := by
  induction hs with
  | setup hvalid hrun => exact (ready_of_setup hrun).2.2.emptyArray
  | @step step s s' hs hstep ih =>
      have hready := hs.ready.1
      obtain ⟨given, ha⟩ := hstep.alters hready hs.ready.2
      have hempty : s.canonical.emptyArray ∈ s.canonical.toList := by simp [Canonical.toList]
      have hafter : s'.Holds s.canonical.emptyArray :=
        ha.ready.holds_canonical (ha.canonical ▸ hempty)
      obtain ⟨o, o', ho, ho', hchange⟩ :=
        (ha.remains_of_root hready (mem_roots.mpr (Or.inr (Or.inr hempty))) hafter).object
      obtain rfl := Except.ok.inj (ih.symm.trans ho)
      rw [ha.canonical, ho', hchange.emptyArray]

/-- The cache of the strings of one unit has a place for each narrow unit. -/
theorem WellRooted.size_singles (hs : WellRooted s) : s.singles.size = 256 := by
  induction hs with
  | setup hvalid hrun => exact (ready_of_setup hrun).2.2.singles
  | step hs hstep ih =>
      obtain ⟨given, ha⟩ := hstep.alters hs.ready.1 hs.ready.2
      exact ha.singles.size.trans ih

/-! ## Later stores -/

/-- The stores that a client can come to from a store. -/
def Store.Becomes : Store → Store → Prop :=
  Relation.ReflTransGen fun s s' => ∃ step : Step, step.Leads s s'

theorem Store.Becomes.wellRooted (hlater : s.Becomes s') (hs : WellRooted s) : WellRooted s' := by
  induction hlater with
  | refl => exact hs
  | tail _ hlast ih =>
      obtain ⟨step, hstep⟩ := hlast
      exact ih.step hstep

/-- A string that is in the cache of the strings of one unit stays there for good. -/
theorem Store.Becomes.keepsSingles (hlater : s.Becomes s') (hs : WellRooted s) :
    s.KeepsSingles s' := by
  induction hlater with
  | refl => exact .of_eq rfl
  | tail hfirst hlast ih =>
      obtain ⟨step, hstep⟩ := hlast
      obtain ⟨hready, hvalid⟩ := (Store.Becomes.wellRooted hfirst hs).ready
      obtain ⟨given, ha⟩ := hstep.alters hready hvalid
      exact ih.trans ha.singles

/-! ## New stores -/

/-- A new store is what the setup leaves. -/
theorem Store.setup_of_create {config : Config} {outages : Option Outages}
    (hcreate : Store.create config outages = .ok s) : config.error? = none ∧ ∃ hash,
      StoreM.handleScope StoreM.makeCanonical (.blankWith hash config outages) = .ok () s := by
  unfold Store.create at hcreate
  split at hcreate
  case h_1 => simp at hcreate
  case h_2 hvalid =>
      split at hcreate
      case h_1 hrun =>
          obtain rfl := Except.ok.inj hcreate
          exact ⟨hvalid, _, hrun⟩
      case h_2 => simp at hcreate

/-- A new store is well rooted. -/
theorem WellRooted.of_create {config : Config} {outages : Option Outages}
    (hcreate : Store.create config outages = .ok s) : WellRooted s := by
  obtain ⟨hvalid, hash, hrun⟩ := setup_of_create hcreate
  exact .setup hvalid hrun

/-! ## Replaying a run

Whether a step is given nothing but roots can be computed.  A run of such steps can be
replayed. -/

/-- The step is given roots only, and is not one that places an object made by hand. -/
def Step.isDirect (step : Step) (s : Store) : Bool :=
  (step.handles.all fun id => s.heap.isLive id && (s.roots []).contains id) &&
    match step with
    | .perform (.allocate _ _) => false
    | _ => true

theorem Step.rooted_of_isDirect (hdirect : step.isDirect s = true) : step.Rooted s := by
  unfold Step.isDirect at hdirect
  rw [Bool.and_eq_true, List.all_eq_true] at hdirect
  refine ⟨?_, ?_⟩
  · intro id hid
    have hroot := hdirect.1 id hid
    rw [Bool.and_eq_true, List.contains_iff_mem] at hroot
    exact holds_of_root hroot.2 hroot.1
  · rintro object space rfl
    simp at hdirect

/-- Where some steps lead that are given roots only and that all have a result. -/
def replay : List Step → Store → Option Store
  | [], s => some s
  | step :: rest, s =>
    if step.isDirect s then
      match step.run s with
      | .ok _ s' => replay rest s'
      | .error _ _ => none
    else none

theorem Step.result_of_replay {rest : List Step} (hrun : replay (step :: rest) s = some s') :
    ∃ outcome between, step.Rooted s ∧ step.run s = .ok outcome between ∧
      replay rest between = some s' := by
  unfold replay at hrun
  split at hrun
  case isTrue hdirect =>
      split at hrun
      case h_1 outcome between hstep =>
          exact ⟨outcome, between, step.rooted_of_isDirect hdirect, hstep, hrun⟩
      case h_2 => simp at hrun
  case isFalse => simp at hrun

theorem Step.result_of_replay_single (hrun : replay [step] s = some s') :
    step.Rooted s ∧ ∃ outcome, step.run s = .ok outcome s' := by
  obtain ⟨outcome, between, hr, hstep, hrest⟩ := Step.result_of_replay hrun
  obtain rfl : between = s' := by simpa [replay] using hrest
  exact ⟨hr, outcome, hstep⟩

theorem Store.becomes_of_replay {steps : List Step} (hrun : replay steps s = some s') :
    s.Becomes s' := by
  induction steps generalizing s with
  | nil =>
      obtain rfl : s = s' := by simpa [replay] using hrun
      exact .refl
  | cons step rest ih =>
      obtain ⟨outcome, between, hr, hstep, hrest⟩ := Step.result_of_replay hrun
      exact .head ⟨step, hr, Or.inl ⟨outcome, hstep⟩⟩ (ih hrest)

theorem WellRooted.of_replay {steps : List Step} (hs : WellRooted s)
    (hrun : replay steps s = some s') : WellRooted s' :=
  (becomes_of_replay hrun).wellRooted hs

/-- Steps that can be replayed from a new store, and the store that they lead to. -/
theorem Store.exists_replay {config : Config} {steps : List Step} {p : Store → Bool}
    (hcheck : ((Store.create config none).toOption.bind (replay steps)).any p = true) :
    ∃ s₀ s, Store.create config none = .ok s₀ ∧ replay steps s₀ = some s ∧ p s = true := by
  rw [Option.any_eq_true] at hcheck
  obtain ⟨s, hs, hp⟩ := hcheck
  obtain ⟨s₀, hs₀, hrun⟩ := Option.bind_eq_some_iff.mp hs
  cases hcreate : Store.create config none with
  | ok s₁ =>
      obtain rfl : s₁ = s₀ := by simpa [hcreate, Except.toOption] using hs₀
      exact ⟨s₁, s, rfl, hrun, hp⟩
  | error e => simp [hcreate, Except.toOption] at hs₀

/-- A store that some steps lead to from a new store. -/
theorem WellRooted.exists_replay {config : Config} {steps : List Step} {p : Store → Bool}
    (hcheck : ((Store.create config none).toOption.bind (replay steps)).any p = true) :
    ∃ s, WellRooted s ∧ p s = true := by
  obtain ⟨s₀, s, hcreate, hrun, hp⟩ := Store.exists_replay hcheck
  exact ⟨s, .of_replay (.of_create hcreate) hrun, hp⟩

/-- Whether an object is a live root. -/
def Store.isLiveRoot (s : Store) (id : Handle) : Bool :=
  s.heap.isLive id && (s.roots []).contains id

theorem Store.holds_of_isLiveRoot {id : Handle} (hroot : s.isLiveRoot id = true) : s.Holds id := by
  rw [isLiveRoot, Bool.and_eq_true, List.contains_iff_mem] at hroot
  exact holds_of_root hroot.2 hroot.1

/-- The result of a computation and the store that it leaves. -/
def Store.result? {α : Type} (s : Store) (m : StoreM α) : Option (α × Store) :=
  match m s with
  | .ok a s' => some (a, s')
  | .error _ _ => none

theorem Store.ok_of_result? {α : Type} {m : StoreM α} {result : α × Store}
    (hresult : s.result? m = some result) : m s = .ok result.1 result.2 := by
  unfold result? at hresult
  split at hresult
  case h_1 hrun => exact Option.some.inj hresult ▸ hrun
  case h_2 => simp at hresult

/-- The fault that a computation ends with. -/
def Store.fault? {α : Type} (s : Store) (m : StoreM α) : Option Fault :=
  match m s with
  | .ok _ _ => none
  | .error e _ => some e

theorem Store.fault?_of_ok {α : Type} {m : StoreM α} {a : α} (hrun : m s = .ok a s') :
    s.fault? m = none := by
  unfold fault?
  rw [hrun]

theorem Store.error_of_fault? {α : Type} {m : StoreM α} {e : Fault}
    (hfault : s.fault? m = some e) : ∃ s', m s = .error e s' := by
  unfold fault? at hfault
  split at hfault
  case h_1 => simp at hfault
  case h_2 hrun => exact ⟨_, Option.some.inj hfault ▸ hrun⟩

/-- Makes two texts and their concatenation, which alone is kept.  In a new store these are
the objects 8, 9 and 10. -/
def joinTexts (space : Space) : List Step :=
  [.perform (.newText "abcdefg" space), .perform (.newText "hijklmn" space),
    .perform (.concat ⟨8⟩ ⟨9⟩), .escape ⟨0⟩ ⟨10⟩]

end ManagedHeap
