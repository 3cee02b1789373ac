import ManagedHeap.Proofs.Store.PlainObjects
import ManagedHeap.Store.Contexts

/-!
# Contexts and functions

A context refers to its native context and to what it is made with.  Two objects come to
refer to something that is made after them: a native context to itself, and a function to
its prototype.  Nothing else knows them by then, so that the store adds or grows as if they
had been placed with it.
-/

namespace ManagedHeap

open Store

variable {s s' : Store} {id : Handle} {value closure extension : Value} {slots : Array Value}

/-- A change of an object that was not held at the beginning. -/
theorem Store.Grows.of_fresh {s'' : Store} (hg : s.Grows s') (hfresh : ¬ s.Holds id)
    (he : s'.Extends s'') (hsound : s''.Sound)
    (hfind : ∀ j, j ≠ id → s''.heap.find j = s'.heap.find j) : s.Grows s'' where
  toExtends := hg.toExtends.trans he
  sound := hsound
  grown j hj := by
    obtain ⟨o, o', ho, ho', hgrows⟩ := hg.grown j hj
    exact ⟨o, o', ho, (hfind j fun hjid => hfresh (hjid ▸ hj)).trans ho', hgrows⟩

theorem runs_emptySlots {β : Type} {R E : Store → Store → Prop} {s₀ : Store} {count : Nat}
    {g : Array Value → StoreM β} {Q : β → Store → Prop} (hfail : E s₀ s)
    (hnext : RunsFrom R E s₀ (g (Array.replicate count .undefined)) s Q) :
    RunsFrom R E s₀ (StoreM.emptySlots count >>= g) s Q := by
  unfold StoreM.emptySlots
  rw [bind_assoc]
  exact runs_checkBuffer hfail hnext

theorem holdsValue_of_mem_replicate {count : Nat}
    (hvalue : value ∈ Array.replicate count .undefined) : s.HoldsValue value := by
  obtain rfl := (Array.mem_replicate.mp hvalue).2
  intro j hj
  cases hj

/-! ## Contexts -/

/-- A context inside another one refers to what it is made with. -/
theorem runs_placeInner {previous : Option Handle} {native : Handle} (hs : s.Sound)
    (kind : ContextKind) (space : Space) (hclosure : s.HoldsValue closure)
    (hprevious : ∀ id, previous = some id → s.Holds id) (hextension : s.HoldsValue extension)
    (hnative : s.Holds native) (hslots : ∀ v ∈ slots, s.HoldsValue v) :
    RunsFrom Adds Rests s (StoreM.allocate (.context
      (StoreM.innerContext kind closure previous extension native slots)) space) s
      (fun id s' => s'.Holds id) := by
  refine (runs_place hs space (fun j hj => ?_) (by simp)).weaken fun _ _ _ hp => hp.holds
  simp only [Object.children, StoreM.innerContext, List.mem_append, Option.mem_toList,
    Option.some.injEq, reduceCtorEq, or_false] at hj
  rcases hj with (((hj | hj) | hj) | rfl) | hj
  · exact hclosure j hj
  · exact hextension j hj
  · exact hprevious j hj
  · exact hnative
  · exact holds_of_mem_handlesOf hslots hj

theorem runs_newGlobalContext {inside : Handle} {globalObject : Value} (hs : s.Sound)
    (hinside : s.Holds inside) (hclosure : s.HoldsValue closure)
    (hglobal : s.HoldsValue globalObject) (count : Nat) :
    RunsFrom Adds Rests s (StoreM.newGlobalContext inside closure globalObject count) s
      (fun id s' => s'.Holds id) := by
  unfold StoreM.newGlobalContext
  apply (runs_nativeContextOf hs hinside).bind
  intro native s₁ _ hend
  obtain ⟨rfl, hnative⟩ := hend
  refine runs_emptySlots (.refl hs) (runs_placeInner hs .global .old hclosure ?_ hglobal hnative
    fun _ => holdsValue_of_mem_replicate)
  intro j hj
  cases hj
  exact hnative

theorem holdsValue_undefined : s.HoldsValue .undefined := by
  intro j hj
  cases hj

theorem runs_newModuleContext {inside : Handle} (hs : s.Sound) (hinside : s.Holds inside)
    (count : Nat) : RunsFrom Adds Rests s (StoreM.newModuleContext inside count) s
      (fun id s' => s'.Holds id) := by
  unfold StoreM.newModuleContext
  apply (runs_nativeContextOf hs hinside).bind
  intro native s₁ _ hend
  obtain ⟨rfl, hnative⟩ := hend
  exact runs_emptySlots (.refl hs) (runs_placeInner hs .module .old holdsValue_undefined (by simp)
    holdsValue_undefined hnative fun _ => holdsValue_of_mem_replicate)

theorem runs_newFunctionContext {function : Handle} (hs : s.Sound) (hfunction : s.Holds function)
    (length : Nat) : RunsFrom Adds Rests s (StoreM.newFunctionContext length function) s
      (fun id s' => s'.Holds id) := by
  unfold StoreM.newFunctionContext
  split
  case isTrue => exact ⟨by simp, Or.inr (.refl hs)⟩
  case isFalse =>
      apply runs_closure hs hfunction (.refl hs)
      intro c hc
      have hprevious : s.Holds c.context := hs.holds_child hfunction hc (by simp [Object.children])
      apply (runs_nativeContextOf hs hprevious).bind
      intro native s₁ _ hend
      obtain ⟨rfl, hnative⟩ := hend
      refine runs_emptySlots (.refl hs) (runs_placeInner hs .function .young
        (holdsValue_ref hfunction) ?_ holdsValue_undefined hnative
        fun _ => holdsValue_of_mem_replicate)
      intro j hj
      cases hj
      exact hprevious

theorem runs_newCatchContext {previous name : Handle} {thrown : Value} (hs : s.Sound)
    (hclosure : s.HoldsValue closure) (hprevious : s.Holds previous) (hname : s.Holds name)
    (hthrown : s.HoldsValue thrown) :
    RunsFrom Adds Rests s (StoreM.newCatchContext closure previous name thrown) s
      (fun id s' => s'.Holds id) := by
  unfold StoreM.newCatchContext
  apply (runs_nativeContextOf hs hprevious).bind
  intro native s₁ _ hend
  obtain ⟨rfl, hnative⟩ := hend
  refine runs_placeInner hs .catching .young hclosure ?_ (holdsValue_ref hname) hnative ?_
  · intro j hj
    cases hj
    exact hprevious
  · intro v hv
    obtain rfl : v = thrown := by simpa using hv
    exact hthrown

theorem runs_newWithContext {previous : Handle} (hs : s.Sound) (hclosure : s.HoldsValue closure)
    (hprevious : s.Holds previous) (hextension : s.HoldsValue extension) :
    RunsFrom Adds Rests s (StoreM.newWithContext closure previous extension) s
      (fun id s' => s'.Holds id) := by
  unfold StoreM.newWithContext
  apply (runs_nativeContextOf hs hprevious).bind
  intro native s₁ _ hend
  obtain ⟨rfl, hnative⟩ := hend
  refine runs_placeInner hs .withObject .young hclosure ?_ hextension hnative (by simp)
  intro j hj
  cases hj
  exact hprevious

theorem runs_newBlockContext {previous : Handle} (hs : s.Sound) (hclosure : s.HoldsValue closure)
    (hprevious : s.Holds previous) (count : Nat) :
    RunsFrom Adds Rests s (StoreM.newBlockContext closure previous count) s
      (fun id s' => s'.Holds id) := by
  unfold StoreM.newBlockContext
  apply (runs_nativeContextOf hs hprevious).bind
  intro native s₁ _ hend
  obtain ⟨rfl, hnative⟩ := hend
  refine runs_emptySlots (.refl hs) (runs_placeInner hs .block .young hclosure ?_
    holdsValue_undefined hnative fun _ => holdsValue_of_mem_replicate)
  intro j hj
  cases hj
  exact hprevious

theorem runs_contextSlot (hs : s.Sound) (hid : s.Holds id) (index : Nat) :
    Runs Adds (StoreM.contextSlot id index) s (fun value s' => s'.HoldsValue value) := by
  unfold StoreM.contextSlot
  apply runs_context hs hid (.refl hs)
  intro c hc
  by_cases hheader : index < contextHeaderSlots
  · simp only [hheader, if_true]
    exact ⟨by simp, Or.inr (.refl hs)⟩
  · simp only [hheader, if_false]
    cases hvalue : c.slots[index - contextHeaderSlots]? with
    | none => exact ⟨by simp, Or.inr (.refl hs)⟩
    | some value =>
        refine ⟨.refl hs, fun j hj => hs.holds_child hid hc ?_⟩
        have hmem := Array.mem_of_getElem? hvalue
        simp only [Object.children, List.mem_append]
        exact Or.inr (List.mem_filterMap.mpr ⟨value, by simpa using hmem, hj⟩)

/-- A native context with its object template. -/
theorem runs_newNativeContext (hs : s.Sound) :
    Runs Adds StoreM.newNativeContext s (fun id s' => s'.Holds id) := by
  unfold StoreM.newNativeContext
  apply (runs_place hs .old (by simp [Object.children, Shape.ofNames, Shape.distinct])
    (by simp)).adds.bind
  intro template s₁ ha₁ hp₁
  refine RunsFrom.call (runs_place ha₁.sound .old ?_ (by simp))
    (fun _ hr => ha₁.trans hs hr.adds) ?_
  · intro j hj
    obtain rfl : j = template := by
      simpa [Object.children, Value.handle?, Object.handlesOf] using hj
    exact hp₁.holds
  · intro id s₂ ha₂ hp₂
    have ha : s.Adds s₂ := ha₁.trans hs ha₂
    have hfresh : ¬ s.Holds id := fun hid => hp₂.fresh (ha₁.holds hs hid)
    apply runs_context ha.sound hp₂.holds ha
    intro c hc
    unfold RunsFrom
    rw [ends_bind]
    refine (ends_modifyObject ha.sound.wellFormed hc _).mono ?_ fun _ _ hfail => hfail.elim
    intro _ s₃ hend
    obtain ⟨h', hr, rfl⟩ := hend
    -- the context refers to itself besides
    have hchildren : ∀ j ∈ (Object.context { c with native := some id }).children, s₂.Holds j := by
      intro j hj
      have hcomm : id = j ↔ j = id := eq_comm
      have hj' : j ∈ (Object.context c).children ∨ j = id := by
        simp only [Object.children, List.mem_append, Option.mem_toList, Option.some.injEq,
          hcomm] at hj ⊢
        tauto
      rcases hj' with hj | rfl
      · exact ha.sound.holds_child hp₂.holds hc hj
      · exact hp₂.holds
    obtain ⟨hsound, -, halike, -⟩ :=
      ha.sound.rewrite hp₂.holds hc hr (by simp) (by simp) hchildren
    refine ⟨ha.of_fresh hfresh halike.toExtends hsound fun j hj =>
      hr.find_of_ne ha.sound.wellFormed hj, ?_⟩
    exact holds_of_root (halike.roots [] ▸ hp₂.mem_roots.mpr (Or.inr rfl))
      (Heap.isLive_of_find hr.find)

/-! ## Functions -/

theorem runs_newFunction {name context : Handle} (hs : s.Sound) (hname : s.Holds name)
    (hcontext : s.Holds context) :
    RunsFrom Adds Rests s (StoreM.newFunction name context) s
      (s.Placed (.closure ⟨name, context, 0, .hole⟩)) := by
  refine runs_place hs .old (fun j hj => ?_) (by simp)
  have hj' : j = name ∨ j = context := by simpa [Object.children, Value.handle?] using hj
  rcases hj' with rfl | rfl
  · exact hname
  · exact hcontext

theorem runs_newFunctionWithPrototype {name context : Handle} (hs : s.Ready)
    (hname : s.Holds name) (hcontext : s.Holds context) :
    Runs Grows (StoreM.newFunctionWithPrototype name context) s (fun id s' => s'.Holds id) := by
  unfold StoreM.newFunctionWithPrototype
  apply RunsFrom.call (runs_newFunction hs.toSound hname hcontext)
    (fun _ hr => hr.adds.grows hs.toSound)
  intro function s₁ ha hp
  have hg₁ : s.Grows s₁ := ha.grows hs.toSound
  apply RunsFrom.call (runs_nativeContextOf ha.sound (ha.holds hs.toSound hcontext))
    (fun _ hr => hg₁.trans (hr.adds.grows ha.sound))
  intro native s₂ _ hend
  obtain ⟨hsame, hnative⟩ := hend
  obtain rfl : s₁ = s₂ := hsame.symm
  apply runs_get.mpr
  have hconstructor : s₁.Holds s₁.canonical.constructorString :=
    (ha.ready hs).holds_canonical (by simp [Canonical.toList])
  apply RunsFrom.call (runs_newLiteral ha.sound hnative (by simpa using hconstructor)
    (by simpa using holdsValue_ref hp.holds)) (fun _ hg => hg₁.trans hg)
  intro prototype s₃ hg hprototype
  have hg₃ : s.Grows s₃ := hg₁.trans hg
  have hfunction := hg.holds hp.holds
  apply runs_closure hg.sound hfunction hg₃
  intro c hc
  unfold RunsFrom
  rw [ends_bind]
  refine (ends_modifyObject hg.sound.wellFormed hc _).mono ?_ fun _ _ hfail => hfail.elim
  intro _ s₄ hend
  obtain ⟨h', hr, rfl⟩ := hend
  -- the function refers to its prototype besides
  have hchildren : ∀ j ∈ (Object.closure { c with prototype := .ref prototype }).children,
      s₃.Holds j := by
    intro j hj
    have hj' : j ∈ [c.name, c.context] ∨ j = prototype := by
      simpa [Object.children, Value.handle?, or_assoc, eq_comm] using hj
    rcases hj' with hj | rfl
    · exact hg.sound.holds_child hfunction hc (List.mem_append_left _ hj)
    · exact hprototype
  obtain ⟨hsound, -, halike, -⟩ :=
    hg.sound.rewrite hfunction hc hr (by simp) (by simp) hchildren
  refine ⟨hg₃.of_fresh hp.fresh halike.toExtends hsound fun j hj =>
    hr.find_of_ne hg.sound.wellFormed hj, ?_⟩
  exact holds_of_root (halike.roots [] ▸ hg.roots (hp.mem_roots.mpr (Or.inr rfl)))
    (Heap.isLive_of_find hr.find)

end ManagedHeap
