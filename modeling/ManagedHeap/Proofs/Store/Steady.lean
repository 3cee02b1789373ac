import ManagedHeap.Proofs.Endings
import ManagedHeap.Store.Arrays
import ManagedHeap.Store.Strings

/-!
# Computations that do not look at length limits

A string is refused for its length in one place only, in front of everything that makes it
(`StoreM.checkLength`).  To say so of whole operations, this has to be said of everything else
that they do: readers, attempts, collections and searches fail in their own ways, if they fail.
No such computation installs builtins or removes them, either.

Both are told of all states, sound or not (`Steady`), and follow the programs step by step.
-/

namespace ManagedHeap

variable {σ γ α β : Type}

/-- The fault is that a string would be too long. -/
def Fault.isTooLong : Fault → Bool
  | .stringTooLong _ _ => true
  | _ => false

/-! ## Readers -/

/-- The reader refuses no string for its length. -/
def LimitFree (r : Except Fault α) : Prop :=
  ∀ e, r = .error e → e.isTooLong = false

theorem limitFree_ok {a : α} : LimitFree (.ok a) := by
  intro e he
  simp at he

theorem limitFree_pure {a : α} : LimitFree (pure a) :=
  limitFree_ok

theorem limitFree_error {e : Fault} (he : e.isTooLong = false) :
    LimitFree (.error e : Except Fault α) := by
  intro e' he'
  obtain rfl := Except.error.inj he'
  exact he

theorem limitFree_throw {e : Fault} (he : e.isTooLong = false) :
    LimitFree (throw e : Except Fault α) :=
  limitFree_error he

theorem LimitFree.bind {r : Except Fault α} {f : α → Except Fault β} (hr : LimitFree r)
    (hf : ∀ a, LimitFree (f a)) : LimitFree (r >>= f) := by
  cases r with
  | ok a => exact hf a
  | error e =>
      have he := hr e rfl
      exact limitFree_error he

theorem limitFree_mapM {f : α → Except Fault β} (hf : ∀ a, LimitFree (f a))
    (list : List α) : LimitFree (list.mapM f) := by
  induction list with
  | nil => exact limitFree_pure
  | cons a rest ih =>
      rw [List.mapM_cons]
      exact (hf a).bind fun _ => ih.bind fun _ => limitFree_pure

theorem limitFree_foldlM {f : β → α → Except Fault β} (hf : ∀ b a, LimitFree (f b a))
    (list : List α) (b : β) : LimitFree (list.foldlM f b) := by
  induction list generalizing b with
  | nil => exact limitFree_pure
  | cons a list ih =>
      rw [List.foldlM_cons]
      exact (hf b a).bind fun b => ih b

namespace Heap

variable (h : Heap)

theorem limitFree_locate (id : Handle) : LimitFree (h.locate id) := by
  unfold locate
  split
  · exact limitFree_ok
  · exact limitFree_error rfl

theorem limitFree_residentAt (location : Location) : LimitFree (h.residentAt location) := by
  unfold residentAt
  split
  · exact limitFree_error rfl
  · exact limitFree_error rfl
  · exact limitFree_ok

theorem limitFree_find (id : Handle) : LimitFree (h.find id) :=
  (h.limitFree_locate id).bind fun location =>
    (h.limitFree_residentAt location).bind fun _ => limitFree_pure

theorem limitFree_text (id : Handle) : LimitFree (h.text id) := by
  refine (h.limitFree_find id).bind fun o => ?_
  split
  · exact limitFree_pure
  · exact limitFree_throw rfl

theorem limitFree_textLength (id : Handle) : LimitFree (h.textLength id) :=
  (h.limitFree_text id).bind fun _ => limitFree_pure

theorem limitFree_unitWithin (steps : Nat) (id : Handle) (i : Nat) :
    LimitFree (h.unitWithin steps id i) := by
  induction steps generalizing id i with
  | zero => exact limitFree_error rfl
  | succ steps ih =>
      unfold unitWithin
      refine (h.limitFree_text id).bind fun t => ?_
      cases t with
      | flat units interned | external units interned =>
          simp only
          split
          · exact limitFree_pure
          · exact limitFree_throw rfl
      | view node =>
          simp only
          split
          · exact limitFree_throw rfl
          · exact ih _ _
      | composite node =>
          refine (h.limitFree_textLength node.left).bind fun split => ?_
          split
          · exact ih _ _
          · exact ih _ _

theorem limitFree_unitAt (id : Handle) (i : Nat) : LimitFree (h.unitAt id i) :=
  h.limitFree_unitWithin _ id i

theorem limitFree_copyWithin (steps : Nat) (ranges : List TextRange) (out : Units) :
    LimitFree (h.copyWithin steps ranges out) := by
  induction steps generalizing ranges out with
  | zero =>
      cases ranges with
      | nil => exact limitFree_pure
      | cons range rest => exact limitFree_error rfl
  | succ steps ih =>
      cases ranges with
      | nil => exact limitFree_pure
      | cons range rest =>
          unfold copyWithin
          simp only
          split
          case isTrue => exact ih _ _
          case isFalse =>
              refine (h.limitFree_text range.id).bind fun t => ?_
              cases t with
              | flat units interned | external units interned =>
                  simp only
                  split
                  · exact limitFree_throw rfl
                  · split
                    · exact limitFree_throw rfl
                    · exact ih _ _
              | view node =>
                  simp only
                  split
                  · exact limitFree_throw rfl
                  · exact ih _ _
              | composite node =>
                  exact (h.limitFree_textLength node.left).bind fun _ => ih _ _

theorem limitFree_appendRange (out : Units) (id : Handle) (start stop : Nat) :
    LimitFree (h.appendRange out id start stop) :=
  h.limitFree_copyWithin _ _ _

theorem limitFree_copyRange (id : Handle) (start stop : Nat) (encoding : Encoding) :
    LimitFree (h.copyRange id start stop encoding) :=
  h.limitFree_appendRange _ _ _ _

theorem limitFree_joinBuffers (encoding : Encoding) (left right : Handle) :
    LimitFree (StoreM.joinBuffers h encoding left right) := by
  unfold StoreM.joinBuffers
  refine (limitFree_mapM (fun id => ?_) _).bind fun operands =>
    limitFree_foldlM (fun out units => ?_) _ _
  · refine (h.limitFree_text id).bind fun t => ?_
    split
    · exact limitFree_pure
    · exact limitFree_throw rfl
  · split
    · exact limitFree_ok
    · exact limitFree_error rfl

end Heap

theorem InternTable.limitFree_find? (table : InternTable) (h : Heap) (hash : UInt64)
    (units : Units) : LimitFree (table.find? h hash units) := by
  unfold find?
  generalize table.bucket hash = ids
  induction ids with
  | nil => exact limitFree_pure
  | cons id rest ih =>
      unfold firstWith
      split
      case isFalse => exact ih
      case isTrue =>
          refine (h.limitFree_text id).bind fun t => ?_
          split
          · split
            · exact limitFree_pure
            · exact ih
          · exact ih

/-! ## Computations -/

/-- The computation leaves a part of its state alone, and refuses no string for its length. -/
def Steady (part : σ → γ) (m : EStateM Fault σ α) : Prop :=
  ∀ s, Ends m s (fun _ s' => part s' = part s) fun e _ => e.isTooLong = false

/-- The computation refuses no string for its length. -/
abbrev Quiet (m : EStateM Fault σ α) : Prop :=
  Steady (fun _ => ()) m

variable {part : σ → γ}

theorem steady_pure {a : α} : Steady part (pure a) :=
  fun _ => rfl

theorem steady_throw {e : Fault} (he : e.isTooLong = false) :
    Steady part (throw e : EStateM Fault σ α) :=
  fun _ => he

theorem steady_get : Steady part (get : EStateM Fault σ σ) :=
  fun _ => rfl

theorem steady_modify {f : σ → σ} (hf : ∀ s, part (f s) = part s) :
    Steady part (modify f : EStateM Fault σ PUnit) :=
  hf

theorem quiet_set {s : σ} : Quiet (set s : EStateM Fault σ PUnit) :=
  fun _ => rfl

theorem Steady.bind {m : EStateM Fault σ α} {f : α → EStateM Fault σ β} (hm : Steady part m)
    (hf : ∀ a, Steady part (f a)) : Steady part (m >>= f) := by
  intro s
  rw [ends_bind]
  exact (hm s).mono (fun a t ht => (hf a t).mono (fun _ _ hend => hend.trans ht)
    fun _ _ hfail => hfail) fun _ _ hfail => hfail

theorem steady_foldlM {f : β → α → EStateM Fault σ β} (hf : ∀ b a, Steady part (f b a))
    (list : List α) (b : β) : Steady part (list.foldlM f b) := by
  induction list generalizing b with
  | nil => exact steady_pure
  | cons a list ih =>
      rw [List.foldlM_cons]
      exact (hf b a).bind fun b => ih b

/-! ## Heaps -/

theorem quiet_insert (resident : Resident) : Quiet (Arena.insert resident) := by
  refine steady_get.bind fun a => ?_
  simp only
  split
  case isTrue => exact steady_throw rfl
  case isFalse =>
      split
      · exact quiet_set.bind fun _ => steady_pure
      · exact quiet_set.bind fun _ => steady_pure

theorem quiet_take (slot : Nat) : Quiet (Arena.take slot) := by
  refine steady_get.bind fun a => ?_
  split
  · exact steady_throw rfl
  · exact steady_throw rfl
  · simp only
    split
    · exact quiet_set.bind fun _ => steady_throw rfl
    · exact quiet_set.bind fun _ => steady_pure

theorem quiet_onArena {act : EStateM Fault Arena α} (space : Space) (hact : Quiet act) :
    Quiet (HeapM.onArena space act) := by
  intro h
  rw [ends_onArena]
  exact hact (h.arena space)

theorem quiet_newHandle : Quiet HeapM.newHandle := by
  refine steady_get.bind fun h => ?_
  split
  · exact quiet_set.bind fun _ => steady_pure
  · exact quiet_set.bind fun _ => steady_pure

theorem quiet_modify {f : σ → σ} : Quiet (modify f : EStateM Fault σ PUnit) :=
  steady_modify fun _ => rfl

theorem quiet_allocate? (request : HeapM.Request) (build : Unit → Object) :
    Quiet (HeapM.allocate? request build) := by
  refine steady_get.bind fun h => ?_
  split
  · exact quiet_newHandle.bind fun _ => (quiet_onArena _ (quiet_insert _)).bind fun _ =>
      quiet_modify.bind fun _ => steady_pure
  · exact steady_pure

theorem quiet_heapRead {f : Heap → Except Fault α} (hf : ∀ h, LimitFree (f h)) :
    Quiet (HeapM.read f) := by
  intro h
  rw [ends_heapRead]
  exact ⟨fun _ _ => rfl, hf h⟩

theorem quiet_modifyObject (id : Handle) (f : Object → Object) :
    Quiet (HeapM.modifyObject id f) :=
  Steady.bind (quiet_heapRead fun h => h.limitFree_locate id) fun location =>
    Steady.bind (quiet_heapRead fun h => h.limitFree_residentAt location) fun _ => quiet_modify

theorem quiet_markFrom (h : Heap) (rounds : Nat) (pending : List Handle) (count : Nat) :
    Quiet (h.markFrom rounds pending count) := by
  induction rounds generalizing pending count with
  | zero => exact steady_pure
  | succ rounds ih =>
      refine steady_get.bind fun marks => ?_
      split
      · exact steady_pure
      · refine quiet_set.bind fun _ => ?_
        split
        · exact ih _ _
        · rename_i e he
          exact steady_throw (h.limitFree_find _ e he)

theorem quiet_markAll (roots : List Handle) : Quiet (HeapM.markAll roots) := by
  intro h
  -- marking runs on the marks alone, and fails as the whole does
  have hmark := quiet_markFrom h h.handles.size roots.reverse 0 .empty
  unfold Ends at hmark ⊢
  unfold HeapM.markAll
  cases hrun : h.markFrom h.handles.size roots.reverse 0 .empty with
  | ok count marks => rfl
  | error e marks =>
      rw [hrun] at hmark
      exact hmark

theorem quiet_sweep (space : Space) : Quiet (HeapM.sweep space) := by
  have hslot (freed : HeapM.Freed) (slot : Nat) : Quiet (HeapM.sweepSlot space freed slot) := by
    refine steady_get.bind fun h => ?_
    split
    · exact steady_pure
    · split
      · exact steady_pure
      · exact (quiet_onArena space (quiet_take slot)).bind fun _ =>
          quiet_modify.bind fun _ => steady_pure
  exact steady_get.bind fun _ => (steady_foldlM hslot _ _).bind fun _ =>
    quiet_modify.bind fun _ => steady_pure

theorem quiet_promoteSurvivors : Quiet HeapM.promoteSurvivors := by
  have hslot (promoted slot : Nat) : Quiet (HeapM.promoteSlot promoted slot) := by
    refine steady_get.bind fun h => ?_
    split
    · exact steady_pure
    · exact (quiet_onArena .young (quiet_take slot)).bind fun resident =>
        (quiet_onArena .old (quiet_insert resident)).bind fun _ =>
          quiet_modify.bind fun _ => steady_pure
  exact steady_get.bind fun _ => (steady_foldlM hslot _ _).bind fun _ =>
    quiet_modify.bind fun _ => steady_pure

theorem quiet_sweepFor (space : Space) : Quiet (HeapM.sweepFor space) := by
  refine (quiet_sweep .young).bind fun young => ?_
  cases space with
  | young => exact quiet_modify.bind fun _ => steady_pure
  | old =>
      refine (quiet_sweep .old).bind fun old => ?_
      simp only
      split
      · exact steady_throw rfl
      · exact quiet_modify.bind fun _ => steady_pure

theorem quiet_collect (space : Space) (roots : List Handle) : Quiet (HeapM.collect space roots) :=
  (quiet_markAll roots).bind fun _ => (quiet_sweepFor space).bind fun _ =>
    quiet_promoteSurvivors.bind fun _ => quiet_modify.bind fun _ => steady_pure

/-! ## Stores -/

theorem steady_read {f : Store → Except Fault α} (hf : ∀ s, LimitFree (f s)) :
    Steady Store.builtins (StoreM.read f) := by
  intro s
  rw [ends_storeRead]
  exact ⟨fun _ _ => rfl, hf s⟩

theorem steady_inspect {f : Heap → Except Fault α} (hf : ∀ h, LimitFree (f h)) :
    Steady Store.builtins (StoreM.inspect f) :=
  steady_read fun s => hf s.heap

theorem steady_onHeap {act : HeapM α} (hact : Quiet act) :
    Steady Store.builtins (StoreM.onHeap act) := by
  intro s
  rw [ends_onHeap]
  exact (hact s.heap).mono (fun _ _ _ => rfl) fun _ _ hfail => hfail

theorem steady_text (id : Handle) : Steady Store.builtins (StoreM.text id) :=
  steady_inspect fun h => h.limitFree_text id

theorem steady_track (id : Handle) : Steady Store.builtins (StoreM.track id) :=
  Steady.bind (steady_modify fun _ => rfl) fun _ => steady_pure

theorem steady_collect (space : Space) (held : List Handle) :
    Steady Store.builtins (StoreM.collect space held) :=
  Steady.bind (steady_modify fun _ => rfl) fun _ =>
    Steady.bind (steady_modify fun _ => rfl) fun _ =>
      steady_get.bind fun _ => (steady_onHeap (quiet_collect _ _)).bind fun _ =>
        Steady.bind (steady_modify fun _ => rfl) fun _ => steady_pure

theorem steady_attempt (request : HeapM.Request) (build : Unit → Object) :
    Steady Store.builtins (StoreM.attempt request build) := by
  have hrefused : Steady Store.builtins StoreM.nextRefused := by
    refine steady_get.bind fun s => ?_
    split
    · exact steady_pure
    · exact Steady.bind (steady_modify fun _ => rfl) fun _ => steady_pure
  refine hrefused.bind fun refused => ?_
  split
  · exact Steady.bind (steady_modify fun _ => rfl) fun _ => steady_pure
  · exact steady_onHeap (quiet_allocate? request build)

theorem steady_fulfil (request : HeapM.Request) (held : List Handle) (build : Unit → Object) :
    Steady Store.builtins (StoreM.fulfil request held build) := by
  refine steady_get.bind fun s => ?_
  simp only
  split
  case isTrue => exact steady_throw rfl
  case isFalse =>
      refine (steady_attempt request build).bind fun found => ?_
      split
      · exact steady_track _
      · refine (steady_collect _ _).bind fun _ => ?_
        refine (steady_attempt request build).bind fun found => ?_
        split
        · exact steady_track _
        · exact steady_throw rfl

theorem steady_allocate (o : Object) (space : Space) :
    Steady Store.builtins (StoreM.allocate o space) :=
  steady_fulfil _ _ _

theorem steady_allocateFlat (units : Units) (space : Space) :
    Steady Store.builtins (StoreM.allocateFlat units space) :=
  steady_allocate _ space

theorem steady_search (hash : UInt64) (units : Units) :
    Steady Store.builtins (StoreM.search hash units) :=
  (steady_read fun s => s.table.limitFree_find? s.heap hash units).bind fun _ =>
    Steady.bind (steady_modify fun _ => rfl) fun _ => steady_pure

theorem steady_pairOfUnits (a b : UInt16) : Steady Store.builtins (StoreM.pairOfUnits a b) := by
  unfold StoreM.pairOfUnits
  split
  case isTrue => exact steady_allocateFlat _ _
  case isFalse =>
      refine (steady_get.bind fun s => steady_search _ _).bind fun found => ?_
      split
      · exact steady_track _
      · exact steady_allocateFlat _ _

theorem steady_markInterned (hash : UInt64) (id : Handle) :
    Steady Store.builtins (StoreM.markInterned hash id) := by
  have hcheck : Steady Store.builtins (StoreM.checkInternable id) := by
    refine (steady_inspect fun h => h.limitFree_find id).bind fun o => ?_
    split
    · split
      · exact steady_throw rfl
      · exact steady_pure
    · exact steady_throw rfl
  exact hcheck.bind fun _ =>
    Steady.bind (steady_onHeap (quiet_modifyObject id _)) fun _ => steady_modify fun _ => rfl

theorem steady_internUnits (units : Units) :
    Steady Store.builtins (StoreM.internUnits units) := by
  refine Steady.bind steady_get fun s => Steady.bind (steady_search _ units) fun found => ?_
  split
  · exact steady_track _
  · refine Steady.bind (steady_allocateFlat _ _) fun id => Steady.bind
      (steady_read fun s => s.table.limitFree_find? s.heap _ units) fun found => ?_
    split
    · exact steady_track _
    · exact Steady.bind (steady_markInterned _ id) fun _ => steady_pure

theorem steady_newArray (items : Array Value) (space : Space) :
    Steady Store.builtins (StoreM.newArray items space) := by
  unfold StoreM.newArray
  split
  · exact Steady.bind steady_get fun s => steady_track _
  · exact steady_allocate _ _

end ManagedHeap
