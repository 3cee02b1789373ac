import ManagedHeap.Proofs.Endings

/-!
# Invariants that computations uphold

`Upholds I X m` says that a computation `m` keeps the invariant `I` of its states, whatever
state it starts in: with a result it comes to a state that meets `I`, and so it does if it
fails.  There is one exception.  A failure for which a sum of bytes does not fit a machine word
may stop a change half-way; of the state that is left then only `X` is known.

The rules follow a computation step by step.  Readers and failures keep every invariant, so
what is to be shown of an operation is what the changes in it do.
-/

namespace ManagedHeap

variable {σ α β : Type} {I X : σ → Prop}

/-- The computation keeps the invariant `I`, or leaves a state of `X` for want of a machine
word. -/
def Upholds (I X : σ → Prop) (m : EStateM Fault σ α) : Prop :=
  ∀ s, I s → Ends m s (fun _ s' => I s') (fun e s' => I s' ∨ e = .wordOverflow ∧ X s')

/-! ## The rules -/

theorem upholds_pure {a : α} : Upholds I X (pure a) :=
  fun _ hs => hs

theorem upholds_throw {e : Fault} : Upholds I X (throw e : EStateM Fault σ α) :=
  fun _ hs => Or.inl hs

theorem upholds_get : Upholds I X (get : EStateM Fault σ σ) :=
  fun _ hs => hs

theorem upholds_modify {f : σ → σ} (hf : ∀ s, I s → I (f s)) :
    Upholds I X (modify f : EStateM Fault σ PUnit) :=
  hf

/-- What does not depend on the state is kept by everything. -/
theorem upholds_const {P : Prop} (m : EStateM Fault σ α) : Upholds (fun _ => P) X m :=
  fun s hp => (ends_self m s).mono (fun _ _ _ => hp) fun _ _ _ => Or.inl hp

theorem Upholds.bind {m : EStateM Fault σ α} {f : α → EStateM Fault σ β} (hm : Upholds I X m)
    (hf : ∀ a, Upholds I X (f a)) : Upholds I X (m >>= f) := by
  intro s hs
  rw [ends_bind]
  exact (hm s hs).mono (fun a t ht => hf a t ht) fun _ _ hfail => hfail

theorem upholds_foldlM {f : β → α → EStateM Fault σ β} (hf : ∀ b a, Upholds I X (f b a))
    (list : List α) (b : β) : Upholds I X (list.foldlM f b) := by
  induction list generalizing b with
  | nil => exact upholds_pure
  | cons a list ih =>
      rw [List.foldlM_cons]
      exact (hf b a).bind fun b => ih b

theorem upholds_forM {f : α → EStateM Fault σ PUnit} (hf : ∀ a, Upholds I X (f a))
    (list : List α) : Upholds I X (forM list f) := by
  induction list with
  | nil => exact upholds_pure
  | cons a list ih =>
      rw [List.forM_cons]
      exact (hf a).bind fun _ => ih

/-! ## Heaps -/

section Heap

variable {I X : Heap → Prop}

theorem upholds_heapRead {f : Heap → Except Fault α} : Upholds I X (HeapM.read f) := by
  intro h hh
  rw [ends_heapRead]
  exact ⟨fun _ _ => hh, fun _ _ => Or.inl hh⟩

end Heap

/-! ## Stores -/

section Store

theorem upholds_read {I X : Store → Prop} {f : Store → Except Fault α} :
    Upholds I X (StoreM.read f) := by
  intro s hs
  rw [ends_storeRead]
  exact ⟨fun _ _ => hs, fun _ _ => Or.inl hs⟩

theorem upholds_inspect {I X : Store → Prop} {f : Heap → Except Fault α} :
    Upholds I X (StoreM.inspect f) :=
  upholds_read

/-- What a store keeps by hand: objects that are due for release, and the texts of numbers since
the last of its collections. -/
structure Kept where
  persistent : List (Handle × Nat)
  numberTexts : List (Double × Handle)
  collections : Nat

def Store.kept (s : Store) : Kept :=
  ⟨s.persistent, s.numberTexts, s.collections⟩

variable {I X : Heap → Kept → Prop}

/-- The computation keeps an invariant of the heap and of what its store keeps by hand. -/
abbrev Preserves (I X : Heap → Kept → Prop) (m : StoreM α) : Prop :=
  Upholds (fun s => I s.heap s.kept) (fun s => X s.heap s.kept) m

/-- Nothing but the heap and what is kept by hand is of interest. -/
theorem preserves_modify {f : Store → Store}
    (hf : ∀ s, (f s).heap = s.heap ∧ (f s).persistent = s.persistent ∧
      (f s).numberTexts = s.numberTexts ∧ (f s).collections = s.collections) :
    Preserves I X (modify f : StoreM PUnit) := by
  refine upholds_modify fun s hs => ?_
  obtain ⟨hheap, hpersistent, htexts, hcollections⟩ := hf s
  rwa [hheap, show (f s).kept = s.kept by rw [Store.kept, hpersistent, htexts, hcollections]; rfl]

theorem preserves_onHeap {act : HeapM α}
    (hact : ∀ kept, Upholds (I · kept) (X · kept) act) :
    Preserves I X (StoreM.onHeap act) := by
  intro s hs
  rw [ends_onHeap]
  exact hact s.kept s.heap hs

end Store

end ManagedHeap
