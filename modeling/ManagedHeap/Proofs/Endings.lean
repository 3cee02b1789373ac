import ManagedHeap.Store

/-!
# How computations end

`Ends m s ok fail` says where a computation `m` that starts in the state `s` ends: with a
result and a state that satisfy `ok`, or with a fault and a state that satisfy `fail`.
The rules below follow a computation step by step, so that a proof about an operation
has the shape of the operation.
-/

namespace ManagedHeap

variable {ε σ α β : Type}

/-- The computation `m` ends as told when it starts in the state `s`. -/
def Ends (m : EStateM ε σ α) (s : σ) (ok : α → σ → Prop) (fail : ε → σ → Prop) : Prop :=
  match m s with
  | .ok a t => ok a t
  | .error e t => fail e t

variable {s : σ} {ok : α → σ → Prop} {fail : ε → σ → Prop}

/-! ## Reading endings off -/

theorem Ends.of_ok {m : EStateM ε σ α} {a : α} {t : σ} (h : Ends m s ok fail)
    (hm : m s = .ok a t) : ok a t := by
  unfold Ends at h
  rwa [hm] at h

theorem Ends.of_error {m : EStateM ε σ α} {e : ε} {t : σ} (h : Ends m s ok fail)
    (hm : m s = .error e t) : fail e t := by
  unfold Ends at h
  rwa [hm] at h

theorem Ends.of_run {m : EStateM ε σ α} {a : α} {t : σ} (hm : m s = .ok a t) (hok : ok a t) :
    Ends m s ok fail := by
  unfold Ends
  rwa [hm]

theorem Ends.of_run_error {m : EStateM ε σ α} {e : ε} {t : σ} (hm : m s = .error e t)
    (hfail : fail e t) : Ends m s ok fail := by
  unfold Ends
  rwa [hm]

theorem Ends.mono {m : EStateM ε σ α} {ok' : α → σ → Prop} {fail' : ε → σ → Prop}
    (h : Ends m s ok fail) (hok : ∀ a t, ok a t → ok' a t)
    (hfail : ∀ e t, fail e t → fail' e t) : Ends m s ok' fail' := by
  unfold Ends at h ⊢
  cases hm : m s with
  | ok a t =>
      rw [hm] at h
      exact hok a t h
  | error e t =>
      rw [hm] at h
      exact hfail e t h

/-- A computation ends where it ends. -/
theorem ends_self (m : EStateM ε σ α) (s : σ) :
    Ends m s (fun a t => m s = .ok a t) (fun e t => m s = .error e t) := by
  unfold Ends
  cases m s <;> rfl

/-- Two things that are told of one computation can be told together. -/
theorem Ends.and {m : EStateM ε σ α} {ok' : α → σ → Prop} {fail' : ε → σ → Prop}
    (h : Ends m s ok fail) (h' : Ends m s ok' fail') :
    Ends m s (fun a t => ok a t ∧ ok' a t) (fun e t => fail e t ∧ fail' e t) := by
  unfold Ends at h h' ⊢
  cases hm : m s with
  | ok a t =>
      rw [hm] at h h'
      exact ⟨h, h'⟩
  | error e t =>
      rw [hm] at h h'
      exact ⟨h, h'⟩

/-! ## The rules -/

theorem ends_pure {a : α} : Ends (pure a : EStateM ε σ α) s ok fail ↔ ok a s := Iff.rfl

theorem ends_bind {m : EStateM ε σ α} {f : α → EStateM ε σ β} {ok : β → σ → Prop} :
    Ends (m >>= f) s ok fail ↔ Ends m s (fun a t => Ends (f a) t ok fail) fail := by
  unfold Ends
  show (match EStateM.bind m f s with
    | .ok b t => ok b t
    | .error e t => fail e t) ↔ _
  unfold EStateM.bind
  cases m s <;> rfl

/-- A computation goes on from where its first part has led. -/
theorem run_bind {m : EStateM ε σ α} {f : α → EStateM ε σ β} {a : α} {t : σ}
    (hm : m s = .ok a t) : (m >>= f) s = f a t := by
  show EStateM.bind m f s = f a t
  rw [EStateM.bind, hm]

theorem ends_bind_ok {m : EStateM ε σ α} {f : α → EStateM ε σ β} {ok : β → σ → Prop} {a : α} {t : σ}
    (hm : m s = .ok a t) : Ends (m >>= f) s ok fail ↔ Ends (f a) t ok fail := by
  unfold Ends
  rw [run_bind hm]

theorem run_get {f : σ → EStateM ε σ β} : (get >>= f : EStateM ε σ β) s = f s s := rfl

theorem run_bind_error {m : EStateM ε σ α} {f : α → EStateM ε σ β} {e : ε} {t : σ}
    (hm : m s = .error e t) : (m >>= f) s = .error e t := by
  show EStateM.bind m f s = .error e t
  rw [EStateM.bind, hm]

theorem ends_get {ok : σ → σ → Prop} : Ends (get : EStateM ε σ σ) s ok fail ↔ ok s s := Iff.rfl

theorem ends_set {t : σ} {ok : PUnit → σ → Prop} :
    Ends (set t : EStateM ε σ PUnit) s ok fail ↔ ok ⟨⟩ t := Iff.rfl

theorem ends_modify {f : σ → σ} {ok : PUnit → σ → Prop} :
    Ends (modify f : EStateM ε σ PUnit) s ok fail ↔ ok ⟨⟩ (f s) := Iff.rfl

theorem ends_throw {e : ε} : Ends (throw e : EStateM ε σ α) s ok fail ↔ fail e s := Iff.rfl

/-- A loop over the first numbers keeps an invariant that each round keeps.  The invariant
sees how many rounds are done. -/
theorem ends_foldlM_range {f : β → Nat → EStateM ε σ β} (inv : Nat → β → σ → Prop) {n : Nat}
    {b : β} (hstep : ∀ k b t, k < n → inv k b t → Ends (f b k) t (inv (k + 1)) fail)
    (hstart : inv 0 b s) : Ends ((List.range n).foldlM f b) s (inv n) fail := by
  induction n with
  | zero => exact hstart
  | succ n ih =>
      rw [List.range_succ, List.foldlM_append, ends_bind]
      have hfirst := ih fun k b t hk => hstep k b t (Nat.lt_succ_of_lt hk)
      refine hfirst.mono (fun b' t hinv => ?_) fun _ _ he => he
      simpa only [List.foldlM_cons, List.foldlM_nil, bind_pure] using
        hstep n b' t (Nat.lt_succ_self n) hinv

/-! ## Computations on a heap -/

section Heap

variable {h : Heap} {ok : α → Heap → Prop} {fail : Fault → Heap → Prop}

theorem ends_heapRead {f : Heap → Except Fault α} :
    Ends (HeapM.read f) h ok fail ↔
      (∀ a, f h = .ok a → ok a h) ∧ (∀ e, f h = .error e → fail e h) := by
  unfold HeapM.read
  simp only [ends_bind, ends_get]
  cases f h with
  | ok a => simp [ends_pure]
  | error e => simp [ends_throw]

theorem ends_heapRead_ok {f : Heap → Except Fault α} {a : α} (hf : f h = .ok a) :
    Ends (HeapM.read f) h ok fail ↔ ok a h := by
  rw [ends_heapRead, hf]
  simp

theorem ends_heapRead_error {f : Heap → Except Fault α} {e : Fault} (hf : f h = .error e) :
    Ends (HeapM.read f) h ok fail ↔ fail e h := by
  rw [ends_heapRead, hf]
  simp

theorem ends_onArena {space : Space} {act : EStateM Fault Arena α} :
    Ends (HeapM.onArena space act) h ok fail ↔
      Ends act (h.arena space) (fun a arena => ok a (h.setArena space arena))
        (fun e arena => fail e (h.setArena space arena)) := by
  unfold Ends HeapM.onArena
  cases act (h.arena space) <;> rfl

end Heap

/-! ## Computations on a store -/

section Store

variable {s : Store} {ok : α → Store → Prop} {fail : Fault → Store → Prop}

theorem ends_storeRead {f : Store → Except Fault α} :
    Ends (StoreM.read f) s ok fail ↔
      (∀ a, f s = .ok a → ok a s) ∧ (∀ e, f s = .error e → fail e s) := by
  unfold StoreM.read
  simp only [ends_bind, ends_get]
  cases f s with
  | ok a => simp [ends_pure]
  | error e => simp [ends_throw]

theorem ends_inspect {f : Heap → Except Fault α} :
    Ends (StoreM.inspect f) s ok fail ↔
      (∀ a, f s.heap = .ok a → ok a s) ∧ (∀ e, f s.heap = .error e → fail e s) :=
  ends_storeRead

theorem ends_inspect_ok {f : Heap → Except Fault α} {a : α} (hf : f s.heap = .ok a) :
    Ends (StoreM.inspect f) s ok fail ↔ ok a s := by
  rw [ends_inspect, hf]
  simp

/-- A reader that has a result leaves the store alone. -/
theorem run_read {f : Store → Except Fault α} {a : α} (hf : f s = .ok a) :
    StoreM.read f s = .ok a s := by
  unfold StoreM.read
  rw [run_bind (rfl : (get : StoreM Store) s = .ok s s)]
  simp only [hf]
  rfl

theorem run_inspect {f : Heap → Except Fault α} {a : α} (hf : f s.heap = .ok a) :
    StoreM.inspect f s = .ok a s :=
  run_read hf

theorem run_inspect_error {f : Heap → Except Fault α} {e : Fault} (hf : f s.heap = .error e) :
    StoreM.inspect f s = .error e s := by
  unfold StoreM.inspect StoreM.read
  rw [run_bind (rfl : (get : StoreM Store) s = .ok s s)]
  simp only [hf]
  rfl

/-- A count that fits goes unnoticed, and any other is refused. -/
theorem ends_checkCount {count : Nat} {ok : Unit → Store → Prop} :
    Ends (StoreM.checkCount count) s ok fail ↔
      (count < UInt32.size → ok () s) ∧ (UInt32.size ≤ count → fail .countOverflow s) := by
  unfold StoreM.checkCount
  split
  case isTrue hlarge => simp [ends_throw, hlarge, Nat.not_lt_of_le hlarge]
  case isFalse hfits => simp [ends_pure, hfits, Nat.lt_of_not_le hfits]

theorem ends_onHeap {act : HeapM α} :
    Ends (StoreM.onHeap act) s ok fail ↔
      Ends act s.heap (fun a h => ok a { s with heap := h })
        (fun e h => fail e { s with heap := h }) := by
  unfold Ends StoreM.onHeap
  cases act s.heap <;> rfl

end Store

/-! ## Readers -/

/-- The reader comes to no dead object, and its result is as told if it has one. -/
def Reads (r : Except Fault α) (ok : α → Prop) : Prop :=
  match r with
  | .ok a => ok a
  | .error e => e ≠ .deadObject

section Readers

variable {r : Except Fault α} {ok : α → Prop}

theorem Reads.of_ok {a : α} (h : Reads r ok) (hr : r = .ok a) : ok a := by
  rwa [hr] at h

theorem Reads.ne_dead (h : Reads r ok) : r ≠ .error .deadObject := by
  rintro rfl
  exact h rfl

theorem Reads.mono {ok' : α → Prop} (h : Reads r ok) (hok : ∀ a, ok a → ok' a) :
    Reads r ok' := by
  cases r with
  | ok a => exact hok a h
  | error e => exact h

theorem reads_self (h : r ≠ .error .deadObject) : Reads r fun a => r = .ok a := by
  cases r with
  | ok a => rfl
  | error e =>
      rintro rfl
      exact h rfl

theorem reads_pure {a : α} : Reads (pure a) ok ↔ ok a := Iff.rfl

theorem reads_ok {a : α} : Reads (.ok a) ok ↔ ok a := Iff.rfl

theorem reads_throw {e : Fault} : Reads (throw e) ok ↔ e ≠ .deadObject := Iff.rfl

theorem reads_error {e : Fault} : Reads (.error e) ok ↔ e ≠ .deadObject := Iff.rfl

/-- A reader that has a result is followed by what is done with it. -/
theorem ok_bind {a : α} {f : α → Except Fault β} : (Except.ok a >>= f) = f a := rfl

theorem reads_bind {f : α → Except Fault β} {ok : β → Prop} :
    Reads (r >>= f) ok ↔ Reads r fun a => Reads (f a) ok := by
  cases r <;> rfl

end Readers

end ManagedHeap
