import ManagedHeap.Proofs.Durable

/-!
# Scopes

Scopes are positions in one stack of roots, and nothing ties a position to the computation that
took it.  What keeps the scopes of a program apart is an agreement: whoever opens a scope closes
it, and then every computation leaves the stack that it started with below whatever it adds.

* **Operations keep to it** (`keepsStack_operation`).  All of them only push, with one
  exception: flattening opens a scope of its own and closes it.
* **Programs keep to it** (`Program.keepsStack_run`).  A program is built from operations and
  from bodies in scopes, and it may close the scopes that it has opened itself, in any order
  and again.  The induction is on the program; what it carries along is that the scopes that
  can be closed were opened above the stack that is to be kept.

Failures are results that the program goes on with, or they end it where it stands, and then
the scopes that it opened stay open.
-/

namespace ManagedHeap

open StoreM

variable {α β : Type} {s s' : Store} {base : List Handle}

/-! ## Computations that keep the stack they started with -/

/-- The roots that open scopes held before are the first of those that they hold now. -/
def Store.KeepsScope (s s' : Store) : Prop :=
  s.scope.toList <+: s'.scope.toList

/-- The roots of a list are the first of those that open scopes hold. -/
def Store.Stacks (base : List Handle) (s : Store) : Prop :=
  base <+: s.scope.toList

/-- The computation keeps every stack that it may have started with, whether it has a result or
fails. -/
abbrev KeepsStack (base : List Handle) (m : StoreM α) : Prop :=
  Upholds (Store.Stacks base) (fun _ => False) m

theorem trackable_stacks (base : List Handle) : Trackable (Store.Stacks base) where
  agrees s s' ha hs := by rwa [Store.Stacks, ha.scope]
  track s id hs := hs.trans (by simp)

theorem keepsStack_onHeap (act : HeapM α) : KeepsStack base (StoreM.onHeap act) := by
  intro s hs
  rw [ends_onHeap]
  exact (ends_self act s.heap).mono (fun _ _ _ => hs) fun _ _ _ => Or.inl hs

theorem keepsStack_assign {f : Store → Store} (hf : ∀ s, (f s).scope = s.scope) :
    KeepsStack base (modify f : StoreM PUnit) :=
  upholds_modify fun s hs => by rwa [Store.Stacks, hf s]

theorem keepsStack_collect (space : Space) (held : List Handle) :
    KeepsStack base (StoreM.collect space held) :=
  Upholds.bind (keepsStack_assign fun _ => rfl) fun _ =>
    Upholds.bind (keepsStack_assign fun _ => rfl) fun _ => upholds_get.bind fun _ =>
      (keepsStack_onHeap _).bind fun _ =>
        Upholds.bind (keepsStack_assign fun _ => rfl) fun _ => upholds_pure

theorem impartial_stacks (base : List Handle) :
    Impartial (Store.Stacks base) fun _ => False where
  toTrackable := trackable_stacks base
  fulfil _ held _ _ :=
    (trackable_stacks base).fulfil (keepsStack_onHeap _) (keepsStack_collect _ held)
  modifyObject _ _ _ := keepsStack_onHeap _
  growObject _ _ := keepsStack_onHeap _

/-! ## Scopes that are opened and closed -/

/-- Closing a scope keeps every stack that it was opened on. -/
theorem keepsStack_closeScope {mark : ScopeMark} (hmark : base.length ≤ mark.depth) :
    KeepsStack base (StoreM.closeScope mark) := by
  refine upholds_modify fun s hs => ?_
  have htake : (s.scope.take mark.depth).toList = s.scope.toList.take mark.depth := by simp
  rw [Store.Stacks, htake]
  exact List.prefix_take_iff.mpr ⟨hs, hmark⟩

/-- What is done in a scope may rely on the whole stack that the scope was opened on. -/
theorem keepsStack_openScope {f : ScopeMark → StoreM α}
    (hf : ∀ inner, base <+: inner → KeepsStack inner (f ⟨inner.length⟩)) :
    KeepsStack base (StoreM.openScope >>= f) := by
  intro s hs
  have hinner : Ends (f ⟨s.scope.size⟩) s (fun _ => Store.Stacks s.scope.toList) _ :=
    hf s.scope.toList hs s List.prefix_rfl
  exact hinner.mono (fun _ _ hkept => hs.trans hkept) fun _ _ hfail =>
    hfail.imp hs.trans id

/-- Closing a scope gives back the stack on which it was opened, if that is still there. -/
theorem Store.KeepsScope.take (hk : s.KeepsScope s') : s'.scope.take s.scope.size = s.scope := by
  obtain ⟨rest, hrest⟩ := hk
  apply Array.toList_inj.mp
  have htake : (s'.scope.take s.scope.size).toList = s'.scope.toList.take s.scope.size := by simp
  rw [htake, ← hrest, ← Array.length_toList, List.take_left]

/-- A computation that keeps the stack that it starts with, whatever that is. -/
theorem ends_keepsScope {m : StoreM α} (hm : KeepsStack s.scope.toList m) :
    Ends m s (fun _ => s.KeepsScope) fun _ => s.KeepsScope :=
  (hm s List.prefix_rfl).mono (fun _ _ hkept => hkept) fun _ _ hfail =>
    hfail.elim id fun hoverflow => hoverflow.2.elim

/-- A body in a scope of its own gives its result, and the stack is as it was. -/
theorem ends_handleScope {body : StoreM α} (hbody : KeepsStack s.scope.toList body) :
    Ends (StoreM.handleScope body) s
      (fun result s' => s'.scope = s.scope ∧ ∃ t, body s = .ok result t ∧ s'.heap = t.heap)
      fun e s' => s.KeepsScope s' ∧ body s = .error e s' := by
  unfold StoreM.handleScope StoreM.openScope
  simp only [ends_bind, ends_get, ends_pure]
  refine ((ends_keepsScope hbody).and (ends_self body s)).mono ?_ fun _ _ hfail => hfail
  rintro result t ⟨hkept, hrun⟩
  exact ⟨hkept.take, t, hrun, rfl⟩

/-- A body whose result escapes leaves the stack with this result put on it. -/
theorem ends_escapableScope {body : StoreM Handle} (hbody : KeepsStack s.scope.toList body) :
    Ends (StoreM.escapableScope body) s
      (fun id s' => s'.scope = s.scope.push id ∧ ∃ t, body s = .ok id t ∧ s'.heap = t.heap)
      fun e s' => s.KeepsScope s' ∧ body s = .error e s' := by
  unfold StoreM.escapableScope StoreM.openScope
  simp only [ends_bind, ends_get, ends_pure]
  refine ((ends_keepsScope hbody).and (ends_self body s)).mono ?_ fun _ _ hfail => hfail
  rintro id t ⟨hkept, hrun⟩
  exact ⟨congrArg (·.push id) hkept.take, t, hrun, rfl⟩

theorem keepsStack_handleScope {body : StoreM α} (hbody : ∀ inner, KeepsStack inner body) :
    KeepsStack base (StoreM.handleScope body) :=
  fun _ hs => (ends_handleScope (hbody _)).mono
    (fun _ _ hend => by rwa [Store.Stacks, hend.1]) fun _ _ hfail => Or.inl (hs.trans hfail.1)

theorem keepsStack_escapableScope {body : StoreM Handle}
    (hbody : ∀ inner, KeepsStack inner body) : KeepsStack base (StoreM.escapableScope body) :=
  fun _ hs => (ends_escapableScope (hbody _)).mono
    (fun _ _ hend => by
      rw [Store.Stacks, hend.1, Array.toList_push]
      exact hs.trans (List.prefix_append _ _))
    fun _ _ hfail => Or.inl (hs.trans hfail.1)

/-! ## Operations -/

theorem keepsStack_flatten (id : Handle) : KeepsStack base (StoreM.flatten id) := by
  refine (upholds_text id).bind fun t => ?_
  split
  case h_1 node =>
      refine upholds_inspect.bind fun units => keepsStack_openScope fun inner _ => ?_
      exact ((trackable_stacks inner).trackRoot id).bind fun _ =>
        ((impartial_stacks inner).allocate _ _).bind fun _ => (keepsStack_onHeap _).bind fun _ =>
          (keepsStack_closeScope le_rfl).bind fun _ => upholds_pure
  case h_2 => exact upholds_pure

/-- Every operation keeps the stack that it starts with, whatever it is given. -/
theorem keepsStack_operation (op : Operation) : KeepsStack base op.run := by
  have hi := impartial_stacks base
  have hd := hi.durable keepsStack_collect keepsStack_flatten
  cases hop : op.isOrdinary with
  | true => exact hd.operation hop fun _ _ _ hs => hs
  | false =>
      cases op with
      | allocate object space => exact (hi.allocate object space).bind fun _ => upholds_pure
      | persist id => exact upholds_persist fun _ hs => hs
      | unpersist id =>
          exact Upholds.bind (keepsStack_assign fun _ => rfl) fun _ => upholds_pure
      | _ => simp [Operation.isOrdinary] at hop

/-! ## Looking at failures -/

/-- A result can be looked at as what it is. -/
theorem run_observing_ok {m : StoreM α} {a : α} (hm : m s = .ok a s') :
    observing m s = .ok (.ok a) s' := by
  show EStateM.tryCatch (EStateM.bind m fun a => pure (Except.ok a)) _ s = _
  simp [EStateM.tryCatch, EStateM.bind, hm, pure, EStateM.pure]

/-- Whoever looks at a failure goes on from the state that it left. -/
theorem run_observing_error {m : StoreM α} {e : Fault} (hm : m s = .error e s') :
    observing m s = .ok (.error e) s' := by
  show EStateM.tryCatch (EStateM.bind m fun a => pure (Except.ok a)) _ s = _
  simp [EStateM.tryCatch, EStateM.bind, hm]
  rfl

theorem keepsStack_observing {m : StoreM α} (hm : KeepsStack base m) :
    KeepsStack base (observing m) := by
  intro s hs
  have hkept := hm s hs
  unfold Ends
  cases hrun : m s with
  | ok a t =>
      rw [run_observing_ok hrun]
      exact hkept.of_ok hrun
  | error e t =>
      rw [run_observing_error hrun]
      exact (hkept.of_error hrun).elim id fun hoverflow => hoverflow.2.elim

/-! ## Programs -/

/-- What clients can do with scopes.  A program goes on with what its parts answer, and also
with their failures.  It may close the scopes that it has opened itself, counted from the one
opened last; its parts that have scopes of their own are programs, too, and close their own. -/
inductive Program : Type → Type 1
  | finish {α : Type} (result : α) : Program α
  | fail {α : Type} (e : Fault) : Program α
  | ask {α β : Type} (question : Store → Except Fault β)
      (next : Except Fault β → Program α) : Program α
  | perform {α : Type} (op : Operation) (next : Except Fault Outcome → Program α) : Program α
  | enterGate {α : Type} (next : Except Fault Unit → Program α) : Program α
  | leaveGate {α : Type} (next : Program α) : Program α
  | openScope {α : Type} (next : Program α) : Program α
  | closeScope {α : Type} (index : Nat) (next : Program α) : Program α
  | handleScope {α β : Type} (body : Program β)
      (next : Except Fault β → Program α) : Program α
  | escapableScope {α : Type} (body : Program Handle)
      (next : Except Fault Handle → Program α) : Program α

namespace Program

/-- Runs a program.  The marks are those of the scopes that it has opened so far. -/
def run {α : Type} : Program α → List ScopeMark → StoreM α
  | finish result, _ => return result
  | fail e, _ => throw e
  | ask question next, marks => do
    (next (← observing (StoreM.read question))).run marks
  | perform op next, marks => do
    (next (← observing op.run)).run marks
  | enterGate next, marks => do
    (next (← observing StoreM.enterGate)).run marks
  | leaveGate next, marks => do
    StoreM.leaveGate
    next.run marks
  | openScope next, marks => do
    let mark ← StoreM.openScope
    next.run (mark :: marks)
  | closeScope index next, marks => do
    if let some mark := marks[index]? then
      StoreM.closeScope mark
    next.run marks
  | handleScope body next, marks => do
    (next (← observing (StoreM.handleScope (body.run [])))).run marks
  | escapableScope body next, marks => do
    (next (← observing (StoreM.escapableScope (body.run [])))).run marks

/-- A program keeps every stack above which it has opened the scopes that it can close. -/
theorem keepsStack_run (p : Program α) (marks : List ScopeMark)
    (hmarks : ∀ mark ∈ marks, base.length ≤ mark.depth) : KeepsStack base (p.run marks) := by
  -- on the program, with any marks at or above what is to be kept; a body has marks of its own
  induction p generalizing base marks with
  | finish result => exact upholds_pure
  | fail e => exact upholds_throw
  | ask question next ih =>
      exact (keepsStack_observing upholds_read).bind fun answer => ih answer marks hmarks
  | perform op next ih =>
      exact (keepsStack_observing (keepsStack_operation op)).bind fun answer =>
        ih answer marks hmarks
  | enterGate next ih =>
      have henter : KeepsStack base StoreM.enterGate :=
        upholds_counted (keepsStack_assign fun _ => rfl)
      exact (keepsStack_observing henter).bind fun answer => ih answer marks hmarks
  | leaveGate next ih =>
      exact Upholds.bind (keepsStack_assign fun _ => rfl) fun _ => ih marks hmarks
  | openScope next ih =>
      -- the new mark is the height of a stack that has what is to be kept at its bottom
      intro s hs
      refine ih (⟨s.scope.size⟩ :: marks) (fun mark hmark => ?_) s hs
      rcases List.mem_cons.mp hmark with rfl | hmark
      · simpa using hs.length_le
      · exact hmarks mark hmark
  | closeScope index next ih =>
      have hnext := ih marks hmarks
      unfold run
      cases hmark : marks[index]? with
      | none => exact hnext
      | some mark =>
          have hdepth := hmarks mark (List.mem_of_getElem? hmark)
          exact (keepsStack_closeScope hdepth).bind fun _ => hnext
  | handleScope body next ihbody ihnext =>
      refine (keepsStack_observing (keepsStack_handleScope fun inner => ?_)).bind fun answer =>
        ihnext answer marks hmarks
      exact ihbody [] (by simp)
  | escapableScope body next ihbody ihnext =>
      refine (keepsStack_observing (keepsStack_escapableScope fun inner => ?_)).bind fun answer =>
        ihnext answer marks hmarks
      exact ihbody [] (by simp)

end Program

/-- What is done in a scope drops no root that was put on the stack before it was opened.
Operations and programs leave the stack that they started with below whatever they add to it,
with a result or without.  A scope fails only if its body does.  Otherwise it gives the stack back
as it was, or, if the result of the body escapes, with this result put on it; the result is alive
if it was at the end of the body. -/
theorem scope_discipline (s : Store) :
    (∀ op : Operation, Ends op.run s (fun _ => s.KeepsScope) fun _ => s.KeepsScope) ∧
      (∀ {α : Type} (body : Program α),
        Ends (body.run []) s (fun _ => s.KeepsScope) fun _ => s.KeepsScope) ∧
      (∀ {α : Type} (body : Program α), Ends (StoreM.handleScope (body.run [])) s
        (fun result s' => s'.scope = s.scope ∧
          ∃ t, body.run [] s = .ok result t ∧ s'.heap = t.heap)
        fun e s' => s.KeepsScope s' ∧ body.run [] s = .error e s') ∧
      ∀ body : Program Handle, Ends (StoreM.escapableScope (body.run [])) s
        (fun id s' => s'.scope = s.scope.push id ∧
          ∃ t, body.run [] s = .ok id t ∧ (t.heap.isLive id = true → s'.heap.isLive id = true))
        fun e s' => s.KeepsScope s' ∧ body.run [] s = .error e s' := by
  have hbody {α : Type} (body : Program α) : KeepsStack s.scope.toList (body.run []) :=
    body.keepsStack_run [] (by simp)
  refine ⟨fun op => ends_keepsScope (keepsStack_operation op),
    fun body => ends_keepsScope (hbody body), fun body => ends_handleScope (hbody body),
    fun body => (ends_escapableScope (hbody body)).mono ?_ fun _ _ hfail => hfail⟩
  rintro id s' ⟨hscope, t, hrun, hheap⟩
  exact ⟨hscope, t, hrun, fun hlive => hheap ▸ hlive⟩

end ManagedHeap
