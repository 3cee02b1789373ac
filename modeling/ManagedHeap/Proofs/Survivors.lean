import ManagedHeap.Proofs.Interning
import ManagedHeap.Proofs.Lasting

/-!
# What survives a collection

The roots of a collection come from four places: the stack of the open scopes, the persistent
objects, the cached strings of one unit, and the canonical objects.  Whether an object is
persistent is decided by the history of the store.  It is counted how often the object was made
persistent and released, and a release counts only while another one is due
(`Step.balance`).  The list of releases due always agrees with that count (`Tallied`), since
no other step touches it and none of its entries is ever left at zero.  A step that fails is no
part of the history: an object that is persisted more often than can be counted is refused, and
nothing is changed (`ends_persist`).

A collection of both spaces leaves what these roots lead to, and nothing else.  A collection
of the young space leaves the old objects as well.  Neither the interning table nor the
texts of numbers have a say in this: afterwards the table lists the canonical strings
among the objects that are left, and there are no texts of numbers
(`WellRootedBy.survivors`).
-/

namespace ManagedHeap

open Store
open StoreM (releasesDue)

variable {s s' : Store} {id j : Handle} {step : Step} {steps rest : List Step}

/-! ## Releases due -/

theorem mem_iff_releasesDue {releases : List (Handle × Nat)} (hpositive : ∀ e ∈ releases, 0 < e.2) :
    id ∈ releases.map Prod.fst ↔ 0 < releasesDue id releases := by
  induction releases with
  | nil => simp [releasesDue]
  | cons e releases ih =>
      obtain ⟨other, count⟩ := e
      obtain ⟨hcount, hrest⟩ := List.forall_mem_cons.mp hpositive
      rw [List.map_cons, List.mem_cons, ih hrest, releasesDue]
      by_cases heq : other = id
      · subst heq
        simp only [if_true, true_or, true_iff]
        exact Nat.lt_of_lt_of_le hcount (Nat.le_add_right _ _)
      · simp [heq, Ne.symm heq]

theorem releasesDue_addRelease (id j : Handle) (releases : List (Handle × Nat)) :
    releasesDue j (StoreM.addRelease id releases) =
      if id = j then releasesDue j releases + 1 else releasesDue j releases := by
  induction releases with
  | nil => simp [StoreM.addRelease, releasesDue]
  | cons e releases ih =>
      obtain ⟨other, count⟩ := e
      unfold StoreM.addRelease
      split
      case isTrue heq =>
          subst heq
          simp only [releasesDue]
          split <;> omega
      case isFalse =>
          simp only [releasesDue, ih]
          by_cases heq : id = j
          · rw [if_pos heq, if_pos heq, Nat.add_assoc]
          · rw [if_neg heq, if_neg heq]

/-- A release that is due is due no more; where none is due, there is nothing to do. -/
theorem releasesDue_dropRelease (id j : Handle) {releases : List (Handle × Nat)}
    (hpositive : ∀ e ∈ releases, 0 < e.2) :
    releasesDue j (StoreM.dropRelease id releases) =
      if id = j then releasesDue j releases - 1 else releasesDue j releases := by
  -- on the entries: the first one of the handle is counted down, and dropped with its last release
  induction releases with
  | nil => simp [StoreM.dropRelease, releasesDue]
  | cons e releases ih =>
      obtain ⟨other, count⟩ := e
      obtain ⟨hcount, hrest⟩ := List.forall_mem_cons.mp hpositive
      dsimp only at hcount
      unfold StoreM.dropRelease
      split
      case isTrue heq =>
          subst heq
          split
          case isTrue hlast =>
              simp only [releasesDue]
              split <;> omega
          case isFalse =>
              simp only [releasesDue]
              split <;> omega
      case isFalse hne =>
          simp only [releasesDue, ih hrest]
          by_cases heq : id = j
          · subst heq
            simp [hne]
          · simp [heq]

theorem positive_addRelease {releases : List (Handle × Nat)} (hpositive : ∀ e ∈ releases, 0 < e.2) :
    ∀ e ∈ StoreM.addRelease id releases, 0 < e.2 := by
  induction releases with
  | nil => simp [StoreM.addRelease]
  | cons e releases ih =>
      obtain ⟨other, count⟩ := e
      obtain ⟨hcount, hrest⟩ := List.forall_mem_cons.mp hpositive
      unfold StoreM.addRelease
      split
      · exact List.forall_mem_cons.mpr ⟨Nat.succ_pos count, hrest⟩
      · exact List.forall_mem_cons.mpr ⟨hcount, ih hrest⟩

theorem positive_dropRelease {releases : List (Handle × Nat)}
    (hpositive : ∀ e ∈ releases, 0 < e.2) : ∀ e ∈ StoreM.dropRelease id releases, 0 < e.2 := by
  induction releases with
  | nil => simp [StoreM.dropRelease]
  | cons e releases ih =>
      obtain ⟨other, count⟩ := e
      obtain ⟨hcount, hrest⟩ := List.forall_mem_cons.mp hpositive
      unfold StoreM.dropRelease
      split
      case isTrue =>
          split
          case isTrue => exact hrest
          case isFalse hmore => exact List.forall_mem_cons.mpr ⟨by omega, hrest⟩
      case isFalse => exact List.forall_mem_cons.mpr ⟨hcount, ih hrest⟩

/-! ## Histories -/

/-- The store is well rooted, and these are the steps that were taken with a result, the first one
first.  There may have been others that failed. -/
inductive WellRootedBy : List Step → Store → Prop
  | setup {hash : List UInt16 → UInt64} {config : Config} {outages : Option Outages} {s : Store}
      (hvalid : config.error? = none)
      (hrun : StoreM.handleScope StoreM.makeCanonical (.blankWith hash config outages) = .ok () s) :
      WellRootedBy [] s
  | step {steps : List Step} {step : Step} {outcome : Outcome} {s s' : Store}
      (hs : WellRootedBy steps s) (hr : step.Rooted s) (hrun : step.run s = .ok outcome s') :
      WellRootedBy (steps ++ [step]) s'
  | failure {steps : List Step} {step : Step} {e : Fault} {s s' : Store}
      (hs : WellRootedBy steps s) (hr : step.Rooted s) (hrun : step.run s = .error e s')
      (he : e ≠ .wordOverflow) : WellRootedBy steps s'

theorem WellRootedBy.wellRooted (hs : WellRootedBy steps s) : WellRooted s := by
  induction hs with
  | setup hvalid hrun => exact .setup hvalid hrun
  | step _ hr hrun ih => exact ih.step ⟨hr, Or.inl ⟨_, hrun⟩⟩
  | failure _ hr hrun he ih => exact ih.step ⟨hr, Or.inr ⟨_, hrun, he⟩⟩

/-- Every well-rooted store has a history. -/
theorem wellRooted_iff_exists_history : WellRooted s ↔ ∃ steps, WellRootedBy steps s := by
  refine ⟨fun hs => ?_, fun ⟨_, hs⟩ => hs.wellRooted⟩
  -- on the run: a step with a result is added to the history, a failure is not
  induction hs with
  | setup hvalid hrun => exact ⟨[], .setup hvalid hrun⟩
  | step _ hstep ih =>
      obtain ⟨steps, hs⟩ := ih
      obtain ⟨hr, ⟨outcome, hrun⟩ | ⟨e, hrun, he⟩⟩ := hstep
      · exact ⟨_, hs.step hr hrun⟩
      · exact ⟨_, hs.failure hr hrun he⟩

theorem WellRootedBy.of_replay (hs : WellRootedBy steps s) (hrun : replay rest s = some s') :
    WellRootedBy (steps ++ rest) s' := by
  induction rest generalizing steps s with
  | nil =>
      obtain rfl : s = s' := by simpa [replay] using hrun
      simpa using hs
  | cons step rest ih =>
      obtain ⟨outcome, between, hr, hstep, hrest⟩ := Step.result_of_replay hrun
      have hnext := ih (hs.step hr hstep) hrest
      simpa using hnext

theorem WellRootedBy.exists_replay {config : Config} {p : Store → Bool}
    (hcheck : ((Store.create config none).toOption.bind (replay steps)).any p = true) :
    ∃ s, WellRootedBy steps s ∧ p s = true := by
  obtain ⟨s₀, s, hcreate, hrun, hp⟩ := Store.exists_replay hcheck
  obtain ⟨hvalid, hash, hsetup⟩ := setup_of_create hcreate
  exact ⟨s, WellRootedBy.of_replay (.setup hvalid hsetup) hrun, hp⟩

/-! ## Persistent objects -/

/-- How many releases are due for an object after one more step, if some were due before. -/
def Step.tally (id : Handle) (due : Nat) : Step → Nat
  | .perform (.persist other) => if other = id then due + 1 else due
  | .perform (.unpersist other) => if other = id then due - 1 else due
  | _ => due

/-- How much more often an object was made persistent than it was released, where releases do
not count if none was due. -/
def Step.balance (id : Handle) (steps : List Step) : Nat :=
  steps.foldl (Step.tally id) 0

/-- The releases due are those that the history says. -/
structure Tallied (steps : List Step) (releases : List (Handle × Nat)) : Prop where
  positive : ∀ e ∈ releases, 0 < e.2
  due : ∀ id, releasesDue id releases = Step.balance id steps

theorem tallied_nil : Tallied [] [] :=
  ⟨by simp, fun _ => rfl⟩

theorem Step.balance_append (id : Handle) (steps : List Step) (step : Step) :
    Step.balance id (steps ++ [step]) = step.tally id (Step.balance id steps) := by
  simp [Step.balance]

/-- An ordinary step has no say in what is persistent. -/
theorem Step.tally_of_isOrdinary (hstep : step.isOrdinary = true) (id : Handle) (due : Nat) :
    step.tally id due = due := by
  unfold Step.tally
  split
  · simp [isOrdinary, Operation.isOrdinary] at hstep
  · simp [isOrdinary, Operation.isOrdinary] at hstep
  · rfl

/-- Nothing that an operation does to the heap changes what is persistent. -/
theorem indifferent_persistent (releases : List (Handle × Nat)) :
    Indifferent (fun _ kept => kept.persistent = releases) fun _ _ => False where
  ignoresTexts _ _ _ _ h := h
  collect _ _ _ := upholds_const _
  allocate? _ _ _ _ := upholds_const _
  modifyObject _ _ _ _ := upholds_const _
  remeasure _ _ _ := upholds_const _
  transplant _ _ _ := upholds_const _

/-- A step with a result is told in the tally, and one without is not. -/
theorem Step.Rooted.tallies (hr : step.Rooted s) (ht : Tallied steps s.persistent) :
    Ends step.run s (fun _ s' => Tallied (steps ++ [step]) s'.persistent)
      (fun e s' => Tallied steps s'.persistent ∨ e = .wordOverflow) := by
  -- a step that is not about persistence leaves the tally alone, one that fails leaves it too
  rcases step.isOrdinary_or with hstep | ⟨object, space, rfl⟩ | ⟨id, rfl | rfl⟩
  · have hi := indifferent_persistent s.persistent
    refine (hi.lasting.step hstep (fun _ => hi.ignoresTexts) s rfl).mono
      (fun _ s' (hsame : s'.persistent = s.persistent) => ?_) fun e s' hfail => ?_
    · refine hsame ▸ ⟨ht.positive, fun id => ?_⟩
      rw [Step.balance_append, Step.tally_of_isOrdinary hstep, ht.due id]
    · have hsame : s'.persistent = s.persistent := hfail.resolve_right And.right
      exact Or.inl (hsame ▸ ht)
  · exact absurd rfl (hr.plain object space)
  · refine ends_bind.mpr ((ends_persist s id).mono ?_ ?_)
    · rintro _ s' ⟨-, rfl⟩
      refine ⟨positive_addRelease ht.positive, fun j => ?_⟩
      rw [releasesDue_addRelease, ht.due, Step.balance_append]
      rfl
    · rintro e s' ⟨-, -, rfl⟩
      exact Or.inl ht
  · refine ⟨positive_dropRelease ht.positive, fun j => ?_⟩
    rw [releasesDue_dropRelease id j ht.positive, ht.due, Step.balance_append]
    rfl

theorem WellRootedBy.tallied (hs : WellRootedBy steps s) : Tallied steps s.persistent := by
  induction hs with
  | @setup _ _ _ s hvalid hrun =>
      have hnone : s.persistent = [] :=
        ((indifferent_persistent []).lasting.setup _ rfl).of_ok hrun
      exact hnone ▸ tallied_nil
  | step _ hr hrun ih => exact (hr.tallies ih).of_ok hrun
  | failure _ hr hrun he ih => exact ((hr.tallies ih).of_error hrun).resolve_right he

/-- An object can be persisted as often as its releases can be counted. -/
theorem WellRootedBy.ends_persist (hs : WellRootedBy steps s) (id : Handle) :
    Ends (StoreM.persist id) s (fun _ _ => Step.balance id steps + 1 < UInt32.size)
      (fun e s' => UInt32.size ≤ Step.balance id steps + 1 ∧ e = .countOverflow ∧ s' = s) :=
  hs.tallied.due id ▸ (Store.ends_persist s id).mono (fun _ _ hend => hend.1) fun _ _ hfail => hfail

/-! ## What is kept alive -/

/-- The objects that a store with some history keeps alive by themselves. -/
inductive Store.Anchors (steps : List Step) (s : Store) : Handle → Prop
  | scope {id : Handle} (hid : id ∈ s.scope) : Anchors steps s id
  | persistent {id : Handle} (hdue : 0 < Step.balance id steps) : Anchors steps s id
  | single {id : Handle} {unit : Nat} (hid : s.singles[unit]? = some (some id)) :
      Anchors steps s id
  | canonical {id : Handle} (hid : id ∈ s.canonical.toList) : Anchors steps s id

/-- The object is kept alive, by itself or by what refers to it. -/
def Store.KeepsAlive (steps : List Step) (s : Store) (id : Handle) : Prop :=
  ∃ anchor, s.Anchors steps anchor ∧ s.heap.Reaches [anchor] id

theorem WellRootedBy.mem_roots (hs : WellRootedBy steps s) :
    id ∈ s.roots [] ↔ s.Anchors steps id := by
  have hpersistent : id ∈ s.persistent.map Prod.fst ↔ 0 < Step.balance id steps :=
    hs.tallied.due id ▸ mem_iff_releasesDue hs.tallied.positive
  simp only [Store.mem_roots, mem_ownRoots, List.not_mem_nil, false_or, hpersistent]
  constructor
  · rintro ((hid | hid | ⟨unit, hid⟩) | hid)
    · exact .scope (Array.mem_toList_iff.mp hid)
    · exact .persistent hid
    · exact .single hid
    · exact .canonical hid
  · intro hanchors
    cases hanchors with
    | scope hid => exact Or.inl (Or.inl (Array.mem_toList_iff.mpr hid))
    | persistent hdue => exact Or.inl (Or.inr (Or.inl hdue))
    | single hid => exact Or.inl (Or.inr (Or.inr ⟨_, hid⟩))
    | canonical hid => exact Or.inr hid

/-- What a collection leaves of a store of which some objects are to be left. -/
structure Store.Leaves (s : Store) (left : Handle → Prop) (s' : Store) : Prop where
  live : ∀ id, s'.heap.isLive id = true ↔ left id
  unchanged : ∀ id, s'.heap.isLive id = true → s'.heap.find id = s.heap.find id
  listed : ∀ id, id ∈ s'.table.ids ↔ id ∈ s'.heap.canonical
  nodup : s'.table.ids.Nodup
  numberTexts : s'.numberTexts = []

theorem Heap.reaches_iff_exists {h : Heap} {roots : List Handle} :
    h.Reaches roots id ↔ ∃ root ∈ roots, h.Reaches [root] id := by
  constructor
  · intro hreach
    induction hreach with
    | @root id hroot => exact ⟨id, hroot, .root (by simp)⟩
    | child _ hfind hchild ih =>
        obtain ⟨root, hroot, hlink⟩ := ih
        exact ⟨root, hroot, hlink.child hfind hchild⟩
  · rintro ⟨root, hroot, hreach⟩
    exact hreach.mono fun r hr => .root (List.mem_singleton.mp hr ▸ hroot)

theorem WellRootedBy.reaches_iff (hs : WellRootedBy steps s) :
    s.heap.Reaches (s.roots []) id ↔ s.KeepsAlive steps id := by
  rw [Heap.reaches_iff_exists]
  exact exists_congr fun root => and_congr_left fun _ => hs.mem_roots

/-- What is live after a collection is what is kept alive, and after one of the young space
also what was in the old space. -/
theorem WellRootedBy.survives_iff (hs : WellRootedBy steps s) {space : Space} :
    s.heap.Survives space (s.roots []) id ↔
      s.KeepsAlive steps id ∨ space = .young ∧ s.heap.spaceOf id = .ok .old := by
  have hready := hs.wellRooted.ready.1
  rw [Heap.Survives, hs.reaches_iff]
  refine and_iff_right_of_imp fun hleft => ?_
  rcases hleft with hkept | ⟨-, hold⟩
  · exact (hready.holds_iff.mpr (hs.reaches_iff.mpr hkept)).live
  · obtain ⟨loc, r, hh, -⟩ := hready.wellFormed.spaceOf_eq_iff.mp hold
    exact hh.isLive

theorem WellRootedBy.ends_collect (hs : WellRootedBy steps s) (space : Space) :
    Ends (StoreM.collectGarbage space) s (fun _ s' => s.Leaves (fun id =>
        s.KeepsAlive steps id ∨ space = .young ∧ s.heap.spaceOf id = .ok .old) s')
      fun e _ => e = .wordOverflow ∧ wordLimit ≤ s.heap.bytes := by
  have hsound := hs.wellRooted.ready.1.toSound
  refine ((ManagedHeap.ends_collect hsound.wellFormed space []).and
    (ends_collect_adds hsound space [])).mono (fun done s' hend => ?_) fun _ _ hfail => hfail.1
  obtain ⟨⟨h', hc, -, rfl⟩, hadds, -⟩ := hend
  exact {
    live := fun id => (hc.isLive_iff id).trans hs.survives_iff
    unchanged := hc.find
    listed := hadds.sound.indexed.listed
    nodup := hadds.sound.indexed.nodup
    numberTexts := rfl }

/-- A collection of both spaces leaves what is kept alive, and one of the young space leaves
the old objects as well.  It is carried out unless the bytes in use do not fit a machine
word.  An object can be persisted as often as its releases can be counted. -/
theorem WellRootedBy.survivors (hs : WellRootedBy steps s) :
    Ends (StoreM.collectGarbage .old) s (fun _ s' => s.Leaves (s.KeepsAlive steps) s')
      (fun e _ => e = .wordOverflow ∧ wordLimit ≤ s.heap.bytes) ∧
    Ends (StoreM.collectGarbage .young) s (fun _ s' => s.Leaves (fun id =>
        s.KeepsAlive steps id ∨ s.heap.spaceOf id = .ok .old) s')
      (fun e _ => e = .wordOverflow ∧ wordLimit ≤ s.heap.bytes) ∧
    ∀ id, Ends (StoreM.persist id) s (fun _ _ => Step.balance id steps + 1 < UInt32.size)
      (fun e s' => UInt32.size ≤ Step.balance id steps + 1 ∧ e = .countOverflow ∧ s' = s) := by
  refine ⟨?_, ?_, fun id => hs.ends_persist id⟩
  · simpa using hs.ends_collect .old
  · simpa using hs.ends_collect .young

/-- Two strings are persistent when all scopes are closed: a composite that was made persistent
twice and released once, and a string whose release came too early to count.  An old string, a
canonical one and the text of a number are kept by nothing. -/
theorem WellRootedBy.survivors_released : ∃ (steps : List Step) (s : Store),
    WellRootedBy steps s ∧ Step.balance ⟨10⟩ steps = 1 ∧ Step.balance ⟨11⟩ steps = 1 ∧
    s.scope = #[] ∧ s.heap.spaceOf ⟨10⟩ = .ok .young ∧ s.heap.spaceOf ⟨12⟩ = .ok .old ∧
    ⟨13⟩ ∈ s.table.ids ∧ s.numberTexts ≠ [] ∧
    Ends (StoreM.collectGarbage .old) s (fun _ s' => s.Leaves (s.KeepsAlive steps) s')
      (fun e _ => e = .wordOverflow ∧ wordLimit ≤ s.heap.bytes) ∧
    Ends (StoreM.collectGarbage .young) s (fun _ s' => s.Leaves (fun id =>
        s.KeepsAlive steps id ∨ s.heap.spaceOf id = .ok .old) s')
      (fun e _ => e = .wordOverflow ∧ wordLimit ≤ s.heap.bytes) ∧
    ∀ id, Ends (StoreM.persist id) s (fun _ _ => Step.balance id steps + 1 < UInt32.size)
      (fun e s' => UInt32.size ≤ Step.balance id steps + 1 ∧ e = .countOverflow ∧ s' = s) := by
  let steps : List Step := [.perform (.newText "abcdefg" .young),
    .perform (.newText "hijklmn" .young), .perform (.concat ⟨8⟩ ⟨9⟩), .perform (.persist ⟨10⟩),
    .perform (.persist ⟨10⟩), .perform (.unpersist ⟨10⟩), .perform (.newText "opqrstu" .young),
    .perform (.unpersist ⟨11⟩), .perform (.persist ⟨11⟩), .perform (.newText "vwxyz" .old),
    .perform (.internText "garbage"), .perform (.numberText (.int 15)), .closeScope ⟨0⟩]
  have hcheck : ((Store.create {} none).toOption.bind (replay steps)).any (fun s =>
      decide (s.scope = #[]) && decide (s.heap.spaceOf ⟨10⟩ = .ok .young) &&
        decide (s.heap.spaceOf ⟨12⟩ = .ok .old) && decide (⟨13⟩ ∈ s.table.ids) &&
        !s.numberTexts.isEmpty) = true := by
    decide +kernel
  obtain ⟨s, hs, hcheck⟩ := WellRootedBy.exists_replay hcheck
  simp only [Bool.and_eq_true, decide_eq_true_eq, Bool.not_eq_true', List.isEmpty_eq_false_iff]
    at hcheck
  obtain ⟨⟨⟨⟨hscope, hyoung⟩, hold⟩, hlisted⟩, htexts⟩ := hcheck
  exact ⟨steps, s, hs, by decide, by decide, hscope, hyoung, hold, hlisted, htexts, hs.survivors⟩

end ManagedHeap
