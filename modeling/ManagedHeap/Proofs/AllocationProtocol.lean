import ManagedHeap.Proofs.WellRooted

/-!
# The protocol of allocations

An object gets its place at the first attempt or, after one collection of its space, at the
second.  If both attempts are refused, the store is out of memory.  `Store.Tries` is the course
of the attempts; an attempt is refused exactly if an outage is planned for it or its space has
no room (`Store.Denies`).

The object that waits for its place is not on the heap while its space is collected, and what
it refers to need not be held by the store.  Two things could go wrong:

* **What it refers to could be collected.**  The collection has it for roots, besides those of
  the store, so whatever either of them leads to is kept (`Heap.Collects`).
* **Its handle could be taken for another object.**  A handle that the collection gave free may
  be given to the object at once.  Nothing names the former object by then: what is kept is
  live, the texts of numbers are forgotten before the collection, and the interning table drops
  its dead entries after it (`Store.Saves`).

Only well-formedness of the heap and liveness of the roots and caches are needed of the store;
the object may be any object whose referents are live.
-/

namespace ManagedHeap

open Store

namespace Store

variable {s s' before after : Store} {o : Object} {space : Space} {id : Handle}
  {held : List Handle} {found : Option Handle} {collections : Nat}

/-! ## What is left -/

/-- The store has the same roots outside of its scopes; what the roots and the objects in
`held` led to is as it was; and its caches name live objects only. -/
structure Saves (s : Store) (held : List Handle) (s' : Store) : Prop where
  persistent : s'.persistent = s.persistent
  singles : s'.singles = s.singles
  canonical : s'.canonical = s.canonical
  kept : ∀ id ∈ s.heap.reachable (s.roots held),
    s'.heap.isLive id = true ∧ s'.heap.find id = s.heap.find id
  numberTexts : ∀ e ∈ s'.numberTexts, s'.heap.isLive e.2 = true
  table : ∀ e ∈ s'.table.entries, s'.heap.isLive e.2 = true

theorem Sound.saves_refl (hs : s.Sound) (held : List Handle) : s.Saves held s where
  persistent := rfl
  singles := rfl
  canonical := rfl
  kept id hid := ⟨hid.1, rfl⟩
  numberTexts e he := (hs.numberTexts e he).isLive
  table e he := by
    obtain ⟨w, hw, -⟩ := hs.table.entries e he
    exact hw.live

/-- What is reachable survives a collection, and the caches are cleaned after it. -/
theorem saves_of_collects {done : HeapM.Collected} {h' : Heap} (outages : Option Outages)
    (collections : Nat) (hc : s.heap.Collects space (s.roots held) done h') :
    s.Saves held { s with
      heap := h'
      outages
      numberTexts := []
      table := s.table.retain h'.isLive
      collections } where
  persistent := rfl
  singles := rfl
  canonical := rfl
  kept id hid := by
    have hlive : h'.isLive id = true := (hc.isLive_iff id).mpr ⟨hid.1, Or.inl hid.2⟩
    exact ⟨hlive, hc.find id hlive⟩
  numberTexts e he := by simp at he
  table e he := by
    obtain ⟨-, hlive⟩ := Array.mem_filter.mp he
    exact hlive

/-- An object that is placed under a free handle is in nobody's way. -/
theorem Saves.gains {h' : Heap} (hs : s.Saves held before) (hw : before.heap.WellFormed)
    (hgains : before.heap.Gains id o space h') (outages : Option Outages)
    (scope : Array Handle) :
    s.Saves held { before with heap := h', outages, scope } := by
  have hsame {j : Handle} (hlive : before.heap.isLive j = true) :
      h'.isLive j = true ∧ h'.find j = before.heap.find j :=
    ⟨(hgains.isLive_of_ne hw (hgains.ne_of_live hlive)).trans hlive,
      hgains.find_of_ne hw (hgains.ne_of_live hlive)⟩
  exact {
    persistent := hs.persistent
    singles := hs.singles
    canonical := hs.canonical
    kept := fun j hj => by
      obtain ⟨hlive, hfind⟩ := hs.kept j hj
      obtain ⟨hlive', hfind'⟩ := hsame hlive
      exact ⟨hlive', hfind'.trans hfind⟩
    numberTexts := fun e he => (hsame (hs.numberTexts e he)).1
    table := fun e he => (hsame (hs.table e he)).1 }

/-! ## The course of an allocation -/

/-- The attempts to place an object, and the collection between them.  `before` is the store in
which the last attempt begins and `after` the one that it leaves. -/
inductive Tries (s : Store) (o : Object) (space : Space) :
    (collections : Nat) → (before : Store) → Option Handle → (after : Store) → Prop
  | once {id : Handle} {after : Store}
      (hplaced : StoreM.attempt (.of o space) (fun _ => o) s = .ok (some id) after) :
      Tries s o space 0 s (some id) after
  | twice {refused before after : Store} {done : HeapM.Collected} {found : Option Handle}
      (hfirst : StoreM.attempt (.of o space) (fun _ => o) s = .ok none refused)
      (hcollect : StoreM.collect space o.children refused = .ok done before)
      (hsecond : StoreM.attempt (.of o space) (fun _ => o) before = .ok found after) :
      Tries s o space 1 before found after

/-- What the attempts say about the store: a collection is done exactly if the first attempt is
denied, every attempt counts, and the last one finds a place exactly if it is not denied. -/
structure Tried (s : Store) (o : Object) (space : Space) (collections : Nat) (before : Store)
    (found : Option Handle) (after : Store) : Prop where
  first : collections = 1 ↔ s.Denies (.of o space)
  last : found = none ↔ before.Denies (.of o space)
  attempts : after.attempts? = s.attempts?.map (· + (collections + 1))
  collections : after.collections = s.collections + collections

/-- The object was placed under a handle that named nothing just before, it alone became a
root, what it refers to is live, and all else is saved. -/
structure Allocates (s : Store) (o : Object) (space : Space) (before : Store) (id : Handle)
    (s' : Store) : Prop extends s.Saves o.children s' where
  fresh : before.heap.isLive id = false
  find : s'.heap.find id = .ok o
  children : ∀ c ∈ o.children, s'.heap.isLive c = true
  spaceOf : s'.heap.spaceOf id = .ok space
  scope : s'.scope = s.scope.push id

theorem Tries.tried (ht : s.Tries o space collections before found after) (hs : s.Sound) :
    s.Tried o space collections before found after := by
  cases ht with
  | once hplaced =>
      have hlast := (ends_attempt hs.wellFormed _ _).of_ok hplaced
      refine ⟨iff_of_false (by simp) fun h => by simpa using hlast.denied.mpr h, hlast.denied,
        hlast.attempts, ?_⟩
      obtain ⟨h', outages, rfl⟩ := hlast.frame
      rfl
  | @twice refused before after done found hfirst hcollect hsecond =>
      have hdenied := (ends_attempt hs.wellFormed _ _).of_ok hfirst
      have hattempts := hdenied.attempts
      have hfull := hdenied.denied.mp rfl
      obtain ⟨outages, rfl⟩ := hdenied.of_refused
      have hw : ({ s with outages } : Store).heap.WellFormed := hs.wellFormed
      obtain ⟨h', hc, -, rfl⟩ := (ends_collect hw space o.children).of_ok hcollect
      have hlast := (ends_attempt hc.wellFormed _ _).of_ok hsecond
      refine ⟨iff_of_true rfl hfull, hlast.denied, ?_, ?_⟩
      · -- the note of the collection is no attempt
        have hnoted : (outages.map fun o => { o with log := o.log.push (.collected space) }).map
            Outages.attempts = s.attempts?.map (· + 1) := by
          rw [Option.map_map]
          exact hattempts
        calc after.attempts?
            = (s.attempts?.map (· + 1)).map (· + 1) :=
              hlast.attempts.trans (congrArg (Option.map (· + 1)) hnoted)
          _ = s.attempts?.map (· + (1 + 1)) := by
              rw [Option.map_map]
              rfl
      · obtain ⟨h'', outages', rfl⟩ := hlast.frame
        rfl

/-- The last attempt begins in the store at hand or in what a collection has left of it. -/
theorem Tries.prepares (ht : s.Tries o space collections before found after) (hs : s.Sound) :
    s.Prepares space o.children before ∧ before.heap.WellFormed ∧
      StoreM.attempt (.of o space) (fun _ => o) before = .ok found after := by
  cases ht with
  | once hplaced => exact ⟨.once, hs.wellFormed, hplaced⟩
  | @twice refused before after done found hfirst hcollect hsecond =>
      obtain ⟨outages, rfl⟩ := ((ends_attempt hs.wellFormed _ _).of_ok hfirst).of_refused
      have hw : ({ s with outages } : Store).heap.WellFormed := hs.wellFormed
      obtain ⟨h', hc, -, rfl⟩ := (ends_collect hw space o.children).of_ok hcollect
      exact ⟨.twice _ hc, hc.wellFormed, hsecond⟩

theorem Tries.wellFormed (ht : s.Tries o space collections before found after) (hs : s.Sound) :
    after.heap.WellFormed := by
  obtain ⟨-, hw, hlast⟩ := ht.prepares hs
  exact ((ends_attempt hw _ _).of_ok hlast).wellFormed hw

/-- All that is reachable is saved until the last attempt. -/
theorem Prepares.saves (hp : s.Prepares space held before) (hs : s.Sound) :
    s.Saves held before ∧ before.scope = s.scope := by
  cases hp with
  | once => exact ⟨hs.saves_refl held, rfl⟩
  | twice outages hc => exact ⟨saves_of_collects _ _ hc, rfl⟩

/-- What is reachable outlives the course of the attempts. -/
theorem Tries.allocates (ht : s.Tries o space collections before (some id) after) (hs : s.Sound)
    (hlive : ∀ c ∈ o.children, s.heap.isLive c = true) :
    s.Allocates o space before id { after with scope := after.scope.push id } := by
  obtain ⟨hprepares, hw, hlast⟩ := ht.prepares hs
  obtain ⟨hsaves, hscope⟩ := hprepares.saves hs
  have hattempt := (ends_attempt hw _ _).of_ok hlast
  obtain ⟨hgains, -⟩ := hattempt.placed id rfl
  obtain ⟨h', outages, rfl⟩ := hattempt.frame
  have hafter := hsaves.gains hw hgains outages (before.scope.push id)
  refine ⟨hafter, hgains.dead, hgains.find, fun c hc => ?_, hgains.spaceOf,
    congrArg (·.push id) hscope⟩
  exact (hafter.kept c ⟨hlive c hc, .root (mem_roots.mpr (Or.inl hc))⟩).1

/-- An allocation follows the course of its attempts, unless a count of bytes overflows. -/
theorem Sound.ends_allocate (hs : s.Sound) (hopen : s.gate.isOpen = true) (o : Object)
    (space : Space) :
    Ends (StoreM.allocate o space) s
      (fun id s' => ∃ collections before after, s.Tries o space collections before (some id) after ∧
        s' = { after with scope := after.scope.push id })
      (fun e s' => (e = .outOfMemory o.size o.kind space ∧
          ∃ collections before, s.Tries o space collections before none s') ∨
        e = .wordOverflow ∧ wordLimit ≤ s.heap.bytes + o.size) := by
  have hattempt {s : Store} (hw : s.heap.WellFormed) :=
    (ends_attempt hw (.of o space) fun _ => o).and (ends_self _ s)
  unfold StoreM.allocate StoreM.fulfil
  rw [ends_bind, ends_get, if_neg (by simpa using hopen)]
  simp only
  rw [ends_bind]
  refine (hattempt hs.wellFormed).mono (fun found s₁ hend => ?_) fun _ _ hfail => Or.inr hfail.1
  obtain ⟨hfound, hfirst⟩ := hend
  cases found with
  | some id => exact ⟨0, s, s₁, .once hfirst, rfl⟩
  | none =>
      obtain ⟨outages, rfl⟩ := hfound.of_refused
      have hw : ({ s with outages } : Store).heap.WellFormed := hs.wellFormed
      simp only
      rw [ends_bind]
      refine ((ends_collect hw space o.children).and (ends_self _ _)).mono
        (fun done s₂ hend => ?_)
        fun _ _ hfail => Or.inr ⟨hfail.1.1, hfail.1.2.trans (Nat.le_add_right _ _)⟩
      obtain ⟨⟨h', hc, -, rfl⟩, hcollect⟩ := hend
      rw [ends_bind]
      refine (hattempt hc.wellFormed).mono (fun found s₃ hend => ?_)
        fun _ _ hfail => Or.inr ⟨hfail.1.1, hfail.1.2.trans (Nat.add_le_add_right ?_ _)⟩
      · cases found with
        | some id => exact ⟨1, _, s₃, .twice hfirst hcollect hend.2, rfl⟩
        | none => exact Or.inl ⟨rfl, 1, _, .twice hfirst hcollect hend.2⟩
      · -- a collection frees bytes, so the count that overflows now was as large before
        have hfreed : h'.bytes + done.freed.bytes = s.heap.bytes := hc.freed_bytes
        exact hfreed ▸ Nat.le_add_right _ _

/-- The course of the attempts tells how the allocation ends. -/
theorem Tries.run (ht : s.Tries o space collections before found after)
    (hopen : s.gate.isOpen = true) :
    (∀ id, found = some id →
      StoreM.allocate o space s = .ok id { after with scope := after.scope.push id }) ∧
    (found = none →
      StoreM.allocate o space s = .error (.outOfMemory o.size o.kind space) after) := by
  have hget : (get : StoreM Store) s = .ok s s := rfl
  unfold StoreM.allocate StoreM.fulfil
  rw [run_bind hget, if_neg (by simpa using hopen)]
  cases ht with
  | once hplaced =>
      simp only [run_bind hplaced]
      exact ⟨fun id hid => Option.some.inj hid ▸ rfl, fun hnone => by simp at hnone⟩
  | @twice refused before after done found hfirst hcollect hsecond =>
      have hcollect' : StoreM.collect (HeapM.Request.of o space).space o.children refused =
          .ok done before := hcollect
      simp only [run_bind hfirst, run_bind hcollect', run_bind hsecond]
      constructor
      · rintro id rfl
        rfl
      · rintro rfl
        rfl

/-- How a store allocates an object.  The courses of the attempts account for every result and
for running out of memory; there is no other failure, unless a count of bytes overflows. -/
structure AllocatesByProtocol (s : Store) (o : Object) (space : Space) : Prop where
  placed : ∀ id s', StoreM.allocate o space s = .ok id s' ↔
    ∃ collections before after, s.Tries o space collections before (some id) after ∧
      s' = { after with scope := after.scope.push id }
  exhausted : ∀ s', StoreM.allocate o space s = .error (.outOfMemory o.size o.kind space) s' ↔
    ∃ collections before, s.Tries o space collections before none s'
  failure : ∀ e s', StoreM.allocate o space s = .error e s' →
    e = .outOfMemory o.size o.kind space ∨
      e = .wordOverflow ∧ wordLimit ≤ s.heap.bytes + o.size
  tried : ∀ collections before found after, s.Tries o space collections before found after →
    s.Tried o space collections before found after
  allocates : ∀ collections before id after,
    s.Tries o space collections before (some id) after →
      s.Allocates o space before id { after with scope := after.scope.push id }

end Store

variable {s : Store} {o : Object}

/-- Every well-rooted store allocates by the protocol whatever object refers to live ones only,
be they held or not, in either space and under every plan of outages. -/
theorem WellRooted.allocation (hs : WellRooted s) (hopen : s.gate.isOpen = true)
    (hlive : ∀ c ∈ o.children, s.heap.isLive c = true) (space : Space) :
    s.AllocatesByProtocol o space := by
  have hsound : s.Sound := hs.ready.1.toSound
  have hends := hsound.ends_allocate hopen o space
  refine ⟨fun id s' => ⟨fun hrun => hends.of_ok hrun, ?_⟩,
    fun s' => ⟨fun hrun => ?_, ?_⟩, fun e s' hrun => ?_, fun _ _ _ _ ht => ht.tried hsound,
    fun _ _ _ _ ht => ht.allocates hsound hlive⟩
  · rintro ⟨collections, before, after, ht, rfl⟩
    exact (ht.run hopen).1 id rfl
  · rcases hends.of_error hrun with ⟨-, ht⟩ | ⟨he, -⟩
    · exact ht
    · simp at he
  · rintro ⟨collections, before, ht⟩
    exact (ht.run hopen).2 rfl
  · exact (hends.of_error hrun).imp_left And.left

/-- An array that refers to a text which nothing keeps alive, and a plan by which the first
attempt to place it is refused. -/
theorem WellRooted.allocation_retried : ∃ s : Store, WellRooted s ∧ s.gate.isOpen = true ∧
    (∀ c ∈ (Object.array #[.ref ⟨8⟩]).children, s.heap.isLive c = true) ∧ ⟨8⟩ ∉ s.roots [] ∧
    s.Denies (.of (.array #[.ref ⟨8⟩]) .young) ∧
    s.AllocatesByProtocol (.array #[.ref ⟨8⟩]) .young := by
  have hcheck : (((Store.create {} none).toOption.bind (replay
      [.perform (.newText "abcdefg" .young), .closeScope ⟨0⟩,
        .plan (some (Outages.none.refuseNext 1))])).any fun s =>
        s.gate.isOpen && s.heap.isLive ⟨8⟩ && !(s.roots []).contains ⟨8⟩ &&
        s.outages.any fun o => o.refuses o.attempts) = true := by
    decide +kernel
  obtain ⟨s, hs, hcheck⟩ := WellRooted.exists_replay hcheck
  simp only [Bool.and_eq_true, Bool.not_eq_true', Option.any_eq_true] at hcheck
  obtain ⟨⟨⟨hopen, hlive⟩, hroot⟩, hplan⟩ := hcheck
  have hchildren : ∀ c ∈ (Object.array #[.ref ⟨8⟩]).children, s.heap.isLive c = true := by
    intro c hc
    obtain rfl : c = ⟨8⟩ := by
        simpa [Object.children, Object.handlesOf, Value.handle?] using hc
    exact hlive
  refine ⟨s, hs, hopen, hchildren, ?_, Or.inl hplan, hs.allocation hopen hchildren .young⟩
  rw [← List.contains_iff_mem, hroot]
  simp

end ManagedHeap
