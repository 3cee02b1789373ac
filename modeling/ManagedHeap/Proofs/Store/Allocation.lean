import ManagedHeap.Proofs.Heap.Collection
import ManagedHeap.Proofs.Store.Placing
import ManagedHeap.Store.Allocation

/-!
# Collections and allocations

A collection from the roots of a store, and from held objects besides, adds nothing and
takes away nothing that was held.  `fulfil` places an object, and if it has to collect
first, what the object refers to is held meanwhile.  So every allocation adds to the store,
whether it collects or not, and whether outages refuse it or not.

What an allocation takes from the means of the store is told in bytes (`Spends`), and so is
what it is refused for (`Refuses`).  Along a computation the bytes add up, since a collection
on the way takes none (`Spends.trans`, `Refuses.after`).
-/

namespace ManagedHeap

namespace Store

variable {s s' s'' : Store} {id : Handle} {o : Object} {held : List Handle} {bytes more : Nat}
  {e : Fault}

/-! ## Room -/

/-- The means to place objects are what they were, apart from a number of bytes at most that
was taken. -/
structure Spends (s : Store) (bytes : Nat) (s' : Store) : Prop where
  gate : s'.gate = s.gate
  outages : ∀ o', s'.outages = some o' →
    ∃ o, s.outages = some o ∧ o'.refuses = o.refuses ∧ o.attempts ≤ o'.attempts
  collections : s.collections ≤ s'.collections
  bytes : s'.heap.bytes ≤ s.heap.bytes + bytes

/-- Nothing is taken where the bytes in use do not become more. -/
theorem spends_zero (hgate : s'.gate = s.gate) (houtages : s'.outages = s.outages)
    (hcollections : s'.collections = s.collections) (hbytes : s'.heap.bytes ≤ s.heap.bytes) :
    s.Spends 0 s' :=
  ⟨hgate, fun o' h => ⟨o', houtages ▸ h, rfl, Nat.le_refl _⟩, Nat.le_of_eq hcollections.symm,
    hbytes⟩

theorem spends_note (event : OutageEvent) :
    s.Spends 0 { s with outages := s.outages.map fun o => { o with log := o.log.push event } } where
  gate := rfl
  outages o' h := by
    obtain ⟨o, ho, rfl⟩ := Option.map_eq_some_iff.mp h
    exact ⟨o, ho, rfl, Nat.le_refl _⟩
  collections := Nat.le_refl _
  bytes := Nat.le_refl _

theorem Spends.trans (hfirst : s.Spends bytes s') (hsecond : s'.Spends more s'') :
    s.Spends (bytes + more) s'' where
  gate := hsecond.gate.trans hfirst.gate
  outages o'' h := by
    obtain ⟨o', ho', hplan', hattempts'⟩ := hsecond.outages o'' h
    obtain ⟨o, ho, hplan, hattempts⟩ := hfirst.outages o' ho'
    exact ⟨o, ho, hplan'.trans hplan, hattempts.trans hattempts'⟩
  collections := hfirst.collections.trans hsecond.collections
  bytes := by
    have hbefore := hfirst.bytes
    have hafter := hsecond.bytes
    omega

theorem Spends.before (hfirst : s.Spends bytes s') (hsecond : s'.Spends 0 s'') :
    s.Spends bytes s'' :=
  hfirst.trans hsecond

theorem Spends.after (hsecond : s'.Spends bytes s'') (hfirst : s.Spends 0 s') :
    s.Spends bytes s'' :=
  Nat.zero_add bytes ▸ hfirst.trans hsecond

theorem Spends.mono (hs : s.Spends bytes s') (hle : bytes ≤ more) : s.Spends more s' :=
  ⟨hs.gate, hs.outages, hs.collections, hs.bytes.trans (Nat.add_le_add_left hle _)⟩

/-- The ways in which a computation from `s` to `s'` is refused a place for an object of a
number of bytes at most: the gate is closed; there is no room for the object after a collection
either; the plan of outages refuses the attempt that was made last, which was not the first one
and came after a collection; or the bytes in use cannot be counted. -/
inductive Refuses (s : Store) (bytes : Nat) : Fault → Store → Prop
  | gate {s' : Store} (hclosed : s.gate.isOpen = false) : Refuses s bytes .allocationDisallowed s'
  | room {s' : Store} (request : HeapM.Request) (hsize : request.size ≤ bytes)
      (hcollected : s.collections < s'.collections)
      (hfull : (s'.heap.arena request.space).hasRoom request.size = false) :
      Refuses s bytes (.outOfMemory request.size request.kind request.space) s'
  | outage {s' : Store} (request : HeapM.Request) (hsize : request.size ≤ bytes) {o o' : Outages}
      (hbefore : s.outages = some o) (hafter : s'.outages = some o')
      (hattempts : o.attempts + 2 ≤ o'.attempts)
      (hrefused : o.refuses (o'.attempts - 1) = true)
      (hcollected : s.collections < s'.collections) :
      Refuses s bytes (.outOfMemory request.size request.kind request.space) s'
  | words {s' : Store} (hwords : wordLimit ≤ s.heap.bytes + bytes) :
      Refuses s bytes .wordOverflow s'

/-- What refuses an object later on refuses it from the beginning. -/
theorem Refuses.after (hr : s'.Refuses more e s'') (hs : s.Spends bytes s') :
    s.Refuses (bytes + more) e s'' := by
  cases hr with
  | gate hclosed => exact .gate (hs.gate ▸ hclosed)
  | room request hsize hcollected hfull =>
      exact .room request (hsize.trans (Nat.le_add_left _ _))
        (Nat.lt_of_le_of_lt hs.collections hcollected) hfull
  | outage request hsize hbefore hafter hattempts hrefused hcollected =>
      obtain ⟨o, ho, hsame, hearlier⟩ := hs.outages _ hbefore
      exact .outage request (hsize.trans (Nat.le_add_left _ _)) ho hafter
        ((Nat.add_le_add_right hearlier 2).trans hattempts) (hsame ▸ hrefused)
        (Nat.lt_of_le_of_lt hs.collections hcollected)
  | words hwords =>
      have hbytes := hs.bytes
      exact .words (by omega)

theorem Refuses.mono (hr : s.Refuses bytes e s') (hle : bytes ≤ more) : s.Refuses more e s' := by
  cases hr with
  | gate hclosed => exact .gate hclosed
  | room request hsize hcollected hfull => exact .room request (hsize.trans hle) hcollected hfull
  | outage request hsize hbefore hafter hattempts hrefused hcollected =>
      exact .outage request (hsize.trans hle) hbefore hafter hattempts hrefused hcollected
  | words hwords => exact .words (hwords.trans (Nat.add_le_add_left hle _))

/-! ## The gate -/

/-- One more region is entered, unless as many are as can be counted; then nothing happens. -/
theorem ends_enterGate (s : Store) :
    Ends StoreM.enterGate s
      (fun _ s' => s.gate.depth + 1 < UInt32.size ∧ s' = { s with gate := s.gate.enter })
      (fun e s' => UInt32.size ≤ s.gate.depth + 1 ∧ e = .countOverflow ∧ s' = s) := by
  unfold StoreM.enterGate
  rw [ends_bind, ends_get, ends_bind, ends_checkCount]
  exact ⟨fun hfits => ⟨hfits, rfl⟩, fun hlarge => ⟨hlarge, rfl, rfl⟩⟩

/-! ## Collections -/

/-- What a collection leaves of a store, apart from what it leaves of the heap. -/
structure Cleaned (s s' : Store) : Prop extends s.Alike s' where
  numberTexts : s'.numberTexts = []
  interned : ∀ j w, s'.heap.Interned j w → s.heap.Interned j w
  collected : s'.collections = s.collections + 1

/-- A collection from the roots, and some more, keeps what is held. -/
theorem adds_collects {space : Space} {done : HeapM.Collected} {h' : Heap} (hs : s.Sound)
    (hc : s.heap.Collects space (s.roots held) done h') (ha : s.Alike s')
    (hheap : s'.heap = h') (htexts : s'.numberTexts = [])
    (htable : s'.table = s.table.retain h'.isLive) : s.Adds s' := by
  subst hheap
  -- what is held is reached from the roots, whatever else is held
  have hlive {j : Handle} (hj : s.Holds j) : s'.heap.isLive j = true :=
    (hc.isLive_iff j).mpr ⟨hj.live, Or.inl (hj.reaches.mono fun r hr =>
      .root (mem_roots.mpr (Or.inr ((mem_roots.mp hr).resolve_left (by simp)))))⟩
  have hfind (j : Handle) (hj : s.Holds j) : s'.heap.find j = s.heap.find j :=
    hc.find j (hlive hj)
  refine adds_of_find hs ha.toExtends hc.wellFormed hfind ?_
    (fun j o hj hbefore _ => absurd ?_ hbefore) (by simp [htexts]) ?_
    (hs.tidy.collects hc) ha.singles
  · intro j hj
    rw [ha.ownRoots] at hj
    exact hlive (holds_of_root (mem_roots.mpr (Or.inr (Or.inl hj))) (hs.rooted j hj))
  · refine hj.induct s.Holds ?_ ?_
    · intro r hr hr'
      rw [ha.roots] at hr
      exact holds_of_root hr ((hc.isLive_iff r).mp hr').1
    · intro p x c hp hx hc _
      exact hs.holds_child hp ((hfind p hp).symm.trans hx) hc
  · rw [htable]
    exact hs.table.retain fun _ _ => hc.interned_iff

end Store

open Store

variable {s : Store} {held : List Handle} {space : Space} {id : Handle}

/-- A collection is one of the heap, from the roots and what is held besides, and cleans the
caches of the store.  It fails only if the bytes of both spaces together do not fit a machine
word. -/
theorem ends_collect (hw : s.heap.WellFormed) (space : Space) (held : List Handle) :
    Ends (StoreM.collect space held) s (fun done s' => ∃ h',
        s.heap.Collects space (s.roots held) done h' ∧
        h'.fullCollections = s.heap.fullCollections + (if space = .old then 1 else 0) ∧
        s' = { s with
          heap := h'
          outages := s.outages.map fun o => { o with log := o.log.push (.collected space) }
          numberTexts := []
          table := s.table.retain h'.isLive
          collections := s.collections + 1 })
      (fun e _ => e = .wordOverflow ∧ wordLimit ≤ s.heap.bytes) := by
  unfold StoreM.collect StoreM.noteOutage
  simp only [ends_bind, ends_modify, ends_get, ends_onHeap]
  refine ((hw.ends_collect space (s.roots held)).and
    (Heap.ends_collect_count s.heap space (s.roots held))).mono ?_ fun _ _ hfail => hfail.1
  intro done h' hend
  exact ⟨h', hend.1.2, hend.2, rfl⟩

/-- A collection of a sound store keeps what is held, and takes no bytes. -/
theorem ends_collect_adds (hs : s.Sound) (space : Space) (held : List Handle) :
    Ends (StoreM.collect space held) s (fun _ s' => s.Adds s' ∧ s.Cleaned s' ∧ s.Spends 0 s' ∧
        s'.heap.fullCollections = s.heap.fullCollections + if space = .old then 1 else 0)
      (fun e _ => e = .wordOverflow ∧ wordLimit ≤ s.heap.bytes) := by
  refine (ends_collect hs.wellFormed space held).mono ?_ fun _ _ hfail => hfail
  intro done s' hend
  obtain ⟨h', hc, hcount, rfl⟩ := hend
  have hretains := hc.retains hs.tidy hcount
  refine ⟨adds_collects hs hc ⟨rfl, rfl, rfl, rfl, rfl, rfl, Nat.le_succ _, hretains⟩ rfl rfl
    rfl, ⟨⟨rfl, rfl, rfl, rfl, rfl, rfl, Nat.le_succ _, hretains⟩, rfl, ?_, rfl⟩,
    ⟨rfl, (spends_note (.collected space)).outages, Nat.le_succ _, ?_⟩, hcount⟩
  · exact fun j w hw => (hc.interned_iff.mp hw).2
  · have hbytes : h'.bytes + done.freed.bytes = s.heap.bytes := hc.freed_bytes
    show h'.bytes ≤ s.heap.bytes + 0
    omega

theorem runs_collect (hs : s.Sound) (space : Space) (held : List Handle) :
    RunsFrom Adds Rests s (StoreM.collect space held) s (fun _ s' => s.Cleaned s') :=
  (ends_collect_adds hs space held).mono (fun _ _ hend => ⟨hend.1, hend.2.1⟩)
    fun _ _ he => ⟨by simp [he.1], Or.inl he.1⟩

/-! ## Attempts -/

/-- The next attempt is refused by an outage. -/
def Store.PlansOutage (s : Store) : Prop :=
  ∃ o, s.outages = some o ∧ o.refuses o.attempts = true

/-- An attempt would be refused: by an outage, or since there is no room. -/
def Store.Denies (s : Store) (request : HeapM.Request) : Prop :=
  s.PlansOutage ∨ (s.heap.arena request.space).hasRoom request.size = false

/-- The number of attempts so far, if the store has a plan of outages. -/
def Store.attempts? (s : Store) : Option Nat :=
  s.outages.map Outages.attempts

/-- What an attempt to place an object comes to.  It counts, whatever it comes to; it is refused
exactly if it is denied, and leaves the heap as it is then. -/
structure Store.Attempted (s : Store) (request : HeapM.Request) (o : Object)
    (found : Option Handle) (s' : Store) : Prop where
  denied : found = none ↔ s.Denies request
  frame : ∃ heap outages, s' = { s with heap, outages }
  attempts : s'.attempts? = s.attempts?.map (· + 1)
  plan : ∀ o', s'.outages = some o' →
    ∃ o, s.outages = some o ∧ o'.refuses = o.refuses ∧ o.attempts ≤ o'.attempts
  placed : ∀ id, found = some id → s.heap.Gains id o request.space s'.heap ∧
    request.size < wordLimit ∧ s'.heap.bytes = s.heap.bytes + request.size
  refused : found = none → s'.heap = s.heap

section Attempts

variable {s' : Store} {request : HeapM.Request} {o : Object} {found : Option Handle}

theorem Store.Attempted.spends (ha : s.Attempted request o (some id) s') :
    s.Spends request.size s' := by
  obtain ⟨-, ⟨heap, outages, rfl⟩, -, hplan, hplaced, -⟩ := ha
  exact ⟨rfl, hplan, Nat.le_refl _, Nat.le_of_eq (hplaced id rfl).2.2⟩

theorem Store.Attempted.spends_zero (ha : s.Attempted request o none s') : s.Spends 0 s' := by
  obtain ⟨-, ⟨heap, outages, rfl⟩, -, hplan, -, hrefused⟩ := ha
  exact ⟨rfl, hplan, Nat.le_refl _, Nat.le_of_eq (congrArg Heap.bytes (hrefused rfl))⟩

/-- An attempt has a number: the attempts so far, of which there is one more afterwards. -/
theorem Store.Attempted.counts {o₁ : Outages} (ha : s.Attempted request o found s')
    (hbefore : s.outages = some o₁) :
    ∃ o₂, s'.outages = some o₂ ∧ o₂.attempts = o₁.attempts + 1 := by
  have hone : s'.attempts? = some (o₁.attempts + 1) := by
    rw [ha.attempts, attempts?, hbefore]
    rfl
  exact Option.map_eq_some_iff.mp hone

theorem Store.Attempted.counted {o₂ : Outages} (ha : s.Attempted request o found s')
    (hafter : s'.outages = some o₂) :
    ∃ o₁, s.outages = some o₁ ∧ o₂.refuses = o₁.refuses ∧ o₂.attempts = o₁.attempts + 1 := by
  obtain ⟨o₁, ho₁, hsame, -⟩ := ha.plan o₂ hafter
  obtain ⟨o₂', ho₂', hcount⟩ := ha.counts ho₁
  obtain rfl := Option.some.inj (hafter.symm.trans ho₂')
  exact ⟨o₁, ho₁, hsame, hcount⟩

/-- A refused attempt changes nothing but what is known about the outages. -/
theorem Store.Attempted.of_refused (ha : s.Attempted request o none s') :
    ∃ outages, s' = { s with outages } := by
  obtain ⟨-, ⟨heap, outages, rfl⟩, -, -, -, hrefused⟩ := ha
  obtain rfl : heap = s.heap := hrefused rfl
  exact ⟨outages, rfl⟩

theorem Store.Attempted.wellFormed (ha : s.Attempted request o found s')
    (hw : s.heap.WellFormed) : s'.heap.WellFormed := by
  cases found with
  | some id => exact (ha.placed id rfl).1.wellFormed
  | none => exact ha.refused rfl ▸ hw

theorem ends_nextRefused {fail : Fault → Store → Prop} :
    Ends StoreM.nextRefused s (fun refused s' => (refused = true ↔ s.PlansOutage) ∧
      s' = { s with outages := s.outages.map fun o => { o with attempts := o.attempts + 1 } })
      fail := by
  unfold StoreM.nextRefused
  rw [ends_bind, ends_get]
  cases houtages : s.outages with
  | none =>
      refine ⟨iff_of_false (by simp) ?_, by rw [Option.map_none, ← houtages]⟩
      rintro ⟨o, ho, -⟩
      simp [houtages] at ho
  | some o =>
      refine ⟨⟨fun hrefused => ⟨o, houtages, hrefused⟩, ?_⟩, rfl⟩
      rintro ⟨o', ho', hrefused⟩
      obtain rfl := Option.some.inj (houtages.symm.trans ho')
      exact hrefused

theorem ends_attempt (hw : s.heap.WellFormed) (request : HeapM.Request) (build : Unit → Object) :
    Ends (StoreM.attempt request build) s (s.Attempted request (build ()))
      (fun e _ => e = .wordOverflow ∧ wordLimit ≤ s.heap.bytes + request.size) := by
  unfold StoreM.attempt StoreM.noteOutage
  rw [ends_bind]
  refine ends_nextRefused.mono ?_ fun _ _ hfail => hfail
  intro refused s₁ hend
  obtain ⟨hplan, rfl⟩ := hend
  split
  case isTrue hrefused =>
      simp only [ends_bind, ends_modify]
      -- a refused attempt looks at the plan only
      refine ⟨iff_of_true rfl (Or.inl (hplan.mp hrefused)), ⟨_, _, rfl⟩, ?_, ?_, by simp,
        fun _ => rfl⟩
      · simp [attempts?, Function.comp_def]
      · intro o' ho'
        simp only [Option.map_map, Option.map_eq_some_iff] at ho'
        obtain ⟨o, ho, rfl⟩ := ho'
        exact ⟨o, ho, rfl, Nat.le_succ _⟩
  case isFalse hrefused =>
      rw [ends_onHeap]
      refine (hw.ends_allocate? request build).mono ?_ fun _ _ hfail => ⟨hfail.1,
        hfail.2.trans (Nat.add_le_add_right (s.heap.used_le_bytes request.space) _)⟩
      intro found h' hend
      obtain ⟨hroom, hend⟩ := hend
      -- an attempt that is not refused is denied if the space has no room
      refine ⟨?_, ⟨_, _, rfl⟩, by simp [attempts?, Function.comp_def], ?_, ?_, ?_⟩
      · rw [Store.Denies, hroom, ← hplan]
        cases found <;> simp [hrefused]
      · intro o' ho'
        obtain ⟨o, ho, rfl⟩ := Option.map_eq_some_iff.mp ho'
        exact ⟨o, ho, rfl, Nat.le_succ _⟩
      · rintro id rfl
        exact hend
      · rintro rfl
        exact hend

/-- An attempt finds a place for the object, or leaves everything but the outages as it was; and
so the computation after it goes on in one of these two ways. -/
theorem ends_attempt_bind {β : Type} {build : Unit → Object} {f : Option Handle → StoreM β}
    {ok : β → Store → Prop} {fail : Fault → Store → Prop} (hw : s.heap.WellFormed)
    (hwords : wordLimit ≤ s.heap.bytes + request.size → ∀ s', fail .wordOverflow s')
    (hplaced : ∀ id h' outages,
      s.Attempted request (build ()) (some id) { s with heap := h', outages } →
      Ends (f (some id)) { s with heap := h', outages } ok fail)
    (hrefused : ∀ outages, s.Attempted request (build ()) none { s with outages } →
      Ends (f none) { s with outages } ok fail) :
    Ends (StoreM.attempt request build >>= f) s ok fail := by
  rw [ends_bind]
  refine (ends_attempt hw request build).mono (fun found s' hattempt => ?_)
    fun e s' hfail => hfail.1 ▸ hwords hfail.2 s'
  cases found with
  | some id =>
      obtain ⟨h', outages, rfl⟩ := hattempt.frame
      exact hplaced id h' outages hattempt
  | none =>
      obtain ⟨outages, rfl⟩ := hattempt.of_refused
      exact hrefused outages hattempt

end Attempts

/-! ## Allocations -/

/-- A placement after something else was added. -/
theorem Store.Placed.of_adds {s s' s'' : Store} {o : Object} (hp : s'.Placed o id s'')
    (hs : s.Sound) (ha : s.Adds s') (halike : s.Alike s')
    (htexts : ∀ e ∈ s'.numberTexts, e ∈ s.numberTexts)
    (hinterned : ∀ j w, s'.heap.Interned j w → s.heap.Interned j w)
    (hreused : s'.heap.isLive id = s.heap.isLive id ∨ s.collections < s'.collections) :
    s.Placed o id s'' where
  toPushed := hp.toPushed.of_alike halike
  find := hp.find
  fresh hid := hp.fresh (ha.holds hs hid)
  reused hlive := by
    have hfirst := halike.collections
    have hsecond := hp.collections
    rcases hreused with hsame | hless
    · have hlast := hp.reused (hsame ▸ hlive)
      omega
    · omega
  numberTexts e he := ⟨htexts e (hp.numberTexts e he).1, (hp.numberTexts e he).2⟩
  interned j w hw := hinterned j w (hp.interned j w hw)

/-- Placing an object that fits adds it to the store, whatever else is held meanwhile. -/
theorem runs_fulfil {build : Unit → Object} (hs : s.Sound) (hfits : s.Fits (build ()))
    (request : HeapM.Request) (hsize : ∀ t, build () = .string t → request.size = (build ()).size)
    (held : List Handle) :
    RunsFrom Adds Rests s (StoreM.fulfil request held build) s (s.Placed (build ())) := by
  have hshort (hword : request.size < wordLimit) (t : Text) (u : Units)
      (ht : build () = .string t) (hu : t.buffer? = some u) : u.size < wordLimit := by
    rcases hfits.short t u ht hu with hshort | hpart
    · exact hshort
    · exact Nat.lt_of_le_of_lt hpart (hsize t ht ▸ hword)
  unfold StoreM.fulfil RunsFrom
  rw [ends_bind, ends_get]
  split
  case isTrue => exact ⟨by simp, Or.inr (.refl hs)⟩
  case isFalse =>
      refine ends_attempt_bind hs.wellFormed (fun _ _ => ⟨by simp, Or.inl rfl⟩)
        (fun id h' outages hattempt => ?_) fun outages hattempt => ?_
      · obtain ⟨hgains, hword, -⟩ := hattempt.placed id rfl
        exact adds_place hs hfits (hshort hword) hgains outages
      · -- the second attempt begins at what the collection has left
        have hrests : s.Rests { s with outages } :=
          ⟨adds_outages hs outages, rfl, rfl, rfl, rfl, rfl, rfl, Nat.le_refl _, .refl _⟩
        simp only
        rw [ends_bind]
        refine Ends.mono (runs_collect hrests.adds.sound request.space held) ?_ fun e s₂ he =>
          ⟨he.1, he.2.imp_right (Rests.trans hs hrests)⟩
        intro _ s₂ hend
        obtain ⟨hcollect, hcleaned⟩ := hend
        have hboth : s.Adds s₂ := hrests.adds.trans hs hcollect
        have halike : s.Alike s₂ := hrests.alike.trans hcleaned.toAlike
        refine ends_attempt_bind hboth.sound.wellFormed (fun _ _ => ⟨by simp, Or.inl rfl⟩)
          (fun id h' outages hattempt => ?_) fun outages _ => ⟨by simp, Or.inr ?_⟩
        · obtain ⟨hgains, hword, -⟩ := hattempt.placed id rfl
          obtain ⟨hadds, hplaced⟩ :=
            adds_place hboth.sound (hfits.of_adds hs hboth) (hshort hword) hgains outages
          refine ⟨hboth.trans hs hadds, hplaced.of_adds hs hboth halike
            (by simp [hcleaned.numberTexts]) hcleaned.interned (Or.inr ?_)⟩
          rw [hcleaned.collected]
          exact Nat.lt_succ_self _
        · exact ⟨hboth.trans hs (adds_outages hboth.sound outages),
            halike.trans ⟨rfl, rfl, rfl, rfl, rfl, rfl, Nat.le_refl _, .refl _⟩⟩

/-- An allocation places the object in the space that it is to be placed in, or is refused.
No full collection is done for a young object. -/
theorem ends_fulfil {build : Unit → Object} (hs : s.Sound) (request : HeapM.Request)
    (held : List Handle) :
    Ends (StoreM.fulfil request held build) s (fun id s' =>
        s'.heap.spaceOf id = .ok request.space ∧
        (request.space = .young → s'.heap.fullCollections = s.heap.fullCollections) ∧
        s.Spends request.size s')
      (s.Refuses request.size) := by
  unfold StoreM.fulfil
  rw [ends_bind, ends_get]
  split
  case isTrue hclosed => exact .gate (by simpa using hclosed)
  case isFalse =>
      refine ends_attempt_bind hs.wellFormed (fun hlimit _ => .words hlimit)
        (fun id h' outages hattempt => ?_) fun outages hattempt => ?_
      · obtain ⟨hgains, -⟩ := hattempt.placed id rfl
        exact ⟨hgains.spaceOf, fun _ => hgains.fullCollections,
          hattempt.spends.before (spends_zero rfl rfl rfl le_rfl)⟩
      · simp only
        rw [ends_bind]
        refine (ends_collect_adds (adds_outages hs outages).sound request.space held).mono ?_
          fun e _ he => he.1 ▸ .words (he.2.trans (Nat.le_add_right _ _))
        intro _ s₂ hend
        obtain ⟨hadds, hcleaned, hcollect, hcount⟩ := hend
        have hspent : s.Spends 0 s₂ := hattempt.spends_zero.before hcollect
        refine ends_attempt_bind hadds.sound.wellFormed (fun hlimit _ =>
            ((Refuses.words hlimit).after hspent).mono (Nat.le_of_eq (Nat.zero_add _)))
          (fun id h' outages' hattempt' => ?_) fun outages' hattempt' => ?_
        · obtain ⟨hgains, -⟩ := hattempt'.placed id rfl
          refine ⟨hgains.spaceOf, fun hyoung => hgains.fullCollections.trans ?_, ?_⟩
          · simpa [hyoung] using hcount
          · exact (hattempt'.spends.after hspent).before (spends_zero rfl rfl rfl le_rfl)
        · have hcollected : s.collections < s₂.collections := by
            rw [hcleaned.collected]
            exact Nat.lt_succ_self _
          rcases hattempt'.denied.mp rfl with ⟨o₂, hplan, hrefused⟩ | hfull
          · -- the number of the second attempt is one less than the attempts made after it
            obtain ⟨o₁, ho₁, hsame₁, hlater⟩ := hcollect.outages o₂ hplan
            obtain ⟨o, ho, hsame, hfirst⟩ := hattempt.counted ho₁
            obtain ⟨o₃, ho₃, hlast⟩ := hattempt'.counts hplan
            refine .outage request (Nat.le_refl _) ho ho₃ (by omega) ?_ hcollected
            rw [hlast, Nat.add_sub_cancel, ← hsame, ← hsame₁]
            exact hrefused
          · exact .room request (Nat.le_refl _) hcollected hfull

theorem runs_allocate {o : Object} (hs : s.Sound) (hfits : s.Fits o) (space : Space) :
    RunsFrom Adds Rests s (StoreM.allocate o space) s (s.Placed o) :=
  runs_fulfil hs hfits _ (fun _ _ => rfl) _

/-- A flat string, and where it is. -/
theorem runs_allocateFlat_placed (hs : s.Sound) (units : Units) (space : Space) :
    RunsFrom Adds Rests s (StoreM.allocateFlat units space) s (fun id s' =>
      s.Placed (.string (.flat units false)) id s' ∧ s'.heap.spaceOf id = .ok space ∧
      (space = .young → s'.heap.fullCollections = s.heap.fullCollections)) :=
  (Ends.and (runs_allocate hs (fits_flat s units) space) (ends_fulfil hs _ _)).mono
    (fun _ _ hend => ⟨hend.1.1, hend.1.2, hend.2.1, hend.2.2.1⟩) fun _ _ hfail => hfail.1

theorem runs_allocateFlat (hs : s.Sound) (units : Units) (space : Space) :
    RunsFrom Adds Rests s (StoreM.allocateFlat units space) s
      (s.Placed (.string (.flat units false))) :=
  runs_allocate hs (fits_flat s units) space

/-! ## The last attempt -/

/-- The store in which the last attempt to place an object is made: the one at hand, or what a
collection has left after a first attempt was refused. -/
inductive Store.Prepares (s : Store) (space : Space) (held : List Handle) : Store → Prop
  | once : Prepares s space held s
  | twice {done : HeapM.Collected} {h' : Heap} (outages : Option Outages)
      (hc : s.heap.Collects space (s.roots held) done h') :
      Prepares s space held { s with
        heap := h'
        outages
        numberTexts := []
        table := s.table.retain h'.isLive
        collections := s.collections + 1 }

/-- An object is placed at the last attempt, or the store is left as it was then. -/
theorem ends_fulfil_prepares {build : Unit → Object} (hw : s.heap.WellFormed)
    (request : HeapM.Request) (held : List Handle) :
    Ends (StoreM.fulfil request held build) s
      (fun id s' => ∃ before h' outages, s.Prepares request.space held before ∧
        before.heap.WellFormed ∧ before.heap.Gains id (build ()) request.space h' ∧
        s' = { before with heap := h', outages, scope := before.scope.push id })
      (fun e s' => (∃ before outages, s.Prepares request.space held before ∧
        before.heap.WellFormed ∧ s' = { before with outages }) ∨ e = .wordOverflow) := by
  unfold StoreM.fulfil
  rw [ends_bind, ends_get]
  split
  case isTrue => exact Or.inl ⟨s, s.outages, .once, hw, rfl⟩
  case isFalse =>
      refine ends_attempt_bind hw (fun _ _ => Or.inr rfl) (fun id h' outages hattempt => ?_)
        fun outages _ => ?_
      · exact ⟨s, h', outages, .once, hw, (hattempt.placed id rfl).1, rfl⟩
      · simp only
        rw [ends_bind]
        refine (ends_collect (s := { s with outages }) hw request.space held).mono ?_
          fun _ _ hfail => Or.inr hfail.1
        rintro _ s₂ ⟨h', hc, -, rfl⟩
        -- the second attempt is made in what the collection has left
        refine ends_attempt_bind hc.wellFormed (fun _ _ => Or.inr rfl)
          (fun id h'' outages' hattempt => ?_) fun outages' _ => ?_
        · exact ⟨_, h'', outages', .twice _ hc, hc.wellFormed, (hattempt.placed id rfl).1, rfl⟩
        · exact Or.inl ⟨_, outages', .twice _ hc, hc.wellFormed, rfl⟩

/-! ## What is live -/

/-- An object was placed under `id`.  All else that is live was so before and is as it was, and
nothing was let go unless there was a collection. -/
structure Store.Brings (s : Store) (id : Handle) (s' : Store) : Prop where
  others : ∀ j, j ≠ id → s'.heap.isLive j = true →
    s.heap.isLive j = true ∧ s'.heap.find j = s.heap.find j
  uncollected : s'.collections = s.collections → s.heap.isLive id = false ∧
    ∀ j, s.heap.isLive j = true → s'.heap.isLive j = true

/-- An allocation brings nothing to life but the object that it places. -/
theorem ends_fulfil_brings {build : Unit → Object} (hw : s.heap.WellFormed)
    (request : HeapM.Request) (held : List Handle) :
    Ends (StoreM.fulfil request held build) s s.Brings (fun _ _ => True) := by
  refine (ends_fulfil_prepares hw request held).mono ?_ fun _ _ _ => trivial
  rintro id s' ⟨before, h', outages, hprepares, hbefore, hgains, rfl⟩
  cases hprepares with
  | once =>
      refine ⟨fun j hj hlive => ?_, fun _ => ⟨hgains.dead, fun j hlive => ?_⟩⟩
      · exact ⟨(hgains.isLive_of_ne hw hj).symm.trans hlive, hgains.find_of_ne hw hj⟩
      · exact (hgains.isLive_of_ne hw (hgains.ne_of_live hlive)).trans hlive
  | twice _ hc =>
      refine ⟨fun j hj hlive => ?_, fun hsame => absurd hsame (Nat.succ_ne_self _)⟩
      have hkept := (hgains.isLive_of_ne hbefore hj).symm.trans hlive
      exact ⟨((hc.isLive_iff j).mp hkept).1,
        (hgains.find_of_ne hbefore hj).trans (hc.find j hkept)⟩

end ManagedHeap
