import ManagedHeap.Proofs.Endings
import ManagedHeap.Proofs.Store.Soundness
import Mathlib.Order.Defs.Unbundled

/-!
# Runs of operations

What an operation does to a store is told by one of three relations.  All of them say that
the later store is sound and has the roots of the earlier one, and what became of the
objects that were held:

* `Adds`: all of them are held and unchanged;
* `Grows`: all of them are held, and caches of shapes may have got more entries;
* `Settles`: those that the former roots still lead to are unchanged, apart from strings
  that settled.

`Runs R m s Q` says that `m` relates the store `s` to the one it leaves, with a result
that satisfies `Q`, or fails, and then not by coming to a dead object.  A failure leaves a
related store as well, unless the failure is that a sum of bytes does not fit a machine
word, which stops a collection or a measurement half-way.
-/

namespace ManagedHeap

/-! ## Objects that grow -/

/-- The cache has the entries of the other one, and maybe more after them. -/
def ShapeCache.Grows (c c' : ShapeCache) : Prop :=
  c.entries.toList <+: c'.entries.toList

/-- The object gets a shape cache, or more entries in it, or stays as it is. -/
inductive Object.Grows : Object → Object → Prop
  | refl (o : Object) : Object.Grows o o
  | context {c : Context} {cache : Handle} (hnone : c.shapeCache = none) :
      Object.Grows (.context c) (.context { c with shapeCache := some cache })
  | shapeCache {c c' : ShapeCache} (hgrows : c.Grows c') :
      Object.Grows (.shapeCache c) (.shapeCache c')

/-- The object is a string that settles, or stays as it is. -/
inductive Object.Settles : Object → Object → Prop
  | refl (o : Object) : Object.Settles o o
  | string {t t' : Text} (hsettles : t.Settles t') : Object.Settles (.string t) (.string t')

namespace Object

variable {o o' o'' : Object} {t : Text} {c : Handle}

theorem Grows.trans (hfirst : o.Grows o') (hsecond : o'.Grows o'') : o.Grows o'' := by
  cases hfirst with
  | refl => exact hsecond
  | context hnone =>
      cases hsecond with
      | refl => exact .context hnone
      | context hnone' => simp at hnone'
  | shapeCache hgrows =>
      cases hsecond with
      | refl => exact .shapeCache hgrows
      | shapeCache hgrows' => exact .shapeCache (hgrows.trans hgrows')

theorem Grows.children (hg : o.Grows o') (hc : c ∈ o.children) : c ∈ o'.children := by
  cases hg with
  | refl => exact hc
  | context hnone =>
      simp only [Object.children, List.mem_append, hnone, Option.toList_none,
        List.not_mem_nil] at hc ⊢
      tauto
  | shapeCache hgrows =>
      simp only [Object.children, List.mem_flatMap] at hc ⊢
      obtain ⟨e, he, hce⟩ := hc
      exact ⟨e, hgrows.subset he, hce⟩

theorem Grows.string (hg : (Object.string t).Grows o') : o' = .string t := by
  cases hg
  rfl

theorem Settles.trans (hfirst : o.Settles o') (hsecond : o'.Settles o'') : o.Settles o'' := by
  cases hfirst with
  | refl => exact hsecond
  | string hsettles =>
      cases hsecond with
      | refl => exact .string hsettles
      | string hsettles' => exact .string (hsettles.trans hsettles')

theorem Settles.children (hs : o.Settles o') (hc : c ∈ o'.children) : c ∈ o.children := by
  cases hs with
  | refl => exact hc
  | string hsettles => exact hsettles.children hc

end Object

namespace Store

variable {s s' s'' : Store} {id c : Handle} {o : Object}

/-! ## Stores with more roots -/

/-- The cached strings of one unit stay where they are in the cache. -/
structure KeepsSingles (s s' : Store) : Prop where
  size : s'.singles.size = s.singles.size
  kept : ∀ (i : Nat) id, s.singles[i]? = some (some id) → s'.singles[i]? = some (some id)

theorem KeepsSingles.of_eq (heq : s'.singles = s.singles) : s.KeepsSingles s' :=
  ⟨congrArg Array.size heq, fun _ _ h => heq ▸ h⟩

theorem KeepsSingles.trans (hfirst : s.KeepsSingles s') (hsecond : s'.KeepsSingles s'') :
    s.KeepsSingles s'' :=
  ⟨hsecond.size.trans hfirst.size, fun i id h => hsecond.kept i id (hfirst.kept i id h)⟩

/-- Whatever kept objects alive still does, and what belongs to the store as a whole is as
before. -/
structure Extends (s s' : Store) : Prop where
  config : s'.config = s.config
  canonical : s'.canonical = s.canonical
  hash : s'.table.hash = s.table.hash
  scope : s.scope.toList <+: s'.scope.toList
  persistent : s'.persistent = s.persistent
  singles : s.KeepsSingles s'
  collections : s.collections ≤ s'.collections
  retains : s.heap.Retains s'.heap

theorem Extends.refl (s : Store) : s.Extends s :=
  ⟨rfl, rfl, rfl, List.prefix_rfl, rfl, .of_eq rfl, Nat.le_refl _, .refl _⟩

theorem Extends.trans (hfirst : s.Extends s') (hsecond : s'.Extends s'') : s.Extends s'' where
  config := hsecond.config.trans hfirst.config
  canonical := hsecond.canonical.trans hfirst.canonical
  hash := hsecond.hash.trans hfirst.hash
  scope := hfirst.scope.trans hsecond.scope
  persistent := hsecond.persistent.trans hfirst.persistent
  singles := hfirst.singles.trans hsecond.singles
  collections := hfirst.collections.trans hsecond.collections
  retains := hfirst.retains.trans hsecond.retains

theorem mem_ownRoots : id ∈ s.ownRoots ↔ id ∈ s.scope.toList ∨ id ∈ s.persistent.map Prod.fst ∨
    ∃ i : Nat, s.singles[i]? = some (some id) := by
  have hsingles : id ∈ s.singles.toList.filterMap (fun e => e) ↔
      ∃ i : Nat, s.singles[i]? = some (some id) := by
    rw [List.mem_filterMap]
    constructor
    · intro h
      obtain ⟨e, he, rfl⟩ := h
      obtain ⟨i, hi⟩ := List.mem_iff_getElem?.mp he
      exact ⟨i, by rwa [Array.getElem?_toList] at hi⟩
    · intro h
      obtain ⟨i, hi⟩ := h
      exact ⟨some id, List.mem_iff_getElem?.mpr ⟨i, by rwa [Array.getElem?_toList]⟩, rfl⟩
  unfold ownRoots
  rw [List.mem_append, List.mem_append, or_assoc]
  exact or_congr_right (or_congr_right hsingles)

/-- A cached string of one unit is a root. -/
theorem Sound.holds_single {i : Nat} (hs : s.Sound) (hsingle : s.singles[i]? = some (some id)) :
    s.Holds id := by
  have hroot : id ∈ s.ownRoots := mem_ownRoots.mpr (Or.inr (Or.inr ⟨i, hsingle⟩))
  exact holds_of_root (mem_roots.mpr (Or.inr (Or.inl hroot))) (hs.rooted id hroot)

theorem Extends.ownRoots (he : s.Extends s') (hroot : id ∈ s.ownRoots) : id ∈ s'.ownRoots := by
  rcases mem_ownRoots.mp hroot with hscope | hpersistent | ⟨i, hi⟩
  · exact mem_ownRoots.mpr (Or.inl (he.scope.subset hscope))
  · exact mem_ownRoots.mpr (Or.inr (Or.inl (he.persistent ▸ hpersistent)))
  · exact mem_ownRoots.mpr (Or.inr (Or.inr ⟨i, he.singles.kept i id hi⟩))

theorem Extends.roots (he : s.Extends s') (hroot : id ∈ s.roots []) : id ∈ s'.roots [] := by
  rcases mem_roots.mp hroot with hid | hid | hid
  · simp at hid
  · exact mem_roots.mpr (Or.inr (Or.inl (he.ownRoots hid)))
  · exact mem_roots.mpr (Or.inr (Or.inr (he.canonical ▸ hid)))

/-! ## What becomes of objects -/

/-- Everything that was held is held and unchanged. -/
structure Adds (s s' : Store) : Prop extends s.Extends s' where
  sound : s'.Sound
  find : ∀ id, s.Holds id → s'.heap.find id = s.heap.find id

/-- Everything that was held is held, and grew at most. -/
structure Grows (s s' : Store) : Prop extends s.Extends s' where
  sound : s'.Sound
  grown : ∀ id, s.Holds id →
    ∃ o o', s.heap.find id = .ok o ∧ s'.heap.find id = .ok o' ∧ o.Grows o'

/-- What the former roots still lead to settled at most, and spells what it spelled. -/
structure Settles (s s' : Store) : Prop extends s.Extends s' where
  ready : s'.Ready
  settled : ∀ id, s'.heap.Reaches (s.roots []) id →
    ∃ o o', s.heap.find id = .ok o ∧ s'.heap.find id = .ok o' ∧ o.Settles o'
  spells : ∀ id w, s'.heap.Reaches (s.roots []) id → s.heap.Spells id w → s'.heap.Spells id w

theorem Adds.refl (hs : s.Sound) : s.Adds s :=
  ⟨.refl s, hs, fun _ _ => rfl⟩

theorem Adds.grows (ha : s.Adds s') (hs : s.Sound) : s.Grows s' where
  toExtends := ha.toExtends
  sound := ha.sound
  grown id hid := by
    obtain ⟨o, hfind⟩ := hs.find hid
    exact ⟨o, o, hfind, (ha.find id hid).trans hfind, .refl o⟩

/-- A chain of children leads to the same objects in a store that has grown. -/
theorem Grows.reaches (hg : s.Grows s') (hid : s.Holds id) : s'.heap.Reaches (s.roots []) id := by
  refine (hid.induct (fun id => s.Holds id ∧ s'.heap.Reaches (s.roots []) id) ?_ ?_).2
  · exact fun r hr hlive => ⟨holds_of_root hr hlive, .root hr⟩
  · rintro id o c ⟨hid, hreach⟩ hfind hc hlive
    obtain ⟨o₁, o', hfind₁, hfind', hgrows⟩ := hg.grown id hid
    obtain rfl := Except.ok.inj (hfind.symm.trans hfind₁)
    exact ⟨⟨hlive, .child hid.reaches hfind hc⟩, .child hreach hfind' (hgrows.children hc)⟩

theorem Grows.holds (hg : s.Grows s') (hid : s.Holds id) : s'.Holds id := by
  obtain ⟨o, o', -, hfind', -⟩ := hg.grown id hid
  exact ⟨Heap.isLive_of_find hfind', (hg.reaches hid).mono fun r hr => .root (hg.roots hr)⟩

theorem Grows.trans (hfirst : s.Grows s') (hsecond : s'.Grows s'') : s.Grows s'' where
  toExtends := hfirst.toExtends.trans hsecond.toExtends
  sound := hsecond.sound
  grown id hid := by
    obtain ⟨o, o', hfind, hfind', hgrows⟩ := hfirst.grown id hid
    obtain ⟨o₁, o'', hfind₁, hfind'', hgrows'⟩ := hsecond.grown id (hfirst.holds hid)
    obtain rfl := Except.ok.inj (hfind'.symm.trans hfind₁)
    exact ⟨o, o'', hfind, hfind'', hgrows.trans hgrows'⟩

theorem Grows.ready (hg : s.Grows s') (hs : s.Ready) : s'.Ready where
  toSound := hg.sound
  canonical id hid := by
    rw [hg.canonical] at hid
    have hroot : id ∈ s.roots [] := mem_roots.mpr (Or.inr (Or.inr hid))
    exact (hg.holds (holds_of_root hroot (hs.canonical id hid))).live

theorem Adds.holds (ha : s.Adds s') (hs : s.Sound) (hid : s.Holds id) : s'.Holds id :=
  (ha.grows hs).holds hid

theorem Adds.reaches (ha : s.Adds s') (hs : s.Sound) (hid : s.Holds id) :
    s'.heap.Reaches (s.roots []) id :=
  (ha.grows hs).reaches hid

theorem Adds.ready (ha : s.Adds s') (hs : s.Ready) : s'.Ready :=
  (ha.grows hs.toSound).ready hs

theorem Adds.trans (hs : s.Sound) (hfirst : s.Adds s') (hsecond : s'.Adds s'') : s.Adds s'' where
  toExtends := hfirst.toExtends.trans hsecond.toExtends
  sound := hsecond.sound
  find id hid := (hsecond.find id (hfirst.holds hs hid)).trans (hfirst.find id hid)

/-- What the roots of a store that is ready lead to after something was added is what they
led to before. -/
theorem Adds.holds_of_reaches (ha : s.Adds s') (hs : s.Ready)
    (hreach : s'.heap.Reaches (s.roots []) id) : s.Holds id := by
  apply hreach.closed s.Holds (fun r hr => holds_of_root hr (hs.live_of_root hr))
  intro id o c hid hfind hc
  exact hs.holds_child hid ((ha.find id hid).symm.trans hfind) hc

/-- A change after something was added, of an object that was not held before. -/
theorem Adds.of_fresh (ha : s.Adds s') (hfresh : ¬ s.Holds id)
    (he : s'.Extends s'') (hsound : s''.Sound)
    (hfind : ∀ j, j ≠ id → s''.heap.find j = s'.heap.find j) : s.Adds s'' where
  toExtends := ha.toExtends.trans he
  sound := hsound
  find j hj := (hfind j fun hjid => hfresh (hjid ▸ hj)).trans (ha.find j hj)

theorem Adds.heap_settled (ha : s.Adds s') (hs : s.Sound) :
    s.heap.Settled s'.heap s.Holds :=
  Heap.settled_of_find hs.readable.toClosed ha.find

theorem Adds.settles (ha : s.Adds s') (hs : s.Ready) : s.Settles s' where
  toExtends := ha.toExtends
  ready := ha.ready hs
  settled id hreach := by
    have hid := ha.holds_of_reaches hs hreach
    obtain ⟨o, hfind⟩ := hs.find hid
    exact ⟨o, o, hfind, (ha.find id hid).trans hfind, .refl o⟩
  spells id w hreach hw :=
    (ha.heap_settled hs.toSound).spells id w (ha.holds_of_reaches hs hreach) hw

/-- What the former roots lead to they led to before. -/
theorem Settles.reaches (hset : s.Settles s') {roots : List Handle}
    (hroots : ∀ r ∈ roots, r ∈ s.roots []) (hreach : s'.heap.Reaches roots id) :
    s.heap.Reaches roots id := by
  refine (hreach.closed
    (fun id => s.heap.Reaches roots id ∧ s'.heap.Reaches (s.roots []) id) ?_ ?_).1
  · exact fun r hr => ⟨.root hr, .root (hroots r hr)⟩
  · rintro id o' c ⟨hbefore, hafter⟩ hfind' hc
    obtain ⟨o, o₁, hfind, hfind₁, hsettles⟩ := hset.settled id hafter
    obtain rfl := Except.ok.inj (hfind'.symm.trans hfind₁)
    exact ⟨.child hbefore hfind (hsettles.children hc), .child hafter hfind' hc⟩

theorem Settles.trans (hfirst : s.Settles s') (hsecond : s'.Settles s'') : s.Settles s'' := by
  have hroots : ∀ r ∈ s.roots [], r ∈ s'.roots [] := fun r hr => hfirst.roots hr
  -- what is reached at the end was reached in between, so that both steps speak of it
  have hboth (id : Handle) (hreach : s''.heap.Reaches (s.roots []) id) :
      s'.heap.Reaches (s.roots []) id ∧ s''.heap.Reaches (s'.roots []) id :=
    ⟨hsecond.reaches hroots hreach, hreach.mono fun r hr => .root (hroots r hr)⟩
  refine ⟨hfirst.toExtends.trans hsecond.toExtends, hsecond.ready, ?_,
    ?_⟩
  · intro id hreach
    obtain ⟨hmid, hlast⟩ := hboth id hreach
    obtain ⟨o, o', hfind, hfind', hsettles⟩ := hfirst.settled id hmid
    obtain ⟨o₁, o'', hfind₁, hfind'', hsettles'⟩ := hsecond.settled id hlast
    obtain rfl := Except.ok.inj (hfind'.symm.trans hfind₁)
    exact ⟨o, o'', hfind, hfind'', hsettles.trans hsettles'⟩
  · intro id w hreach hw
    obtain ⟨hmid, hlast⟩ := hboth id hreach
    exact hsecond.spells id w hlast (hfirst.spells id w hmid hw)

end Store

/-! ## Runs -/

section Runs

open Store

variable {α β : Type} {s s' : Store} {R R' E E' : Store → Store → Prop}
  {Q Q' : α → Store → Prop} {m : StoreM α}

/-- The rest of a run that began at the store `s` and has come to `s'`.  It ends with a result
at a store that is related to `s` by `R`, or fails and leaves one that is related by `E`. -/
def RunsFrom (R E : Store → Store → Prop) (s : Store) (m : StoreM α) (s' : Store)
    (Q : α → Store → Prop) : Prop :=
  Ends m s' (fun a s'' => R s s'' ∧ Q a s'')
    (fun e s'' => e ≠ .deadObject ∧ (e = .wordOverflow ∨ E s s''))

/-- A run of an operation whose failures leave what its results leave. -/
abbrev Runs (R : Store → Store → Prop) (m : StoreM α) (s : Store) (Q : α → Store → Prop) : Prop :=
  RunsFrom R R s m s Q

theorem RunsFrom.weaken (h : RunsFrom R E s m s' Q)
    (hQ : ∀ a s'', R s s'' → Q a s'' → Q' a s'') : RunsFrom R E s m s' Q' :=
  Ends.mono h (fun a s'' hend => ⟨hend.1, hQ a s'' hend.1 hend.2⟩) fun _ _ hend => hend

/-- A run that begins where another one has come to. -/
theorem RunsFrom.then {s₁ : Store} (h : RunsFrom R' E' s₁ m s' Q)
    (hfail : ∀ s'', E' s₁ s'' → E s s'')
    (hok : ∀ a s'', R' s₁ s'' → Q a s'' → R s s'' ∧ Q' a s'') : RunsFrom R E s m s' Q' :=
  Ends.mono h (fun a s'' hend => hok a s'' hend.1 hend.2)
    fun _ s'' hend => ⟨hend.1, hend.2.imp_right (hfail s'')⟩

theorem RunsFrom.bind {f : α → StoreM β} {Q' : β → Store → Prop} (h : RunsFrom R' E s m s' Q)
    (hnext : ∀ a s'', R' s s'' → Q a s'' → RunsFrom R E s (f a) s'' Q') :
    RunsFrom R E s (m >>= f) s' Q' := by
  unfold RunsFrom
  rw [ends_bind]
  exact Ends.mono h (fun a s'' hend => hnext a s'' hend.1 hend.2) fun _ _ hend => hend

/-- An operation that is called on the way, and what follows it. -/
theorem RunsFrom.call {f : α → StoreM β} {Q' : β → Store → Prop} (h : RunsFrom R' E' s' m s' Q)
    (hfail : ∀ s'', E' s' s'' → E s s'')
    (hnext : ∀ a s'', R' s' s'' → Q a s'' → RunsFrom R E s (f a) s'' Q') :
    RunsFrom R E s (m >>= f) s' Q' := by
  unfold RunsFrom
  rw [ends_bind]
  exact Ends.mono h (fun a s'' hend => hnext a s'' hend.1 hend.2)
    fun _ s'' hend => ⟨hend.1, hend.2.imp_right (hfail s'')⟩

/-- A reader is followed by what is done with its result. -/
theorem runs_read {f : Store → Except Fault α} {g : α → StoreM β} {Q' : β → Store → Prop}
    (hread : Reads (f s') fun a => RunsFrom R E s (g a) s' Q') (hfail : E s s') :
    RunsFrom R E s (StoreM.read f >>= g) s' Q' := by
  unfold RunsFrom
  rw [ends_bind, ends_storeRead]
  refine ⟨fun a ha => hread.of_ok ha, fun e he => ⟨?_, Or.inr hfail⟩⟩
  rintro rfl
  exact hread.ne_dead he

theorem runs_inspect {f : Heap → Except Fault α} {g : α → StoreM β} {Q' : β → Store → Prop}
    (hread : Reads (f s'.heap) fun a => RunsFrom R E s (g a) s' Q') (hfail : E s s') :
    RunsFrom R E s (StoreM.inspect f >>= g) s' Q' :=
  runs_read hread hfail

/-- A reader at the end. -/
theorem runs_inspect_end {f : Heap → Except Fault α}
    (hread : Reads (f s'.heap) fun a => R s s' ∧ Q a s') (hfail : E s s') :
    RunsFrom R E s (StoreM.inspect f) s' Q := by
  unfold RunsFrom
  rw [ends_inspect]
  refine ⟨fun a ha => hread.of_ok ha, fun e he => ⟨?_, Or.inr hfail⟩⟩
  rintro rfl
  exact hread.ne_dead he

/-- A reader that has a result. -/
theorem runs_read_ok {f : Store → Except Fault α} {g : α → StoreM β} {Q' : β → Store → Prop}
    {a : α} (hread : f s' = .ok a) :
    RunsFrom R E s (StoreM.read f >>= g) s' Q' ↔ RunsFrom R E s (g a) s' Q' := by
  unfold RunsFrom
  rw [ends_bind, ends_storeRead, hread]
  simp

theorem runs_get {g : Store → StoreM β} {Q' : β → Store → Prop} :
    RunsFrom R E s (get >>= g) s' Q' ↔ RunsFrom R E s (g s') s' Q' := by
  unfold RunsFrom
  rw [ends_bind, ends_get]

theorem runs_modify {f : Store → Store} {g : PUnit → StoreM β} {Q' : β → Store → Prop} :
    RunsFrom R E s (modify f >>= g) s' Q' ↔ RunsFrom R E s (g ⟨⟩) (f s') Q' := by
  unfold RunsFrom
  rw [ends_bind, ends_modify]

end Runs

end ManagedHeap
