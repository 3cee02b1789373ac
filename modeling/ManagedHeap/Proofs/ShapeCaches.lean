import ManagedHeap.Proofs.CollectionSafety
import ManagedHeap.Proofs.Layouts
import Mathlib.Data.List.TakeWhile

/-!
# The shapes of object literals

A call that asks for the shape of some names in a context either finds it in the cache of the
context, and then leaves the heap as it is, or makes it and enters it there
(`Store.ShapesNames`).  As long as the context stays reachable, so do its cache, the shapes in
it and their names, whatever is collected meanwhile; a name cannot be freed and its handle given
to another string.  So the same call gives the same shape again, and no other call, with other
names or in another context, is ever given this shape (`Store.KeepsShape`).

A shape has each name once.  The slot of a name is the number of different names before its first
occurrence in the list that was asked for (`Shape.Orders`).
-/

namespace ManagedHeap

/-! ## The names of a shape -/

namespace Shape

variable {names : Array Handle} {name : Handle}

/-- The number of different names before the first occurrence of a name. -/
def rank (names : Array Handle) (name : Handle) : Nat :=
  (names.toList.takeWhile (· ≠ name)).toFinset.card

/-- The shape has the names of a list, each of them once, in the order of first occurrences. -/
structure Orders (shape : Shape) (names : Array Handle) : Prop where
  mem : ∀ name, name ∈ shape.names ↔ name ∈ names
  sorted : shape.names.toList.Pairwise fun a b => names.toList.idxOf a < names.toList.idxOf b
  slotOf? : ∀ name, shape.slotOf? name = if name ∈ names then some (rank names name) else none

theorem distinct_push_of_mem (hseen : name ∈ names) :
    distinct (names.push name) = distinct names := by
  rw [distinct_push, if_pos (mem_distinct.mpr hseen)]

theorem distinct_push_of_notMem (hnew : name ∉ names) :
    distinct (names.push name) = (distinct names).push name := by
  rw [distinct_push, if_neg (mem_distinct.not.mpr hnew)]

/-- The names come in the order of their first occurrences. -/
theorem sorted_distinct (names : Array Handle) :
    (distinct names).toList.Pairwise fun a b => names.toList.idxOf a < names.toList.idxOf b := by
  induction names using pushInduction with
  | empty => simp [distinct]
  | push names last ih =>
      have hseen {x : Handle} (hx : x ∈ (distinct names).toList) : x ∈ names.toList := by
        rwa [Array.mem_toList_iff, mem_distinct, ← Array.mem_toList_iff] at hx
      simp only [Array.toList_push]
      have hbefore : (distinct names).toList.Pairwise fun x y =>
          (names.toList ++ [last]).idxOf x < (names.toList ++ [last]).idxOf y := by
        refine ih.imp_of_mem fun {x y} hx hy hlt => ?_
        rwa [List.idxOf_append_of_mem (hseen hx), List.idxOf_append_of_mem (hseen hy)]
      by_cases hlast : last ∈ names
      · rwa [distinct_push_of_mem hlast]
      · rw [distinct_push_of_notMem hlast, Array.toList_push]
        refine List.pairwise_append.mpr
          ⟨hbefore, List.pairwise_singleton _ _, fun x hx y hy => ?_⟩
        obtain rfl : y = last := by simpa using hy
        rw [List.idxOf_append_of_mem (hseen hx),
          List.idxOf_append_of_notMem (Array.mem_toList_iff.not.mpr hlast)]
        exact Nat.lt_of_lt_of_le (List.idxOf_lt_length_of_mem (hseen hx)) (Nat.le_add_right _ _)

/-- As many names are listed in the order of their first occurrences as there are different
ones. -/
theorem size_of_sorted {listed : Array Handle} (hmem : ∀ name, name ∈ listed ↔ name ∈ names)
    (hsorted : listed.toList.Pairwise fun a b => names.toList.idxOf a < names.toList.idxOf b) :
    listed.size = names.toList.toFinset.card := by
  have hnodup : listed.toList.Nodup := hsorted.imp fun {a b} hlt heq => by simp [heq] at hlt
  have hset : listed.toList.toFinset = names.toList.toFinset := by
    ext name
    simp [hmem]
  rw [← hset, List.toFinset_card_of_nodup hnodup, Array.length_toList]

theorem size_distinct (names : Array Handle) :
    (distinct names).size = names.toList.toFinset.card :=
  size_of_sorted (fun _ => mem_distinct) (sorted_distinct names)

theorem Orders.propertyCount {shape : Shape} (ho : shape.Orders names) :
    shape.propertyCount = names.toList.toFinset.card :=
  size_of_sorted ho.mem ho.sorted

/-- The names of the list are those that have a slot. -/
theorem Orders.slotOf?_eq_none {shape : Shape} (ho : shape.Orders names) :
    shape.slotOf? name = none ↔ name ∉ names := by
  rw [ho.slotOf?]
  split
  case isTrue hname => simp [hname]
  case isFalse hname => simp [hname]

/-- What comes later does not count. -/
theorem rank_push_of_mem {a : Handle} (hname : name ∈ names) :
    rank (names.push a) name = rank names name := by
  have htake : (names.toList ++ [a]).takeWhile (· ≠ name) = names.toList.takeWhile (· ≠ name) := by
    rw [List.takeWhile_append, if_neg]
    intro hall
    have hname' : name ∈ names.toList.takeWhile (· ≠ name) := by
      rw [List.IsPrefix.eq_of_length (List.takeWhile_prefix _) hall]
      exact Array.mem_toList_iff.mpr hname
    simpa using List.mem_takeWhile_imp hname'
  unfold rank
  rw [Array.toList_push, htake]

/-- A name that is new comes after all others. -/
theorem rank_push_self (hname : name ∉ names) :
    rank (names.push name) name = (distinct names).size := by
  have hall : ∀ x ∈ names.toList, x ≠ name := by
    rintro x hx rfl
    exact hname (Array.mem_toList_iff.mp hx)
  have htake : (names.toList ++ [name]).takeWhile (· ≠ name) = names.toList := by
    rw [List.takeWhile_append_of_pos (by simpa using hall)]
    simp
  unfold rank
  rw [Array.toList_push, htake, size_distinct]

/-- The slot of a name is the rank of its first occurrence. -/
theorem findIdx?_distinct (names : Array Handle) (name : Handle) :
    (distinct names).findIdx? (· == name) =
      if name ∈ names then some (rank names name) else none := by
  induction names using pushInduction with
  | empty => simp [distinct]
  | push names last ih =>
      by_cases hname : name ∈ names
      · rw [if_pos hname] at ih
        rw [if_pos (Array.mem_push.mpr (Or.inl hname)), rank_push_of_mem hname]
        by_cases hseen : last ∈ names
        · rw [distinct_push_of_mem hseen, ih]
        · rw [distinct_push_of_notMem hseen, Array.findIdx?_push, ih]
          rfl
      · rw [if_neg hname] at ih
        by_cases heq : name = last
        · subst heq
          rw [distinct_push_of_notMem hname, Array.findIdx?_push, ih, rank_push_self hname]
          simp
        · have hlate : name ∉ names.push last := fun h => (Array.mem_push.mp h).elim hname heq
          rw [if_neg hlate, distinct_push]
          split
          · exact ih
          · simp [Array.findIdx?_push, ih, Ne.symm heq]

theorem orders_ofNames (base : Option Handle) (names : Array Handle) (capacity : Nat) :
    (ofNames base names capacity).Orders names where
  mem _ := mem_distinct
  sorted := sorted_distinct names
  slotOf? := findIdx?_distinct names

end Shape

open Store

variable {s s' s'' : Store} {id c c' r r' : Handle} {names names' : Array Handle} {o o' : Object}
  {step : Step} {steps : List Step}

/-! ## Calls -/

/-- The store after a shape was found in a cache. -/
def Store.hit (s : Store) (shape : Handle) : Store :=
  { s with shapeHits := s.shapeHits + 1, scope := s.scope.push shape }

/-- A shape that is in the cache is given out, and nothing is placed. -/
theorem ends_shapeFor_of_caches (hr : s.heap.Caches c names r) :
    Ends (StoreM.shapeFor c names) s (fun found s' => found = r ∧ s' = s.hit r)
      (fun _ _ => ∃ name ∈ names, name ∉ s.heap.canonical) := by
  obtain ⟨k, ⟨x, hx, hk⟩, t, ht, hfound⟩ := hr
  unfold StoreM.shapeFor
  rw [ends_bind]
  refine (ends_checkNames s names).mono ?_ fun _ _ hfail => hfail.2
  rintro _ s₁ ⟨rfl, -⟩
  unfold StoreM.shapeCacheOf StoreM.context StoreM.shapeCache
  simp only [bind_assoc]
  rw [ends_bind, ends_inspect_ok hx]
  simp only [pure_bind, hk]
  rw [ends_bind, ends_inspect_ok ht]
  simp only [pure_bind, hfound]
  exact ⟨rfl, rfl⟩

theorem shapeFor_of_caches (hr : s.heap.Caches c names r)
    (hnames : ∀ name ∈ names, name ∈ s.heap.canonical) :
    StoreM.shapeFor c names s = .ok r (s.hit r) := by
  have hends := ends_shapeFor_of_caches hr
  cases hrun : StoreM.shapeFor c names s with
  | ok found s' =>
      obtain ⟨rfl, rfl⟩ := hends.of_ok hrun
      rfl
  | error e s' =>
      obtain ⟨name, hname, hnot⟩ := hends.of_error hrun
      exact absurd (hnames name hname) hnot

/-! ## What stays reachable with a context -/

/-- Layouts grow at most. -/
theorem Step.Changes.grows (hchange : step.Changes id o o') (ho : o.isLayout = true) :
    o.Grows o' := by
  rcases hchange.inv with hs | hg | ⟨_, _, _, rfl, -⟩ | ⟨_, _, _, rfl, -⟩
  · cases hs with
    | refl => exact .refl o
    | string => simp [Object.isLayout] at ho
  · exact hg
  · simp [Object.isLayout] at ho
  · simp [Object.isLayout] at ho

/-- An operation that may give a handle out again lets strings settle, and nothing else. -/
theorem Step.Rooted.recycles (hr : step.Rooted s) (hs : s.Ready) :
    Ends step.run s (fun outcome s' => ∀ id, step.Reuses outcome id →
      s.Settles s' ∧ s.Recycles id s') fun _ _ => True := by
  have hgiven {m : StoreM Handle}
      (hm : RunsFrom Settles Store.Keeps s m s
        fun found s' => s'.Holds found ∧ s.Recycles found s') :
      Ends (m >>= fun found => pure (Outcome.handle found)) s (fun outcome s' => ∀ id,
        outcome = Outcome.handle id → s.Settles s' ∧ s.Recycles id s') fun _ _ => True := by
    rw [ends_bind]
    refine Ends.mono hm (fun found s' hend id hid => ?_) fun _ _ _ => trivial
    obtain rfl : found = id := by simpa [Outcome.handle] using hid
    exact ⟨hend.1, hend.2.2⟩
  have hnone (hnot : ∀ outcome id, ¬ step.Reuses outcome id) : Ends step.run s
      (fun outcome s' => ∀ id, step.Reuses outcome id → s.Settles s' ∧ s.Recycles id s')
      fun _ _ => True :=
    (ends_self step.run s).mono (fun outcome _ _ id hid => absurd hid (hnot outcome id))
      fun _ _ _ => trivial
  cases step with
  | perform op =>
      cases op with
      | slice source start stop =>
          exact hgiven (runs_slice hs (hr.given source (by simp [Step.handles, Operation.handles]))
            start stop)
      | internString source =>
          exact hgiven ((runs_internString hs (hr.given source
            (by simp [Step.handles, Operation.handles]))).weaken fun _ _ _ hend => hend.1)
      | _ => exact hnone fun _ _ hid => hid
  | _ => exact hnone fun _ _ hid => hid

/-- What an object that is no string refers to stays reachable together with it, as long as it
refers to it. -/
theorem Step.Keeps.child_of (hk : step.Keeps id s s') (hs : WellRooted s)
    (hfind : s.heap.find id = .ok o) (hstring : ∀ t, o ≠ .string t) (hc : c ∈ o.children)
    (hstays : ∀ o', step.Changes id o o' → c ∈ o'.children) : step.Keeps c s s' := by
  have hready := hs.ready.1
  have hready' := (hs.step hk.leads).ready.1
  obtain ⟨o₁, o', ho₁, ho', hchange⟩ := (hk.remains hs).object
  obtain rfl : o = o₁ := by simpa [hfind] using ho₁
  refine ⟨hk.rooted, hready.holds_child hk.before hfind hc,
    hready'.holds_child hk.after ho' (hstays o' hchange), ?_⟩
  refine hk.run.imp_left fun ⟨outcome, hrun, hkept⟩ => ⟨outcome, hrun, fun hgo => ?_⟩
  obtain ⟨hsettles, hrecycles⟩ := (hk.rooted.recycles hready).of_ok hrun c hgo.reused
  rcases hrecycles id hk.before hk.after with hreach | ⟨rfl, -⟩
  · -- the former roots lead to the object, which is unchanged, so they lead to its child
    obtain ⟨o₂, o₃, ho₂, ho₃, hso⟩ := hsettles.settled id hreach
    obtain rfl : o = o₂ := by simpa [hfind] using ho₂
    cases hso with
    | refl => exact hgo.lost (.child hreach ho₃ hc)
    | string => exact absurd rfl (hstring _)
  · exact hkept hgo

/-- What a layout refers to stays reachable together with it. -/
theorem Step.Keeps.child (hk : step.Keeps id s s') (hs : WellRooted s)
    (hfind : s.heap.find id = .ok o) (ho : o.isLayout = true) (hc : c ∈ o.children) :
    step.Keeps c s s' :=
  hk.child_of hs hfind (by rintro t rfl; simp [Object.isLayout] at ho) hc fun _ hchange =>
    (hchange.grows ho).children hc

theorem ShapeCache.mem_children_of_name {t : ShapeCache} {name : Handle}
    (hfound : t.find? names = some r) (hname : name ∈ names) :
    name ∈ (Object.shapeCache t).children := by
  obtain ⟨e, he, rfl⟩ := Option.map_eq_some_iff.mp hfound
  have hnames : e.1 = names := by simpa using Array.find?_some he
  refine List.mem_flatMap.mpr ⟨e, by simpa using Array.mem_of_find?_eq_some he, ?_⟩
  simp [hnames, hname]

/-- With a context its cached shapes and their names stay reachable, and the shapes stay in the
cache. -/
theorem Step.Keeps.caches (hk : step.Keeps c s s') (hs : WellRooted s)
    (hr : s.heap.Caches c names r) :
    s'.heap.Caches c names r ∧ step.Keeps r s s' ∧ ∀ name ∈ names, step.Keeps name s s' := by
  obtain ⟨k, ⟨x, hx, hcached⟩, t, ht, hfound⟩ := hr
  have hk' := hk.child hs hx rfl (Heap.mem_children_context (Or.inr hcached))
  obtain ⟨o, o', ho, ho', hchange⟩ := (hk.remains hs).object
  obtain rfl : .context x = o := by simpa [hx] using ho
  have hx' : s'.heap.find c = .ok (.context x) := by
    cases hchange.grows rfl with
    | refl => exact ho'
    | context hnone => simp [hnone] at hcached
  obtain ⟨o, o', ho, ho', hchange⟩ := (hk'.remains hs).object
  obtain rfl : .shapeCache t = o := by simpa [ht] using ho
  have ht' : ∃ t', s'.heap.find k = .ok (.shapeCache t') ∧ t'.find? names = some r := by
    cases hchange.grows rfl with
    | refl => exact ⟨t, ho', hfound⟩
    | shapeCache hgrows => exact ⟨_, ho', hgrows.find? hfound⟩
  exact ⟨⟨k, ⟨x, hx', hcached⟩, ht'⟩,
    hk'.child hs ht rfl (ShapeCache.mem_children_of_find? hfound),
    fun name hname => hk'.child hs ht rfl (ShapeCache.mem_children_of_name hfound hname)⟩

theorem Step.Keeping.caches (hk : Step.Keeping c steps s s') (hs : WellRooted s)
    (hr : s.heap.Caches c names r) : WellRooted s' ∧ s'.heap.Caches c names r ∧
      Step.Keeping r steps s s' ∧ ∀ name ∈ names, Step.Keeping name steps s s' := by
  induction hk with
  | nil s => exact ⟨hs, hr, .nil s, fun _ _ => .nil s⟩
  | cons hstep _ ih =>
      obtain ⟨hr', hshape, hnames⟩ := hstep.caches hs hr
      obtain ⟨hs'', hr'', hshapes, hnames'⟩ := ih (hs.step hstep.leads) hr'
      exact ⟨hs'', hr'', .cons hshape hshapes,
        fun name hname => .cons (hnames name hname) (hnames' name hname)⟩

theorem Step.Keeping.holds (hk : Step.Keeping id steps s s') (hid : s.Holds id) : s'.Holds id := by
  induction hk with
  | nil => exact hid
  | cons hstep _ ih => exact ih hstep.after

/-- A canonical string that stays reachable stays the canonical one of its content. -/
theorem Step.Keeping.interned {w : List UInt16} (hk : Step.Keeping id steps s s')
    (hs : WellRooted s) (hi : s.heap.Interned id w) : s'.heap.Interned id w := by
  induction hk with
  | nil => exact hi
  | cons hstep _ ih =>
    exact ih (hs.step hstep.leads) (Step.Spares.interned (.reachable hstep) hs hi)

/-! ## The shapes of a context -/

/-- What a call gives out that asks for the shape of some names in a context.  A shape that is
in the cache is found without placing anything. -/
structure Store.ShapesNames (s : Store) (context : Handle) (names : Array Handle)
    (found : Handle) (s' : Store) : Prop where
  hit : ∀ r, s.heap.Caches context names r → found = r ∧ s' = s.hit r
  shape : ∃ native y template shape, s'.heap.Native context native ∧
    s'.heap.find native = .ok (.context y) ∧ y.objectTemplate = some template ∧
    s'.heap.find found = .ok (.shape shape) ∧ shape.base = some template ∧ shape.Orders names

/-- What is true of a shape, given out at the store `s`, for as long as its context stays
reachable.  The names are the strings that they were. -/
structure Store.KeepsShape (s : Store) (context : Handle) (names : Array Handle)
    (found : Handle) (s' : Store) : Prop where
  cached : s'.heap.Caches context names found
  shape : s'.Holds found
  strings : ∀ name ∈ names, s'.Holds name ∧
    ∃ w, s.heap.Interned name w ∧ s'.heap.Interned name w
  again : StoreM.shapeFor context names s' = .ok found (s'.hit found)
  shared : ∀ context' names' found' s'',
    (Step.perform (.shapeFor context' names')).Rooted s' →
    StoreM.shapeFor context' names' s' = .ok found' s'' →
      (found' = found ↔ context' = context ∧ names' = names)

/-- A call for a shape, as a step that keeps whatever was held. -/
theorem keeps_of_shapeFor (hs : WellRooted s) (hr : (Step.perform (.shapeFor c names)).Rooted s)
    (hrun : StoreM.shapeFor c names s = .ok r s') (hid : s.Holds id) :
    (Step.perform (.shapeFor c names)).Keeps id s s' := by
  have hgiven (id : Handle) (hid : id ∈ c :: names.toList) : s.Holds id := hr.given id hid
  have hgrows := (runs_shapeFor hs.ready.1.toSound (hgiven c (by simp)) fun name hname =>
    hgiven name (by simp [hname])).of_ok hrun
  exact ⟨hr, hid, hgrows.1.holds hid, Or.inl ⟨_, run_bind hrun, fun hgo => hgo.reused⟩⟩

theorem caches_of_shapeFor (hs : WellRooted s) (hr : (Step.perform (.shapeFor c names)).Rooted s)
    (hrun : StoreM.shapeFor c names s = .ok r s') : s'.heap.Caches c names r := by
  obtain ⟨-, -, ⟨x, hx⟩, hcaches⟩ := (ends_shapeFor hs.ordered c names).of_ok hrun
  have hkeeps := keeps_of_shapeFor hs hr hrun (hr.given c (List.mem_cons_self ..))
  obtain ⟨o, o', ho, ho', hchange⟩ := (hkeeps.remains hs).object
  obtain rfl : .context x = o := by simpa [hx] using ho
  cases hchange.grows rfl with
  | refl => exact hcaches _ ho'
  | context => exact hcaches _ ho'

theorem Heap.Caches.holds {s : Store} (hs : s.Sound) (hr : s.heap.Caches c names r)
    (hc : s.Holds c) : s.Holds r := by
  obtain ⟨k, ⟨x, hx, hcached⟩, t, ht, hfound⟩ := hr
  have hk := hs.holds_child hc hx (Heap.mem_children_context (Or.inr hcached))
  exact hs.holds_child hk ht (ShapeCache.mem_children_of_find? hfound)

theorem shapesNames_of_shapeFor (hs : WellRooted s)
    (hr : (Step.perform (.shapeFor c names)).Rooted s)
    (hrun : StoreM.shapeFor c names s = .ok r s') : s.ShapesNames c names r s' where
  hit r₀ hr₀ := (ends_shapeFor_of_caches hr₀).of_ok hrun
  shape := by
    have hs' : WellRooted s' := hs.step ⟨hr, Or.inl ⟨_, run_bind hrun⟩⟩
    obtain ⟨native, y, template, hnative, hy, htemplate, hshape⟩ :=
      hs'.ordered.based c names r (caches_of_shapeFor hs hr hrun)
    exact ⟨native, y, template, _, hnative, hy, htemplate, hshape, rfl,
      Shape.orders_ofNames _ names _⟩

/-- A shape in the cache of a reachable context is given out by the same call only. -/
theorem Heap.Caches.shared (hcached : s.heap.Caches c names r) (hs : WellRooted s)
    (hc : s.Holds c) (hr : (Step.perform (.shapeFor c' names')).Rooted s)
    (hrun : StoreM.shapeFor c' names' s = .ok r' s') : r' = r ↔ c' = c ∧ names' = names := by
  -- both shapes are in caches after the call
  have hformer := ((keeps_of_shapeFor hs hr hrun hc).caches hs hcached).1
  have hlatter := caches_of_shapeFor hs hr hrun
  have hordered := (hs.step ⟨hr, Or.inl ⟨_, run_bind hrun⟩⟩).ordered
  constructor
  · rintro rfl
    exact hordered.caches_unique hlatter hformer
  · rintro ⟨rfl, rfl⟩
    exact hlatter.functional hformer

/-- The names that were asked for are held, and they are the strings that they were. -/
theorem names_of_shapeFor (hs : WellRooted s) (hr : (Step.perform (.shapeFor c names)).Rooted s)
    (hrun : StoreM.shapeFor c names s = .ok r s') (hk : Step.Keeping c steps s' s'') :
    ∀ name ∈ names, s''.Holds name ∧ ∃ w, s.heap.Interned name w ∧ s''.heap.Interned name w := by
  intro name hname
  have hs' : WellRooted s' := hs.step ⟨hr, Or.inl ⟨_, run_bind hrun⟩⟩
  have hgiven : s.Holds name :=
    hr.given name (List.mem_cons_of_mem c (Array.mem_toList_iff.mpr hname))
  have hkeeping : Step.Keeping name (.perform (.shapeFor c names) :: steps) s s'' :=
    .cons (keeps_of_shapeFor hs hr hrun hgiven)
      ((hk.caches hs' (caches_of_shapeFor hs hr hrun)).2.2.2 name hname)
  obtain ⟨-, hcanonical, -⟩ := (ends_shapeFor hs.ordered c names).of_ok hrun
  obtain ⟨w, hw⟩ := Heap.exists_interned (hcanonical name hname)
  exact ⟨hkeeping.holds hgiven, w, hw, hkeeping.interned hs hw⟩

/-- The shapes of object literals in a well-rooted run: a call for the shape of some names in a
context, whatever happens afterwards while the context stays reachable, and another call. -/
theorem WellRooted.shape_cache (hs : WellRooted s)
    (hr : (Step.perform (.shapeFor c names)).Rooted s)
    (hrun : StoreM.shapeFor c names s = .ok r s') :
    s.ShapesNames c names r s' ∧
    ∀ steps s'', Step.Keeping c steps s' s'' → s.KeepsShape c names r s'' := by
  refine ⟨shapesNames_of_shapeFor hs hr hrun, fun steps s'' hk => ?_⟩
  have hs' : WellRooted s' := hs.step ⟨hr, Or.inl ⟨_, run_bind hrun⟩⟩
  obtain ⟨hs'', hcached, -⟩ := hk.caches hs' (caches_of_shapeFor hs hr hrun)
  have hcontext : s''.Holds c :=
    hk.holds (keeps_of_shapeFor hs hr hrun (hr.given c (List.mem_cons_self ..))).after
  have hstrings := names_of_shapeFor hs hr hrun hk
  exact {
    cached := hcached
    shape := hcached.holds hs''.ready.1.toSound hcontext
    strings := hstrings
    again := shapeFor_of_caches hcached fun name hname => by
      obtain ⟨-, w, -, hw⟩ := hstrings name hname
      exact hw.mem_canonical
    shared := fun c' names' r' s₁ hr' hrun' => hcached.shared hs'' hcontext hr' hrun' }

/-- A shape of three names, of which two are the same.  The context alone is kept when the scope
is closed, and a full collection follows. -/
theorem WellRooted.shape_cache_collected : ∃ s s' s'' : Store, WellRooted s ∧
    (Step.perform (.shapeFor ⟨9⟩ #[⟨11⟩, ⟨10⟩, ⟨11⟩])).Rooted s ∧
    StoreM.shapeFor ⟨9⟩ #[⟨11⟩, ⟨10⟩, ⟨11⟩] s = .ok ⟨13⟩ s' ∧
    Step.Keeping ⟨9⟩ [.escape ⟨0⟩ ⟨9⟩, .perform (.collectGarbage .old)] s' s'' ∧
    s''.scope = #[⟨9⟩] ∧ s'.heap.fullCollections < s''.heap.fullCollections ∧
    s.ShapesNames ⟨9⟩ #[⟨11⟩, ⟨10⟩, ⟨11⟩] ⟨13⟩ s' ∧
    s.KeepsShape ⟨9⟩ #[⟨11⟩, ⟨10⟩, ⟨11⟩] ⟨13⟩ s'' := by
  have hcheck : (((Store.create {} none).toOption.bind (replay [.perform .newNativeContext,
      .perform (.internText "x"), .perform (.internText "y")])).any fun s =>
      (Step.perform (.shapeFor ⟨9⟩ #[⟨11⟩, ⟨10⟩, ⟨11⟩])).isDirect s &&
      (s.result? (StoreM.shapeFor ⟨9⟩ #[⟨11⟩, ⟨10⟩, ⟨11⟩])).any fun result =>
        decide (result.1 = ⟨13⟩) && result.2.isLiveRoot ⟨9⟩ &&
        (replay [.escape ⟨0⟩ ⟨9⟩] result.2).any fun s₁ => s₁.isLiveRoot ⟨9⟩ &&
          (replay [.perform (.collectGarbage .old)] s₁).any fun s'' => s''.isLiveRoot ⟨9⟩ &&
            decide (s''.scope = #[⟨9⟩]) &&
            decide (result.2.heap.fullCollections < s''.heap.fullCollections)) = true := by
    decide +kernel
  obtain ⟨s, hs, hcheck⟩ := WellRooted.exists_replay hcheck
  simp only [Bool.and_eq_true, decide_eq_true_eq, Option.any_eq_true] at hcheck
  obtain ⟨hdirect, ⟨found, s'⟩, hresult, ⟨rfl, hroot⟩, s₁, hescape, hroot₁, s'', hcollect,
    ⟨hroot₂, hscope⟩, hfull⟩ := hcheck
  obtain ⟨outcome₁, between₁, hr₁, hstep₁, hrest₁⟩ := Step.result_of_replay hescape
  obtain rfl : between₁ = s₁ := by simpa [replay] using hrest₁
  obtain ⟨outcome₂, between₂, hr₂, hstep₂, hrest₂⟩ := Step.result_of_replay hcollect
  obtain rfl : between₂ = s'' := by simpa [replay] using hrest₂
  have hkeeping : Step.Keeping ⟨9⟩ [.escape ⟨0⟩ ⟨9⟩, .perform (.collectGarbage .old)] s' between₂ :=
    .cons ⟨hr₁, holds_of_isLiveRoot hroot, holds_of_isLiveRoot hroot₁,
      Or.inl ⟨outcome₁, hstep₁, fun hgo => hgo.reused⟩⟩
    (.cons ⟨hr₂, holds_of_isLiveRoot hroot₁, holds_of_isLiveRoot hroot₂,
      Or.inl ⟨outcome₂, hstep₂, fun hgo => hgo.reused⟩⟩ (.nil between₂))
  have hr := Step.rooted_of_isDirect hdirect
  have hrun := ok_of_result? hresult
  obtain ⟨hshapes, hkeeps⟩ := hs.shape_cache hr hrun
  exact ⟨s, s', between₂, hs, hr, hrun, hkeeping, hscope, hfull, hshapes, hkeeps _ _ hkeeping⟩

end ManagedHeap
