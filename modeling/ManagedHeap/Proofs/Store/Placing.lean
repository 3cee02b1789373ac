import ManagedHeap.Proofs.Store.Runs

/-!
# Placing objects

An object that refers to held objects only can be placed, and kept alive in the scope.
What was held stays, and the new object is held besides (`Placed`).

This is an instance of one argument (`adds_of_find`).  It asks that held objects are found
unchanged and that whatever else is held afterwards fits.  Another instance of it are the
changes that leave the heap alone.
-/

namespace ManagedHeap

namespace Store

variable {s s' : Store} {id : Handle} {o : Object} {held : List Handle}

/-- A store that leaves held objects unchanged, and holds nothing else that does not fit. -/
theorem adds_of_find (hs : s.Sound) (he : s.Extends s') (hw : s'.heap.WellFormed)
    (hfind : ∀ id, s.Holds id → s'.heap.find id = s.heap.find id)
    (hrooted : ∀ id ∈ s'.ownRoots, s'.heap.isLive id = true)
    (hnew : ∀ id o, s'.Holds id → ¬ s.Holds id → s'.heap.find id = .ok o →
      (∀ c ∈ o.children, s'.heap.isLive c = true) ∧
        ∀ t, o = .string t → s'.heap.Spelled s'.config id t)
    (htexts : ∀ e ∈ s'.numberTexts, s'.heap.NumberText e.1 e.2)
    (htable : s'.table.Fits s'.heap) (htidy : s'.heap.Tidy) (hsingles : s'.singles = s.singles) :
    s.Adds s' := by
  have hlive (id : Handle) (hid : s.Holds id) : s'.heap.isLive id = true := by
    obtain ⟨o, ho⟩ := hs.find hid
    exact Heap.isLive_of_find ((hfind id hid).trans ho)
  have hclosed : s'.heap.Closed s'.Holds := by
    apply closed_of_live hw
    intro id o c hid hfound hc
    -- an object that was held has the children that it had, and a new one those that are allowed
    by_cases hbefore : s.Holds id
    · exact hlive c (hs.holds_child hbefore ((hfind id hbefore).symm.trans hfound) hc)
    · exact (hnew id o hid hbefore hfound).1 c hc
  have hsettled : s.heap.Settled s'.heap s.Holds :=
    Heap.settled_of_find hs.readable.toClosed hfind
  refine ⟨he, ⟨hw, hrooted, ?_, htexts, htable, htidy, ?_⟩, hfind⟩
  · apply hs.readable_of_settled he.config hclosed (hsettled.mono fun id hid => hid.1)
    intro id t hid hbefore htext
    exact (hnew id (.string t) hid hbefore (Heap.text_eq_ok.mp htext)).2 t rfl
  · intro i id hsingle
    rw [hsingles] at hsingle
    exact (Heap.interned_congr (hfind id (hs.holds_single hsingle))).mpr (hs.singles i id hsingle)

/-! ## Changes of roots and caches -/

/-- A change that leaves the heap alone and holds nothing new. -/
theorem adds_of_reroot (hs : s.Sound) (he : s.Extends s') (hheap : s'.heap = s.heap)
    (hrooted : ∀ id ∈ s'.ownRoots, s.heap.isLive id = true)
    (hroots : ∀ id ∈ s'.roots [], s.heap.isLive id = true → s.Holds id)
    (htexts : ∀ e ∈ s'.numberTexts, s.heap.NumberText e.1 e.2)
    (htable : s'.table.Fits s.heap)
    (hsingles : ∀ (i : Nat) id, s'.singles[i]? = some (some id) →
      s.heap.Interned id [UInt16.ofNat i]) : s.Adds s' where
  toExtends := he
  sound := (hs.reroot hheap he.config hrooted hroots htexts htable hsingles).1
  find id _ := by rw [hheap]

/-- The store has the same roots, and the same of what belongs to the store as a whole. -/
structure Alike (s s' : Store) : Prop where
  config : s'.config = s.config
  canonical : s'.canonical = s.canonical
  hash : s'.table.hash = s.table.hash
  persistent : s'.persistent = s.persistent
  singles : s'.singles = s.singles
  scope : s'.scope = s.scope
  collections : s.collections ≤ s'.collections
  retains : s.heap.Retains s'.heap

/-- The store has one root more, in its scope. -/
structure Pushed (s : Store) (id : Handle) (s' : Store) : Prop where
  config : s'.config = s.config
  canonical : s'.canonical = s.canonical
  hash : s'.table.hash = s.table.hash
  persistent : s'.persistent = s.persistent
  singles : s'.singles = s.singles
  scope : s'.scope = s.scope.push id
  collections : s.collections ≤ s'.collections
  retains : s.heap.Retains s'.heap

theorem Alike.toExtends (ha : s.Alike s') : s.Extends s' :=
  ⟨ha.config, ha.canonical, ha.hash, by rw [ha.scope], ha.persistent,
    .of_eq ha.singles, ha.collections, ha.retains⟩

theorem Alike.refl (s : Store) : s.Alike s :=
  ⟨rfl, rfl, rfl, rfl, rfl, rfl, Nat.le_refl _, .refl _⟩

theorem Alike.trans {s'' : Store} (hfirst : s.Alike s') (hsecond : s'.Alike s'') : s.Alike s'' :=
  ⟨hsecond.config.trans hfirst.config, hsecond.canonical.trans hfirst.canonical,
    hsecond.hash.trans hfirst.hash, hsecond.persistent.trans hfirst.persistent,
    hsecond.singles.trans hfirst.singles, hsecond.scope.trans hfirst.scope,
    hfirst.collections.trans hsecond.collections, hfirst.retains.trans hsecond.retains⟩

theorem Alike.ownRoots (ha : s.Alike s') : s'.ownRoots = s.ownRoots := by
  unfold Store.ownRoots
  rw [ha.scope, ha.persistent, ha.singles]

theorem Alike.roots (ha : s.Alike s') (held : List Handle) : s'.roots held = s.roots held := by
  unfold Store.roots
  rw [ha.scope, ha.persistent, ha.singles, ha.canonical]

theorem Pushed.toExtends (hp : s.Pushed id s') : s.Extends s' :=
  ⟨hp.config, hp.canonical, hp.hash, by simp [hp.scope], hp.persistent,
    .of_eq hp.singles, hp.collections, hp.retains⟩

theorem Pushed.of_alike {s'' : Store} (hp : s'.Pushed id s'') (ha : s.Alike s') :
    s.Pushed id s'' :=
  ⟨hp.config.trans ha.config, hp.canonical.trans ha.canonical, hp.hash.trans ha.hash,
    hp.persistent.trans ha.persistent, hp.singles.trans ha.singles, by rw [hp.scope, ha.scope],
    ha.collections.trans hp.collections, ha.retains.trans hp.retains⟩

theorem Alike.pushed {s'' : Store} (ha : s'.Alike s'') (hp : s.Pushed id s') :
    s.Pushed id s'' :=
  ⟨ha.config.trans hp.config, ha.canonical.trans hp.canonical, ha.hash.trans hp.hash,
    ha.persistent.trans hp.persistent, ha.singles.trans hp.singles, ha.scope.trans hp.scope,
    hp.collections.trans ha.collections, hp.retains.trans ha.retains⟩

theorem Pushed.mem_ownRoots (hp : s.Pushed id s') {j : Handle} :
    j ∈ s'.ownRoots ↔ j ∈ s.ownRoots ∨ j = id := by
  simp only [Store.mem_ownRoots, hp.scope, hp.persistent, hp.singles, Array.toList_push,
    List.mem_append, List.mem_singleton]
  tauto

theorem Pushed.mem_roots (hp : s.Pushed id s') {j : Handle} :
    j ∈ s'.roots [] ↔ j ∈ s.roots [] ∨ j = id := by
  simp only [Store.mem_roots, hp.mem_ownRoots, hp.canonical, List.not_mem_nil, false_or]
  tauto

theorem Pushed.holds (hp : s.Pushed id s') (hlive : s'.heap.isLive id = true) : s'.Holds id :=
  holds_of_root (hp.mem_roots.mpr (Or.inr rfl)) hlive

/-- A change of counters, caches and outages. -/
theorem adds_of_alike (hs : s.Sound) (ha : s.Alike s') (hheap : s'.heap = s.heap)
    (htexts : ∀ e ∈ s'.numberTexts, s.heap.NumberText e.1 e.2)
    (htable : s'.table.Fits s.heap) : s.Adds s' :=
  adds_of_reroot hs ha.toExtends hheap (fun id hid => hs.rooted id (ha.ownRoots ▸ hid))
    (fun _ hid hlive => holds_of_root (ha.roots [] ▸ hid) hlive) htexts htable
    (ha.singles ▸ hs.singles)

/-- A change of what the heap, the roots and the caches have nothing to do with. -/
theorem adds_settings (hs : s.Sound) (builtins : Builtins) (lastScriptId : Int32)
    (shapeHits shapeMisses : Nat) (outages : Option Outages) :
    s.Adds { s with builtins, lastScriptId, shapeHits, shapeMisses, outages } :=
  adds_of_alike hs ⟨rfl, rfl, rfl, rfl, rfl, rfl, Nat.le_refl _, .refl _⟩ rfl hs.numberTexts
    hs.table

theorem adds_outages (hs : s.Sound) (outages : Option Outages) : s.Adds { s with outages } :=
  adds_settings hs _ _ _ _ outages

theorem adds_numberTexts (hs : s.Sound) {texts : List (Double × Handle)}
    (htexts : ∀ e ∈ texts, s.heap.NumberText e.1 e.2) :
    s.Adds { s with numberTexts := texts } :=
  adds_of_alike hs ⟨rfl, rfl, rfl, rfl, rfl, rfl, Nat.le_refl _, .refl _⟩ rfl htexts hs.table

/-- What an operation leaves that fails before it places anything. -/
structure Rests (s s' : Store) : Prop where
  adds : s.Adds s'
  alike : s.Alike s'

theorem Rests.refl (hs : s.Sound) : s.Rests s :=
  ⟨.refl hs, .refl s⟩

theorem Rests.trans {s'' : Store} (hs : s.Sound) (hfirst : s.Rests s') (hsecond : s'.Rests s'') :
    s.Rests s'' :=
  ⟨hfirst.adds.trans hs hsecond.adds, hfirst.alike.trans hsecond.alike⟩

/-- An object that was held is kept alive in the scope, too. -/
theorem adds_track (hs : s.Sound) (hid : s.Holds id) :
    s.Adds { s with scope := s.scope.push id } := by
  have hp : s.Pushed id { s with scope := s.scope.push id } :=
    ⟨rfl, rfl, rfl, rfl, rfl, rfl, Nat.le_refl _, .refl _⟩
  refine adds_of_reroot hs hp.toExtends rfl ?_ ?_
    hs.numberTexts hs.table hs.singles
  · intro j hj
    rcases hp.mem_ownRoots.mp hj with hj | rfl
    · exact hs.rooted j hj
    · exact hid.live
  · intro j hj hlive
    rcases hp.mem_roots.mp hj with hj | rfl
    · exact holds_of_root hj hlive
    · exact hid

/-! ## Placements -/

/-- The object `o` was placed under the handle `id`, which the store did not hold, and is
kept alive in the scope. -/
structure Placed (s : Store) (o : Object) (id : Handle) (s' : Store) : Prop
    extends s.Pushed id s' where
  find : s'.heap.find id = .ok o
  fresh : ¬ s.Holds id
  reused : s.heap.isLive id = true → s.collections < s'.collections
  numberTexts : ∀ e ∈ s'.numberTexts, e ∈ s.numberTexts ∧ e.2 ≠ id
  interned : ∀ j w, s'.heap.Interned j w → s.heap.Interned j w

theorem Placed.holds (hp : s.Placed o id s') : s'.Holds id :=
  hp.toPushed.holds (Heap.isLive_of_find hp.find)

theorem Placed.spells {units : Units} {interned : Bool}
    (hp : s.Placed (.string (.flat units interned)) id s') : s'.heap.Spells id units.toList :=
  .buffer (Heap.text_eq_ok.mpr hp.find) rfl

/-- An object that can be placed: it refers to held objects, and if it is a string, its
record fits them and it is not interned.  The units of a buffer are few, or they take part in
the size of the object. -/
structure Fits (s : Store) (o : Object) : Prop where
  children : ∀ c ∈ o.children, s.Holds c
  short : ∀ t u, o = .string t → t.buffer? = some u → u.size < wordLimit ∨ u.size ≤ o.size
  string : ∀ t, o = .string t → t.isInterned = false ∧ s.heap.Shaped s.config t ∧
    ∃ w, s.heap.Forms t w ∧ w.length = t.length ∧
      (t.knownNarrow = true → ∀ x ∈ w, Units.isNarrowUnit x = true)

theorem fits_of_not_string (hchildren : ∀ c ∈ o.children, s.Holds c)
    (hstring : ∀ t, o ≠ .string t) : s.Fits o where
  children := hchildren
  short t _ ht := absurd ht (hstring t)
  string t ht := absurd ht (hstring t)

theorem fits_flat (s : Store) (units : Units) : s.Fits (.string (.flat units false)) where
  children := by simp [Object.children, Text.children]
  short t u ht hu := by
    obtain rfl : Text.flat units false = t := by simpa using ht
    obtain rfl : units = u := by simpa [Text.buffer?] using hu
    refine Or.inr ?_
    cases units <;> simp only [Object.size, Text.byteSize, Units.size, Units.byteSize] <;> omega
  string t ht := by
    obtain rfl : Text.flat units false = t := by simpa using ht
    refine ⟨rfl, trivial, units.toList, rfl, units.length_toList, fun hnarrow x hx => ?_⟩
    have hencoding : units.encoding = .narrow := by simpa [Text.knownNarrow] using hnarrow
    exact Units.isNarrowUnit_of_fitsNarrow (Units.fitsNarrow_of_encoding hencoding) hx

theorem fits_external (s : Store) {units : Units} (hshort : units.size < wordLimit) :
    s.Fits (.string (.external units false)) where
  children := by simp [Object.children, Text.children]
  short t u ht hu := by
    obtain rfl : Text.external units false = t := by simpa using ht
    obtain rfl : units = u := by simpa [Text.buffer?] using hu
    exact Or.inl hshort
  string t ht := by
    obtain rfl : Text.external units false = t := by simpa using ht
    exact ⟨rfl, trivial, units.toList, rfl, units.length_toList, fun hnarrow x hx =>
      Units.isNarrowUnit_of_fitsNarrow hnarrow hx⟩

theorem Fits.spelled {t : Text} {h' : Heap} (hfits : s.Fits (.string t))
    (hsettled : s.heap.Settled h' s.Holds) (htext : h'.text id = .ok t) :
    h'.Spelled s.config id t := by
  obtain ⟨-, hshaped, w, hforms, hlength, hnarrow⟩ := hfits.string t rfl
  have hchildren : ∀ c ∈ t.children, s.Holds c := hfits.children
  exact ⟨hsettled.shaped (.refl t) hchildren hshaped, w,
    (hsettled.forms hchildren hforms).spells htext, hlength, hnarrow⟩

/-- No string that fits is interned yet. -/
theorem Fits.plain (hfits : s.Fits o) (t : Text) (ht : o = .string t) : t.isInterned = false :=
  (hfits.string t ht).1

/-- Whatever is held besides what was held before is the new object. -/
theorem Pushed.holds_or_eq {space : Space} {j : Handle} (hp : s.Pushed id s') (hs : s.Sound)
    (hfits : s.Fits o) (hgains : s.heap.Gains id o space s'.heap) (hj : s'.Holds j) :
    s.Holds j ∨ j = id := by
  refine hj.induct (fun j => s.Holds j ∨ j = id) ?_ ?_
  · intro r hr hlive
    by_cases hrid : r = id
    · exact Or.inr hrid
    · have hroot : r ∈ s.roots [] := (hp.mem_roots.mp hr).resolve_right hrid
      rw [(hgains.others r hrid).isLive hs.wellFormed hgains.wellFormed] at hlive
      exact Or.inl (holds_of_root hroot hlive)
  · intro p x c hp hx hc _
    by_cases hpid : p = id
    · subst hpid
      obtain rfl := Except.ok.inj (hgains.find.symm.trans hx)
      exact Or.inl (hfits.children c hc)
    · rw [hgains.find_of_ne hs.wellFormed hpid] at hx
      exact Or.inl (hs.holds_child (hp.resolve_right hpid) hx hc)

theorem adds_place {h' : Heap} {space : Space} (hs : s.Sound) (hfits : s.Fits o)
    (hshort : ∀ t u, o = .string t → t.buffer? = some u → u.size < wordLimit)
    (hgains : s.heap.Gains id o space h') (outages : Option Outages) :
    s.Adds { s with heap := h', outages, scope := s.scope.push id } ∧
      s.Placed o id { s with heap := h', outages, scope := s.scope.push id } := by
  have hinterned (j : Handle) (w : List UInt16) : h'.Interned j w ↔ s.heap.Interned j w :=
    hgains.interned_iff hs.wellFormed hfits.plain
  have hpushed : s.Pushed id { s with heap := h', outages, scope := s.scope.push id } :=
    ⟨rfl, rfl, rfl, rfl, rfl, rfl, Nat.le_refl _, hgains.retains hs.wellFormed hfits.plain⟩
  have hfind (j : Handle) (hj : j ≠ id) : h'.find j = s.heap.find j :=
    hgains.find_of_ne hs.wellFormed hj
  have hne {j : Handle} (hlive : s.heap.isLive j = true) : j ≠ id := hgains.ne_of_live hlive
  have hlive {j : Handle} (hj : s.heap.isLive j = true) : h'.isLive j = true := by
    obtain ⟨o, ho⟩ := hs.wellFormed.isLive_iff_find.mp hj
    exact Heap.isLive_of_find ((hfind j (hne hj)).trans ho)
  have hlive_id : h'.isLive id = true := Heap.isLive_of_find hgains.find
  refine ⟨adds_of_find hs hpushed.toExtends hgains.wellFormed
    (fun j hj => hfind j (hne hj.live)) ?_ ?_ ?_
    (hs.table.congr rfl rfl hinterned)
    (hs.tidy.gains hgains hs.wellFormed hfits.plain hshort) rfl, ?_⟩
  · intro j hj
    rcases hpushed.mem_ownRoots.mp hj with hj | rfl
    · exact hlive (hs.rooted j hj)
    · exact hlive_id
  · intro j o' hj hbefore ho'
    -- the one new object refers to what was held before
    obtain rfl := (hpushed.holds_or_eq hs hfits hgains hj).resolve_left hbefore
    obtain rfl := Except.ok.inj (hgains.find.symm.trans ho')
    refine ⟨fun c hc => hlive (hfits.children c hc).live, ?_⟩
    rintro t rfl
    have hsettled : s.heap.Settled h' s.Holds :=
      Heap.settled_of_find hs.readable.toClosed fun j hj => hfind j (hne hj.live)
    exact hfits.spelled hsettled (Heap.text_eq_ok.mpr ho')
  · intro e he
    obtain ⟨interned, htext⟩ := hs.numberTexts e he
    have htext' := Heap.text_eq_ok.mp htext
    refine ⟨interned, Heap.text_eq_ok.mpr ?_⟩
    rw [← htext']
    exact hfind _ (hne (Heap.isLive_of_find htext'))
  · refine ⟨hpushed, hgains.find, fun hid => hne hid.live rfl, fun hlive => absurd rfl (hne hlive),
      fun e he => ⟨he, hne (hs.numberTexts e he).isLive⟩, fun j w => (hinterned j w).mp⟩

/-- What fits a store fits one that has added to it. -/
theorem Fits.of_adds (hfits : s.Fits o) (hs : s.Sound) (ha : s.Adds s') : s'.Fits o where
  children c hc := ha.holds hs (hfits.children c hc)
  short := hfits.short
  string t ht := by
    subst ht
    obtain ⟨hinterned, hshaped, w, hforms, hlength, hnarrow⟩ := hfits.string t rfl
    have hsettled := ha.heap_settled hs
    have hchildren : ∀ c ∈ t.children, s.Holds c := hfits.children
    refine ⟨hinterned, ?_, w, hsettled.forms hchildren hforms, hlength, hnarrow⟩
    rw [ha.config]
    exact hsettled.shaped (.refl t) hchildren hshaped

end Store

/-- A failure that leaves the roots alone leaves what a result leaves. -/
theorem RunsFrom.adds {α : Type} {s s' : Store} {m : StoreM α} {Q : α → Store → Prop}
    (h : RunsFrom Store.Adds Store.Rests s m s' Q) : RunsFrom Store.Adds Store.Adds s m s' Q :=
  h.then (fun _ hrests => hrests.adds) fun _ _ hadds hQ => ⟨hadds, hQ⟩

end ManagedHeap
