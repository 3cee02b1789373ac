import ManagedHeap.Proofs.Store.PlainObjects

/-!
# Contexts, shapes and caches of shapes

A context belongs to a native context, and it may have a cache that lists the shapes of its
object literals by their names.  In a heap that is laid out (`LaidOut`),

* the native context that a context belongs to is old and has an object template;
* the cache of a context is old, and it is the cache of no other context;
* a shape that a cache lists is old, and it is listed once, by one cache only;
* what the cache of a context lists for some names is the shape of these names, based on the
  object template of the native context.

All of this is said of the live objects, whether anything leads to them or not, since it is to
last whatever operations do.  Objects that nothing leads to are no trouble.  What is said is
about old objects that live ones refer to: a collection of the young space spares them for
being old, and a full collection spares them together with what refers to them (`Thins`).
-/

namespace ManagedHeap

/-! ## Layouts -/

/-- Whether an object says where properties and variables are found. -/
def Object.isLayout : Object → Bool
  | .context _ => true
  | .shape _ => true
  | .shapeCache _ => true
  | _ => false

/-- A change in place that is no business of layouts. -/
def Object.SparesLayouts (f : Object → Object) : Prop :=
  ∀ o, f o = o ∨ o.isLayout = false ∧ (f o).isLayout = false

namespace ShapeCache

variable {c : ShapeCache} {names names' : Array Handle} {shape : Handle}

theorem find?_sized (count : Nat) (names : Array Handle) : (sized count).find? names = none := by
  simp [find?, sized]

/-- A new entry is found under its names, and all others as before. -/
theorem find?_insert (hnone : c.find? names = none) :
    (c.insert names shape).find? names' =
      if names' = names then some shape else c.find? names' := by
  have hentries : (c.insert names shape).entries = c.entries.push (names, shape) :=
    entries_insert hnone
  unfold find? at hnone ⊢
  rw [hentries, Array.find?_push]
  by_cases heq : names' = names
  · subst heq
    simp [Option.map_eq_none_iff.mp hnone]
  · simp [heq, Ne.symm heq]

theorem Grows.find? {c' : ShapeCache} (hg : c.Grows c') (hfound : c.find? names = some shape) :
    c'.find? names = some shape := by
  obtain ⟨rest, hrest⟩ := hg
  unfold ShapeCache.find? at hfound ⊢
  simp only [← Array.find?_toList] at hfound ⊢
  obtain ⟨e, he, rfl⟩ := Option.map_eq_some_iff.mp hfound
  rw [← hrest, List.find?_append, he]
  rfl

end ShapeCache

namespace Heap

variable {h h' : Heap} {id c c' k k' r : Handle} {o o' : Object} {space : Space}
  {names names' : Array Handle}

/-- The native context that a context belongs to. -/
def Native (h : Heap) (inside native : Handle) : Prop :=
  ∃ c, h.find inside = .ok (.context c) ∧ c.native.getD inside = native

/-- The context has the cache. -/
def Owns (h : Heap) (context cache : Handle) : Prop :=
  ∃ x, h.find context = .ok (.context x) ∧ x.shapeCache = some cache

/-- The cache lists the shape for some names. -/
def Lists (h : Heap) (cache : Handle) (names : Array Handle) (shape : Handle) : Prop :=
  ∃ t, h.find cache = .ok (.shapeCache t) ∧ t.find? names = some shape

/-- The cache of the context lists the shape for some names. -/
def Caches (h : Heap) (context : Handle) (names : Array Handle) (shape : Handle) : Prop :=
  ∃ cache, h.Owns context cache ∧ h.Lists cache names shape

/-- The context `x`, which `context` names, belongs to an old context with an object template. -/
def Belongs (h : Heap) (context : Handle) (x : Context) : Prop :=
  ∃ y template, h.find (x.native.getD context) = .ok (.context y) ∧
    y.objectTemplate = some template ∧ h.spaceOf (x.native.getD context) = .ok .old

/-- The shape of some names, based on the object template of the native context that the
context belongs to. -/
def LaysOut (h : Heap) (context : Handle) (names : Array Handle) (shape : Handle) : Prop :=
  ∃ native y template, h.Native context native ∧ h.find native = .ok (.context y) ∧
    y.objectTemplate = some template ∧
    h.find shape = .ok (.shape (.ofNames (some template) names names.size))

/-- A cache without entries that is the cache of no context. -/
structure Vacant (h : Heap) (cache : Handle) : Prop where
  found : ∃ t, h.find cache = .ok (.shapeCache t)
  old : h.spaceOf cache = .ok .old
  empty : ∀ names r, ¬ h.Lists cache names r
  unowned : ∀ context, ¬ h.Owns context cache

/-- What contexts, shapes and caches of shapes have to meet. -/
structure LaidOut (h : Heap) : Prop where
  native : ∀ c x, h.find c = .ok (.context x) → h.Belongs c x
  cache : ∀ c k, h.Owns c k → (∃ t, h.find k = .ok (.shapeCache t)) ∧ h.spaceOf k = .ok .old
  owner : ∀ c c' k, h.Owns c k → h.Owns c' k → c = c'
  shape : ∀ k names r, h.Lists k names r → (∃ l, h.find r = .ok (.shape l)) ∧ h.spaceOf r = .ok .old
  based : ∀ c names r, h.Caches c names r → h.LaysOut c names r
  unique : ∀ k names k' names' r, h.Lists k names r → h.Lists k' names' r → k = k' ∧ names = names'

theorem laidOut_of_nothing (hnone : ∀ id o, h.find id ≠ .ok o) : h.LaidOut where
  native c x hx := absurd hx (hnone c _)
  cache c k hk := by
    obtain ⟨x, hx, -⟩ := hk
    exact absurd hx (hnone c _)
  owner c c' k hk := by
    obtain ⟨x, hx, -⟩ := hk
    exact absurd hx (hnone c _)
  shape k names r hr := by
    obtain ⟨t, ht, -⟩ := hr
    exact absurd ht (hnone k _)
  based c names r hr := by
    obtain ⟨k, ⟨x, hx, -⟩, -⟩ := hr
    exact absurd hx (hnone c _)
  unique k names k' names' r hr := by
    obtain ⟨t, ht, -⟩ := hr
    exact absurd ht (hnone k _)

/-- A context has one shape for some names in its cache. -/
theorem Caches.functional {r' : Handle} (hr : h.Caches c names r) (hr' : h.Caches c names r') :
    r = r' := by
  obtain ⟨k, ⟨x, hx, hk⟩, t, ht, hfound⟩ := hr
  obtain ⟨k', ⟨x', hx', hk'⟩, t', ht', hfound'⟩ := hr'
  obtain rfl : x = x' := by simpa [hx] using hx'
  obtain rfl : k = k' := by simpa [hk] using hk'
  obtain rfl : t = t' := by simpa [ht] using ht'
  simpa [hfound] using hfound'

/-- A shape is in the cache of one context, for one list of names. -/
theorem LaidOut.caches_unique (hl : h.LaidOut) (hr : h.Caches c names r)
    (hr' : h.Caches c' names' r) : c = c' ∧ names = names' := by
  obtain ⟨k, howns, hlists⟩ := hr
  obtain ⟨k', howns', hlists'⟩ := hr'
  obtain ⟨rfl, rfl⟩ := hl.unique k names k' names' r hlists hlists'
  exact ⟨hl.owner c c' k howns howns', rfl⟩

/-! ## Collections -/

/-- Some objects are gone.  The others are unchanged, and so is what was old among the objects
that they refer to, all that the young ones among them refer to, and what was to be kept.  If
any of them have moved, then all of them are old. -/
structure Thins (h : Heap) (kept : List Handle) (h' : Heap) : Prop where
  wellFormed : h'.WellFormed
  find : ∀ id o, h'.find id = .ok o → h.find id = .ok o
  old : ∀ id o, h'.find id = .ok o → h.spaceOf id = .ok .old → h'.spaceOf id = .ok .old
  child : ∀ id o c, h'.find id = .ok o → c ∈ o.children → h.spaceOf c = .ok .old →
    h'.find c = h.find c
  kept : ∀ id ∈ kept, h.isLive id = true → h'.find id = h.find id
  young : ∀ id o c, h'.find id = .ok o → h.spaceOf id = .ok .young → c ∈ o.children →
    h.isLive c = true → h'.find c = h.find c
  moved : (∀ id, h'.isLive id = true → h'.spaceOf id = h.spaceOf id) ∨
    ∀ id, h'.isLive id = true → h'.spaceOf id = .ok .old

theorem thins_refl (hw : h.WellFormed) (kept : List Handle) : h.Thins kept h where
  wellFormed := hw
  find _ _ hfind := hfind
  old _ _ _ hold := hold
  child _ _ _ _ _ _ := rfl
  kept _ _ _ := rfl
  young _ _ _ _ _ _ _ := rfl
  moved := Or.inl fun _ _ => rfl

theorem Collects.thins {roots : List Handle} {done : HeapM.Collected} (hw : h.WellFormed)
    (hc : h.Collects space roots done h') : h.Thins roots h' where
  wellFormed := hc.wellFormed
  find id o hfind := (hc.find id (isLive_of_find hfind)).symm.trans hfind
  old id o hfind _ := hc.spaceOf id (isLive_of_find hfind)
  child id o c hfind hchild hold := by
    -- an old child of what is left was reached as it was, or no old object was taken at all
    obtain ⟨loc, r, hh, -⟩ := hw.spaceOf_eq_iff.mp hold
    obtain ⟨-, hreason⟩ := (hc.isLive_iff id).mp (isLive_of_find hfind)
    have hbefore := (hc.find id (isLive_of_find hfind)).symm.trans hfind
    refine hc.find c ((hc.isLive_iff c).mpr ⟨hh.isLive, ?_⟩)
    rcases hreason with hreach | ⟨hyoung, -⟩
    · exact Or.inl (.child hreach hbefore hchild)
    · exact Or.inr ⟨hyoung, hold⟩
  kept id hid hlive := hc.find id ((hc.isLive_iff id).mpr ⟨hlive, Or.inl (.root hid)⟩)
  young id o c hfind hyoung hchild hlive := by
    -- what is young is left for being reachable only
    have hreach : h.Reaches roots id :=
      ((hc.isLive_iff id).mp (isLive_of_find hfind)).2.resolve_right fun hold => by
        simp [hyoung] at hold
    have hbefore := (hc.find id (isLive_of_find hfind)).symm.trans hfind
    exact hc.find c ((hc.isLive_iff c).mpr ⟨hlive, Or.inl (.child hreach hbefore hchild)⟩)
  moved := Or.inr hc.spaceOf

theorem mem_children_context {x : Context} (hk : x.native = some k ∨ x.shapeCache = some k) :
    k ∈ (Object.context x).children := by
  simp only [Object.children, List.mem_append, Option.mem_toList]
  tauto

theorem LaidOut.thins {kept : List Handle} (hl : h.LaidOut) (ht : h.Thins kept h') :
    h'.LaidOut := by
  have hnative (c : Handle) (x : Context) (hx : h'.find c = .ok (.context x)) :
      h'.find (x.native.getD c) = h.find (x.native.getD c) := by
    cases hn : x.native with
    | none => exact hx.trans (ht.find c _ hx).symm
    | some n =>
        obtain ⟨y, template, -, -, hold⟩ := hl.native c x (ht.find c _ hx)
        rw [hn] at hold
        exact ht.child c _ n hx (mem_children_context (Or.inl hn)) hold
  have howns (c k : Handle) (hk : h'.Owns c k) : h.Owns c k :=
    hk.imp fun x hx => ⟨ht.find c _ hx.1, hx.2⟩
  have hlists (k : Handle) (names : Array Handle) (r : Handle) (hr : h'.Lists k names r) :
      h.Lists k names r :=
    hr.imp fun t hfound => ⟨ht.find k _ hfound.1, hfound.2⟩
  have hshape (k : Handle) (names : Array Handle) (r : Handle) (hr : h'.Lists k names r) :
      h'.find r = h.find r := by
    obtain ⟨t, hcache, hfound⟩ := hr
    exact ht.child k _ r hcache (ShapeCache.mem_children_of_find? hfound)
      (hl.shape k names r (hlists k names r ⟨t, hcache, hfound⟩)).2
  refine ⟨?_, ?_, ?_, ?_, ?_, ?_⟩
  · intro c x hx
    obtain ⟨y, template, hy, htemplate, hold⟩ := hl.native c x (ht.find c _ hx)
    have hy' := (hnative c x hx).trans hy
    exact ⟨y, template, hy', htemplate, ht.old _ _ hy' hold⟩
  · intro c k hk
    obtain ⟨⟨t, hcache⟩, hold⟩ := hl.cache c k (howns c k hk)
    obtain ⟨x, hx, hcached⟩ := hk
    have hcache' := (ht.child c _ k hx (mem_children_context (Or.inr hcached)) hold).trans hcache
    exact ⟨⟨t, hcache'⟩, ht.old k _ hcache' hold⟩
  · exact fun c c' k hk hk' => hl.owner c c' k (howns c k hk) (howns c' k hk')
  · intro k names r hr
    obtain ⟨⟨l, hshape₀⟩, hold⟩ := hl.shape k names r (hlists k names r hr)
    have hshape' := (hshape k names r hr).trans hshape₀
    exact ⟨⟨l, hshape'⟩, ht.old r _ hshape' hold⟩
  · intro c names r hr
    obtain ⟨k, hk, hlisted⟩ := hr
    obtain ⟨native, y, template, ⟨x, hx, rfl⟩, hy, htemplate, hbased⟩ :=
      hl.based c names r ⟨k, howns c k hk, hlists k names r hlisted⟩
    obtain ⟨x', hx', -⟩ := hk
    obtain rfl : x = x' := by simpa [hx] using ht.find c _ hx'
    exact ⟨_, y, template, ⟨x, hx', rfl⟩, (hnative c x hx').trans hy, htemplate,
      (hshape k names r hlisted).trans hbased⟩
  · exact fun k names k' names' r hr hr' =>
      hl.unique k names k' names' r (hlists k names r hr) (hlists k' names' r hr')

/-! ## Developments -/

/-- The entry is the only one for its shape, and the shape is the right one for the context
that has the cache. -/
structure Enters (h : Heap) (cache : Handle) (names : Array Handle) (shape : Handle) : Prop where
  found : ∃ l, h.find shape = .ok (.shape l)
  old : h.spaceOf shape = .ok .old
  only : ∀ k names', h.Lists k names' shape → k = cache ∧ names' = names
  based : ∀ c, h.Owns c cache → h.LaysOut c names shape

/-- Contexts, shapes and caches are what they were, apart from the caches that contexts have
and the entries in caches.  What is new fits: new contexts belong to contexts that are there,
a context gets a vacant cache only, and a cache only entries that fit. -/
structure Develops (h h' : Heap) : Prop where
  context : ∀ c x, h.find c = .ok (.context x) → ∃ x', h'.find c = .ok (.context x') ∧
    x'.native.getD c = x.native.getD c ∧ x'.objectTemplate = x.objectTemplate
  shape : ∀ r l, h.find r = .ok (.shape l) → h'.find r = .ok (.shape l)
  cache : ∀ k t, h.find k = .ok (.shapeCache t) → ∃ t', h'.find k = .ok (.shapeCache t')
  space : ∀ j o, o.isLayout = true → h.find j = .ok o → h'.spaceOf j = h.spaceOf j
  belongs : ∀ c x', h'.find c = .ok (.context x') →
    (∃ x, h.find c = .ok (.context x)) ∨ h'.Belongs c x'
  owns : ∀ c k, h'.Owns c k → h.Owns c k ∨ h.Vacant k ∧ ∀ c', h'.Owns c' k → c' = c
  lists : ∀ k names r, h'.Lists k names r → h.Lists k names r ∨ h'.Enters k names r

theorem Develops.laysOut (hd : h.Develops h') (hl : h.LaysOut c names r) :
    h'.LaysOut c names r := by
  obtain ⟨native, y, template, ⟨x, hx, rfl⟩, hy, htemplate, hbased⟩ := hl
  obtain ⟨x', hx', hnative, -⟩ := hd.context c x hx
  obtain ⟨y', hy', -, htemplate'⟩ := hd.context _ y hy
  exact ⟨_, y', template, ⟨x', hx', hnative⟩, hy', htemplate'.trans htemplate,
    hd.shape r _ hbased⟩

theorem LaidOut.develops (hl : h.LaidOut) (hd : h.Develops h') : h'.LaidOut := by
  refine ⟨?_, ?_, ?_, ?_, ?_, ?_⟩
  · intro c x' hx'
    rcases hd.belongs c x' hx' with ⟨x, hx⟩ | hbelongs
    · obtain ⟨y, template, hy, htemplate, hold⟩ := hl.native c x hx
      obtain ⟨x₁, hx₁, hnative, -⟩ := hd.context c x hx
      obtain rfl : x' = x₁ := by simpa [hx'] using hx₁
      obtain ⟨y', hy', -, htemplate'⟩ := hd.context _ y hy
      rw [← hd.space _ _ rfl hy] at hold
      exact ⟨y', template, hnative ▸ hy', htemplate'.trans htemplate, hnative ▸ hold⟩
    · exact hbelongs
  · intro c k hk
    have hbefore : (∃ t, h.find k = .ok (.shapeCache t)) ∧ h.spaceOf k = .ok .old := by
      rcases hd.owns c k hk with hk | ⟨hvacant, -⟩
      · exact hl.cache c k hk
      · exact ⟨hvacant.found, hvacant.old⟩
    obtain ⟨⟨t, ht⟩, hold⟩ := hbefore
    exact ⟨hd.cache k t ht, (hd.space k _ rfl ht).trans hold⟩
  · intro c c' k hk hk'
    rcases hd.owns c k hk with hbefore | ⟨-, honly⟩
    · rcases hd.owns c' k hk' with hbefore' | ⟨-, honly⟩
      · exact hl.owner c c' k hbefore hbefore'
      · exact honly c hk
    · exact (honly c' hk').symm
  · intro k names r hr
    rcases hd.lists k names r hr with hbefore | henters
    · obtain ⟨⟨l, hshape⟩, hold⟩ := hl.shape k names r hbefore
      exact ⟨⟨l, hd.shape r l hshape⟩, (hd.space r _ rfl hshape).trans hold⟩
    · exact ⟨henters.found, henters.old⟩
  · intro c names r hr
    obtain ⟨k, hk, hlisted⟩ := hr
    rcases hd.lists k names r hlisted with hbefore | henters
    · rcases hd.owns c k hk with hk | ⟨hvacant, -⟩
      · exact hd.laysOut (hl.based c names r ⟨k, hk, hbefore⟩)
      · exact absurd hbefore (hvacant.empty names r)
    · exact henters.based c hk
  · intro k names k' names' r hr hr'
    rcases hd.lists k names r hr with hbefore | henters
    · rcases hd.lists k' names' r hr' with hbefore' | henters
      · exact hl.unique k names k' names' r hbefore hbefore'
      · exact henters.only k names hr
    · obtain ⟨hcache, hnames⟩ := henters.only k' names' hr'
      exact ⟨hcache.symm, hnames.symm⟩

/-- A change that leaves all layouts as they are, and adds none but contexts without a cache,
caches without entries, and shapes. -/
theorem develops_of_kept
    (hkept : ∀ j o, o.isLayout = true → h.find j = .ok o →
      h'.find j = .ok o ∧ h'.spaceOf j = h.spaceOf j)
    (hcontext : ∀ c x, h'.find c = .ok (.context x) → h.find c = .ok (.context x) ∨
      x.shapeCache = none ∧ h'.Belongs c x)
    (hcache : ∀ k t, h'.find k = .ok (.shapeCache t) → h.find k = .ok (.shapeCache t) ∨
      ∀ names, t.find? names = none) : h.Develops h' where
  context c x hx := ⟨x, (hkept c _ rfl hx).1, rfl, rfl⟩
  shape r l hl := (hkept r _ rfl hl).1
  cache k t ht := ⟨t, (hkept k _ rfl ht).1⟩
  space j o ho hfind := (hkept j o ho hfind).2
  belongs c x' hx' := (hcontext c x' hx').imp (fun hx => ⟨x', hx⟩) And.right
  owns c k hk := by
    obtain ⟨x, hx, hcached⟩ := hk
    rcases hcontext c x hx with hx | ⟨hnone, -⟩
    · exact Or.inl ⟨x, hx, hcached⟩
    · simp [hnone] at hcached
  lists k names r hr := by
    obtain ⟨t, ht, hfound⟩ := hr
    rcases hcache k t ht with ht | hnone
    · exact Or.inl ⟨t, ht, hfound⟩
    · simp [hnone names] at hfound

theorem Gains.develops (hg : h.Gains id o space h') (hw : h.WellFormed)
    (hcontext : ∀ x, o = .context x → x.shapeCache = none ∧ h'.Belongs id x)
    (hcache : ∀ t, o = .shapeCache t → ∀ names, t.find? names = none) : h.Develops h' := by
  apply develops_of_kept
  · intro j x _ hfind
    exact ⟨hg.find_live hw hfind, hg.spaceOf_live hw (isLive_of_find hfind)⟩
  · intro c x hx
    by_cases hc : c = id
    · subst hc
      exact Or.inr (hcontext x (Except.ok.inj (hg.find.symm.trans hx)))
    · exact Or.inl ((hg.find_of_ne hw hc).symm.trans hx)
  · intro k t ht
    by_cases hk : k = id
    · subst hk
      exact Or.inr (hcache t (Except.ok.inj (hg.find.symm.trans ht)))
    · exact Or.inl ((hg.find_of_ne hw hk).symm.trans ht)

/-- A new cache is vacant, if it is empty. -/
theorem LaidOut.vacant {t : ShapeCache} (hl : h.LaidOut) (hw : h.WellFormed)
    (hg : h.Gains k (.shapeCache t) .old h') (hempty : ∀ names, t.find? names = none) :
    h'.Vacant k where
  found := ⟨t, hg.find⟩
  old := hg.spaceOf
  empty names r hr := by
    obtain ⟨t', ht', hfound⟩ := hr
    obtain rfl : t = t' := by simpa [hg.find] using ht'
    simp [hempty names] at hfound
  unowned c hk := by
    obtain ⟨x, hx, hcached⟩ := hk
    have hne : c ≠ k := by
      rintro rfl
      simp [hg.find] at hx
    -- a context that was there before does not refer to a handle that named nothing
    obtain ⟨⟨t', ht'⟩, -⟩ := hl.cache c k ⟨x, (hg.find_of_ne hw hne).symm.trans hx, hcached⟩
    exact hg.ne_of_live (isLive_of_find ht') rfl

/-- A new shape is listed nowhere. -/
theorem LaidOut.unlisted {l : Shape} (hl : h.LaidOut) (hw : h.WellFormed)
    (hg : h.Gains r (.shape l) space h') (k : Handle) (names : Array Handle) :
    ¬ h'.Lists k names r := by
  rintro ⟨t, ht, hfound⟩
  have hne : k ≠ r := by
    rintro rfl
    simp [hg.find] at ht
  obtain ⟨⟨l', hshape⟩, -⟩ :=
    hl.shape k names r ⟨t, (hg.find_of_ne hw hne).symm.trans ht, hfound⟩
  exact hg.ne_of_live (isLive_of_find hshape) rfl

/-- A new shape that was made for a context. -/
theorem LaidOut.laysOut {x y : Context} (hl : h.LaidOut) (hw : h.WellFormed)
    (hx : h.find c = .ok (.context x)) (hy : h.find (x.native.getD c) = .ok (.context y))
    (hg : h.Gains r (.shape (.ofNames y.objectTemplate names names.size)) space h') :
    h'.LaysOut c names r := by
  obtain ⟨y', template, hy', htemplate, -⟩ := hl.native c x hx
  obtain rfl : y = y' := by simpa [hy] using hy'
  exact ⟨_, y, template, ⟨x, hg.find_live hw hx, rfl⟩, hg.find_live hw hy, htemplate,
    htemplate ▸ hg.find⟩

/-- All layouts are what and where they were, and there are no others. -/
structure KeepsLayouts (h h' : Heap) : Prop where
  find : ∀ j x, x.isLayout = true → (h'.find j = .ok x ↔ h.find j = .ok x)
  spaceOf : ∀ j x, x.isLayout = true → h.find j = .ok x → h'.spaceOf j = h.spaceOf j

theorem KeepsLayouts.develops (hk : h.KeepsLayouts h') : h.Develops h' :=
  develops_of_kept (fun j x hx hj => ⟨(hk.find j x hx).mpr hj, hk.spaceOf j x hx hj⟩)
    (fun c _ hx => Or.inl ((hk.find c _ rfl).mp hx)) fun k _ ht =>
      Or.inl ((hk.find k _ rfl).mp ht)

/-- A change in place that is no business of layouts. -/
theorem Rewrites.keepsLayouts (hr : h.Rewrites id o' h') (hw : h.WellFormed)
    (hfind : h.find id = .ok o) (ho : o' = o ∨ o.isLayout = false ∧ o'.isLayout = false) :
    h.KeepsLayouts h' := by
  refine ⟨fun j x hx => ?_, fun j x _ hj => hr.spaceOf_eq hw (isLive_of_find hj)⟩
  refine hr.find_iff hw hfind ?_
  rcases ho with rfl | ⟨ho, ho'⟩
  · rfl
  · refine iff_of_false ?_ ?_ <;> rintro rfl
    · simp [hx] at ho'
    · simp [hx] at ho

theorem Hands.keepsLayouts {source into : Handle} (hh : h.Hands source into h')
    (hw : h.WellFormed) (hsource : h.find source = .ok o) (ho : o.isLayout = false)
    (hinto : h.find into = .ok o') (ho' : o'.isLayout = false) : h.KeepsLayouts h' := by
  refine ⟨fun j x hx => ?_, fun j x hx hj => (hh.others j ?_ ?_).spaceOf hw (isLive_of_find hj)⟩
  · by_cases hj : j = source
    · subst hj
      rw [find_of_dead hh.dead, hsource]
      refine iff_of_false (by simp) ?_
      rintro ⟨⟩
      simp [hx] at ho
    · by_cases hj' : j = into
      · subst hj'
        rw [hh.find, hsource, hinto]
        refine iff_of_false ?_ ?_ <;> rintro ⟨⟩
        · simp [hx] at ho
        · simp [hx] at ho'
      · rw [(hh.others j hj hj').find hw hh.wellFormed]
  · rintro rfl
    simp [← Except.ok.inj (hj.symm.trans hsource), hx] at ho
  · rintro rfl
    simp [← Except.ok.inj (hj.symm.trans hinto), hx] at ho'

/-- A context that belongs where it belonged may get a vacant cache. -/
theorem Rewrites.develops_context {x x' : Context} (hr : h.Rewrites id (.context x') h')
    (hw : h.WellFormed) (hfind : h.find id = .ok (.context x))
    (hnative : x'.native.getD id = x.native.getD id)
    (htemplate : x'.objectTemplate = x.objectTemplate)
    (hcache : ∀ k, x'.shapeCache = some k → x.shapeCache = some k ∨ h.Vacant k) :
    h.Develops h' := by
  have howns (c k : Handle) (hk : h'.Owns c k) : h.Owns c k ∨ c = id ∧ h.Vacant k := by
    obtain ⟨y, hy, hcached⟩ := hk
    by_cases hc : c = id
    · subst hc
      obtain rfl : x' = y := by simpa [hr.find] using hy
      exact (hcache k hcached).imp (fun hk => ⟨x, hfind, hk⟩) fun hk => ⟨rfl, hk⟩
    · exact Or.inl ⟨y, (hr.find_of_ne hw hc).symm.trans hy, hcached⟩
  refine ⟨?_, fun r l => (hr.find_iff hw hfind (by simp)).mpr, fun k t ht =>
    ⟨t, (hr.find_iff hw hfind (by simp)).mpr ht⟩,
    fun j o _ hj => hr.spaceOf_eq hw (isLive_of_find hj), ?_, ?_, ?_⟩
  · intro c y hy
    by_cases hc : c = id
    · subst hc
      obtain rfl : x = y := by simpa [hfind] using hy
      exact ⟨x', hr.find, hnative, htemplate⟩
    · exact ⟨y, (hr.find_of_ne hw hc).trans hy, rfl, rfl⟩
  · intro c y hy
    by_cases hc : c = id
    · exact Or.inl ⟨x, hc ▸ hfind⟩
    · exact Or.inl ⟨y, (hr.find_of_ne hw hc).symm.trans hy⟩
  · intro c k hk
    rcases howns c k hk with hbefore | ⟨rfl, hvacant⟩
    · exact Or.inl hbefore
    · refine Or.inr ⟨hvacant, fun c' hk' => ?_⟩
      rcases howns c' k hk' with hbefore | ⟨rfl, -⟩
      · exact absurd hbefore (hvacant.unowned c')
      · rfl
  · intro k names r hr'
    obtain ⟨t, ht, hfound⟩ := hr'
    exact Or.inl ⟨t, (hr.find_iff hw hfind (by simp)).mp ht, hfound⟩

/-- A cache may get an entry for a shape that is listed nowhere. -/
theorem Rewrites.develops_cache {t : ShapeCache} {l : Shape}
    (hr : h.Rewrites k (.shapeCache (t.insert names r)) h') (hw : h.WellFormed)
    (hfind : h.find k = .ok (.shapeCache t)) (hnone : t.find? names = none)
    (hshape : h.find r = .ok (.shape l)) (hold : h.spaceOf r = .ok .old)
    (hnew : ∀ k' names', ¬ h.Lists k' names' r) (hbased : ∀ c, h.Owns c k → h.LaysOut c names r) :
    h.Develops h' := by
  have hother (j : Handle) (o : Object) (ho : ∀ t, .shapeCache t ≠ o) :
      h'.find j = .ok o ↔ h.find j = .ok o :=
    hr.find_iff hw hfind (iff_of_false (ho _) (ho t))
  have hlists (k' : Handle) (names' : Array Handle) (r' : Handle) (hr' : h'.Lists k' names' r') :
      h.Lists k' names' r' ∨ k' = k ∧ names' = names ∧ r' = r := by
    obtain ⟨t', ht', hfound⟩ := hr'
    by_cases hk : k' = k
    · subst hk
      obtain rfl : t.insert names r = t' := by simpa [hr.find] using ht'
      rw [ShapeCache.find?_insert hnone] at hfound
      split at hfound
      case isTrue heq => exact Or.inr ⟨rfl, heq, (Option.some.inj hfound).symm⟩
      case isFalse => exact Or.inl ⟨t, hfind, hfound⟩
    · exact Or.inl ⟨t', (hr.find_of_ne hw hk).symm.trans ht', hfound⟩
  have howns (c k : Handle) (hk : h'.Owns c k) : h.Owns c k :=
    hk.imp fun x hx => ⟨(hother c _ (by simp)).mp hx.1, hx.2⟩
  have hlaysOut (c : Handle) (hl : h.LaysOut c names r) : h'.LaysOut c names r := by
    obtain ⟨native, y, template, ⟨x, hx, hn⟩, hy, htemplate, hl⟩ := hl
    exact ⟨native, y, template, ⟨x, (hother c _ (by simp)).mpr hx, hn⟩,
      (hother native _ (by simp)).mpr hy, htemplate, (hother r _ (by simp)).mpr hl⟩
  refine ⟨fun c x hx => ⟨x, (hother c _ (by simp)).mpr hx, rfl, rfl⟩,
    fun r l => (hother r _ (by simp)).mpr, ?_,
    fun j o _ hj => hr.spaceOf_eq hw (isLive_of_find hj),
    fun c x hx => Or.inl ⟨x, (hother c _ (by simp)).mp hx⟩, fun c k hk => Or.inl (howns c k hk), ?_⟩
  · intro k' t' ht'
    by_cases hk : k' = k
    · exact ⟨_, hk ▸ hr.find⟩
    · exact ⟨t', (hr.find_of_ne hw hk).trans ht'⟩
  · intro k' names' r' hr'
    rcases hlists k' names' r' hr' with hbefore | ⟨rfl, rfl, rfl⟩
    · exact Or.inl hbefore
    · refine Or.inr ⟨⟨l, (hother _ _ (by simp)).mpr hshape⟩,
        (hr.spaceOf_eq hw (isLive_of_find hshape)).trans hold, ?_,
        fun c hk => hlaysOut c (hbased c (howns c _ hk))⟩
      intro k₁ names₁ hlisted
      rcases hlists k₁ names₁ _ hlisted with hbefore | ⟨rfl, rfl, -⟩
      · exact absurd hbefore (hnew k₁ names₁)
      · exact ⟨rfl, rfl⟩

end Heap

end ManagedHeap
