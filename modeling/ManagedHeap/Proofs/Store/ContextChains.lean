import ManagedHeap.Proofs.Store.Layouts

/-!
# Chains of contexts

A context refers to its native context and, as a rule, to the context that it is made in.
The references are taken from different places, from a context or from a function that is
called, so that nothing in a single context says that they belong together.  What is said here
of all live contexts, reachable or not, is

* that a context fits in (`FitsIn`): its native context is an old one, its own native context,
  and has an object template without properties; the context before it is a live one with the
  same native context;
* that the contexts before a context come to an end (`Chained.ends`).

Three kinds of changes occur.  Objects vanish, or links stay as they are, or a context is added
to which nothing refers yet (`Prolongs`); none of these can make a circle.  Native contexts last
for being old.  A context before another one need not be old, but it is if the other one is: then
a collection that spares the one spares both.
-/

namespace ManagedHeap

/-- A change of an object that leaves what contexts refer to as it is, apart from their caches,
and shapes as they are. -/
inductive Object.KeepsLinks : Object → Object → Prop
  | same (o : Object) : KeepsLinks o o
  | context (x : Context) (cache : Option Handle) :
      KeepsLinks (.context x) (.context { x with shapeCache := cache })
  | shapeCache (t t' : ShapeCache) : KeepsLinks (.shapeCache t) (.shapeCache t')

namespace Heap

variable {h h' : Heap} {id c n p template : Handle} {o o' : Object} {x y : Context}
  {space : Space} {kept : List Handle}

/-- The context `y`, which `n` names, is an old native context of its own, and has the object
template, which is old and has no properties. -/
structure Heads (h : Heap) (n : Handle) (y : Context) (template : Handle) : Prop where
  found : h.find n = .ok (.context y)
  kind : y.kind = .native
  native : y.native = some n
  objectTemplate : y.objectTemplate = some template
  blank : h.find template = .ok (.shape (.ofNames none #[] 0))
  old : h.spaceOf n = .ok .old
  oldTemplate : h.spaceOf template = .ok .old

/-- The context `x`, which `c` names, has its place in a chain. -/
structure FitsIn (h : Heap) (c : Handle) (x : Context) : Prop where
  native : ∃ n y template, x.native = some n ∧ h.Heads n y template
  previous : ∀ p, x.previous = some p → ∃ y, h.find p = .ok (.context y) ∧
    y.native = x.native ∧ (h.spaceOf c = .ok .old → h.spaceOf p = .ok .old)
  template : x.objectTemplate ≠ none → x.kind = .native

/-- The context `p` is the one before the context `c`. -/
def Precedes (h : Heap) (p c : Handle) : Prop :=
  ∃ x, h.find c = .ok (.context x) ∧ x.previous = some p

/-- All contexts have their places in chains, and the chains come to an end. -/
structure Chained (h : Heap) : Prop extends h.WellFormed where
  fits : ∀ c x, h.find c = .ok (.context x) → h.FitsIn c x
  ends : WellFounded h.Precedes

theorem chained_of_nothing (hw : h.WellFormed) (hnone : ∀ id o, h.find id ≠ .ok o) :
    h.Chained where
  toWellFormed := hw
  fits c _ hx := absurd hx (hnone c _)
  ends := ⟨fun c => .intro c fun _ ⟨_, hx, _⟩ => absurd hx (hnone c _)⟩

theorem Chained.isLive_of_precedes (hc : h.Chained) (hp : h.Precedes p c) :
    h.isLive p = true := by
  obtain ⟨x, hx, hprevious⟩ := hp
  obtain ⟨y, hy, -⟩ := (hc.fits c x hx).previous p hprevious
  exact isLive_of_find hy

/-! ## Objects that vanish -/

theorem mem_children_link (hp : x.previous = some p ∨ x.objectTemplate = some p) :
    p ∈ (Object.context x).children := by
  simp only [Object.children, List.mem_append, Option.mem_toList]
  tauto

/-- What a live object refers to is left together with it, if it is old whenever that is. -/
theorem Thins.child_of_old (ht : h.Thins kept h') (hw : h.WellFormed)
    (hfind : h'.find id = .ok o) (hchild : c ∈ o.children) (hlive : h.isLive c = true)
    (hold : h.spaceOf id = .ok .old → h.spaceOf c = .ok .old) : h'.find c = h.find c := by
  obtain ⟨loc, r, hh, -⟩ := hw.houses (isLive_of_find (ht.find id o hfind))
  cases hspace : loc.space with
  | young => exact ht.young id o c hfind (hspace ▸ hh.spaceOf) hchild hlive
  | old => exact ht.child id o c hfind hchild (hold (hspace ▸ hh.spaceOf))

theorem Heads.thins (hn : h.Heads n y template) (ht : h.Thins kept h')
    (hx : h'.find c = .ok (.context x)) (hnative : x.native = some n) :
    h'.Heads n y template := by
  have hfound := (ht.child c _ n hx (mem_children_context (Or.inl hnative)) hn.old).trans hn.found
  have hblank := (ht.child n _ template hfound (mem_children_link (Or.inr hn.objectTemplate))
    hn.oldTemplate).trans hn.blank
  exact { hn with
    found := hfound
    blank := hblank
    old := ht.old n _ hfound hn.old
    oldTemplate := ht.old template _ hblank hn.oldTemplate }

theorem Chained.thins (hc : h.Chained) (ht : h.Thins kept h') : h'.Chained where
  toWellFormed := ht.wellFormed
  fits c x hx := by
    have hfits := hc.fits c x (ht.find c _ hx)
    refine ⟨?_, fun p hp => ?_, hfits.template⟩
    · obtain ⟨n, y, template, hn, hheads⟩ := hfits.native
      exact ⟨n, y, template, hn, hheads.thins ht hx hn⟩
    · obtain ⟨y, hy, hnative, hold⟩ := hfits.previous p hp
      have hy' := (ht.child_of_old hc.toWellFormed hx (mem_children_link (Or.inl hp))
        (isLive_of_find hy) hold).trans hy
      refine ⟨y, hy', hnative, fun hold' => ?_⟩
      rcases ht.moved with hsame | hall
      · rw [hsame c (isLive_of_find hx)] at hold'
        rw [hsame p (isLive_of_find hy'), hold hold']
      · exact hall p (isLive_of_find hy')
  ends := Subrelation.wf
    (fun hp => hp.imp fun _ hx => ⟨ht.find _ _ hx.1, hx.2⟩) hc.ends

/-! ## Contexts that are added -/

/-- Contexts refer to what they referred to, apart from their caches, and shapes are what they
were.  A new context fits in, and the one before it was there before. -/
structure Prolongs (h h' : Heap) : Prop where
  wellFormed : h'.WellFormed
  context : ∀ c x, h.find c = .ok (.context x) →
    ∃ cache, h'.find c = .ok (.context { x with shapeCache := cache })
  shape : ∀ r l, h.find r = .ok (.shape l) → h'.find r = .ok (.shape l)
  spaceOf : ∀ j o, o.isLayout = true → h.find j = .ok o → h'.spaceOf j = h.spaceOf j
  new : ∀ c x', h'.find c = .ok (.context x') → (∃ x, h.find c = .ok (.context x)) ∨
    h.isLive c = false ∧ h'.FitsIn c x' ∧ ∀ p, x'.previous = some p → h.isLive p = true

theorem Prolongs.precedes (hp : h.Prolongs h') (hlive : h.isLive c = true)
    (hprecedes : h'.Precedes p c) : h.Precedes p c := by
  obtain ⟨x', hx', hprevious⟩ := hprecedes
  rcases hp.new c x' hx' with ⟨x, hx⟩ | ⟨hdead, -⟩
  · obtain ⟨cache, hfound⟩ := hp.context c x hx
    obtain rfl : { x with shapeCache := cache } = x' := by simpa [hfound] using hx'
    exact ⟨x, hx, hprevious⟩
  · simp [hdead] at hlive

theorem Prolongs.isLive_of_precedes (hp : h.Prolongs h') (hc : h.Chained)
    (hprecedes : h'.Precedes p c) : h.isLive p = true := by
  obtain ⟨x', hx', hprevious⟩ := hprecedes
  rcases hp.new c x' hx' with ⟨x, hx⟩ | ⟨-, -, hlive⟩
  · exact hc.isLive_of_precedes (hp.precedes (isLive_of_find hx) ⟨x', hx', hprevious⟩)
  · exact hlive p hprevious

theorem Heads.prolongs (hn : h.Heads n y template) (hp : h.Prolongs h') :
    ∃ y', h'.Heads n y' template := by
  obtain ⟨cache, hfound⟩ := hp.context n y hn.found
  exact ⟨_, {
    found := hfound
    kind := hn.kind
    native := hn.native
    objectTemplate := hn.objectTemplate
    blank := hp.shape _ _ hn.blank
    old := (hp.spaceOf n _ rfl hn.found).trans hn.old
    oldTemplate := (hp.spaceOf template _ rfl hn.blank).trans hn.oldTemplate }⟩

theorem FitsIn.prolongs (hf : h.FitsIn c x) (hx : h.find c = .ok (.context x)) (hp : h.Prolongs h')
    (cache : Option Handle) : h'.FitsIn c { x with shapeCache := cache } := by
  refine ⟨?_, fun p hprevious => ?_, hf.template⟩
  · obtain ⟨n, y, template, hn, hheads⟩ := hf.native
    obtain ⟨y', hheads'⟩ := hheads.prolongs hp
    exact ⟨n, y', template, hn, hheads'⟩
  · obtain ⟨y, hy, hnative, hold⟩ := hf.previous p hprevious
    obtain ⟨cache', hy'⟩ := hp.context p y hy
    refine ⟨_, hy', hnative, fun hold' => ?_⟩
    rw [hp.spaceOf c _ rfl hx] at hold'
    rw [hp.spaceOf p _ rfl hy, hold hold']

theorem Chained.prolongs (hc : h.Chained) (hp : h.Prolongs h') : h'.Chained where
  toWellFormed := hp.wellFormed
  fits c x' hx' := by
    rcases hp.new c x' hx' with ⟨x, hx⟩ | ⟨-, hfits, -⟩
    · obtain ⟨cache, hfound⟩ := hp.context c x hx
      obtain rfl : { x with shapeCache := cache } = x' := by simpa [hfound] using hx'
      exact (hc.fits c x hx).prolongs hx hp cache
    · exact hfits
  ends := by
    -- a live context has the chain that it had, and what precedes a new context was live
    have hlive (c : Handle) : h.isLive c = true → Acc h'.Precedes c := by
      induction c using hc.ends.induction with
      | h c ih =>
          exact fun hlive => .intro c fun p hprecedes =>
            ih p (hp.precedes hlive hprecedes) (hp.isLive_of_precedes hc hprecedes)
    exact ⟨fun c => .intro c fun p hprecedes => hlive p (hp.isLive_of_precedes hc hprecedes)⟩

/-! ## Changes that prolong chains -/

theorem KeepsLayouts.prolongs (hk : h.KeepsLayouts h') (hw : h'.WellFormed) : h.Prolongs h' where
  wellFormed := hw
  context c x hx := ⟨x.shapeCache, (hk.find c _ rfl).mpr hx⟩
  shape r _ := (hk.find r _ rfl).mpr
  spaceOf := hk.spaceOf
  new c x' hx' := Or.inl ⟨x', (hk.find c _ rfl).mp hx'⟩

theorem Rewrites.prolongs (hr : h.Rewrites id o' h') (hw : h.WellFormed)
    (hfind : h.find id = .ok o) (hlinks : o.KeepsLinks o') : h.Prolongs h' where
  wellFormed := hr.wellFormed
  context c x hx := by
    -- the one object that changes may get a cache, and keeps its links
    by_cases hc : c = id
    · subst hc
      obtain rfl : .context x = o := by simpa [hx] using hfind
      cases hlinks with
      | same => exact ⟨x.shapeCache, hr.find⟩
      | context _ cache => exact ⟨cache, hr.find⟩
    · exact ⟨x.shapeCache, (hr.find_of_ne hw hc).trans hx⟩
  shape r l hl := by
    by_cases hid : r = id
    · subst hid
      obtain rfl : .shape l = o := by simpa [hl] using hfind
      cases hlinks with
      | same => exact hr.find
    · exact (hr.find_of_ne hw hid).trans hl
  spaceOf j o _ hj := hr.spaceOf_eq hw (isLive_of_find hj)
  new c x' hx' := by
    by_cases hc : c = id
    · subst hc
      obtain rfl : o' = .context x' := by simpa [hr.find] using hx'
      cases hlinks with
      | same => exact Or.inl ⟨x', hfind⟩
      | context x => exact Or.inl ⟨x, hfind⟩
    · exact Or.inl ⟨x', (hr.find_of_ne hw hc).symm.trans hx'⟩

theorem Gains.prolongs (hg : h.Gains id o space h') (hw : h.WellFormed)
    (hnew : ∀ x, o = .context x →
      h'.FitsIn id x ∧ ∀ p, x.previous = some p → h.isLive p = true) : h.Prolongs h' where
  wellFormed := hg.wellFormed
  context c x hx := ⟨x.shapeCache, hg.find_live hw hx⟩
  shape r l := hg.find_live hw
  spaceOf j o _ hj := hg.spaceOf_live hw (isLive_of_find hj)
  new c x' hx' := by
    by_cases hc : c = id
    · subst hc
      exact Or.inr ⟨hg.dead, hnew x' (Except.ok.inj (hg.find.symm.trans hx'))⟩
    · exact Or.inl ⟨x', (hg.find_of_ne hw hc).symm.trans hx'⟩

/-! ## Contexts that fit in -/

theorem Heads.gains (hn : h.Heads n y template) (hg : h.Gains id o space h')
    (hw : h.WellFormed) : h'.Heads n y template :=
  { hn with
    found := hg.find_live hw hn.found
    blank := hg.find_live hw hn.blank
    old := (hg.spaceOf_live hw (isLive_of_find hn.found)).trans hn.old
    oldTemplate := (hg.spaceOf_live hw (isLive_of_find hn.blank)).trans hn.oldTemplate }

/-- A native context heads its chain. -/
theorem Chained.heads (hc : h.Chained) (hy : h.find n = .ok (.context y))
    (hnative : y.native = some n) : ∃ template, h.Heads n y template := by
  obtain ⟨n', y', template, hn', hheads⟩ := (hc.fits n y hy).native
  obtain rfl : n = n' := by simpa [hnative] using hn'
  obtain rfl : y = y' := by simpa [hy] using hheads.found
  exact ⟨template, hheads⟩

/-- A new context fits in if it has the native context of the one before it.  An old one comes
right after its native context. -/
theorem Chained.fits_gains (hc : h.Chained) (hg : h.Gains id (.context x) space h')
    (hnative : x.native = some n) (hy : h.find n = .ok (.context y)) (hself : y.native = some n)
    (hprevious : ∀ p, x.previous = some p → (p = n ∨ space = .young) ∧
      ∃ z, h.find p = .ok (.context z) ∧ z.native = some n)
    (htemplate : x.objectTemplate = none) :
    h'.FitsIn id x ∧ ∀ p, x.previous = some p → h.isLive p = true := by
  have hw := hc.toWellFormed
  obtain ⟨template, hheads⟩ := hc.heads hy hself
  have hheads' := hheads.gains hg hw
  refine ⟨⟨⟨n, y, template, hnative, hheads'⟩, fun p hp => ?_, by simp [htemplate]⟩,
    fun p hp => ?_⟩
  · obtain ⟨hplace, z, hz, hbelongs⟩ := hprevious p hp
    refine ⟨z, hg.find_live hw hz, hbelongs.trans hnative.symm, fun hold => ?_⟩
    rcases hplace with rfl | rfl
    · exact hheads'.old
    · simp [hg.spaceOf] at hold
  · obtain ⟨-, z, hz, -⟩ := hprevious p hp
    exact isLive_of_find hz

end Heap

end ManagedHeap
