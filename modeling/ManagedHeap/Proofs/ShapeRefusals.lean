import ManagedHeap.Proofs.Heap.Accounting
import ManagedHeap.Proofs.Layouts
import ManagedHeap.Proofs.Store.Refusals

/-!
# What shapes take

Giving out a shape may place two objects, a cache and a shape, and lets the cache grow.  All three
have to find room, and each may be refused it; nothing else goes wrong if the context and the
names are held and the names are interned (`takes_shapeFor`).

How far the cache grows depends on what is in it, so the bytes are told of the cache that the
context has before, or would be given (`Heap.CacheOf`).
-/

namespace ManagedHeap

open Store

variable {s : Store} {c k : Handle} {more : Nat} {id : Handle} {names : Array Handle}
  {o : Object} {x : Context} {t : ShapeCache}

theorem Heap.bytes_setArena_le {h : Heap} {space : Space} {a : Arena}
    (hle : a.used ≤ (h.arena space).used + more) : (h.setArena space a).bytes ≤ h.bytes + more := by
  unfold Heap.bytes
  cases space <;> simp <;> omega

/-- An object that is changed in place is measured again, and takes what it measures at most. -/
theorem takes_growObject (hs : s.Sound) (hfind : s.heap.find id = .ok o) (f : Object → Object) :
    Takes (f o).size (StoreM.growObject id f) s := by
  unfold Takes StoreM.growObject
  rw [ends_onHeap, ends_bind]
  refine ((hs.wellFormed.ends_modifyObject hfind f).and
    (Heap.ends_modifyObject_bytes hfind f)).mono ?_ fun _ _ hfail => hfail.1.elim
  rintro _ h' ⟨hr, hbytes⟩
  obtain ⟨loc, r, hh, hobject⟩ := Heap.houses_of_find hr.find
  have hle := (hr.wellFormed.arena loc.space).size_le_used hh.2
  have hused := h'.used_le_bytes loc.space
  apply Heap.ends_reaccount_slot hh.locate hh.2 hle
  · intro _
    refine ⟨rfl, fun o' ho' => ⟨o', ho', rfl, le_rfl⟩, le_rfl, ?_⟩
    rw [← hbytes, ← hobject]
    refine Heap.bytes_setArena_le ?_
    rw [Arena.swap_used]
    show (h'.arena loc.space).used - r.size + r.object.size ≤
      (h'.arena loc.space).used + r.object.size
    omega
  · intro h'' hover _
    refine Refuses.words ?_
    rw [← hobject, ← hbytes]
    omega

/-- The cache that a context has, or would be given. -/
def Heap.CacheOf (h : Heap) (context : Handle) (t : ShapeCache) : Prop :=
  (∃ k, h.Owns context k ∧ h.find k = .ok (.shapeCache t)) ∨
    (∀ k, ¬ h.Owns context k) ∧ t = .sized shapeCacheEntries

/-- The bytes of a new cache. -/
def cacheBytes : Nat :=
  (Object.shapeCache (.sized shapeCacheEntries)).size

/-- The cache of a context is there, or takes its place. -/
theorem takes_shapeCacheOf (hs : s.Sound) (hid : s.Holds c)
    (hx : s.heap.find c = .ok (.context x)) :
    Takes cacheBytes (StoreM.shapeCacheOf c) s := by
  unfold StoreM.shapeCacheOf
  rw [takes_run (run_context hx)]
  split
  case h_1 k hk => exact (takes_pure k s).mono (Nat.zero_le _)
  case h_2 hnone =>
      have hplaced := runs_place (o := .shapeCache (.sized shapeCacheEntries)) hs .old
        (by simp [Object.children, ShapeCache.sized]) (by simp)
      refine (takes_allocate hs _ .old).last hplaced fun k s₁ hend => ?_
      obtain ⟨ha, -⟩ := hend
      have hx₁ := (ha.find c hid).trans hx
      rw [takes_run (run_context hx₁)]
      apply Takes.of_ends
      rw [ends_bind, ends_onHeap]
      exact (Heap.ends_modifyObject_bytes hx₁ _).mono
        (fun _ _ hbytes => spends_zero rfl rfl rfl (Nat.le_of_eq hbytes)) fun _ _ hfail => hfail

theorem Heap.LaidOut.exists_cacheOf {h : Heap} (hlaid : h.LaidOut)
    (hx : h.find c = .ok (.context x)) : ∃ t, h.CacheOf c t := by
  cases hcached : x.shapeCache with
  | some k =>
      have howns : h.Owns c k := ⟨x, hx, hcached⟩
      obtain ⟨⟨t, ht⟩, -⟩ := hlaid.cache c k howns
      exact ⟨t, Or.inl ⟨k, howns, ht⟩⟩
  | none =>
      refine ⟨_, Or.inr ⟨?_, rfl⟩⟩
      rintro k ⟨x', hx', hk⟩
      obtain rfl : x = x' := by simpa [hx] using hx'
      simp [hcached] at hk

/-- The cache that is given out is the one of the context. -/
theorem ends_shapeCacheOf_found (hs : s.Sound) (hid : s.Holds c)
    (hx : s.heap.find c = .ok (.context x)) (ht : s.heap.CacheOf c t) :
    Ends (StoreM.shapeCacheOf c) s (fun k s' => s'.heap.find k = .ok (.shapeCache t))
      fun _ _ => True := by
  have howns (k : Handle) : s.heap.Owns c k ↔ x.shapeCache = some k := by
    refine ⟨?_, fun hk => ⟨x, hx, hk⟩⟩
    rintro ⟨x', hx', hk⟩
    obtain rfl : x = x' := by simpa [hx] using hx'
    exact hk
  unfold StoreM.shapeCacheOf
  rw [ends_bind_ok (run_context hx)]
  split
  case h_1 k hk =>
      rcases ht with ⟨k', hk', ht⟩ | ⟨hnone, -⟩
      · obtain rfl : k = k' := by simpa [hk] using (howns k').mp hk'
        exact ht
      · exact absurd ((howns k).mpr hk) (hnone k)
  case h_2 hnone =>
      obtain rfl : t = .sized shapeCacheEntries := by
        rcases ht with ⟨k, hk, -⟩ | ⟨-, ht⟩
        · simpa [hnone] using (howns k).mp hk
        · exact ht
      rw [ends_bind]
      refine Ends.mono (runs_place (o := .shapeCache (.sized shapeCacheEntries)) hs .old
        (by simp [Object.children, ShapeCache.sized]) (by simp)) ?_ fun _ _ _ => trivial
      rintro k s₁ ⟨ha, hp⟩
      have hx₁ := (ha.find c hid).trans hx
      -- the context is not the new cache, so that the change of it leaves the cache as it was made
      have hne : k ≠ c := by
        rintro rfl
        exact hp.fresh hid
      rw [ends_bind_ok (run_context hx₁), ends_bind]
      refine (ends_modifyObject ha.sound.wellFormed hx₁ _).mono ?_ fun _ _ _ => trivial
      rintro _ s₂ ⟨h', hr, rfl⟩
      exact (hr.find_of_ne ha.sound.wellFormed hne).trans hp.find

/-- The bytes of a new shape with a number of names. -/
def shapeBytes (count : Nat) : Nat :=
  Object.baseSize + 96 + 4 * count

theorem takes_newShape (hs : s.Sound) (hlaid : s.heap.LaidOut)
    (hx : s.heap.find c = .ok (.context x)) (names : Array Handle) :
    Takes (shapeBytes names.size) (StoreM.newShape c names) s := by
  obtain ⟨y, template, hy, -⟩ := hlaid.native c x hx
  unfold StoreM.newShape StoreM.nativeContextOf
  rw [bind_assoc, takes_run (run_context hx), pure_bind, takes_run (run_context hy)]
  exact takes_allocate hs _ .old

/-- The bytes of a cache after another entry was added. -/
def grownBytes (t : ShapeCache) : Nat :=
  Object.baseSize + 64 + 52 * Capacity.afterInsert t.capacity t.entries.size

theorem size_insert (t : ShapeCache) (names : Array Handle) (shape : Handle) :
    (Object.shapeCache (t.insert names shape)).size = grownBytes t := by
  unfold ShapeCache.insert
  split <;> rfl

theorem run_checkNames (hnames : ∀ name ∈ names, name ∈ s.heap.canonical) :
    StoreM.checkNames names s = .ok ⟨⟩ s := by
  have hends := ends_checkNames s names
  cases hrun : StoreM.checkNames names s with
  | ok _ s' =>
      obtain ⟨rfl, -⟩ := hends.of_ok hrun
      rfl
  | error e s' =>
      obtain ⟨-, name, hname, hnot⟩ := hends.of_error hrun
      exact absurd (hnames name hname) hnot

theorem takes_shapeFor (hs : s.Sound) (hordered : s.heap.Ordered) (hid : s.Holds c)
    (hx : s.heap.find c = .ok (.context x)) (hheld : ∀ name ∈ names, s.Holds name)
    (hnames : ∀ name ∈ names, name ∈ s.heap.canonical) (ht : s.heap.CacheOf c t) :
    Takes (cacheBytes + (shapeBytes names.size + grownBytes t)) (StoreM.shapeFor c names) s := by
  unfold StoreM.shapeFor
  rw [takes_run (run_checkNames hnames)]
  refine (takes_shapeCacheOf hs hid hx).bind (((runs_shapeCacheOf hs hid).and
    (ends_shapeCacheOf hordered c)).and (ends_shapeCacheOf_found hs hid hx ht)) ?_
  rintro k s₁ ⟨⟨⟨hgrows, hk⟩, hordered₁, -⟩, hfound⟩
  rw [takes_run (run_shapeCache hfound)]
  cases t.find? names with
  | some r =>
      exact takes_modify (spends_zero rfl rfl rfl le_rfl)
        ((takes_track _ r).mono (Nat.zero_le _))
  | none =>
      have hmiss : s₁.Adds { s₁ with shapeMisses := s₁.shapeMisses + 1 } :=
        adds_settings hgrows.sound _ _ _ _ _
      have hkept {j : Handle} (hj : s.Holds j) := hmiss.holds hgrows.sound (hgrows.holds hj)
      -- the context may have been given a cache, and is a context all the same
      obtain ⟨o, o', ho, ho', hgrown⟩ := hgrows.grown c hid
      obtain rfl : .context x = o := by simpa [hx] using ho
      obtain ⟨x', rfl⟩ : ∃ x', o' = .context x' := by
        cases hgrown <;> exact ⟨_, rfl⟩
      refine takes_modify (spends_zero rfl rfl rfl le_rfl)
        ((takes_newShape hmiss.sound hordered₁.toLaidOut ho' names).bind
          (runs_newShape hmiss.sound (hkept hid) fun name hname => hkept (hheld name hname)) ?_)
      rintro r s₃ ⟨hadds, -⟩
      have hfound₃ : s₃.heap.find k = .ok (.shapeCache t) :=
        (hadds.find k (hmiss.holds hgrows.sound hk)).trans hfound
      rw [takes_run (run_shapeCache hfound₃), ← size_insert t names r]
      exact (takes_growObject hadds.sound hfound₃ _).last (ends_self _ _) fun _ s' _ =>
        takes_pure r s'

end ManagedHeap
