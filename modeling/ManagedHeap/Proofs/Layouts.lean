import ManagedHeap.Proofs.Interning
import ManagedHeap.Proofs.LayoutInvariants

/-!
# Layouts last

The heap of a well-rooted store is laid out (`WellRooted.ordered`): contexts have caches of
their own, and no shape is listed twice.  This lasts whatever operations do, also with contexts
that nothing keeps alive.  The delicate operation is the one that looks for the shape of some
names.  It makes two objects at most, the cache and the shape, and each of these allocations
may collect.  What it has found before may be gone afterwards, and the handle of a context or
of a cache may have been given to the new object; but then it names no context and no cache
any more, and the operation fails.

What it gives out is listed under these names in the cache of the context, if that is still a
context by then (`ends_shapeFor`).
-/

namespace ManagedHeap

variable {α β : Type} {s s' : Store} {id c k r : Handle} {names held : Array Handle}

namespace Heap

variable {h g h' : Heap} {kept : List Handle} {o : Object} {space : Space}

/-- Heaps that are well formed and laid out. -/
structure Ordered (h : Heap) : Prop extends h.WellFormed, h.LaidOut

theorem Ordered.thins (hh : h.Ordered) (ht : h.Thins kept h') : h'.Ordered :=
  ⟨ht.wellFormed, hh.toLaidOut.thins ht⟩

theorem Ordered.gains (hh : h.Ordered) (hg : h.Gains id o space h')
    (hcontext : ∀ x, o = .context x → x.shapeCache = none ∧ h'.Belongs id x)
    (hcache : ∀ t, o = .shapeCache t → ∀ names, t.find? names = none) : h'.Ordered :=
  ⟨hg.wellFormed, hh.toLaidOut.develops (hg.develops hh.toWellFormed hcontext hcache)⟩

/-- What is found besides the new object was left, and was there before. -/
theorem Thins.find_before {o' : Object} (ht : h.Thins kept g) (hg : g.Gains r o space h')
    (hother : o' ≠ o) (hfind : h'.find id = .ok o') : g.find id = .ok o' ∧ h.find id = .ok o' := by
  have hne : id ≠ r := by
    rintro rfl
    exact hother (Except.ok.inj (hfind.symm.trans hg.find))
  have hleft := (hg.find_of_ne ht.wellFormed hne).symm.trans hfind
  exact ⟨hleft, ht.find id o' hleft⟩

/-- A new shape is laid out for whatever context owns the cache by then. -/
theorem Ordered.laysOut_owner {x y : Context} (hh : h.Ordered) (ht : h.Thins kept g)
    (hx : h.find c = .ok (.context x)) (hy : h.find (x.native.getD c) = .ok (.context y))
    (hg : g.Gains r (.shape (.ofNames y.objectTemplate names names.size)) .old h')
    (howns : h.Owns c k) {c' : Handle} (hk : h'.Owns c' k) : h'.LaysOut c' names r := by
  obtain ⟨x', hx', hcached⟩ := hk
  obtain ⟨hleft, hthen⟩ := ht.find_before hg (by simp) hx'
  obtain rfl : c' = c := hh.owner c' c k ⟨x', hthen, hcached⟩ howns
  obtain rfl : x = x' := by simpa [hthen] using hx.symm
  have hg₀ := hh.thins ht
  obtain ⟨y', -, hy', -⟩ := hg₀.native c' x hleft
  obtain rfl : y = y' := by
    simpa [hy] using ht.find _ _ hy'
  exact hg₀.laysOut hg₀.toWellFormed hleft hy' hg

end Heap

open Heap

/-! ## Reading layouts -/

section Readers

variable {ok : β → Store → Prop} {fail : Fault → Store → Prop}

theorem ends_context {f : Context → StoreM β} (hfail : ∀ e, fail e s)
    (hok : ∀ x, s.heap.find id = .ok (.context x) → Ends (f x) s ok fail) :
    Ends (StoreM.context id >>= f) s ok fail := by
  unfold StoreM.context
  rw [ends_bind, ends_bind, ends_inspect]
  refine ⟨fun o ho => ?_, fun e _ => hfail e⟩
  split
  · exact hok _ ho
  · exact hfail _

theorem ends_shapeCache {f : ShapeCache → StoreM β} (hfail : ∀ e, fail e s)
    (hok : ∀ t, s.heap.find id = .ok (.shapeCache t) → Ends (f t) s ok fail) :
    Ends (StoreM.shapeCache id >>= f) s ok fail := by
  unfold StoreM.shapeCache
  rw [ends_bind, ends_bind, ends_inspect]
  refine ⟨fun o ho => ?_, fun e _ => hfail e⟩
  split
  · exact hok _ ho
  · exact hfail _

end Readers

/-! ## The invariant -/

/-- The computation keeps heaps ordered. -/
abbrev PreservesOrder (m : StoreM α) : Prop :=
  Preserves (fun h _ => h.Ordered) (fun _ _ => True) m

theorem aboutLayouts_ordered : Heap.AboutLayouts Heap.Ordered where
  wellFormed _ hh := hh.toWellFormed
  thins _ _ _ := Heap.Ordered.thins
  keepsLayouts _ _ hh hk hw := ⟨hw, hh.toLaidOut.develops hk.develops⟩

/-! ## Contexts -/

/-- A context inside another one belongs where that one belongs. -/
theorem preservesOrder_innerContext {inside native : Handle} {slots : Array Value}
    (hs : s.heap.Ordered) (hnative : s.heap.Native inside native) (kind : ContextKind)
    (closure : Value) (previous : Option Handle) (extension : Value) (space : Space) :
    PreservesFrom (fun h _ => h.Ordered) (fun _ _ => True) s (StoreM.allocate (.context
      (StoreM.innerContext kind closure previous extension native slots)) space) := by
  refine aboutLayouts_ordered.fulfil_from hs fun g id h' ht hleft hg =>
    hleft.gains hg (fun x hx => ?_) (by simp)
  obtain rfl := Object.context.inj hx
  obtain ⟨c, hc, rfl⟩ := hnative
  obtain ⟨y, template, hy, htemplate, hold⟩ := hs.native inside c hc
  -- the native context is held until the new one is there
  have hroot : c.native.getD inside ∈ s.roots (Object.context (StoreM.innerContext kind closure
      previous extension (c.native.getD inside) slots)).children :=
    List.mem_append_left _ (List.mem_append_left _ (List.mem_append_left _
      (List.mem_append_left _ (mem_children_context (Or.inl rfl)))))
  have hleft := (ht.kept _ hroot (isLive_of_find hy)).trans hy
  exact ⟨rfl, y, template, hg.find_live ht.wellFormed hleft, htemplate,
    (hg.spaceOf_live ht.wellFormed (isLive_of_find hleft)).trans (ht.old _ _ hleft hold)⟩

theorem preservesOrder_newNativeContext : PreservesOrder StoreM.newNativeContext := by
  intro s hs
  refine (ends_newNativeContext_gains hs.toWellFormed).mono ?_ ?_
  · rintro id s' ⟨_, g, template, h, _, g', x, ht, hg, ht', -, hg', -, -, hnative, hcache,
      htemplate⟩
    -- the template comes first, and the collection for the context does not take it
    refine (((hs.thins ht).gains hg (by simp) (by simp)).thins ht').gains hg' ?_ (by simp)
    rintro _ ⟨⟩
    have hself : x.native.getD id = id := by simp [hnative]
    exact ⟨hcache, x, template, hself.symm ▸ hg'.find, htemplate, hself.symm ▸ hg'.spaceOf⟩
  · rintro e s' (ht | ⟨_, g, template, h, ht, hg, ht'⟩ | he)
    · exact Or.inl (hs.thins ht)
    · exact Or.inl (((hs.thins ht).gains hg (by simp) (by simp)).thins ht')
    · exact Or.inr ⟨he, trivial⟩

/-! ## Shapes -/

/-- The context has a cache in the end, if it is still there to have one. -/
theorem ends_shapeCacheOf (hs : s.heap.Ordered) (c : Handle) :
    Ends (StoreM.shapeCacheOf c) s (fun k s' => s'.heap.Ordered ∧ s'.heap.Owns c k ∧
        ∃ x, s.heap.find c = .ok (.context x))
      (fun e s' => s'.heap.Ordered ∨ e = .wordOverflow ∧ True) := by
  unfold StoreM.shapeCacheOf
  refine ends_context (fun _ => Or.inl hs) fun x hx => ?_
  split
  case h_1 k hk => exact ⟨hs, ⟨x, hx, hk⟩, x, hx⟩
  case h_2 hnone =>
      rw [ends_bind]
      refine (ends_fulfil_thins hs.toWellFormed _ _ _).mono ?_ fun e s' hfail =>
        hfail.imp hs.thins fun he => ⟨he, trivial⟩
      intro k s₁ hend
      obtain ⟨g, ht, hg⟩ := hend
      have hg₀ := hs.thins ht
      have hs₁ := hg₀.gains hg (by simp) fun t ht names => by
        obtain rfl := Object.shapeCache.inj ht
        exact ShapeCache.find?_sized _ names
      refine ends_context (fun _ => Or.inl hs₁) fun x' hx' => ?_
      -- the handle of the context is not that of the new cache, so it is the same context
      obtain rfl : x = x' := by simpa [hx] using (ht.find_before hg (by simp) hx').2
      rw [ends_bind]
      refine (ends_modifyObject hs₁.toWellFormed hx' _).mono ?_ fun _ _ hfail => hfail.elim
      intro _ s₂ hend
      obtain ⟨h', hr, rfl⟩ := hend
      refine ⟨⟨hr.wellFormed, hs₁.toLaidOut.develops (hr.develops_context hs₁.toWellFormed hx' rfl
        rfl fun k' hk' => ?_)⟩, ⟨_, hr.find, rfl⟩, x, hx⟩
      obtain rfl : k = k' := by simpa using hk'
      exact Or.inr (hg₀.toLaidOut.vacant hg₀.toWellFormed hg (ShapeCache.find?_sized _))

theorem ends_checkNames (s : Store) (names : Array Handle) :
    Ends (StoreM.checkNames names) s
      (fun _ s' => s' = s ∧ ∀ name ∈ names, name ∈ s.heap.canonical)
      (fun _ s' => s' = s ∧ ∃ name ∈ names, name ∉ s.heap.canonical) := by
  refine (ends_checkNames_texts s names).mono (fun _ _ hend => hend) fun e s' hfail => ?_
  obtain ⟨rfl, name, hname, hrefused⟩ := hfail
  refine ⟨rfl, name, hname, ?_⟩
  rintro ⟨t', htext', hflag'⟩
  cases hrefused with
  | unread htext => simp [htext] at htext'
  | notInterned htext hflag =>
      obtain rfl := Except.ok.inj (htext.symm.trans htext')
      simp [hflag] at hflag'

/-- A new shape is based on the object template of the native context that the context belongs
to. -/
theorem ends_newShape (hs : s.heap.Ordered) (c : Handle) (names : Array Handle) :
    Ends (StoreM.newShape c names) s (fun r s' => ∃ g kept x y, s.heap.Thins kept g ∧
        s.heap.find c = .ok (.context x) ∧ s.heap.find (x.native.getD c) = .ok (.context y) ∧
        g.Gains r (.shape (.ofNames y.objectTemplate names names.size)) .old s'.heap)
      (fun e s' => s'.heap.Ordered ∨ e = .wordOverflow ∧ True) := by
  unfold StoreM.newShape StoreM.nativeContextOf
  rw [bind_assoc]
  refine ends_context (fun _ => Or.inl hs) fun x hx => ?_
  rw [pure_bind]
  refine ends_context (fun _ => Or.inl hs) fun y hy => ?_
  refine (ends_fulfil_thins hs.toWellFormed _ _ _).mono ?_ fun e s' hfail =>
    hfail.imp hs.thins fun he => ⟨he, trivial⟩
  intro r s' hend
  obtain ⟨g, ht, hg⟩ := hend
  exact ⟨g, _, x, y, ht, hx, hy, hg⟩

/-- The shape that is given out is listed for the names in the cache of the context, if that is
still a context. -/
theorem ends_shapeFor (hs : s.heap.Ordered) (c : Handle) (names : Array Handle) :
    Ends (StoreM.shapeFor c names) s
      (fun r s' => s'.heap.Ordered ∧ (∀ name ∈ names, name ∈ s.heap.canonical) ∧
        (∃ x, s.heap.find c = .ok (.context x)) ∧
        ∀ x, s'.heap.find c = .ok (.context x) → s'.heap.Caches c names r)
      (fun e s' => s'.heap.Ordered ∨ e = .wordOverflow ∧ True) := by
  unfold StoreM.shapeFor
  rw [ends_bind]
  refine (ends_checkNames s names).mono ?_ fun _ _ hfail => Or.inl (hfail.1 ▸ hs)
  intro _ s₁ hend
  obtain ⟨rfl, hnames⟩ := hend
  rw [ends_bind]
  refine (ends_shapeCacheOf hs c).mono ?_ fun _ _ hfail => hfail
  intro k s₂ hend
  obtain ⟨hs₂, howns, hcontext⟩ := hend
  refine ends_shapeCache (fun _ => Or.inl hs₂) fun t ht => ?_
  -- a shape that is listed for the names is given out, otherwise it is made and listed
  cases hfound : t.find? names with
  | some r => exact ⟨hs₂, hnames, hcontext, fun _ _ => ⟨k, howns, t, ht, hfound⟩⟩
  | none =>
      dsimp only
      rw [ends_bind, ends_modify, ends_bind]
      refine Ends.mono (ends_newShape (s := { s₂ with shapeMisses := s₂.shapeMisses + 1 }) hs₂ c
        names) ?_ fun _ _ hfail => hfail
      rintro r s₃ ⟨g, kept, x, y, hthins, hx, hy, hg⟩
      have hg₀ := hs₂.thins hthins
      have hs₃ := hg₀.gains hg (by simp) (by simp)
      refine ends_shapeCache (fun _ => Or.inl hs₃) fun t' ht' => ?_
      -- the new shape may have cost a collection; a cache that outlasts it lists what it listed
      obtain rfl : t = t' := by simpa [ht] using (hthins.find_before hg (by simp) ht').2
      rw [ends_bind]
      refine (ends_growObject hs₃.toWellFormed ht' _).mono ?_ fun _ _ hfail =>
        Or.inr ⟨hfail, trivial⟩
      intro _ s₄ hend
      obtain ⟨h', hr, rfl⟩ := hend
      -- listing is the one change that the layouts notice: the shape must be laid out for the
      -- context that owns the cache, and listed nowhere else
      have hs₄ : h'.Ordered := ⟨hr.wellFormed, hs₃.toLaidOut.develops
        (hr.develops_cache hs₃.toWellFormed ht' hfound hg.find hg.spaceOf
          (hg₀.toLaidOut.unlisted hg₀.toWellFormed hg)
          fun _ hk => hs₂.laysOut_owner hthins hx hy hg howns hk)⟩
      refine ⟨hs₄, hnames, hcontext, fun x' hx' =>
        ⟨k, ?_, _, hr.find, by simp [ShapeCache.find?_insert hfound]⟩⟩
      -- neither the new shape nor the cache is the context, so it owns what it owned
      have hne : c ≠ k := by
        rintro rfl
        simp [hr.find] at hx'
      have hleft := (hr.find_of_ne hs₃.toWellFormed hne).symm.trans hx'
      obtain ⟨x₀, hx₀, hcached⟩ := howns
      obtain rfl : x₀ = x' := by
        simpa [hx₀] using (hthins.find_before hg (by simp) hleft).2
      exact ⟨x₀, hx', hcached⟩

/-! ## Runs -/

theorem lasting_ordered : Lasting (fun h _ => h.Ordered) fun _ _ => True where
  collect := aboutLayouts_ordered.collect
  fulfil _ _ _ _ := aboutLayouts_ordered.fulfil
  modifyObject id _ hf _ := aboutLayouts_ordered.modifyObject id hf
  growObject id _ hf := aboutLayouts_ordered.growObject id hf
  flatten := aboutLayouts_ordered.flatten
  newNativeContext := preservesOrder_newNativeContext
  innerContext _ kind closure previous extension _ _ _ space hs hnative :=
    preservesOrder_innerContext hs hnative kind closure previous extension space
  shapeFor c names _ hs :=
    (ends_shapeFor hs c names).mono (fun _ _ hend => hend.1) fun _ _ hfail => hfail

theorem Heap.find_empty (youngBytes oldBytes : Nat) (id : Handle) (o : Object) :
    (Heap.empty youngBytes oldBytes).find id ≠ .ok o := fun hfind => by
  simpa [Heap.empty, Heap.isLive] using isLive_of_find hfind

theorem Heap.ordered_empty (youngBytes oldBytes : Nat) :
    (Heap.empty youngBytes oldBytes).Ordered :=
  ⟨wellFormed_empty _ _, laidOut_of_nothing (find_empty _ _)⟩

/-- The invariant of contexts, shapes and caches in well-rooted runs. -/
theorem WellRooted.ordered (hs : WellRooted s) : s.heap.Ordered :=
  Durable.wellRooted (P := Heap.Ordered) lasting_ordered.durable Heap.ordered_empty hs

end ManagedHeap
