import ManagedHeap.Proofs.Lasting
import ManagedHeap.Proofs.Store.Layouts

/-!
# Invariants about layouts

What is said about contexts, shapes and caches of shapes is not concerned with other objects.
Such an invariant of heaps lasts whatever most operations do, provided only that it lasts when
objects vanish (`AboutLayouts`).  So what is left to be shown of it is that it lasts when
contexts, shapes and caches are made, each in its own way.

What a collection leaves and where an object is placed is told here once (`ends_fulfil_thins`),
and so are the operations that make two objects at once or move one.
-/

namespace ManagedHeap

open Heap

variable {s s' : Store} {id : Handle}

/-! ## Collections and placements -/

theorem Store.Prepares.thins {space : Space} {held : List Handle}
    (hp : s.Prepares space held s') (hw : s.heap.WellFormed) :
    s.heap.Thins (s.roots held) s'.heap := by
  cases hp with
  | once => exact Heap.thins_refl hw _
  | twice _ hc => exact hc.thins hw

theorem ends_collect_thins (hw : s.heap.WellFormed) (space : Space) (held : List Handle) :
    Ends (StoreM.collect space held) s (fun _ s' => s.heap.Thins (s.roots held) s'.heap)
      (fun e _ => e = .wordOverflow) := by
  refine (ends_collect hw space held).mono (fun done s' hend => ?_) fun _ _ hfail => hfail.1
  obtain ⟨h', hc, -, rfl⟩ := hend
  exact hc.thins hw

/-- An object is placed in what was left, and what it refers to is left. -/
theorem ends_fulfil_thins (hw : s.heap.WellFormed) (request : HeapM.Request)
    (held : List Handle) (build : Unit → Object) :
    Ends (StoreM.fulfil request held build) s
      (fun id s' => ∃ g, s.heap.Thins (s.roots held) g ∧
        g.Gains id (build ()) request.space s'.heap)
      (fun e s' => s.heap.Thins [] s'.heap ∨ e = .wordOverflow) := by
  refine (ends_fulfil_prepares hw request held).mono ?_ fun e s' hfail => hfail.imp_left ?_
  · rintro id s' ⟨before, h', outages, hprepares, -, hgains, rfl⟩
    exact ⟨before.heap, hprepares.thins hw, hgains⟩
  · rintro ⟨before, outages, hprepares, -, rfl⟩
    exact { hprepares.thins hw with kept := by simp }

/-! ## Operations that place and change objects -/

/-- The string that is flattened is a root meanwhile, so that it is still there when the flat
one is handed over. -/
theorem ends_flatten_hands (hw : s.heap.WellFormed) (id : Handle) :
    Ends (StoreM.flatten id) s
      (fun _ s' => s' = s ∨ ∃ kept g flat units h node, s.heap.Thins kept g ∧
        g.Gains flat (.string (.flat units false)) .young h ∧
        h.find id = .ok (.string (.composite node)) ∧ h.Hands flat id s'.heap)
      (fun e s' => s.heap.Thins [] s'.heap ∨ e = .wordOverflow) := by
  have hrefl : s.heap.Thins [] s.heap := Heap.thins_refl hw []
  unfold StoreM.flatten StoreM.text
  rw [ends_bind, ends_inspect]
  refine ⟨fun t htext => ?_, fun _ _ => Or.inl hrefl⟩
  split
  case h_2 => exact Or.inl rfl
  case h_1 node =>
      have hfind : s.heap.find id = .ok (.string (.composite node)) := text_eq_ok.mp htext
      rw [ends_bind, ends_inspect]
      refine ⟨fun units _ => ?_, fun _ _ => Or.inl hrefl⟩
      unfold StoreM.openScope StoreM.track
      simp only [ends_bind, ends_get, ends_pure, ends_modify]
      set s₁ : Store := { s with scope := s.scope.push id } with hs₁
      -- the composite is held while its flat copy is placed, so that it can be replaced by it
      have hroot : id ∈ s₁.roots (Object.string (.flat units false)).children := by
        simp [Store.roots, hs₁]
      refine (ends_fulfil_thins (s := s₁) hw _ _ _).mono ?_ fun _ _ hfail => hfail
      intro flat s₂ hend
      obtain ⟨g, ht, hg⟩ := hend
      have hleft : g.find id = .ok (.string (.composite node)) :=
        (ht.kept id hroot (isLive_of_find hfind)).trans hfind
      have hthere := hg.find_live ht.wellFormed hleft
      rw [ends_onHeap]
      refine (hg.wellFormed.ends_transplant (isLive_of_find hg.find) (isLive_of_find hthere)
        (hg.ne_of_live (isLive_of_find hleft)).symm).mono ?_ fun _ _ hfail => hfail.elim
      exact fun _ h' hh => Or.inr ⟨_, g, flat, units, s₂.heap, node, ht, hg, hthere, hh⟩

/-- A native context is placed together with its object template, and the two are left
together.  It refers to itself from the beginning, as it were. -/
theorem ends_newNativeContext_gains (hw : s.heap.WellFormed) :
    Ends StoreM.newNativeContext s
      (fun id s' => ∃ kept g template h kept' g' x, s.heap.Thins kept g ∧
        g.Gains template (.shape (.ofNames none #[] 0)) .old h ∧ h.Thins kept' g' ∧
        g'.find template = .ok (.shape (.ofNames none #[] 0)) ∧
        g'.Gains id (.context x) .old s'.heap ∧ x.kind = .native ∧ x.previous = none ∧
        x.native = some id ∧ x.shapeCache = none ∧ x.objectTemplate = some template)
      (fun e s' => s.heap.Thins [] s'.heap ∨ (∃ kept g template h, s.heap.Thins kept g ∧
        g.Gains template (.shape (.ofNames none #[] 0)) .old h ∧ h.Thins [] s'.heap) ∨
        e = .wordOverflow) := by
  unfold StoreM.newNativeContext
  rw [ends_bind]
  refine (ends_fulfil_thins hw _ _ _).mono ?_ fun _ _ hfail => hfail.imp_right Or.inr
  rintro template s₁ ⟨g, ht, hg⟩
  rw [ends_bind]
  refine (ends_fulfil_thins hg.wellFormed _ _ _).mono ?_ ?_
  · rintro id s₂ ⟨g', ht', hg'⟩
    -- the template is a child of the context that is placed next, and so it is kept
    have hroot : template ∈ s₁.roots (Object.children (.context
        { kind := .native, closure := .undefined, previous := none, extension := .undefined,
          native := none,
          slots := Array.replicate (nativeContextSlots - contextHeaderSlots) .undefined,
          shapeCache := none, objectTemplate := some template })) := by
      simp [Store.roots, Object.children]
    have hleft := (ht'.kept template hroot (isLive_of_find hg.find)).trans hg.find
    unfold StoreM.context
    rw [ends_bind, ends_bind, ends_inspect]
    refine ⟨fun o ho => ?_, fun e he => ?_⟩
    · obtain rfl := Except.ok.inj (hg'.find.symm.trans ho)
      rw [ends_pure, ends_bind]
      refine (ends_modifyObject hg'.wellFormed hg'.find _).mono ?_ fun _ _ hfail => hfail.elim
      rintro _ s₃ ⟨h', hr, rfl⟩
      exact ⟨_, g, template, s₁.heap, _, g', _, ht, hg, ht', hleft, hg'.rewrites hr,
        rfl, rfl, rfl, rfl, rfl⟩
    · simp [hg'.find] at he
  · exact fun e s' hfail => Or.inr (hfail.imp_left fun ht' => ⟨_, g, template, _, ht, hg, ht'⟩)

/-! ## Invariants -/

namespace Heap

variable {h h' : Heap} {o : Object} {space : Space}

/-- An object that is no layout is no business of layouts. -/
theorem Gains.keepsLayouts (hg : h.Gains id o space h') (hw : h.WellFormed)
    (ho : o.isLayout = false) : h.KeepsLayouts h' := by
  refine ⟨fun j x hx => ?_, fun j x _ hj => hg.spaceOf_live hw (isLive_of_find hj)⟩
  by_cases hj : j = id
  · subst hj
    rw [hg.find, find_of_dead hg.dead]
    refine iff_of_false ?_ (by simp)
    rintro ⟨⟩
    simp [hx] at ho
  · rw [hg.find_of_ne hw hj]

/-- The invariant is about layouts, and lasts when objects vanish. -/
structure AboutLayouts (P : Heap → Prop) : Prop where
  wellFormed : ∀ h, P h → h.WellFormed
  thins : ∀ h kept h', P h → h.Thins kept h' → P h'
  keepsLayouts : ∀ h h', P h → h.KeepsLayouts h' → h'.WellFormed → P h'

end Heap

namespace Heap.AboutLayouts

variable {P : Heap → Prop} (hp : AboutLayouts P)

include hp

theorem collect (space : Space) (held : List Handle) :
    Upholds (fun s => P s.heap) (fun _ => True) (StoreM.collect space held) := fun _ hs =>
  (ends_collect_thins (hp.wellFormed _ hs) space held).mono (fun _ _ ht => hp.thins _ _ _ hs ht)
    fun _ _ hfail => Or.inr ⟨hfail, trivial⟩

/-- Placing an object that fits what is left. -/
theorem fulfil_from {request : HeapM.Request} {held : List Handle} {build : Unit → Object}
    (hs : P s.heap) (hnew : ∀ g id h', s.heap.Thins (s.roots held) g → P g →
      g.Gains id (build ()) request.space h' → P h') :
    UpholdsFrom (fun s => P s.heap) (fun _ => True) s (StoreM.fulfil request held build) := by
  refine (ends_fulfil_thins (hp.wellFormed _ hs) request held build).mono ?_ ?_
  · rintro id s' ⟨g, ht, hg⟩
    exact hnew g id _ ht (hp.thins _ _ _ hs ht) hg
  · intro e s' hfail
    exact hfail.imp (hp.thins _ _ _ hs) fun he => ⟨he, trivial⟩

theorem fulfil {request : HeapM.Request} {held : List Handle} {build : Unit → Object}
    (ho : (build ()).isLayout = false) :
    Upholds (fun s => P s.heap) (fun _ => True) (StoreM.fulfil request held build) := fun _ hs =>
  hp.fulfil_from hs fun g _ h' ht hg hgains =>
    hp.keepsLayouts g h' hg (hgains.keepsLayouts ht.wellFormed ho) hgains.wellFormed

/-- Changing an object in place, if the change does not break the invariant. -/
theorem modifyObject_from {f : Object → Object}
    (hf : ∀ h o h', P h → h.find id = .ok o → h.Rewrites id (f o) h' → P h') :
    Upholds (fun s => P s.heap) (fun _ => True) (StoreM.onHeap (HeapM.modifyObject id f)) := by
  intro s hs
  refine (ends_modifyObject_any (hp.wellFormed _ hs) id f).mono ?_
    fun _ _ hsame => Or.inl (hsame ▸ hs)
  rintro _ s' ⟨o, h', ho, hr, rfl⟩
  exact hf _ o h' hs ho hr

theorem growObject_from {f : Object → Object}
    (hf : ∀ h o h', P h → h.find id = .ok o → h.Rewrites id (f o) h' → P h') :
    Upholds (fun s => P s.heap) (fun _ => True) (StoreM.growObject id f) := by
  intro s hs
  refine (ends_growObject_any (hp.wellFormed _ hs) id f).mono ?_ ?_
  · rintro _ s' ⟨o, h', ho, hr, rfl⟩
    exact hf _ o h' hs ho hr
  · rintro e s' (rfl | he)
    · exact Or.inl hs
    · exact Or.inr ⟨he, trivial⟩

theorem of_spares {f : Object → Object} (hf : Object.SparesLayouts f) (h : Heap) (o : Object)
    (h' : Heap) (hh : P h) (ho : h.find id = .ok o) (hr : h.Rewrites id (f o) h') : P h' :=
  hp.keepsLayouts h h' hh (hr.keepsLayouts (hp.wellFormed h hh) ho (hf o)) hr.wellFormed

theorem modifyObject (id : Handle) {f : Object → Object} (hf : Object.SparesLayouts f) :
    Upholds (fun s => P s.heap) (fun _ => True) (StoreM.onHeap (HeapM.modifyObject id f)) :=
  hp.modifyObject_from (hp.of_spares hf)

theorem growObject (id : Handle) {f : Object → Object} (hf : Object.SparesLayouts f) :
    Upholds (fun s => P s.heap) (fun _ => True) (StoreM.growObject id f) :=
  hp.growObject_from (hp.of_spares hf)

theorem flatten (id : Handle) :
    Upholds (fun s => P s.heap) (fun _ => True) (StoreM.flatten id) := by
  intro s hs
  refine (ends_flatten_hands (hp.wellFormed _ hs) id).mono ?_ fun e s' hfail =>
    hfail.imp (hp.thins _ _ _ hs) fun he => ⟨he, trivial⟩
  rintro _ s' (rfl | ⟨kept, g, flat, units, h, node, ht, hg, hfind, hh⟩)
  · exact hs
  · have hflat : P h := hp.keepsLayouts g h (hp.thins _ _ _ hs ht)
      (hg.keepsLayouts ht.wellFormed rfl) hg.wellFormed
    exact hp.keepsLayouts h _ hflat (hh.keepsLayouts hg.wellFormed hg.find rfl hfind rfl)
      hh.wellFormed

end Heap.AboutLayouts

end ManagedHeap
