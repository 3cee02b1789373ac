import ManagedHeap.Proofs.Store.Values
import ManagedHeap.Store.PlainObjects
import Mathlib.Data.List.Induction

/-!
# Shapes and literals

A context gets its shape cache when the first shape is asked for, and the cache gets more
entries with every new shape.  These are changes of objects that are held, so a store only
`Grows` where others would add to it; but no entry is ever replaced, and a context that has
a cache keeps it.
-/

namespace ManagedHeap

namespace ShapeCache

variable {c : ShapeCache} {names : Array Handle} {shape : Handle}

/-- A cache without a shape for some names gets a new entry at its end. -/
theorem entries_insert (hnone : c.find? names = none) :
    (c.insert names shape).entries = c.entries.push (names, shape) := by
  have hindex : c.entries.findIdx? (fun e => e.1 == names) = none := by
    rw [Array.findIdx?_eq_none_iff]
    intro e he
    have hfind := Option.map_eq_none_iff.mp hnone
    rw [Array.find?_eq_none] at hfind
    simpa using hfind e he
  unfold insert
  rw [hindex]

theorem grows_insert (hnone : c.find? names = none) : c.Grows (c.insert names shape) := by
  unfold ShapeCache.Grows
  rw [entries_insert hnone]
  simp

theorem mem_children_insert {id : Handle} (hnone : c.find? names = none)
    (hid : id ∈ (Object.shapeCache (c.insert names shape)).children) :
    id ∈ (Object.shapeCache c).children ∨ id ∈ names ∨ id = shape := by
  simp only [Object.children] at hid ⊢
  rw [entries_insert hnone] at hid
  simpa using hid

theorem mem_children_of_find? (hfound : c.find? names = some shape) :
    shape ∈ (Object.shapeCache c).children := by
  obtain ⟨e, he, rfl⟩ := Option.map_eq_some_iff.mp hfound
  refine List.mem_flatMap.mpr ⟨e, ?_, by simp⟩
  simpa using Array.mem_of_find?_eq_some he

end ShapeCache

namespace Shape

variable {names : Array Handle} {name : Handle}

theorem distinct_push (names : Array Handle) (name : Handle) :
    distinct (names.push name) =
      if name ∈ distinct names then distinct names else (distinct names).push name := by
  simp [distinct]

/-- Names come one after the other, each of them after all that were there. -/
@[elab_as_elim]
theorem pushInduction {motive : Array Handle → Prop} (names : Array Handle) (empty : motive #[])
    (push : ∀ names name, motive names → motive (names.push name)) : motive names := by
  obtain ⟨list⟩ := names
  induction list using List.reverseRecOn with
  | nil => exact empty
  | append_singleton list name ih =>
      simpa using push _ name ih

theorem mem_distinct : name ∈ distinct names ↔ name ∈ names := by
  induction names using pushInduction with
  | empty => simp [distinct]
  | push names last ih =>
      rw [distinct_push, Array.mem_push, ← ih]
      split
      case isTrue hseen => exact (or_iff_left_of_imp fun heq => heq ▸ hseen).symm
      case isFalse => exact Array.mem_push

end Shape

open Store

variable {s s' : Store} {id : Handle} {names : Array Handle} {values : Array Value}

/-- A change of one held object by which it grows. -/
theorem Store.Sound.grows_rewrite {o o' : Object} {h' : Heap} (hs : s.Sound) (hid : s.Holds id)
    (hfind : s.heap.find id = .ok o) (hr : s.heap.Rewrites id o' h') (hgrows : o.Grows o')
    (ho : ∀ t, o ≠ .string t) (ho' : ∀ t, o' ≠ .string t)
    (hchildren : ∀ c ∈ o'.children, s.Holds c) : s.Grows { s with heap := h' } where
  toExtends := (hs.rewrite hid hfind hr ho ho' hchildren).2.2.1.toExtends
  sound := (hs.rewrite hid hfind hr ho ho' hchildren).1
  grown _ hj := hr.exists_find (C := fun _ x x' => x.Grows x') hs.wellFormed hfind hgrows
    (fun _ x => .refl x) hj.live

/-! ## Shapes -/

theorem runs_nativeContextOf (hs : s.Sound) (hid : s.Holds id) :
    RunsFrom Adds Rests s (StoreM.nativeContextOf id) s
      (fun native s' => s' = s ∧ s.Holds native) := by
  refine runs_context hs hid (.refl hs) fun c hc => ⟨.refl hs, rfl, ?_⟩
  cases hnative : c.native with
  | none => exact hid
  | some native =>
      exact hs.holds_child hid hc (by simp [Object.children, hnative])

/-- The handle is refused as a name: it is not that of a string, or of one that is not
interned. -/
inductive Store.RefusesName (s : Store) (name : Handle) : Fault → Prop
  | unread {e : Fault} (htext : s.heap.text name = .error e) : RefusesName s name e
  | notInterned {t : Text} (htext : s.heap.text name = .ok t) (hflag : t.isInterned = false) :
      RefusesName s name (.notInterned name)

/-- Names are checked before anything else happens, one after the other. -/
theorem ends_checkNames_texts (s : Store) (names : Array Handle) :
    Ends (StoreM.checkNames names) s
      (fun _ s' => s' = s ∧
        ∀ name ∈ names, ∃ t, s.heap.text name = .ok t ∧ t.isInterned = true)
      (fun e s' => s' = s ∧ ∃ name ∈ names, s.RefusesName name e) := by
  obtain ⟨list, rfl⟩ : ∃ list, names = List.toArray list := ⟨names.toList, by simp⟩
  unfold StoreM.checkNames
  rw [Array.forM_eq_forM, List.forM_toArray, List.forM_eq_forM]
  simp only [List.mem_toArray]
  induction list with
  | nil => exact ⟨rfl, by simp⟩
  | cons name list ih =>
      simp only [List.forall_mem_cons, List.exists_mem_cons_iff]
      rw [List.forM_cons]
      unfold StoreM.text
      rw [ends_bind, ends_bind, ends_inspect]
      refine ⟨fun t ht => ?_, fun e he => ⟨rfl, Or.inl (.unread he)⟩⟩
      cases hflag : t.isInterned with
      | true =>
          exact ih.mono (fun _ _ hend => ⟨hend.1, ⟨t, ht, hflag⟩, hend.2⟩)
            fun _ _ hfail => ⟨hfail.1, Or.inr hfail.2⟩
      | false => exact ⟨rfl, Or.inl (.notInterned ht hflag)⟩

theorem runs_checkNames (hs : s.Sound) (hnames : ∀ name ∈ names, s.Holds name) :
    RunsFrom Adds Rests s (StoreM.checkNames names) s (fun _ s' => s' = s) := by
  refine (ends_checkNames_texts s names).mono (fun _ s' hend => ?_) fun e s' hfail => ?_
  · obtain ⟨rfl, -⟩ := hend
    exact ⟨.refl hs, rfl⟩
  · obtain ⟨rfl, name, hname, hrefused⟩ := hfail
    refine ⟨?_, Or.inr (.refl hs)⟩
    cases hrefused with
    | unread htext => simp [Heap.text_error (hs.find (hnames name hname)) htext]
    | notInterned => simp

/-- The shape cache of a context, which is there or is made. -/
theorem runs_shapeCacheOf (hs : s.Sound) (hid : s.Holds id) :
    Runs Grows (StoreM.shapeCacheOf id) s (fun cache s' => s'.Holds cache) := by
  have hrefl : s.Grows s := (Adds.refl hs).grows hs
  unfold StoreM.shapeCacheOf
  apply runs_context hs hid hrefl
  intro c hc
  cases hcache : c.shapeCache with
  | some cache =>
      exact ⟨hrefl, hs.holds_child hid hc (by simp [Object.children, hcache])⟩
  | none =>
      apply RunsFrom.call
        (runs_place hs .old (by simp [Object.children, ShapeCache.sized]) (by simp))
        (fun _ hr => hr.adds.grows hs)
      intro cache s₁ ha hp
      have hid₁ := ha.holds hs hid
      apply runs_context ha.sound hid₁ (ha.grows hs)
      intro c' hc'
      -- the context was held while the cache was placed, so that it is what it was
      obtain rfl : c = c' := by simpa [hc] using (ha.find id hid).symm.trans hc'
      unfold RunsFrom
      rw [ends_bind]
      refine (ends_modifyObject ha.sound.wellFormed hc' _).mono ?_ fun _ _ hfail => hfail.elim
      intro _ s₂ hend
      obtain ⟨h', hr, rfl⟩ := hend
      have hgrows := ha.sound.grows_rewrite hid₁ hc' hr (.context hcache) (by simp) (by simp)
        fun j hj => ?_
      · exact ⟨(ha.grows hs).trans hgrows, hgrows.holds hp.holds⟩
      · -- the context refers to what it referred to, and to the cache
        have hj' : j ∈ (Object.context c).children ∨ j = cache := by
          have hcomm : cache = j ↔ j = cache := eq_comm
          simp only [Object.children, List.mem_append, Option.mem_toList,
            Option.some.injEq, hcomm] at hj ⊢
          tauto
        rcases hj' with hj | rfl
        · exact ha.sound.holds_child hid₁ hc' hj
        · exact hp.holds

theorem runs_newShape (hs : s.Sound) (hid : s.Holds id) (hnames : ∀ name ∈ names, s.Holds name) :
    RunsFrom Adds Rests s (StoreM.newShape id names) s (fun shape s' => s'.Holds shape) := by
  unfold StoreM.newShape
  apply (runs_nativeContextOf hs hid).bind
  intro native s₁ _ hend
  obtain ⟨rfl, hnative⟩ := hend
  apply runs_context hs hnative (.refl hs)
  intro c hc
  refine (runs_place hs .old (fun j hj => ?_) (by simp)).weaken fun _ _ _ hp => hp.holds
  have hj' : j ∈ c.objectTemplate.toList ∨ j ∈ Shape.distinct names := by
    simpa [Object.children, Shape.ofNames] using hj
  rcases hj' with hj | hj
  · exact hs.holds_child hnative hc (by simp [Object.children, Option.mem_toList.mp hj])
  · exact hnames j (Shape.mem_distinct.mp hj)

/-- A held shape is listed in a cache, under held names that are not listed there yet. -/
theorem runs_listShape {cache shape : Handle} {c : ShapeCache} (hs : s'.Sound)
    (hgrows : s.Grows s') (hcache : s'.Holds cache)
    (hc : s'.heap.find cache = .ok (.shapeCache c)) (hfound : c.find? names = none)
    (hnames : ∀ name ∈ names, s'.Holds name) (hshape : s'.Holds shape) :
    RunsFrom Grows Grows s (do
      StoreM.growObject cache fun
        | .shapeCache c => .shapeCache (c.insert names shape)
        | object => object
      return shape) s' (fun found s'' => s''.Holds found) := by
  unfold RunsFrom
  rw [ends_bind]
  refine (ends_growObject hs.wellFormed hc _).mono ?_ fun e _ he => ⟨by simp [he], Or.inl he⟩
  intro _ s'' hend
  obtain ⟨h', hr, rfl⟩ := hend
  have hlast := hs.grows_rewrite hcache hc hr (.shapeCache (ShapeCache.grows_insert hfound))
    (by simp) (by simp) fun j hj => ?_
  · exact ⟨hgrows.trans hlast, hlast.holds hshape⟩
  · rcases ShapeCache.mem_children_insert hfound hj with hj | hj | rfl
    · exact hs.holds_child hcache hc hj
    · exact hnames j hj
    · exact hshape

theorem runs_shapeFor (hs : s.Sound) (hid : s.Holds id) (hnames : ∀ name ∈ names, s.Holds name) :
    Runs Grows (StoreM.shapeFor id names) s (fun shape s' => s'.Holds shape) := by
  unfold StoreM.shapeFor
  apply RunsFrom.call (runs_checkNames hs hnames) (fun _ hr => hr.adds.grows hs)
  rintro - s₁ - hsame
  obtain rfl : s = s₁ := hsame.symm
  apply (runs_shapeCacheOf hs hid).bind
  intro cache s₂ hgrows hcache
  apply runs_shapeCache hgrows.sound hcache hgrows
  intro c hc
  -- a shape that is listed is reached through the cache; a new one has to be held until it is
  -- listed
  cases hfound : c.find? names with
  | some shape =>
      have hshape := hgrows.sound.holds_child hcache hc (ShapeCache.mem_children_of_find? hfound)
      have hhit : s₂.Adds { s₂ with shapeHits := s₂.shapeHits + 1 } :=
        adds_settings hgrows.sound _ _ _ _ _
      have hshape' := hhit.holds hgrows.sound hshape
      refine runs_modify.mpr ((runs_track hhit.sound hshape').then ?_ ?_)
      · intro s' hr
        exact hgrows.trans ((hhit.trans hgrows.sound hr.adds).grows hgrows.sound)
      · intro _ s' ha hend
        obtain ⟨rfl, -⟩ := hend
        exact ⟨hgrows.trans ((hhit.trans hgrows.sound ha).grows hgrows.sound),
          ha.holds hhit.sound hshape'⟩
  | none =>
      have hmiss : s₂.Adds { s₂ with shapeMisses := s₂.shapeMisses + 1 } :=
        adds_settings hgrows.sound _ _ _ _ _
      refine runs_modify.mpr (RunsFrom.call (runs_newShape hmiss.sound
        (hmiss.holds hgrows.sound (hgrows.holds hid))
        fun name hname => hmiss.holds hgrows.sound (hgrows.holds (hnames name hname)))
        (fun s' hr => hgrows.trans ((hmiss.trans hgrows.sound hr.adds).grows hgrows.sound))
        fun shape s₃ hadds hshape => ?_)
      have hadds₃ : s₂.Adds s₃ := hmiss.trans hgrows.sound hadds
      have hgrows₃ : s.Grows s₃ := hgrows.trans (hadds₃.grows hgrows.sound)
      have hcache₃ := hadds₃.holds hgrows.sound hcache
      apply runs_shapeCache hadds.sound hcache₃ hgrows₃
      intro c' hc'
      obtain rfl : c = c' := by
        simpa [hc] using (hadds₃.find cache hcache).symm.trans hc'
      exact runs_listShape hadds.sound hgrows₃ hcache₃ hc' hfound
        (fun name hname => hadds₃.holds hgrows.sound (hgrows.holds (hnames name hname))) hshape

/-! ## Objects -/

theorem runs_newPlain (hs : s.Sound) (hid : s.Holds id) (hvalues : ∀ v ∈ values, s.HoldsValue v) :
    RunsFrom Adds Rests s (StoreM.newPlain id values) s (fun plain s' => s'.Holds plain) := by
  unfold StoreM.newPlain
  apply runs_shape hs hid (.refl hs)
  intro layout _
  split
  case isTrue => exact ⟨by simp, Or.inr (.refl hs)⟩
  case isFalse =>
      refine (runs_place hs .young (fun j hj => ?_) (by simp)).weaken fun _ _ _ hp => hp.holds
      rcases List.mem_append.mp hj with hj | hj
      · obtain rfl : j = id := by simpa using hj
        exact hid
      · exact holds_of_mem_handlesOf hvalues hj

/-- A slot of a literal has one of its values, or none. -/
theorem mem_literalSlots {layout : Shape} {value : Value}
    (hvalue : value ∈ StoreM.literalSlots layout names values) :
    value = .undefined ∨ value ∈ values := by
  refine Array.foldl_induction
    (motive := fun _ slots => ∀ v ∈ slots, v = .undefined ∨ v ∈ values) ?_
    ?_ value hvalue
  · intro v hv
    exact Or.inl (Array.mem_replicate.mp hv).2
  · intro i slots ih v hv
    rw [Fin.getElem_fin, Array.getElem_zip] at hv
    simp only at hv
    split at hv
    · rcases Array.mem_or_eq_of_mem_setIfInBounds hv with hv | rfl
      · exact ih v hv
      · exact Or.inr (Array.getElem_mem _)
    · exact ih v hv

theorem runs_newLiteral (hs : s.Sound) (hid : s.Holds id) (hnames : ∀ name ∈ names, s.Holds name)
    (hvalues : ∀ v ∈ values, s.HoldsValue v) :
    Runs Grows (StoreM.newLiteral id names values) s (fun plain s' => s'.Holds plain) := by
  have hrefl : s.Grows s := (Adds.refl hs).grows hs
  unfold StoreM.newLiteral
  split
  case isTrue => exact ⟨by simp, Or.inr hrefl⟩
  case isFalse =>
      apply (runs_shapeFor hs hid hnames).bind
      intro found s₁ hgrows hfound
      apply runs_shape hgrows.sound hfound hgrows
      intro layout _
      refine (runs_newPlain hgrows.sound hfound fun v hv j hj => ?_).then
        (fun _ hr => hgrows.trans (hr.adds.grows hgrows.sound)) fun plain s' ha hplain =>
          ⟨hgrows.trans (ha.grows hgrows.sound), hplain⟩
      rcases mem_literalSlots hv with rfl | hv
      · cases hj
      · exact hgrows.holds (hvalues v hv j hj)

theorem runs_property? {name : Handle} (hs : s.Sound) (hid : s.Holds id) :
    Runs Adds (StoreM.property? id name) s
      (fun found s' => ∀ v, found = some v → s'.HoldsValue v) := by
  have hrefl : s.Adds s := .refl hs
  unfold StoreM.property?
  apply runs_find hs hid hrefl
  intro o ho
  split
  case h_1 plain =>
      apply runs_shape hs (hs.holds_child hid ho (by simp [Object.children])) hrefl
      intro layout _
      split
      case h_1 slot _ =>
          refine ⟨hrefl, fun v hv c hc => ?_⟩
          have hslot : v ∈ plain.slots := Array.mem_of_getElem? hv
          exact hs.holds_child hid ho (List.mem_append_right _
            (List.mem_filterMap.mpr ⟨v, Array.mem_toList_iff.mpr hslot, hc⟩))
      case h_2 => exact ⟨hrefl, fun v hv => by simp at hv⟩
  case h_2 => exact ⟨hrefl, fun v hv => by simp at hv⟩

end ManagedHeap
