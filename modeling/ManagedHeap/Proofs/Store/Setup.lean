import ManagedHeap.Proofs.Store.Refusals
import ManagedHeap.Proofs.Store.Rooting
import ManagedHeap.Proofs.Store.Values
import ManagedHeap.Store.Setup
import Mathlib.Tactic.Set

/-!
# New stores are ready

While a store makes its canonical objects, those that are made already are kept alive by
the scope.  When the scope is closed they are canonical, and so the store is ready.  The
empty string and the empty array are the ones that are made first; what is made after them
leaves them as they are.  A store cannot be made only where one of these objects is refused
its place.
-/

namespace ManagedHeap

open Store

variable {s s' : Store} {config : Config} {ids : List Handle}

/-- A store that makes its canonical objects: the scope keeps some objects alive. -/
structure Store.Owning (config : Config) (ids : List Handle) (s : Store) : Prop where
  sound : s.Sound
  config : s.config = config
  kept : ∀ id ∈ ids, id ∈ s.scope.toList
  singles : s.singles.size = 256

/-- An object that the scope keeps alive becomes a canonical one. -/
theorem Store.Owning.own (ho : s.Owning config ids) (record : Canonical → Canonical)
    (hrecord : ∀ id ∈ (record s.canonical).toList, id ∈ s.canonical.toList ∨ id ∈ ids) :
    ({ s with canonical := record s.canonical } : Store).Owning config ids where
  sound := by
    set s' : Store := { s with canonical := record s.canonical }
    have hroots : ∀ id ∈ s'.roots [], s.heap.isLive id = true → s.Holds id := by
      intro id hid hlive
      rcases mem_roots.mp hid with hid | hid | hid
      · simp at hid
      · exact holds_of_root (mem_roots.mpr (Or.inr (Or.inl hid))) hlive
      · rcases hrecord id hid with hid | hid
        · exact holds_of_root (mem_roots.mpr (Or.inr (Or.inr hid))) hlive
        · exact holds_of_root (mem_roots.mpr (Or.inr (Or.inl (Store.mem_ownRoots.mpr
            (Or.inl (ho.kept id hid)))))) hlive
    have hreroot : s'.Sound ∧ ∀ id, s'.Holds id → s.Holds id :=
      ho.sound.reroot rfl rfl ho.sound.rooted hroots ho.sound.numberTexts ho.sound.table
        ho.sound.singles
    exact hreroot.1
  config := ho.config
  kept := ho.kept
  singles := ho.singles

/-- What the scope keeps alive is held. -/
theorem Store.Owning.holds {id : Handle} (ho : s.Owning config ids) (hid : id ∈ ids) :
    s.Holds id :=
  ho.sound.holds_of_ownRoot (Store.mem_ownRoots.mpr (Or.inl (ho.kept id hid)))

/-- The object of the handle is as before, and spells what it spelled. -/
structure Heap.Leaves (h : Heap) (id : Handle) (h' : Heap) : Prop where
  find : h'.find id = h.find id
  spells : ∀ w, h.Spells id w → h'.Spells id w

theorem Heap.Leaves.trans {h h' h'' : Heap} {id : Handle} (hfirst : h.Leaves id h')
    (hsecond : h'.Leaves id h'') : h.Leaves id h'' :=
  ⟨hsecond.find.trans hfirst.find, fun w hw => hsecond.spells w (hfirst.spells w hw)⟩

/-- One canonical object is made and recorded, with what is known of it.  The objects made
before it are left as they are. -/
theorem ends_makeOne {β : Type} {m : StoreM Handle} {record : Handle → Canonical → Canonical}
    {next : Handle → StoreM β} {ok : β → Store → Prop} {fail : Fault → Store → Prop}
    (made : Heap → Handle → Prop) (ho : s.Owning config ids)
    (hrecord : ∀ id c, ∀ j ∈ (record id c).toList, j ∈ c.toList ∨ j = id)
    (hm : Ends m s (fun id s' => s.Adds s' ∧ s.Pushed id s' ∧ made s'.heap id) fail)
    (hnext : ∀ id s', s'.Owning config (id :: ids) → s'.canonical = record id s.canonical →
      made s'.heap id → (∀ j ∈ ids, s.heap.Leaves j s'.heap) → Ends (next id) s' ok fail) :
    Ends (do
      let id ← m
      StoreM.own (record id)
      next id) s ok fail := by
  rw [ends_bind]
  refine hm.mono (fun id s₁ hend => ?_) fun _ _ hfail => hfail
  obtain ⟨ha, hp, hmade⟩ := hend
  -- the scope keeps what was made until the setup is done
  have ho₁ : s₁.Owning config (id :: ids) := by
    refine ⟨ha.sound, hp.config.trans ho.config, fun j hj => ?_,
      ha.singles.size.trans ho.singles⟩
    rw [hp.scope, Array.toList_push]
    rcases List.mem_cons.mp hj with rfl | hj
    · simp
    · exact List.mem_append_left _ (ho.kept j hj)
  rw [ends_bind]
  unfold StoreM.own
  rw [ends_modify]
  refine hnext id _ (ho₁.own (record id) fun j hj => ?_) (by simp only [hp.canonical])
    hmade fun j hj => ⟨ha.find j (ho.holds hj), fun w =>
      (ha.heap_settled ho.sound).spells j w (ho.holds hj)⟩
  rcases hrecord id _ j hj with hj | rfl
  · exact Or.inl hj
  · exact Or.inr List.mem_cons_self

/-- What is known of a store that has made its canonical objects, the first two of them in
particular. -/
structure Store.Furnished (s : Store) : Prop where
  emptyString : s.heap.Spells s.canonical.emptyString []
  emptyArray : s.heap.find s.canonical.emptyArray = .ok (.array #[])
  singles : s.singles.size = 256

/-- Everything that is canonical in the end was made on the way. -/
theorem ends_makeCanonical (ho : s.Owning config []) :
    Ends StoreM.makeCanonical s (fun _ s' => ∃ ids, s'.Owning config ids ∧
      (∀ id ∈ s'.canonical.toList, id ∈ ids) ∧ s'.Furnished)
      fun e s' => ∃ before bytes, Refuses before bytes e s' := by
  have hunits {s : Store} {ids : List Handle} (ho : s.Owning config ids) (units : Units) :
      Ends (StoreM.internUnits units) s (fun id s' => s.Adds s' ∧ s.Pushed id s' ∧
        s'.heap.Spells id units.toList)
        fun e s' => ∃ before bytes, Refuses before bytes e s' :=
    Ends.mono (adding_internUnits ho.sound units)
      (fun _ _ hend => ⟨hend.1, hend.2.2.toPushed, hend.2.2.interned.spells⟩)
      fun _ _ hfail => ⟨s, _, hfail⟩
  have hplace {s : Store} {ids : List Handle} {o : Object} (ho : s.Owning config ids)
      (hchildren : o.children = []) (hstring : ∀ t, o ≠ .string t) :
      Ends (StoreM.allocate o .old) s (fun id s' => s.Adds s' ∧ s.Pushed id s' ∧
        s'.heap.find id = .ok o) fun e s' => ∃ before bytes, Refuses before bytes e s' :=
    Ends.mono (adding_place ho.sound .old (by simp [hchildren]) hstring)
      (fun _ _ hend => ⟨hend.1, hend.2.2.toPushed, hend.2.2.find⟩)
      fun _ _ hfail => ⟨s, _, hfail⟩
  unfold StoreM.makeCanonical
  apply ends_makeOne (fun h id => h.Spells id []) ho (by simp [Canonical.toList]) (hunits ho _)
  intro a s₁ ho₁ hc₁ hmade₁ _
  apply ends_makeOne (fun h id => h.find id = .ok (.array #[])) ho₁ (by simp [Canonical.toList])
    (hplace ho₁ rfl (by simp))
  intro b s₂ ho₂ hc₂ hmade₂ hl₂
  apply ends_makeOne (fun h id => h.find id = _) ho₂ (by simp [Canonical.toList])
    (hplace ho₂ rfl (by simp))
  intro c s₃ ho₃ hc₃ _ hl₃
  apply ends_makeOne (fun h id => h.find id = _) ho₃ (by simp [Canonical.toList])
    (hplace ho₃ rfl (by simp))
  intro d s₄ ho₄ hc₄ _ hl₄
  apply ends_makeOne (fun h id => h.Spells id _) ho₄ (by simp [Canonical.toList]) (hunits ho₄ _)
  intro e s₅ ho₅ hc₅ _ hl₅
  apply ends_makeOne (fun h id => h.Spells id _) ho₅ (by simp [Canonical.toList]) (hunits ho₅ _)
  intro f s₆ ho₆ hc₆ _ hl₆
  apply ends_makeOne (fun h id => h.Spells id _) ho₆ (by simp [Canonical.toList]) (hunits ho₆ _)
  intro g s₇ ho₇ hc₇ _ hl₇
  -- the empty string and the empty array are left alone by all that is made after them
  have hleft (j : Handle) (hj : j = a ∨ j = b) : s₂.heap.Leaves j s₇.heap := by
    have hmem (later : List Handle) : j ∈ later ++ [b, a] := by
      rcases hj with rfl | rfl <;> simp
    exact (hl₃ j (hmem [])).trans ((hl₄ j (hmem [c])).trans ((hl₅ j (hmem [d, c])).trans
      ((hl₆ j (hmem [e, d, c])).trans (hl₇ j (hmem [f, e, d, c])))))
  have hlast : Ends (do
      let id ← StoreM.internText "constructor"
      StoreM.own ({ · with constructorString := id })
      return ()) s₇ (fun _ s' => ∃ ids, s'.Owning config ids ∧
        (∀ id ∈ s'.canonical.toList, id ∈ ids) ∧ s'.Furnished)
        fun e s' => ∃ before bytes, Refuses before bytes e s' := by
    apply ends_makeOne (fun h id => h.Spells id _) ho₇ (by simp [Canonical.toList]) (hunits ho₇ _)
    intro k s₈ ho₈ hc₈ _ hl₈
    refine ⟨_, ho₈, fun id hid => ?_, ?_, ?_, ho₈.singles⟩
    · simp only [hc₈, hc₇, hc₆, hc₅, hc₄, hc₃, hc₂, hc₁, Canonical.toList] at hid
      simp only [List.mem_cons, List.not_mem_nil, or_false] at hid ⊢
      tauto
    · simpa only [hc₈, hc₇, hc₆, hc₅, hc₄, hc₃, hc₂, hc₁] using
        ((hleft a (Or.inl rfl)).trans (hl₈ a (by simp))).spells _ ((hl₂ a (by simp)).spells _ hmade₁)
    · simpa only [hc₈, hc₇, hc₆, hc₅, hc₄, hc₃, hc₂, hc₁] using
        ((hleft b (Or.inr rfl)).trans (hl₈ b (by simp))).find.trans hmade₂
  simpa only [bind_pure_unit] using hlast

/-! ## Stores that were set up -/

/-- A store before its canonical objects are made, with some hash function. -/
def Store.blankWith (hash : List UInt16 → UInt64) (config : Config) (outages : Option Outages) :
    Store :=
  { Store.blank config outages with table := .empty hash }

theorem owning_blankWith (hash : List UInt16 → UInt64) (config : Config)
    (outages : Option Outages) : (Store.blankWith hash config outages).Owning config [] := by
  set s := Store.blankWith hash config outages
  have hdead (id : Handle) : s.heap.isLive id = false := by
    simp [s, Store.blankWith, Store.blank, Heap.empty, Heap.isLive]
  have hnone (id : Handle) : ¬ s.Holds id := fun hid => by simpa [hdead] using hid.live
  have hinterned (id : Handle) (w : List UInt16) : ¬ s.heap.Interned id w := by
    intro hi
    simpa [hdead] using hi.live
  have htext (id : Handle) (t : Text) : s.heap.text id ≠ .ok t := by
    intro htext
    have hlive := Heap.isLive_of_find (Heap.text_eq_ok.mp htext)
    simp [hdead] at hlive
  refine ⟨⟨Heap.wellFormed_empty _ _, ?_, ⟨⟨?_, ?_⟩, ?_⟩, ?_, ?_, ⟨?_, ?_⟩, ?_⟩, rfl, by simp,
    by simp [s, Store.blankWith, Store.blank]⟩
  · intro id hid
    rcases Store.mem_ownRoots.mp hid with hid | hid | ⟨i, hi⟩
    · simp [s, Store.blankWith, Store.blank] at hid
    · simp [s, Store.blankWith, Store.blank] at hid
    · simp [s, Store.blankWith, Store.blank, Array.getElem?_replicate] at hi
  · exact fun id hid => absurd hid (hnone id)
  · exact fun id _ _ hid => absurd hid (hnone id)
  · exact fun id _ hid => absurd hid (hnone id)
  · simp [s, Store.blankWith, Store.blank]
  · exact InternTable.fits_empty hash hinterned
  · exact fun id w hi => absurd hi (hinterned id w)
  · exact fun id t _ ht => absurd ht (htext id t)
  · intro i id hi
    simp [s, Store.blankWith, Store.blank, Array.getElem?_replicate] at hi

/-- A store whose setup ends is ready and furnished.  A setup that does not end is refused a
place for an object. -/
theorem ends_setup (hash : List UInt16 → UInt64) (config : Config) (outages : Option Outages) :
    Ends (StoreM.handleScope StoreM.makeCanonical) (.blankWith hash config outages)
      (fun _ s' => s'.Ready ∧ s'.config = config ∧ s'.Furnished)
      fun e s' => ∃ before bytes, Refuses before bytes e s' := by
  show Ends (do
    let result ← StoreM.makeCanonical
    StoreM.closeScope ⟨0⟩
    return result) _ _ _
  rw [ends_bind]
  refine Ends.mono (ends_makeCanonical (owning_blankWith hash config outages)) ?_ fun _ _ h => h
  intro _ s₁ hend
  obtain ⟨ids, ho, hids, hfurnished⟩ := hend
  have hr : s₁.Reroots { s₁ with scope := s₁.scope.take 0 } := ⟨rfl, rfl, rfl, rfl, rfl, rfl⟩
  have hs₁ : s₁.Ready := ⟨ho.sound, fun id hid => ho.sound.rooted id
    (Store.mem_ownRoots.mpr (Or.inl (ho.kept id (hids id hid))))⟩
  exact ⟨hr.ready hs₁ fun _ => ho.sound.holds_of_closeScope, ho.config,
    ⟨hfurnished.emptyString, hfurnished.emptyArray, hfurnished.singles⟩⟩

theorem ready_of_setup {hash : List UInt16 → UInt64} {outages : Option Outages}
    (hrun : StoreM.handleScope StoreM.makeCanonical (.blankWith hash config outages) = .ok () s) :
    s.Ready ∧ s.config = config ∧ s.Furnished :=
  (ends_setup hash config outages).of_ok hrun

end ManagedHeap
