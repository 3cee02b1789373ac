import ManagedHeap.Proofs.Heap.Layers
import ManagedHeap.Proofs.Store.Interning
import Mathlib.Tactic.Set

/-!
# Flattening

To flatten a composite is to place a flat copy of its content and to let the handle of the
composite take over the copy.  What the roots still lead to afterwards is as before, apart
from the composite, which settles.  But its parts may have been let go: this is the only
operation that takes something away from a store while its roots stay the same.

What was let go may be collected, and its handle given to the next object that is placed
(`Recycles`).
-/

namespace ManagedHeap

namespace Store

variable {s s' s₁ s₂ : Store} {id f j : Handle} {t : Text} {u units : Units} {w : List UInt16}
  {node : Composite} {h' : Heap}

/-- The handle names the string with a buffer that it named before, or there was a collection
meanwhile. -/
def Reuses (s : Store) (id : Handle) (s' : Store) : Prop :=
  (∃ t u, s.heap.text id = .ok t ∧ s'.heap.text id = .ok t ∧ t.buffer? = some u) ∨
    s.collections < s'.collections

/-- What was held and is held again is still held by the former roots, or has the handle that
was given out. -/
def Recycles (s : Store) (id : Handle) (s' : Store) : Prop :=
  ∀ j, s.Holds j → s'.Holds j → s'.heap.Reaches (s.roots []) j ∨ j = id ∧ s.Reuses id s'

/-- What a failure leaves: what was held and is held again is held by the former roots. -/
structure Keeps (s s' : Store) : Prop where
  settles : s.Settles s'
  kept : ∀ j, s.Holds j → s'.Holds j → s'.heap.Reaches (s.roots []) j

theorem Adds.keeps (ha : s.Adds s') (hs : s.Ready) : s.Keeps s' :=
  ⟨ha.settles hs, fun _ hj _ => ha.reaches hs.toSound hj⟩

theorem Settles.keeps (hsettles : s.Settles s') (halike : s.Alike s') : s.Keeps s' :=
  ⟨hsettles, fun _ _ hj => halike.roots [] ▸ hj.reaches⟩

/-- A failure after a change that left the roots alone. -/
theorem Rests.keeps (hr : s₁.Rests s₂) (hsettles : s.Settles s₁) (halike : s.Alike s₁) :
    s.Keeps s₂ :=
  (hsettles.trans (hr.adds.settles hsettles.ready)).keeps (halike.trans hr.alike)

theorem Adds.recycles (ha : s.Adds s') (hs : s.Sound) (id : Handle) : s.Recycles id s' :=
  fun _ hj _ => Or.inl (ha.reaches hs hj)

theorem Alike.recycles (ha : s.Alike s') (id : Handle) : s.Recycles id s' :=
  fun _ _ hj => Or.inl (ha.roots [] ▸ hj.reaches)

/-! ## Giving out an object -/

/-- Something was added, and an object given out that is the only new one. -/
structure GivesOut (s : Store) (id : Handle) (s' : Store) : Prop where
  adds : s.Adds s'
  holds : s'.Holds id
  held : ∀ j, s'.Holds j → s'.heap.Reaches (s.roots []) j ∨ j = id
  reused : s.heap.isLive id = true → s.Reuses id s'

/-- One more root holds nothing but itself if the former roots lead to its children. -/
theorem Pushed.held (hp : s.Pushed id s')
    (hchildren : ∀ o c, s'.heap.find id = .ok o → c ∈ o.children →
      s'.heap.Reaches (s.roots []) c) (hj : s'.Holds j) :
    s'.heap.Reaches (s.roots []) j ∨ j = id := by
  refine hj.induct (fun j => s'.heap.Reaches (s.roots []) j ∨ j = id) ?_ ?_
  · exact fun r hr _ => (hp.mem_roots.mp hr).imp_left .root
  · rintro p o c (hp | rfl) hfind hc -
    · exact Or.inl (.child hp hfind hc)
    · exact Or.inl (hchildren o c hfind hc)

theorem Placed.givesOut {o : Object} (hp : s.Placed o id s') (hs : s.Sound) (ha : s.Adds s')
    (hchildren : ∀ c ∈ o.children, s.Holds c) : s.GivesOut id s' where
  adds := ha
  holds := hp.holds
  held _ hj := by
    refine hp.toPushed.held (fun o' c ho hc => ?_) hj
    obtain rfl := Except.ok.inj (hp.find.symm.trans ho)
    exact ha.reaches hs (hchildren c hc)
  reused hlive := Or.inr (hp.reused hlive)

theorem Interns.givesOut (hi : s.Interns w id s') (ha : s.Adds s') : s.GivesOut id s' := by
  obtain ⟨t, u, htext, -, hbuffer, -⟩ := hi.interned
  refine ⟨ha, hi.holds, fun j hj => hi.toPushed.held ?_ hj, ?_⟩
  · intro o c ho hc
    obtain rfl := Except.ok.inj ((Heap.text_eq_ok.mp htext).symm.trans ho)
    rw [Object.children, Text.children_of_buffer hbuffer] at hc
    simp at hc
  · intro hlive
    refine (hi.reused hlive).imp_left fun hsame => ⟨t, u, ?_, htext, hbuffer⟩
    rwa [Heap.text_eq_ok, ← hsame, ← Heap.text_eq_ok]

/-! ## Handing over a copy -/

/-- A copy of what a composite spells was placed after something was added, and then handed
over to the composite. -/
structure HandsOver (s s₂ : Store) (f id : Handle) (node : Composite) (units : Units)
    (s' : Store) : Prop where
  adds : s.Adds s₂
  alike : s.Alike s'
  held : s.Holds id
  fresh : ¬ s.Holds f
  text : s.heap.text id = .ok (.composite node)
  spells : s.heap.Spells id units.toList
  size : units.size = node.length
  encoding : units.encoding = node.encoding
  copy : s₂.heap.find f = .ok (.string (.flat units false))
  hands : s₂.heap.Hands f id s'.heap
  numberTexts : s'.numberTexts = s₂.numberTexts
  noText : ∀ e ∈ s₂.numberTexts, e.2 ≠ f
  table : s'.table = s₂.table

namespace HandsOver

theorem find (hh : s.HandsOver s₂ f id node units s') :
    s'.heap.find id = .ok (.string (.flat units false)) :=
  hh.hands.find.trans hh.copy

theorem find_mid (hh : s.HandsOver s₂ f id node units s') (hjf : j ≠ f) (hjid : j ≠ id) :
    s'.heap.find j = s₂.heap.find j :=
  (hh.hands.others j hjf hjid).find hh.adds.sound.wellFormed hh.hands.wellFormed

theorem others (hh : s.HandsOver s₂ f id node units s') (hj : s.Holds j) (hjid : j ≠ id) :
    s'.heap.find j = s.heap.find j :=
  (hh.find_mid (fun hjf => hh.fresh (hjf ▸ hj)) hjid).trans (hh.adds.find j hj)

theorem live (hh : s.HandsOver s₂ f id node units s') (hs : s.Sound) (hj : s.Holds j) :
    s'.heap.isLive j = true := by
  by_cases hjid : j = id
  · exact hjid ▸ Heap.isLive_of_find hh.find
  · obtain ⟨o, ho⟩ := hs.find hj
    exact Heap.isLive_of_find ((hh.others hj hjid).trans ho)

theorem holds_child (hh : s.HandsOver s₂ f id node units s') (hs : s.Sound) {c : Handle}
    {o : Object} (hj : s.Holds j) (ho : s'.heap.find j = .ok o) (hc : c ∈ o.children) :
    s.Holds c := by
  by_cases hjid : j = id
  · subst hjid
    obtain rfl := Except.ok.inj (hh.find.symm.trans ho)
    simp [Object.children, Text.children] at hc
  · exact hs.holds_child hj ((hh.others hj hjid).symm.trans ho) hc

theorem holds_of_reaches (hh : s.HandsOver s₂ f id node units s') (hs : s.Ready)
    (hj : s'.heap.Reaches (s.roots []) j) : s.Holds j :=
  hj.closed s.Holds (fun _ hr => holds_of_root hr (hs.live_of_root hr))
    fun _ _ _ => hh.holds_child hs.toSound

theorem holds_of_holds (hh : s.HandsOver s₂ f id node units s') (hs : s.Ready)
    (hj : s'.Holds j) : s.Holds j :=
  hh.holds_of_reaches hs (hh.alike.roots [] ▸ hj.reaches)

/-- A chain that leads to the composite leads to it without passing it. -/
theorem holds (hh : s.HandsOver s₂ f id node units s') (hs : s.Sound) : s'.Holds id := by
  refine ⟨hh.live hs hh.held, hh.alike.roots [] ▸ ?_⟩
  refine (hh.held.induct (fun j => s.Holds j ∧ (s'.heap.Reaches (s.roots []) j ∨
    s'.heap.Reaches (s.roots []) id)) ?_ ?_).2.elim (fun hreach => hreach) (fun hreach => hreach)
  · exact fun r hr hr' => ⟨holds_of_root hr hr', Or.inl (.root hr)⟩
  · rintro p o c ⟨hp, hreach⟩ ho hc -
    refine ⟨hs.holds_child hp ho hc, ?_⟩
    rcases hreach with hreach | hreach
    · by_cases hpid : p = id
      · exact Or.inr (hpid ▸ hreach)
      · exact Or.inl (.child hreach ((hh.others hp hpid).trans ho) hc)
    · exact Or.inr hreach

theorem settled (hh : s.HandsOver s₂ f id node units s') (hs : s.Sound) :
    s.heap.Settled s'.heap s.Holds := by
  refine Heap.settled_of_text
    (fun j t c hj ht hc => hh.holds_child hs hj (Heap.text_eq_ok.mp ht) hc) ?_ ?_
  · intro j t hj ht
    by_cases hjid : j = id
    · subst hjid
      obtain rfl := Except.ok.inj (hh.text.symm.trans ht)
      refine ⟨_, Heap.text_eq_ok.mpr hh.find, .flatten hh.size hh.encoding, fun u w hu hw => ?_⟩
      obtain rfl : units = u := by simpa [Text.buffer?] using hu
      exact hh.spells.unique hw
    · refine ⟨t, ?_, .refl t, fun u w hu hw => (Heap.Spells.buffer ht hu).unique hw⟩
      rwa [Heap.text_eq_ok, hh.others hj hjid, ← Heap.text_eq_ok]
  · intro j t hj ht
    by_cases hjid : j = id
    · exact ⟨_, hjid ▸ hh.text⟩
    · exact ⟨t, by rwa [Heap.text_eq_ok, ← hh.others hj hjid, ← Heap.text_eq_ok]⟩

theorem before (hh : s.HandsOver s₂ f id node units s') :
    s₂.heap.find id = .ok (.string (.composite node)) :=
  (hh.adds.find id hh.held).trans (Heap.text_eq_ok.mp hh.text)

theorem not_interned (hh : s.HandsOver s₂ f id node units s') :
    (∀ w, ¬ s₂.heap.Interned f w) ∧ ∀ w, ¬ s₂.heap.Interned id w :=
  ⟨fun _ => Heap.not_interned_of_find hh.copy rfl,
    fun _ => Heap.not_interned_of_find hh.before rfl⟩

theorem interned_iff (hh : s.HandsOver s₂ f id node units s') :
    s'.heap.Interned j w ↔ s₂.heap.Interned j w :=
  hh.hands.interned_iff hh.adds.sound.wellFormed hh.not_interned.1 hh.not_interned.2

theorem numberText (hh : s.HandsOver s₂ f id node units s') {e : Double × Handle}
    (he : e ∈ s'.numberTexts) : s'.heap.NumberText e.1 e.2 := by
  rw [hh.numberTexts] at he
  obtain ⟨interned, ht⟩ := hh.adds.sound.numberTexts e he
  have heid : e.2 ≠ id := by
    intro heid
    rw [heid, Heap.text_eq_ok, hh.before] at ht
    simp at ht
  refine ⟨interned, ?_⟩
  rwa [Heap.text_eq_ok, hh.find_mid (hh.noText e he) heid, ← Heap.text_eq_ok]

theorem sound (hh : s.HandsOver s₂ f id node units s') (hs : s.Ready) : s'.Sound where
  wellFormed := hh.hands.wellFormed
  rooted j hj := by
    rw [hh.alike.ownRoots] at hj
    exact hh.live hs.toSound
      (holds_of_root (mem_roots.mpr (Or.inr (Or.inl hj))) (hs.rooted j hj))
  readable := by
    refine hs.readable_of_settled hh.alike.config ?_
      ((hh.settled hs.toSound).mono fun j hj => hj.1)
      fun j _ hj hnot => absurd (hh.holds_of_holds hs hj) hnot
    exact closed_of_live hh.hands.wellFormed fun j o c hj ho hc =>
      hh.live hs.toSound (hh.holds_child hs.toSound (hh.holds_of_holds hs hj) ho hc)
  numberTexts _ he := hh.numberText he
  table := by
    rw [hh.table]
    exact hh.adds.sound.table.congr rfl rfl fun _ _ => hh.interned_iff
  tidy := hh.adds.sound.tidy.hands hh.hands hh.adds.sound.wellFormed hh.not_interned.1
    hh.not_interned.2
  singles i j hj := by
    rw [hh.alike.singles] at hj
    exact hh.interned_iff.mpr (hh.adds.sound.singles i j (hh.adds.toExtends.singles.kept i j hj))

theorem settles (hh : s.HandsOver s₂ f id node units s') (hs : s.Ready) : s.Settles s' where
  toExtends := hh.alike.toExtends
  ready := ⟨hh.sound hs, fun j hj => by
    rw [hh.alike.canonical] at hj
    exact hh.live hs.toSound (hs.holds_canonical hj)⟩
  settled j hj := by
    have hjs := hh.holds_of_reaches hs hj
    by_cases hjid : j = id
    · subst hjid
      exact ⟨_, _, Heap.text_eq_ok.mp hh.text, hh.find,
        .string (.flatten hh.size hh.encoding)⟩
    · obtain ⟨o, ho⟩ := hs.find hjs
      exact ⟨o, o, ho, (hh.others hjs hjid).trans ho, .refl o⟩
  spells j v hj hv := (hh.settled hs.toSound).spells j v (hh.holds_of_reaches hs hj) hv

end HandsOver

/-- The string was flattened, if it was a composite.  There was no full collection. -/
structure Flattened (s : Store) (id : Handle) (s' : Store) : Prop extends s.Alike s' where
  holds : s'.Holds id
  fullCollections : s'.heap.fullCollections = s.heap.fullCollections
  text : ∃ t, s'.heap.text id = .ok t ∧
    ((∃ units, t = .flat units false) ∨
      s.heap.text id = .ok t ∧ (∀ node, t ≠ .composite node) ∧ s' = s)
  others : ∀ j, s.Holds j → j ≠ id → s'.heap.find j = s.heap.find j

/-- What is given out after a string was flattened is the only thing that is held besides. -/
theorem Flattened.recycles (hf : s.Flattened id s₁) (hs : s.Sound) (hs₁ : s₁.Sound)
    (hg : s₁.GivesOut j s₂) : s.Recycles j s₂ := by
  intro k hk hk₂
  have hroots : s₁.roots [] = s.roots [] := hf.roots []
  by_cases hkid : k = id
  · exact Or.inl (hroots ▸ hkid ▸ hg.adds.reaches hs₁ hf.holds)
  · rcases hg.held k hk₂ with hreach | rfl
    · exact Or.inl (hroots ▸ hreach)
    · -- the handle was live when the string had been flattened
      have hsame := hf.others k hk hkid
      obtain ⟨o, ho⟩ := hs.find hk
      refine Or.inr ⟨rfl, ?_⟩
      rcases hg.reused (Heap.isLive_of_find (hsame.trans ho)) with ⟨t, u, ht, ht₂, hu⟩ | hless
      · exact Or.inl ⟨t, u, by rwa [Heap.text_eq_ok, ← hsame, ← Heap.text_eq_ok], ht₂, hu⟩
      · have hbefore := hf.collections
        exact Or.inr (by omega)

/-- To flatten a string does not change what it spells. -/
theorem Flattened.spells {w : List UInt16} (hf : s.Flattened id s') (hsettles : s.Settles s')
    (hw : s.heap.Spells id w) : s'.heap.Spells id w :=
  hsettles.spells id w (hf.roots [] ▸ hf.holds.reaches) hw

/-- To flatten a string does not intern it. -/
theorem Flattened.isInterned {t t' : Text} (hf : s.Flattened id s') (ht : s.heap.text id = .ok t)
    (ht' : s'.heap.text id = .ok t') (hnot : t.isInterned = false) : t'.isInterned = false := by
  obtain ⟨found, hfound, hcase⟩ := hf.text
  obtain rfl := Except.ok.inj (ht'.symm.trans hfound)
  rcases hcase with ⟨units, rfl⟩ | ⟨hsame, -⟩
  · rfl
  · rwa [← Except.ok.inj (ht.symm.trans hsame)]

/-- A flattened string has a buffer, if it is no view. -/
theorem Flattened.exists_buffer {t : Text} (hf : s.Flattened id s')
    (ht : s.heap.text id = .ok t) (hview : ∀ node, t ≠ .view node) :
    ∃ t' u, s'.heap.text id = .ok t' ∧ t'.buffer? = some u := by
  obtain ⟨t', ht', hcase⟩ := hf.text
  rcases hcase with ⟨units, rfl⟩ | ⟨hsame, hcomposite, -⟩
  · exact ⟨_, units, ht', rfl⟩
  · obtain rfl := Except.ok.inj (ht.symm.trans hsame)
    obtain ⟨u, hu⟩ := Text.exists_buffer hcomposite hview
    exact ⟨t, u, ht', hu⟩

end Store

open Store

variable {s : Store} {id : Handle}

/-- To flatten a composite is to place a copy of its content while the composite is kept in the
scope, and to hand the copy over.  It fails only if the copy is refused its place. -/
theorem ends_flatten_composite {node : Composite} (hs : s.Ready) (hid : s.Holds id)
    (ht : s.heap.text id = .ok (.composite node)) :
    ∃ units, units.size = node.length ∧ Ends (StoreM.flatten id) s
      (fun found s' => found = id ∧ ∃ f s₂,
        StoreM.allocateFlat units .young { s with scope := s.scope.push id } = .ok f s₂ ∧
        s.HandsOver s₂ f id node units s' ∧
        ∃ heap, s' = { s₂ with heap, scope := s.scope })
      (fun e s' => StoreM.allocateFlat units .young { s with scope := s.scope.push id } =
        .error e s') := by
  obtain ⟨w, hw, hlength⟩ := hs.readable.spells hid ht
  obtain ⟨units, hunits, hcopied, hencoding⟩ := hs.readable.copyRange_encoding hs.tidy hid hw ht 0
    (Nat.le_of_eq hlength.symm)
  have hwhole : units.toList = w := by
    have hfull : (Text.composite node).length = w.length := hlength.symm
    rw [hcopied, hfull, Heap.part_full]
  have hsize : units.size = node.length := by
    rw [← Units.length_toList, hwhole, hlength]
    rfl
  refine ⟨units, hsize, ?_⟩
  unfold StoreM.flatten StoreM.text
  rw [ends_bind, ends_inspect_ok ht]
  simp only
  rw [ends_bind, ends_inspect_ok hunits]
  simp only [StoreM.openScope, StoreM.track, bind_assoc, pure_bind, ends_bind, ends_get,
    ends_modify]
  obtain ⟨ha₁, -, hp₁, hheap₁⟩ := runs_track hs.toSound hid
  refine ((runs_allocateFlat_placed ha₁.sound units .young).and (ends_self _ _)).mono
    (fun f s₂ hend => ?_) fun _ _ hfail => hfail.2
  obtain ⟨⟨ha₂, hp₂, -, hfull⟩, hrun⟩ := hend
  have ha : s.Adds s₂ := ha₁.trans hs.toSound ha₂
  have hfresh : ¬ s.Holds f := fun hf => hp₂.fresh (ha₁.holds hs.toSound hf)
  have hne : f ≠ id := fun hf => hfresh (hf ▸ hid)
  have hlive_id := (ha.holds hs.toSound hid).live
  have hbefore := (ha.find id hid).trans (Heap.text_eq_ok.mp ht)
  rw [ends_onHeap]
  refine (ha.sound.wellFormed.ends_transplant (Heap.isLive_of_find hp₂.find) hlive_id
    hne).mono (fun _ h' hhands => ?_) fun _ _ hfail => hfail.elim
  have hscope : s₂.scope.take s.scope.size = s.scope := by
    simp [hp₂.scope]
  -- neither the copy nor the composite is canonical, so that what is canonical stays so
  have hretains : s₂.heap.Retains h' :=
    Heap.retains_of_interned hhands.fullCollections fun _ _ =>
      (hhands.interned_iff ha.sound.wellFormed
        (fun _ => Heap.not_interned_of_find hp₂.find rfl)
        fun _ => Heap.not_interned_of_find hbefore rfl).mpr
  simp only [StoreM.closeScope, ends_modify, ends_pure, hscope, true_and]
  have halike : s.Alike { s₂ with heap := h', scope := s.scope } :=
    ⟨hp₂.config.trans hp₁.config, hp₂.canonical.trans hp₁.canonical,
      hp₂.hash.trans hp₁.hash, hp₂.persistent.trans hp₁.persistent,
      hp₂.singles.trans hp₁.singles, rfl, ha.collections, ha.retains.trans hretains⟩
  exact ⟨f, s₂, hrun, ⟨ha, halike, hid, hfresh, ht, hwhole ▸ hw, hsize, hencoding,
    hp₂.find, hhands, rfl, fun e he => (hp₂.numberTexts e he).2, rfl⟩, h', rfl⟩

/-- A string that is no composite is left as it is. -/
theorem run_flatten_of_not_composite (htext : s.heap.text id = .ok t)
    (hnot : ∀ node, t ≠ .composite node) : StoreM.flatten id s = .ok id s := by
  unfold StoreM.flatten StoreM.text
  rw [run_bind (run_inspect htext)]
  cases t with
  | composite node => exact absurd rfl (hnot node)
  | _ => rfl

/-- Only a composite is changed when it is flattened, and only for a composite this can fail. -/
theorem ends_flatten_kind (htext : s.heap.text id = .ok t) :
    Ends (StoreM.flatten id) s (fun _ s' => (∀ node, t ≠ .composite node) → s' = s)
      (fun _ _ => ∃ node, t = .composite node) := by
  by_cases hnode : ∃ node, t = .composite node
  · obtain ⟨node, rfl⟩ := hnode
    exact (ends_self _ s).mono (fun _ _ _ hnot => absurd rfl (hnot node)) fun _ _ _ => ⟨node, rfl⟩
  · have hnot (node : Composite) : t ≠ .composite node := fun h => hnode ⟨node, h⟩
    exact .of_run (run_flatten_of_not_composite htext hnot) fun _ => rfl

theorem runs_flatten (hs : s.Ready) (hid : s.Holds id) :
    RunsFrom Settles Keeps s (StoreM.flatten id) s
      (fun found s' => found = id ∧ s.Flattened id s') := by
  have hrefl : s.Keeps s := (Adds.refl hs.toSound).keeps hs
  cases ht : s.heap.text id with
  | error e =>
      unfold StoreM.flatten
      exact runs_text hs.toSound hid hrefl fun t ht' => by simp [ht] at ht'
  | ok t =>
      by_cases hnode : ∃ node, t = .composite node
      · obtain ⟨node, rfl⟩ := hnode
        obtain ⟨units, -, hends⟩ := ends_flatten_composite hs hid ht
        obtain ⟨ha₁, -⟩ := runs_track hs.toSound hid
        have hplace := runs_allocateFlat_placed ha₁.sound units .young
        refine hends.mono ?_ fun e s' hrun => (hplace.of_error hrun).imp_right
          (Or.imp_right fun hr => (ha₁.trans hs.toSound hr.adds).keeps hs)
        rintro found s' ⟨hfound, f, s₂, hrun, hh, -⟩
        -- the copy is young, and what collects for it is no full collection
        obtain ⟨-, -, -, hfull⟩ := hplace.of_ok hrun
        exact ⟨hh.settles hs, hfound, hh.alike, hh.holds hs.toSound,
          hh.hands.fullCollections.trans (hfull rfl),
          ⟨_, Heap.text_eq_ok.mpr hh.find, Or.inl ⟨units, rfl⟩⟩, fun _ => hh.others⟩
      · have hnot (node : Composite) : t ≠ .composite node := fun h => hnode ⟨node, h⟩
        unfold RunsFrom Ends
        rw [run_flatten_of_not_composite ht hnot]
        exact ⟨hrefl.settles, rfl, .refl s, hid, rfl, ⟨_, ht, Or.inr ⟨ht, hnot, rfl⟩⟩,
          fun _ _ _ => rfl⟩

/-! ## Interning strings -/

/-- A held string with a buffer becomes the canonical one of its content. -/
theorem Store.settles_intern {t : Text} {u : Units} {h' : Heap} (hs : s.Ready) (hid : s.Holds id)
    (htext : s.heap.text id = .ok t) (hbuffer : t.buffer? = some u) (hnot : t.isInterned = false)
    (hnew : ∀ j, ¬ s.heap.Interned j u.toList) (hold : s.heap.spaceOf id = .ok .old)
    (hr : s.heap.Rewrites id (.string t.intern) h') :
    let s' : Store := { s with
      heap := h', table := s.table.insert (s.table.hash u.toList) id }
    s.Settles s' ∧ s.Alike s' := by
  obtain ⟨hsound, hsettled, halike, hholds⟩ :=
    hs.toSound.intern hid htext hbuffer hnot hnew hold hr
  intro s'
  have hready : s'.Ready := ⟨hsound, fun j hj => by
    rw [hr.isLive hs.wellFormed hid.live]
    exact hs.canonical j hj⟩
  have hbefore (j : Handle) (hj : s'.heap.Reaches (s.roots []) j) : s.Holds j :=
    hholds j (hready.holds_iff.mpr (halike.roots [] ▸ hj))
  exact ⟨⟨halike.toExtends, hready, fun j hj =>
    hr.exists_find (C := fun _ o o' => o.Settles o') hs.wellFormed (Heap.text_eq_ok.mp htext)
      (.string (.intern t)) (fun _ o => .refl o) (hbefore j hj).live,
    fun j w hj => hsettled.spells j w (hbefore j hj)⟩, halike⟩

/-- A string with a buffer is interned in place, if its content has no canonical string yet. -/
theorem runs_internInPlace {t : Text} {u : Units} (hs : s.Ready) (hid : s.Holds id)
    (htext : s.heap.text id = .ok t) (hbuffer : t.buffer? = some u) (hnot : t.isInterned = false)
    (hold : s.heap.spaceOf id = .ok .old) :
    RunsFrom Settles (fun s s' => s.Settles s' ∧ s.Alike s') s (do
      match ← StoreM.search (s.table.hashUnits u) u with
      | some found => StoreM.track found
      | none =>
        StoreM.markInterned (s.table.hashUnits u) id
        return id) s (fun found s' => (s'.Holds found ∧ s'.heap.Interned found u.toList ∧
          ∀ j, s.heap.Interned j u.toList → found = j) ∧
        (s.Alike s' ∨ s.GivesOut found s')) := by
  apply RunsFrom.call (runs_search hs.toSound u)
    (fun _ hr => ⟨hr.adds.settles hs, hr.alike⟩)
  intro found s₁ ha₁ hend
  obtain ⟨hd, hsome, hnone⟩ := hend
  -- a canonical string of the content is given out; otherwise the string itself becomes one
  cases found with
  | some found =>
      apply (runs_track_interned ha₁.sound (hd.heap ▸ hsome found rfl)).then
        (fun _ hr => ⟨(ha₁.trans hs.toSound hr.adds).settles hs, hd.toAlike.trans hr.alike⟩)
      intro _ s₂ ha₂ hend
      obtain ⟨rfl, hi, -⟩ := hend
      have ha : s.Adds s₂ := ha₁.trans hs.toSound ha₂
      exact ⟨ha.settles hs, ⟨hi.holds, hi.interned, (hi.of_searched hd).former⟩,
        Or.inr ((hi.of_searched hd).givesOut ha)⟩
  | none =>
      have hid₁ := ha₁.holds hs.toSound hid
      have htext₁ : s₁.heap.text id = .ok t := hd.heap ▸ htext
      have hhash : s.table.hashUnits u = s₁.table.hash u.toList := by
        rw [InternTable.hashUnits, hd.hash]
      unfold RunsFrom
      rw [ends_bind]
      refine (ends_markInterned ha₁.sound _ htext₁ hbuffer).mono ?_ fun _ _ hfail => hfail.elim
      intro _ s₂ hend
      obtain ⟨h', hr, rfl⟩ := hend
      rw [hhash]
      obtain ⟨hsettles, halike⟩ := settles_intern (ha₁.ready hs) hid₁ htext₁ hbuffer hnot
        (fun j => hd.heap ▸ hnone rfl j) (hd.heap ▸ hold) hr
      refine ⟨(ha₁.settles hs).trans hsettles, ⟨?_, ?_, fun j hj => absurd hj (hnone rfl j)⟩,
        Or.inl (hd.toAlike.trans halike)⟩
      · apply hid₁.of_rewrites ha₁.sound halike (Heap.text_eq_ok.mp htext₁) hr
        intro c hc
        simpa [Object.children] using hc
      · exact (hr.interned_iff ha₁.sound.wellFormed htext₁ hbuffer hnot).mpr (Or.inr ⟨rfl, rfl⟩)

/-- Interning a string gives out the canonical string of its content. -/
theorem runs_internString (hs : s.Ready) (hid : s.Holds id) :
    RunsFrom Settles Keeps s (StoreM.internString id) s (fun found s' =>
      (s'.Holds found ∧ s.Recycles found s') ∧ ∀ w, s.heap.Spells id w →
        s'.heap.Interned found w ∧ ∀ j, s.heap.Interned j w → found = j) := by
  have hrefl : s.Keeps s := (Adds.refl hs.toSound).keeps hs
  unfold StoreM.internString
  apply runs_text hs.toSound hid hrefl
  intro t ht
  obtain ⟨w, hw, -⟩ := hs.readable.spells hid ht
  refine RunsFrom.weaken (Q := fun found s' => (s'.Holds found ∧ s.Recycles found s') ∧
    s'.heap.Interned found w ∧ ∀ j, s.heap.Interned j w → found = j) ?_
    fun found s' _ hend => ⟨hend.1, fun v hv => hw.unique hv ▸ hend.2⟩
  split
  case isTrue hflag =>
      have hinterned : s.heap.Interned id w := Heap.interned_of_text ht hflag hw
      exact ⟨hrefl.settles, ⟨hid, (Adds.refl hs.toSound).recycles hs.toSound id⟩, hinterned,
        fun j => hs.table.unique id j w hinterned⟩
  case isFalse hnot =>
      apply (runs_flatten hs hid).bind
      intro found s₁ hsettles hend
      obtain ⟨hfound, hflat⟩ := hend
      obtain rfl : id = found := hfound.symm
      have hs₁ : s₁.Sound := hsettles.ready.toSound
      have hkeeps : s.Keeps s₁ := hsettles.keeps hflat.toAlike
      have hw₁ : s₁.heap.Spells id w := hflat.spells hsettles hw
      -- flattening does no full collection, so a canonical string that there was is still there
      have hformer {j : Handle} (hj : s.heap.Interned j w) : s₁.heap.Interned j w :=
        hflat.retains.interned hflat.fullCollections j w hj
      refine runs_inspect ((reads_self (hs₁.spaceOf_ne_dead hflat.holds)).mono
        fun space hspace => ?_) hkeeps
      apply runs_text hs₁ hflat.holds hkeeps
      intro t₁ ht₁
      split
      case isTrue hplace =>
          simp only [Bool.and_eq_true, decide_eq_true_eq, Option.isSome_iff_exists] at hplace
          obtain ⟨u, hu⟩ := hplace.2
          obtain rfl := hw₁.unique (.buffer ht₁ hu)
          have hnot₁ : t₁.isInterned = false := hflat.isInterned ht ht₁ (by simpa using hnot)
          refine (runs_read_ok (InternTable.hashOf_of_buffer ht₁ hu)).mpr
            ((runs_read_ok (Heap.content_of_buffer ht₁ hu)).mpr ?_)
          refine (runs_internInPlace hsettles.ready hflat.holds ht₁ hu hnot₁
            (hplace.1 ▸ hspace)).then
            (fun _ hlast => (hsettles.trans hlast.1).keeps (hflat.toAlike.trans hlast.2))
            fun found s₂ hlast hend => ⟨hsettles.trans hlast, ⟨hend.1.1, ?_⟩, hend.1.2.1,
              fun j hj => hend.1.2.2 j (hformer hj)⟩
          rcases hend.2 with halike | hgives
          · exact (hflat.toAlike.trans halike).recycles found
          · exact hflat.recycles hs.toSound hs₁ hgives
      case isFalse =>
          have hlength := hs₁.readable.length_eq hflat.holds ht₁ hw₁
          refine runs_inspect ((hs₁.readable.reads_copyRange hflat.holds hw₁ _).mono
            fun units hunits => ?_) hkeeps
          have hwhole : units.toList = w := by
            rw [(hunits (Nat.le_of_eq hlength.symm)).1, ← hlength, Heap.part_full]
          apply (runs_internUnits hs₁ units).then (fun _ hr => hr.keeps hsettles hflat.toAlike)
          intro found s₂ ha hi
          rw [hwhole] at hi
          exact ⟨hsettles.trans (ha.settles hsettles.ready),
            ⟨hi.holds, hflat.recycles hs.toSound hs₁ (hi.givesOut ha)⟩, hi.interned,
            fun j hj => hi.former j (hformer hj)⟩

end ManagedHeap
