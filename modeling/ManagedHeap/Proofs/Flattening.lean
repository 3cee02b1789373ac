import ManagedHeap.Proofs.Store.Refusals
import ManagedHeap.Proofs.WellRooted

/-!
# Flattening

To flatten a composite, a copy of its content is placed while the scope keeps the composite,
the two objects are exchanged under the handle of the composite, and the handle of the copy
is given back.  The placement may collect, and then moves the composite and its parts to the
other space first.

`Store.Flattens` says what is left.  The handle of the composite names the flat string, with
the content and the encoding of the composite; the roots are as they were; and the handle of
the copy is free.  Nothing comes to life by it, and whatever else is live is as it was.  Only a
collection lets something go: without one, what is live is what was live.

A composite is flattened unless its copy is refused a place (`Store.Refuses`).  Other strings
are left as they are, and so is the whole store.
-/

namespace ManagedHeap

open Store

variable {s s' s₂ : Store} {id f : Handle} {t : Text} {w : List UInt16} {node : Composite}
  {units : Units}

/-- The store in which the copy of a composite is placed. -/
def Store.pushed (s : Store) (id : Handle) : Store :=
  { s with scope := s.scope.push id }

/-- What flattening the string `t` with the content `w` leaves of a store. -/
structure Store.Flattens (s : Store) (id : Handle) (t : Text) (w : List UInt16) (s' : Store) :
    Prop extends s.Alike s' where
  composite : ∀ node, t = .composite node → ∃ units, s'.heap.text id = .ok (.flat units false) ∧
    units.toList = w ∧ units.encoding = node.encoding ∧
    -- the copy was placed under a handle that is free again
    ∃ f placed, StoreM.allocateFlat units .young (s.pushed id) = .ok f placed ∧
      s'.heap.isLive f = false ∧ f ∈ s'.heap.freeHandles
  otherwise : (∀ node, t ≠ .composite node) → s' = s
  others : ∀ j, j ≠ id → s'.heap.isLive j = true →
    s.heap.isLive j = true ∧ s'.heap.find j = s.heap.find j
  contents : ∀ j v, s.Holds j → s.heap.Spells j v → s'.heap.Spells j v
  uncollected : s'.collections = s.collections → s'.heap.live = s.heap.live ∧
    s'.heap.stats.youngObjects + s'.heap.stats.oldObjects =
      s.heap.stats.youngObjects + s.heap.stats.oldObjects

/-! ## Handing over -/

/-- A string that is no composite is flattened by doing nothing. -/
theorem Store.flattens_refl (hnot : ∀ node, t ≠ .composite node) : s.Flattens id t w s where
  toAlike := .refl s
  composite node ht := absurd ht (hnot node)
  otherwise _ := rfl
  others _ _ hlive := ⟨hlive, rfl⟩
  contents _ _ _ hv := hv
  uncollected _ := ⟨rfl, rfl⟩

section HandsOver

variable (hh : s.HandsOver s₂ f id node units s') (hb : (s.pushed id).Brings f s₂)

include hh

theorem Store.HandsOver.isLive_mid {j : Handle} (hjf : j ≠ f) (hjid : j ≠ id) :
    s'.heap.isLive j = s₂.heap.isLive j :=
  (hh.hands.others j hjf hjid).isLive hh.adds.sound.wellFormed hh.hands.wellFormed

include hb

/-- What is live besides the composite was live before the copy was placed. -/
theorem Store.HandsOver.live_others {j : Handle} (hjid : j ≠ id)
    (hlive : s'.heap.isLive j = true) :
    s.heap.isLive j = true ∧ s'.heap.find j = s.heap.find j := by
  have hjf : j ≠ f := by
    rintro rfl
    simp [hh.hands.dead] at hlive
  obtain ⟨hbefore, hfind⟩ := hb.others j hjf ((hh.isLive_mid hjf hjid).symm.trans hlive)
  exact ⟨hbefore, (hh.find_mid hjf hjid).trans hfind⟩

/-- Without a collection nothing was let go, and the copy has taken a handle for a while only. -/
theorem Store.HandsOver.live_eq (hsame : s₂.collections = s.collections) :
    s'.heap.live = s.heap.live := by
  obtain ⟨hdead, hkept⟩ := hb.uncollected hsame
  ext j
  show s'.heap.isLive j = true ↔ s.heap.isLive j = true
  by_cases hjid : j = id
  · subst hjid
    exact iff_of_true (Heap.isLive_of_find hh.find) hh.held.live
  · refine ⟨fun hlive => (hh.live_others hb hjid hlive).1, fun hlive => ?_⟩
    have hjf : j ≠ f := by
      rintro rfl
      have hgone : s.heap.isLive j = false := hdead
      simp [hgone] at hlive
    exact (hh.isLive_mid hjf hjid).trans (hkept j hlive)

end HandsOver

theorem Store.HandsOver.flattens (hh : s.HandsOver s₂ f id node units s') (hs : s.Ready)
    (hw : s.heap.Spells id w)
    (hrun : StoreM.allocateFlat units .young (s.pushed id) = .ok f s₂)
    (hs' : s'.collections = s₂.collections) : s.Flattens id (.composite node) w s' := by
  have hpushed : (s.pushed id).heap.WellFormed := hs.wellFormed
  have hb : (s.pushed id).Brings f s₂ := (ends_fulfil_brings hpushed _ _).of_ok hrun
  have hflat : s'.heap.text id = .ok (.flat units false) := Heap.text_eq_ok.mpr hh.find
  refine ⟨hh.alike, fun node' hnode => ?_, fun hnot => absurd rfl (hnot node),
    fun j => hh.live_others hb,
    fun j v hj => (hh.settled hs.toSound).spells j v hj, fun hsame => ?_⟩
  · obtain rfl : node = node' := Text.composite.inj hnode
    exact ⟨units, hflat, hh.spells.unique hw, hh.encoding, f, s₂, hrun, hh.hands.dead,
      hh.hands.freed⟩
  · have hlive : s'.heap.live = s.heap.live := hh.live_eq hb (hs'.symm.trans hsame)
    refine ⟨hlive, ?_⟩
    show s'.heap.objectsIn .young + s'.heap.objectsIn .old =
      s.heap.objectsIn .young + s.heap.objectsIn .old
    rw [← hh.hands.wellFormed.ncard_live, ← hs.wellFormed.ncard_live, hlive]

/-! ## The law -/

end ManagedHeap
