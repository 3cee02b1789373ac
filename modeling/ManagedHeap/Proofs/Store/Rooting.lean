import ManagedHeap.Proofs.Store.Placing
import Mathlib.Tactic.Tauto

/-!
# Fewer and more roots

Closing a scope and releasing an object take roots away, and persisting a held object adds
one.  The heap stays as it is, so the store stays sound; what it holds can only become less.
-/

namespace ManagedHeap

namespace Store

variable {s s' : Store} {id j : Handle}

/-- The stores have the same heap and the same tables, and differ at most in their roots. -/
structure Reroots (s s' : Store) : Prop where
  heap : s'.heap = s.heap
  config : s'.config = s.config
  canonical : s'.canonical = s.canonical
  singles : s'.singles = s.singles
  numberTexts : s'.numberTexts = s.numberTexts
  table : s'.table = s.table

/-- The roots of the store were held before. -/
theorem Reroots.sound (hr : s.Reroots s') (hs : s.Sound)
    (hroots : ∀ id ∈ s'.ownRoots, s.Holds id) :
    s'.Sound ∧ ∀ id, s'.Holds id → s.Holds id := by
  refine hs.reroot hr.heap hr.config (fun id hid => (hroots id hid).live) (fun id hid hlive => ?_)
    (hr.numberTexts ▸ hs.numberTexts) (hr.table ▸ hs.table) (hr.singles ▸ hs.singles)
  rcases mem_roots.mp hid with hid | hid | hid
  · simp at hid
  · exact hroots id hid
  · exact holds_of_root (mem_roots.mpr (Or.inr (Or.inr (hr.canonical ▸ hid)))) hlive

theorem Reroots.ready (hr : s.Reroots s') (hs : s.Ready)
    (hroots : ∀ id ∈ s'.ownRoots, s.Holds id) : s'.Ready where
  toSound := (hr.sound hs.toSound hroots).1
  canonical id hid := hr.heap ▸ hs.canonical id (hr.canonical ▸ hid)

theorem Sound.holds_of_ownRoot (hs : s.Sound) (hid : id ∈ s.ownRoots) : s.Holds id :=
  holds_of_root (mem_roots.mpr (Or.inr (Or.inl hid))) (hs.rooted id hid)

/-! ## Scopes -/

theorem mem_of_mem_take {scope : Array Handle} {depth : Nat}
    (hid : id ∈ (scope.take depth).toList) : id ∈ scope.toList := by
  obtain ⟨k, hk, rfl⟩ := Array.mem_extract_iff_getElem.mp (Array.mem_toList_iff.mp hid)
  exact Array.mem_toList_iff.mpr (Array.getElem_mem _)

/-- Closing a scope takes roots away. -/
theorem Sound.holds_of_closeScope (hs : s.Sound) {depth : Nat}
    (hid : id ∈ ({ s with scope := s.scope.take depth } : Store).ownRoots) : s.Holds id :=
  hs.holds_of_ownRoot (mem_ownRoots.mpr ((mem_ownRoots.mp hid).imp_left mem_of_mem_take))

/-- An object that is kept when its scope is closed was held. -/
theorem Sound.holds_of_escape (hs : s.Sound) {depth : Nat} (hj : s.Holds j)
    (hid : id ∈ ({ s with scope := (s.scope.take depth).push j } : Store).ownRoots) :
    s.Holds id := by
  have hid' : id ∈ ({ s with scope := s.scope.take depth } : Store).ownRoots ∨ id = j := by
    simp only [mem_ownRoots, Array.toList_push, List.mem_append, List.mem_singleton] at hid ⊢
    tauto
  rcases hid' with hid | rfl
  · exact hs.holds_of_closeScope hid
  · exact hj

/-! ## Persistent objects -/

theorem mem_addRelease {releases : List (Handle × Nat)} :
    j ∈ (StoreM.addRelease id releases).map Prod.fst ↔ j ∈ releases.map Prod.fst ∨ j = id := by
  induction releases with
  | nil => simp [StoreM.addRelease]
  | cons e rest ih =>
      obtain ⟨other, count⟩ := e
      unfold StoreM.addRelease
      split
      case isTrue heq =>
          subst heq
          simp only [List.map_cons, List.mem_cons]
          tauto
      case isFalse =>
          simp only [List.map_cons, List.mem_cons, ih, or_assoc]

/-- One more release is due for the object, unless as many are due as can be counted; then nothing
happens. -/
theorem ends_persist (s : Store) (id : Handle) :
    Ends (StoreM.persist id) s
      (fun _ s' => StoreM.releasesDue id s.persistent + 1 < UInt32.size ∧
        s' = { s with persistent := StoreM.addRelease id s.persistent })
      (fun e s' => UInt32.size ≤ StoreM.releasesDue id s.persistent + 1 ∧ e = .countOverflow ∧
        s' = s) := by
  unfold StoreM.persist
  rw [ends_bind, ends_get, ends_bind, ends_checkCount]
  exact ⟨fun hfits => ⟨hfits, rfl⟩, fun hlarge => ⟨hlarge, rfl, rfl⟩⟩

theorem mem_of_mem_dropRelease {releases : List (Handle × Nat)}
    (hj : j ∈ (StoreM.dropRelease id releases).map Prod.fst) : j ∈ releases.map Prod.fst := by
  induction releases with
  | nil => simp [StoreM.dropRelease] at hj
  | cons e rest ih =>
      obtain ⟨other, count⟩ := e
      unfold StoreM.dropRelease at hj
      simp only [List.map_cons, List.mem_cons]
      split at hj
      case isTrue heq =>
          subst heq
          split at hj
          · exact Or.inr hj
          · simpa using hj
      case isFalse =>
          rcases List.mem_cons.mp hj with hj | hj
          · exact Or.inl hj
          · exact Or.inr (ih hj)

theorem Sound.holds_of_persist (hs : s.Sound) (hj : s.Holds j)
    (hid : id ∈ ({ s with persistent := StoreM.addRelease j s.persistent } : Store).ownRoots) :
    s.Holds id := by
  have hid' : id ∈ s.ownRoots ∨ id = j := by
    simp only [mem_ownRoots, mem_addRelease] at hid ⊢
    tauto
  rcases hid' with hid | rfl
  · exact hs.holds_of_ownRoot hid
  · exact hj

theorem Sound.holds_of_unpersist (hs : s.Sound)
    (hid : id ∈ ({ s with persistent := StoreM.dropRelease j s.persistent } : Store).ownRoots) :
    s.Holds id :=
  hs.holds_of_ownRoot (mem_ownRoots.mpr
    ((mem_ownRoots.mp hid).imp_right (Or.imp_left mem_of_mem_dropRelease)))

end Store

end ManagedHeap
