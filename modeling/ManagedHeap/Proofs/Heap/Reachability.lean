import ManagedHeap.Proofs.Heap.Residence
import Mathlib.Data.Set.Card

/-!
# What roots lead to

`h.Reaches roots id` says that a chain of children leads from a root to `id`.  Only live
objects have children, so every link before the last one is live; the last one need not
be.  What a collection has to keep is `h.reachable roots`, the live part of it.
-/

namespace ManagedHeap

namespace Heap

variable {h h' : Heap} {roots roots' : List Handle} {id c : Handle} {o : Object}

/-- A chain of children leads from a root to the handle. -/
inductive Reaches (h : Heap) (roots : List Handle) : Handle → Prop
  | root {id : Handle} (hroot : id ∈ roots) : Reaches h roots id
  | child {id c : Handle} {o : Object} (hid : Reaches h roots id) (hfind : h.find id = .ok o)
      (hchild : c ∈ o.children) : Reaches h roots c

theorem Reaches.mono (hreach : h.Reaches roots id)
    (hroots : ∀ r ∈ roots, h.Reaches roots' r) : h.Reaches roots' id := by
  induction hreach with
  | root hroot => exact hroots _ hroot
  | child _ hfind hchild ih => exact .child ih hfind hchild

/-- Chains are chains also in a heap that has the links of the first one. -/
theorem Reaches.transfer (hreach : h.Reaches roots id)
    (hroots : ∀ r ∈ roots, h'.Reaches roots' r)
    (hlinks : ∀ id o c, h.Reaches roots id → h'.Reaches roots' id → h.find id = .ok o →
      c ∈ o.children → h'.Reaches roots' c) : h'.Reaches roots' id := by
  induction hreach with
  | root hroot => exact hroots _ hroot
  | child hid hfind hchild ih => exact hlinks _ _ _ hid ih hfind hchild

/-- Where no link comes back into a set of handles that holds the roots, the set holds
everything the roots lead to. -/
theorem Reaches.closed (hreach : h.Reaches roots id) (held : Handle → Prop)
    (hroots : ∀ r ∈ roots, held r)
    (hlinks : ∀ id o c, held id → h.find id = .ok o → c ∈ o.children → held c) : held id := by
  induction hreach with
  | root hroot => exact hroots _ hroot
  | child _ hfind hchild ih => exact hlinks _ _ _ ih hfind hchild

theorem reaches_congr (hfind : ∀ id, h'.find id = h.find id) :
    h'.Reaches roots id ↔ h.Reaches roots id := by
  constructor
  · intro hreach
    apply hreach.transfer (fun r hr => .root hr)
    intro id o c _ hid hfound hc
    exact .child hid (hfind id ▸ hfound) hc
  · intro hreach
    apply hreach.transfer (fun r hr => .root hr)
    intro id o c _ hid hfound hc
    exact .child hid ((hfind id).symm ▸ hfound) hc

/-! ## Live handles -/

/-- The handles that name an object. -/
def live (h : Heap) : Set Handle :=
  {id | h.isLive id = true}

/-- The live handles that roots lead to. -/
def reachable (h : Heap) (roots : List Handle) : Set Handle :=
  {id | h.isLive id = true ∧ h.Reaches roots id}

theorem live_subset : h.live ⊆ (Finset.range h.handles.size).image Handle.mk := by
  intro id hid
  obtain ⟨loc, hloc⟩ := isLive_iff.mp hid
  have hlt := (Array.getElem?_eq_some_iff.mp hloc).1
  simpa using ⟨id.index, hlt, rfl⟩

theorem finite_live : h.live.Finite :=
  (Finset.finite_toSet _).subset live_subset

theorem ncard_live_le : h.live.ncard ≤ h.handles.size := by
  calc h.live.ncard ≤ ((Finset.range h.handles.size).image Handle.mk : Set Handle).ncard :=
        Set.ncard_le_ncard live_subset (Finset.finite_toSet _)
    _ = ((Finset.range h.handles.size).image Handle.mk).card := Set.ncard_coe_finset _
    _ ≤ (Finset.range h.handles.size).card := Finset.card_image_le
    _ = h.handles.size := Finset.card_range _

end Heap

end ManagedHeap
