import ManagedHeap.Decimal.Shortest
import ManagedHeap.Proofs.Heap.Canonical
import ManagedHeap.Proofs.Heap.Reachability
import ManagedHeap.Proofs.Heap.Settling
import ManagedHeap.Store.Rooting

/-!
# Sound stores

A store holds an object if it is live and the roots lead to it.  A store is sound if

* its heap is well formed and its own roots are live;
* what the objects it holds refer to is live, and the strings among them are spelled;
* the texts of numbers are what they are kept as, and the interning table fits the heap;
* the heap is tidy, and the cached strings of one unit are the canonical ones.

Nothing is said about objects that are not held.  Old objects that nothing leads to stay
where they are until a full collection, and what they refer to may be gone or may be the
handle of another object by then.

A sound store is ready if its canonical objects are live, as they are from the end of its
setup on.  All roots are live then, and a store holds whatever the roots lead to.
-/

namespace ManagedHeap

/-- The handle names a flat string of the text of the number. -/
def Heap.NumberText (h : Heap) (number : Double) (id : Handle) : Prop :=
  ∃ interned, h.text id = .ok (.flat (.ofText number.text) interned)

theorem Heap.NumberText.isLive {h : Heap} {number : Double} {id : Handle}
    (ht : h.NumberText number id) : h.isLive id = true := by
  obtain ⟨interned, htext⟩ := ht
  exact isLive_of_find (text_eq_ok.mp htext)

namespace Store

/-- The roots that come and go: those of scopes, persistent objects and cached strings. -/
def ownRoots (s : Store) : List Handle :=
  s.scope.toList ++ s.persistent.map Prod.fst ++ s.singles.toList.filterMap id

variable {s s' : Store} {id c : Handle} {o : Object} {t : Text} {held : List Handle}

/-! ## What a store holds -/

/-- The object is live, and the roots lead to it. -/
def Holds (s : Store) (id : Handle) : Prop :=
  id ∈ s.heap.reachable (s.roots [])

theorem mem_roots : id ∈ s.roots held ↔
    id ∈ held ∨ id ∈ s.ownRoots ∨ id ∈ s.canonical.toList := by
  simp only [roots, ownRoots, List.mem_append, or_assoc]

theorem Holds.live (hid : s.Holds id) : s.heap.isLive id = true := hid.1

theorem Holds.reaches (hid : s.Holds id) : s.heap.Reaches (s.roots []) id := hid.2

theorem holds_of_root (hroot : id ∈ s.roots []) (hlive : s.heap.isLive id = true) : s.Holds id :=
  ⟨hlive, .root hroot⟩

/-- What is held is in every set of live objects that holds the live roots and is closed
under live children. -/
theorem Holds.induct (held : Handle → Prop) (hid : s.Holds id)
    (hroots : ∀ id ∈ s.roots [], s.heap.isLive id = true → held id)
    (hchildren : ∀ id o c, held id → s.heap.find id = .ok o → c ∈ o.children →
      s.heap.isLive c = true → held c) : held id := by
  refine hid.reaches.closed (fun id => s.heap.isLive id = true → held id) hroots ?_ hid.live
  intro id o c hparent hfind hc hlive
  exact hchildren id o c (hparent (Heap.isLive_of_find hfind)) hfind hc hlive

/-! ## Sound stores -/

/-- What every state of a store has to meet. -/
structure Sound (s : Store) : Prop where
  wellFormed : s.heap.WellFormed
  rooted : ∀ id ∈ s.ownRoots, s.heap.isLive id = true
  readable : s.heap.Readable s.config s.Holds
  numberTexts : ∀ e ∈ s.numberTexts, s.heap.NumberText e.1 e.2
  table : s.table.Fits s.heap
  tidy : s.heap.Tidy
  singles : ∀ (i : Nat) id, s.singles[i]? = some (some id) →
    s.heap.Interned id [UInt16.ofNat i]

/-- A sound store with its canonical objects. -/
structure Ready (s : Store) : Prop extends s.Sound where
  canonical : ∀ id ∈ s.canonical.toList, s.heap.isLive id = true

theorem Sound.holds_child (hs : s.Sound) (hid : s.Holds id) (hfind : s.heap.find id = .ok o)
    (hc : c ∈ o.children) : s.Holds c :=
  hs.readable.children id o c hid hfind hc

theorem Sound.find (hs : s.Sound) (hid : s.Holds id) : ∃ o, s.heap.find id = .ok o :=
  hs.readable.found id hid

theorem Sound.find_ne_dead (hs : s.Sound) (hid : s.Holds id) :
    s.heap.find id ≠ .error .deadObject := by
  obtain ⟨o, hfind⟩ := hs.find hid
  simp [hfind]

theorem Sound.spaceOf_ne_dead (hs : s.Sound) (hid : s.Holds id) :
    s.heap.spaceOf id ≠ .error .deadObject := by
  obtain ⟨loc, r, hh, -⟩ := hs.wellFormed.houses hid.live
  simp [hh.spaceOf]

theorem Ready.live_of_root (hs : s.Ready) (hroot : id ∈ s.roots []) :
    s.heap.isLive id = true := by
  rcases mem_roots.mp hroot with hid | hid | hid
  · simp at hid
  · exact hs.rooted id hid
  · exact hs.canonical id hid

theorem Ready.holds_canonical (hs : s.Ready) (hid : id ∈ s.canonical.toList) : s.Holds id :=
  holds_of_root (mem_roots.mpr (Or.inr (Or.inr hid))) (hs.canonical id hid)

/-- In a store that is ready everything that the roots lead to is held. -/
theorem Ready.holds_iff (hs : s.Ready) : s.Holds id ↔ s.heap.Reaches (s.roots []) id := by
  refine ⟨Holds.reaches, fun hreach => ?_⟩
  exact hreach.closed s.Holds (fun r hr => holds_of_root hr (hs.live_of_root hr))
    fun id o c hid hfind hc => hs.holds_child hid hfind hc

/-! ## Keeping a store sound

A change of a store is sound if what is held afterwards was held before, and settled, or is
new and fits. -/

theorem closed_of_live (hw : s.heap.WellFormed)
    (hlive : ∀ id o c, s.Holds id → s.heap.find id = .ok o → c ∈ o.children →
      s.heap.isLive c = true) : s.heap.Closed s.Holds where
  found _ hid := hw.isLive_iff_find.mp hid.live
  children _ o c hid hfind hc := ⟨hlive _ o c hid hfind hc, .child hid.reaches hfind hc⟩

theorem Sound.readable_of_settled (hs : s.Sound) (hconfig : s'.config = s.config)
    (hclosed : s'.heap.Closed s'.Holds)
    (hsettled : s.heap.Settled s'.heap fun id => s.Holds id ∧ s'.Holds id)
    (hnew : ∀ id t, s'.Holds id → ¬ s.Holds id → s'.heap.text id = .ok t →
      s'.heap.Spelled s'.config id t) : s'.heap.Readable s'.config s'.Holds where
  toClosed := hclosed
  spelled id t' hid htext := by
    -- a string that was held is what it has settled to; of a new one it is assumed
    by_cases hbefore : s.Holds id
    · obtain ⟨t, ht⟩ := hsettled.known id t' ⟨hbefore, hid⟩ htext
      obtain ⟨t'', ht'', hsettles⟩ := hsettled.text id t ⟨hbefore, hid⟩ ht
      obtain rfl := Except.ok.inj (htext.symm.trans ht'')
      rw [hconfig]
      refine hsettled.spelled ⟨hbefore, hid⟩ hsettles (fun c hc => ⟨?_, ?_⟩)
        (hs.readable.spelled id t hbefore ht)
      · exact hs.readable.text_child hbefore ht (hsettles.children hc)
      · exact hclosed.text_child hid htext hc
    · exact hnew id t' hid hbefore htext

/-- A change of the roots, the caches and the counts of the table that holds nothing new. -/
theorem Sound.reroot (hs : s.Sound) (hheap : s'.heap = s.heap) (hconfig : s'.config = s.config)
    (hrooted : ∀ id ∈ s'.ownRoots, s.heap.isLive id = true)
    (hroots : ∀ id ∈ s'.roots [], s.heap.isLive id = true → s.Holds id)
    (htexts : ∀ e ∈ s'.numberTexts, s.heap.NumberText e.1 e.2)
    (htable : s'.table.Fits s.heap)
    (hsingles : ∀ (i : Nat) id, s'.singles[i]? = some (some id) →
      s.heap.Interned id [UInt16.ofNat i]) : s'.Sound ∧ ∀ id, s'.Holds id → s.Holds id := by
  have hholds (id : Handle) (hid : s'.Holds id) : s.Holds id := by
    apply hid.induct s.Holds (hheap ▸ hroots)
    intro _ o c hparent hfind hc _
    exact hs.holds_child hparent (hheap ▸ hfind) hc
  refine ⟨⟨hheap ▸ hs.wellFormed, hheap ▸ hrooted, ?_, hheap ▸ htexts, hheap ▸ htable,
    hheap ▸ hs.tidy, hheap ▸ hsingles⟩, hholds⟩
  rw [hheap, hconfig]
  exact {
    found := fun id hid => hs.find (hholds id hid)
    children := fun id o c hid hfind hc =>
      ⟨hheap ▸ (hs.holds_child (hholds id hid) hfind hc).live,
        .child hid.reaches (hheap ▸ hfind) hc⟩
    spelled := fun id t hid ht => hs.readable.spelled id t (hholds id hid) ht }

end Store

end ManagedHeap
