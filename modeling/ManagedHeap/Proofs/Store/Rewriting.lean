import ManagedHeap.Proofs.Store.Placing
import ManagedHeap.Store.Allocation

/-!
# Changing objects in place

An object that is held can be changed where it is, as long as what it refers to afterwards
is held, too.  The store stays sound and holds nothing new (`Sound.rewrite`).  A string that
changes becomes the canonical one of its content (`Sound.intern`); all other changes are of
objects that are no strings.
-/

namespace ManagedHeap

namespace Heap

variable {h h' : Heap} {id j : Handle} {o o' : Object} {w : List UInt16} {t : Text} {u : Units}

theorem Rewrites.find_of_ne (hr : h.Rewrites id o' h') (hw : h.WellFormed) (hj : j ≠ id) :
    h'.find j = h.find j :=
  (hr.others j hj).find hw hr.wellFormed

/-- A change in place does not concern what the object neither was nor is. -/
theorem Rewrites.find_iff {x : Object} (hr : h.Rewrites id o' h') (hw : h.WellFormed)
    (hfind : h.find id = .ok o) (hx : o' = x ↔ o = x) : h'.find j = .ok x ↔ h.find j = .ok x := by
  by_cases hj : j = id
  · rw [hj, hr.find, hfind, Except.ok.injEq, Except.ok.injEq, hx]
  · rw [hr.find_of_ne hw hj]

/-- Each object is as it was, but for the one that changed. -/
theorem Rewrites.exists_find {C : Handle → Object → Object → Prop} (hr : h.Rewrites id o' h')
    (hw : h.WellFormed) (hfind : h.find id = .ok o) (hchange : C id o o')
    (hsame : ∀ j x, C j x x) (hlive : h.isLive j = true) :
    ∃ x x', h.find j = .ok x ∧ h'.find j = .ok x' ∧ C j x x' := by
  by_cases hj : j = id
  · subst hj
    exact ⟨o, o', hfind, hr.find, hchange⟩
  · obtain ⟨x, hx⟩ := hw.isLive_iff_find.mp hlive
    exact ⟨x, x, hx, (hr.find_of_ne hw hj).trans hx, hsame j x⟩

theorem Rewrites.text_of_ne (hr : h.Rewrites id o' h') (hw : h.WellFormed) (hj : j ≠ id) :
    h'.text j = h.text j := by
  unfold Heap.text
  rw [hr.find_of_ne hw hj]

theorem Rewrites.isLive (hr : h.Rewrites id o' h') (hw : h.WellFormed)
    (hlive : h.isLive id = true) (j : Handle) : h'.isLive j = h.isLive j := by
  by_cases hj : j = id
  · rw [hj, hlive, isLive_of_find hr.find]
  · exact (hr.others j hj).isLive hw hr.wellFormed

/-- The strings of a heap in which an object changed that is no string. -/
theorem Rewrites.text (hr : h.Rewrites id o' h') (hw : h.WellFormed) (hfind : h.find id = .ok o)
    (ho : ∀ t, o ≠ .string t) (ho' : ∀ t, o' ≠ .string t) :
    h'.text j = .ok t ↔ h.text j = .ok t := by
  rw [text_eq_ok, text_eq_ok]
  exact hr.find_iff hw hfind (iff_of_false (ho' t) (ho t))

/-- The strings of a heap in which one became the canonical one of its content. -/
theorem Rewrites.interned_iff (hr : h.Rewrites id (.string t.intern) h') (hw : h.WellFormed)
    (htext : h.text id = .ok t) (hbuffer : t.buffer? = some u) (hnot : t.isInterned = false) :
    h'.Interned j w ↔ h.Interned j w ∨ (j = id ∧ w = u.toList) := by
  unfold Interned
  by_cases hj : j = id
  · subst hj
    have hafter : h'.text j = .ok t.intern := text_eq_ok.mpr hr.find
    have hinterned : t.intern.isInterned = true := by
      cases t <;> simp [Text.intern, Text.isInterned, Text.buffer?] at hbuffer ⊢
    simp only [hafter, htext, Except.ok.injEq, true_and]
    constructor
    · intro h
      obtain ⟨t', u', rfl, -, hbuffer', rfl⟩ := h
      rw [Text.buffer?_intern, hbuffer] at hbuffer'
      exact Or.inr (by simpa using congrArg (Option.map Units.toList) hbuffer'.symm)
    · rintro (⟨t', u', rfl, hinterned', -⟩ | rfl)
      · rw [hnot] at hinterned'
        simp at hinterned'
      · exact ⟨_, u, rfl, hinterned, by rw [Text.buffer?_intern, hbuffer], rfl⟩
  · simp only [text_eq_ok, hr.find_of_ne hw hj, hj, false_and, or_false]

/-- A string that becomes the canonical one of its content reads as it did. -/
theorem Rewrites.settled_intern {held : Handle → Prop} (hr : h.Rewrites id (.string t.intern) h')
    (hw : h.WellFormed) (hc : h.Closed held) (htext : h.text id = .ok t) :
    h.Settled h' held := by
  have hafter : h'.text id = .ok t.intern := text_eq_ok.mpr hr.find
  refine settled_of_text ?_ ?_ ?_
  · intro j t' c hj ht hmem
    by_cases hjid : j = id
    · subst hjid
      obtain rfl := Except.ok.inj (hafter.symm.trans ht)
      exact hc.text_child hj htext (Text.children_intern ▸ hmem)
    · exact hc.text_child hj (hr.text_of_ne hw hjid ▸ ht) hmem
  · intro j t' hj ht
    by_cases hjid : j = id
    · subst hjid
      obtain rfl := Except.ok.inj (htext.symm.trans ht)
      refine ⟨t.intern, hafter, .intern t, fun u w hbuffer hw => ?_⟩
      rw [Text.buffer?_intern] at hbuffer
      exact (Spells.buffer ht hbuffer).unique hw
    · exact ⟨t', hr.text_of_ne hw hjid ▸ ht, .refl t', fun u w hbuffer hw =>
        (Spells.buffer ht hbuffer).unique hw⟩
  · intro j t' hj ht
    by_cases hjid : j = id
    · exact ⟨t, hjid ▸ htext⟩
    · exact ⟨t', hr.text_of_ne hw hjid ▸ ht⟩

theorem Rewrites.spaceOf_eq (hr : h.Rewrites id o' h') (hw : h.WellFormed)
    (hlive : h.isLive j = true) : h'.spaceOf j = h.spaceOf j := by
  by_cases hj : j = id
  · rw [hj, hr.spaceOf]
  · exact (hr.others j hj).spaceOf hw hlive

/-- A heap with the same strings at the same places is as tidy. -/
theorem Tidy.rewrites (ht : h.Tidy) (hr : h.Rewrites id o' h') (hw : h.WellFormed)
    (htext : ∀ j t, h'.text j = .ok t ↔ h.text j = .ok t) : h'.Tidy where
  old j w hj := by
    have hbefore : h.Interned j w := by
      unfold Interned at hj ⊢
      simpa only [htext] using hj
    rw [hr.spaceOf_eq hw hbefore.live]
    exact ht.old j w hbefore
  short j t u ht' := ht.short j t u ((htext j t).mp ht')

/-- A string of the old space can become a canonical one. -/
theorem Tidy.intern (ht : h.Tidy) (hr : h.Rewrites id (.string t.intern) h') (hw : h.WellFormed)
    (htext : h.text id = .ok t) (hbuffer : t.buffer? = some u) (hnot : t.isInterned = false)
    (hold : h.spaceOf id = .ok .old) : h'.Tidy where
  old j w hj := by
    rcases (hr.interned_iff hw htext hbuffer hnot).mp hj with hbefore | ⟨rfl, -⟩
    · rw [hr.spaceOf_eq hw hbefore.live]
      exact ht.old j w hbefore
    · rw [hr.spaceOf, hold]
  short j t' u' ht' hu' := by
    rw [text_eq_ok] at ht'
    by_cases hj : j = id
    · subst hj
      obtain rfl : t.intern = t' := by simpa [hr.find] using ht'
      rw [Text.buffer?_intern] at hu'
      exact ht.short j t u' htext hu'
    · rw [hr.find_of_ne hw hj, ← text_eq_ok] at ht'
      exact ht.short j t' u' ht' hu'

end Heap

namespace Store

variable {s s' : Store} {id : Handle} {o o' : Object} {h' : Heap} {t : Text} {u : Units}

/-- A change of one held object, which refers to held objects afterwards. -/
theorem Sound.of_rewrites (hs : s.Sound) (ha : s.Alike s') (hid : s.Holds id)
    (hr : s.heap.Rewrites id o' s'.heap) (hchildren : ∀ c ∈ o'.children, s.Holds c)
    (hsettled : s.heap.Settled s'.heap s.Holds)
    (htexts : ∀ e ∈ s'.numberTexts, s'.heap.NumberText e.1 e.2)
    (htable : s'.table.Fits s'.heap) (htidy : s'.heap.Tidy)
    (hinterned : ∀ j w, s.heap.Interned j w → s'.heap.Interned j w) :
    s'.Sound ∧ ∀ j, s'.Holds j → s.Holds j := by
  have hlive := hr.isLive hs.wellFormed hid.live
  have hchild {j c : Handle} {o : Object} (hj : s.Holds j) (hfind : s'.heap.find j = .ok o)
      (hc : c ∈ o.children) : s.Holds c := by
    by_cases hjid : j = id
    · subst hjid
      obtain rfl := Except.ok.inj (hr.find.symm.trans hfind)
      exact hchildren c hc
    · exact hs.holds_child hj ((hr.find_of_ne hs.wellFormed hjid).symm.trans hfind) hc
  have hholds (j : Handle) (hj : s'.Holds j) : s.Holds j := by
    refine hj.induct s.Holds (fun r hr' hrlive => ?_) fun _ o c hp hfind hc _ =>
      hchild hp hfind hc
    exact holds_of_root (ha.roots [] ▸ hr') (hlive r ▸ hrlive)
  refine ⟨⟨hr.wellFormed, ?_, ?_, htexts, htable, htidy, fun i j hj =>
    hinterned j _ (hs.singles i j (ha.singles ▸ hj))⟩, hholds⟩
  · intro j hj
    rw [hlive]
    exact hs.rooted j (ha.ownRoots ▸ hj)
  · refine hs.readable_of_settled ha.config ?_ (hsettled.mono fun j hj => hj.1)
      fun j _ hj hbefore => absurd (hholds j hj) hbefore
    apply closed_of_live hr.wellFormed
    intro j o c hj hfind hc
    rw [hlive]
    exact (hchild (hholds j hj) hfind hc).live

/-- What was held stays held if the object refers to what it referred to before. -/
theorem Holds.of_rewrites {j : Handle} (hj : s.Holds j) (hs : s.Sound) (ha : s.Alike s')
    (hfind : s.heap.find id = .ok o) (hr : s.heap.Rewrites id o' s'.heap)
    (hchildren : ∀ c ∈ o.children, c ∈ o'.children) : s'.Holds j := by
  have hlive := hr.isLive hs.wellFormed (Heap.isLive_of_find hfind)
  refine hj.induct s'.Holds ?_ ?_
  · intro r hr' hrlive
    exact holds_of_root (ha.roots [] ▸ hr') ((hlive r).trans hrlive)
  · intro p x c hp hx hc hclive
    refine ⟨(hlive c).trans hclive, ?_⟩
    by_cases hpid : p = id
    · subst hpid
      obtain rfl := Except.ok.inj (hfind.symm.trans hx)
      exact .child hp.reaches hr.find (hchildren c hc)
    · exact .child hp.reaches ((hr.find_of_ne hs.wellFormed hpid).trans hx) hc

/-- What leads to an object does not depend on what the object refers to. -/
theorem Holds.self_of_rewrites (hid : s.Holds id) (hs : s.Sound) (ha : s.Alike s')
    (hr : s.heap.Rewrites id o' s'.heap) : s'.Holds id := by
  have hlive := hr.isLive hs.wellFormed hid.live
  -- a chain that comes to the object on the way has come to it already
  refine or_self_iff.mp (hid.induct (fun j => s'.Holds id ∨ s'.Holds j) ?_ ?_)
  · intro r hr' hrlive
    exact Or.inr (holds_of_root (ha.roots [] ▸ hr') ((hlive r).trans hrlive))
  · intro p x c hp hx hc hclive
    by_cases hpid : p = id
    · subst hpid
      exact Or.inl (or_self_iff.mp hp)
    · refine hp.imp_right fun hp => ⟨(hlive c).trans hclive, ?_⟩
      exact .child hp.reaches ((hr.find_of_ne hs.wellFormed hpid).trans hx) hc

/-- An object that is no string changes to another one that is no string. -/
theorem Sound.rewrite (hs : s.Sound) (hid : s.Holds id) (hfind : s.heap.find id = .ok o)
    (hr : s.heap.Rewrites id o' h') (ho : ∀ t, o ≠ .string t) (ho' : ∀ t, o' ≠ .string t)
    (hchildren : ∀ c ∈ o'.children, s.Holds c) :
    ({ s with heap := h' } : Store).Sound ∧ s.heap.Settled h' s.Holds ∧
      s.Alike { s with heap := h' } ∧
      ∀ j, ({ s with heap := h' } : Store).Holds j → s.Holds j := by
  have htext (j : Handle) (t : Text) : h'.text j = .ok t ↔ s.heap.text j = .ok t :=
    hr.text hs.wellFormed hfind ho ho'
  have hsettled : s.heap.Settled h' s.Holds := by
    refine Heap.settled_of_text ?_ ?_
      fun j t hj ht => ⟨t, (htext j t).mp ht⟩
    · intro j t c hj ht hc
      exact hs.readable.text_child hj ((htext j t).mp ht) hc
    · intro j t hj ht
      exact ⟨t, (htext j t).mpr ht, .refl t, fun u w hbuffer hw =>
        (Heap.Spells.buffer ht hbuffer).unique hw⟩
  have htexts : ∀ e ∈ s.numberTexts, h'.NumberText e.1 e.2 := by
    intro e he
    obtain ⟨interned, ht⟩ := hs.numberTexts e he
    exact ⟨interned, (htext e.2 _).mpr ht⟩
  have hinterned (j : Handle) (w : List UInt16) : h'.Interned j w ↔ s.heap.Interned j w := by
    unfold Heap.Interned
    simp only [htext]
  have halike : s.Alike { s with heap := h' } := ⟨rfl, rfl, rfl, rfl, rfl, rfl, Nat.le_refl _,
    Heap.retains_of_interned hr.fullCollections fun j w => (hinterned j w).mpr⟩
  obtain ⟨hsound, hholds⟩ : ({ s with heap := h' } : Store).Sound ∧
      ∀ j, ({ s with heap := h' } : Store).Holds j → s.Holds j :=
    hs.of_rewrites halike hid hr hchildren hsettled htexts (hs.table.congr rfl rfl hinterned)
      (hs.tidy.rewrites hr hs.wellFormed htext) fun j w => (hinterned j w).mpr
  exact ⟨hsound, hsettled, halike, hholds⟩

/-- A string with a buffer becomes the canonical one of its content. -/
theorem Sound.intern (hs : s.Sound) (hid : s.Holds id) (htext : s.heap.text id = .ok t)
    (hbuffer : t.buffer? = some u) (hnot : t.isInterned = false)
    (hnew : ∀ j, ¬ s.heap.Interned j u.toList) (hold : s.heap.spaceOf id = .ok .old)
    (hr : s.heap.Rewrites id (.string t.intern) h') :
    let s' : Store := { s with
      heap := h', table := s.table.insert (s.table.hash u.toList) id }
    s'.Sound ∧ s.heap.Settled h' s.Holds ∧ s.Alike s' ∧ ∀ j, s'.Holds j → s.Holds j := by
  have hafter : h'.text id = .ok t.intern := Heap.text_eq_ok.mpr hr.find
  have hchildren : ∀ c ∈ (Object.string t.intern).children, s.Holds c := by
    intro c hc
    rw [Object.children, Text.children_intern] at hc
    exact hs.readable.text_child hid htext hc
  have hsettled : s.heap.Settled h' s.Holds :=
    hr.settled_intern hs.wellFormed hs.readable.toClosed htext
  have hinterned (j : Handle) (w : List UInt16) : h'.Interned j w ↔ _ :=
    hr.interned_iff hs.wellFormed htext hbuffer hnot
  have hfresh (v : List UInt16) : ¬ s.heap.Interned id v :=
    Heap.not_interned_of_find (Heap.text_eq_ok.mp htext) hnot
  have htexts : ∀ e ∈ s.numberTexts, h'.NumberText e.1 e.2 := by
    intro e he
    obtain ⟨interned, ht⟩ := hs.numberTexts e he
    by_cases heid : e.2 = id
    · rw [heid] at ht ⊢
      obtain rfl := Except.ok.inj (htext.symm.trans ht)
      exact ⟨true, hafter⟩
    · exact ⟨interned, hr.text_of_ne hs.wellFormed heid ▸ ht⟩
  intro s'
  have hkept (j : Handle) (w : List UInt16) (hj : s.heap.Interned j w) : h'.Interned j w :=
    (hinterned j w).mpr (Or.inl hj)
  have halike : s.Alike s' := ⟨rfl, rfl, rfl, rfl, rfl, rfl, Nat.le_refl _,
    Heap.retains_of_interned hr.fullCollections hkept⟩
  obtain ⟨hsound, hholds⟩ : s'.Sound ∧ ∀ j, s'.Holds j → s.Holds j :=
    hs.of_rewrites halike hid hr hchildren hsettled htexts (hs.table.insert hnew hfresh hinterned)
      (hs.tidy.intern hr hs.wellFormed htext hbuffer hnot hold) hkept
  exact ⟨hsound, hsettled, halike, hholds⟩

end Store

/-! ## Running a change -/

section Ends

variable {s : Store} {id : Handle} {o : Object}

theorem ends_modifyObject (hw : s.heap.WellFormed) (hfind : s.heap.find id = .ok o)
    (f : Object → Object) :
    Ends (StoreM.onHeap (HeapM.modifyObject id f)) s
      (fun _ s' => ∃ h', s.heap.Rewrites id (f o) h' ∧ s' = { s with heap := h' })
      (fun _ _ => False) := by
  rw [ends_onHeap]
  exact (hw.ends_modifyObject hfind f).mono (fun _ h' hr => ⟨h', hr, rfl⟩)
    fun _ _ hfail => hfail

theorem ends_growObject (hw : s.heap.WellFormed) (hfind : s.heap.find id = .ok o)
    (f : Object → Object) :
    Ends (StoreM.growObject id f) s
      (fun _ s' => ∃ h', s.heap.Rewrites id (f o) h' ∧ s' = { s with heap := h' })
      (fun e _ => e = .wordOverflow) := by
  unfold StoreM.growObject
  rw [ends_onHeap, ends_bind]
  refine (hw.ends_modifyObject hfind f).mono (fun _ h' hr => ?_)
    fun _ _ hfail => hfail.elim
  have hlive : h'.isLive id = true := Heap.isLive_of_find hr.find
  exact (hr.wellFormed.ends_reaccount hlive).mono (fun _ h'' hm => ⟨h'', hr.measures hm, rfl⟩)
    fun _ _ hfail => hfail.1

/-- A change of whatever the handle names; nothing changes if that is dead. -/
theorem ends_modifyObject_any (hw : s.heap.WellFormed) (id : Handle) (f : Object → Object) :
    Ends (StoreM.onHeap (HeapM.modifyObject id f)) s
      (fun _ s' => ∃ o h', s.heap.find id = .ok o ∧ s.heap.Rewrites id (f o) h' ∧
        s' = { s with heap := h' })
      (fun _ s' => s' = s) := by
  cases hlive : s.heap.isLive id with
  | true =>
      obtain ⟨o, ho⟩ := hw.isLive_iff_find.mp hlive
      exact (ends_modifyObject hw ho f).mono (fun _ _ ⟨h', hr, hs'⟩ => ⟨o, h', ho, hr, hs'⟩)
        fun _ _ hfail => hfail.elim
  | false =>
      unfold HeapM.modifyObject
      rw [ends_onHeap, ends_bind]
      exact (ends_heapRead_error (Heap.locate_of_dead hlive)).mpr rfl

theorem ends_growObject_any (hw : s.heap.WellFormed) (id : Handle) (f : Object → Object) :
    Ends (StoreM.growObject id f) s
      (fun _ s' => ∃ o h', s.heap.find id = .ok o ∧ s.heap.Rewrites id (f o) h' ∧
        s' = { s with heap := h' })
      (fun e s' => s' = s ∨ e = .wordOverflow) := by
  cases hlive : s.heap.isLive id with
  | true =>
      obtain ⟨o, ho⟩ := hw.isLive_iff_find.mp hlive
      exact (ends_growObject hw ho f).mono (fun _ _ ⟨h', hr, hs'⟩ => ⟨o, h', ho, hr, hs'⟩)
        fun _ _ hfail => Or.inr hfail
  | false =>
      unfold StoreM.growObject HeapM.modifyObject
      rw [ends_onHeap, bind_assoc, ends_bind]
      exact (ends_heapRead_error (Heap.locate_of_dead hlive)).mpr (Or.inl rfl)

end Ends

end ManagedHeap
