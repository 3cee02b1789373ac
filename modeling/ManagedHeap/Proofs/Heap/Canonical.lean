import ManagedHeap.Proofs.Heap.Collection
import ManagedHeap.Proofs.InternTable

/-!
# Canonical strings in a heap

An interned string is the canonical one of its content for as long as it is live, whether
anything refers to it or not.  A heap is `Tidy` if all of them are in the old space, where
a collection of the young space leaves them alone, and if a word can count the units of
every buffer.  Then a heap `Retains` its interned strings until it is collected in full.

Each change of a heap keeps it tidy and retains the interned strings, if the change makes
no string interned that is not in the old space.
-/

namespace ManagedHeap

namespace Heap

variable {h h' h'' : Heap} {id j f : Handle} {o : Object} {t : Text} {u : Units}
  {w : List UInt16} {space : Space} {roots : List Handle}

/-! ## Interned strings -/

theorem Interned.live (hi : h.Interned id w) : h.isLive id = true := by
  obtain ⟨t, u, htext, -⟩ := hi
  exact isLive_of_find (text_eq_ok.mp htext)

theorem Interned.spells (hi : h.Interned id w) : h.Spells id w := by
  obtain ⟨t, u, htext, -, hbuffer, rfl⟩ := hi
  exact .buffer htext hbuffer

/-- A string that is marked as interned has a buffer, so it is the canonical one of what it
spells. -/
theorem interned_of_text (htext : h.text id = .ok t) (hflag : t.isInterned = true)
    (hw : h.Spells id w) : h.Interned id w := by
  obtain ⟨u, hu⟩ := Text.exists_buffer_of_interned hflag
  exact ⟨t, u, htext, hflag, hu, (Spells.buffer htext hu).unique hw⟩

/-- Whether a string is interned is seen where it is found. -/
theorem interned_congr (hfind : h'.find j = h.find j) : h'.Interned j w ↔ h.Interned j w := by
  unfold Interned
  simp only [text_eq_ok, hfind]

theorem not_interned_of_find (hfind : h.find id = .ok (.string t)) (hnot : t.isInterned = false) :
    ¬ h.Interned id w := by
  intro hi
  obtain ⟨t', u, htext, hinterned, -⟩ := hi
  obtain rfl : t = t' := by simpa [hfind] using text_eq_ok.mp htext
  rw [hnot] at hinterned
  simp at hinterned

/-- The canonical strings of a heap are those of another one, unless a full collection was
done meanwhile. -/
structure Retains (h h' : Heap) : Prop where
  fullCollections : h.fullCollections ≤ h'.fullCollections
  interned : h'.fullCollections = h.fullCollections → ∀ id w, h.Interned id w → h'.Interned id w

theorem Retains.refl (h : Heap) : h.Retains h :=
  ⟨Nat.le_refl _, fun _ _ _ hi => hi⟩

theorem Retains.trans (hfirst : h.Retains h') (hsecond : h'.Retains h'') : h.Retains h'' where
  fullCollections := hfirst.fullCollections.trans hsecond.fullCollections
  interned heq id w hi := by
    have hle := hfirst.fullCollections
    have hle' := hsecond.fullCollections
    exact hsecond.interned (by omega) id w (hfirst.interned (by omega) id w hi)

/-- A change that no collection is part of, after which the same strings are interned, and
maybe more. -/
theorem retains_of_interned (hfull : h'.fullCollections = h.fullCollections)
    (hinterned : ∀ id w, h.Interned id w → h'.Interned id w) : h.Retains h' :=
  ⟨Nat.le_of_eq hfull.symm, fun _ => hinterned⟩

/-- Interned strings are in the old space, and no buffer is longer than a word can tell. -/
structure Tidy (h : Heap) : Prop where
  old : ∀ id w, h.Interned id w → h.spaceOf id = .ok .old
  short : ∀ id t u, h.text id = .ok t → t.buffer? = some u → u.size < wordLimit

/-! ## Placing, handing over -/

theorem Gains.find_of_ne (hg : h.Gains id o space h') (hw : h.WellFormed) (hj : j ≠ id) :
    h'.find j = h.find j :=
  (hg.others j hj).find hw hg.wellFormed

theorem Gains.isLive_of_ne (hg : h.Gains id o space h') (hw : h.WellFormed) (hj : j ≠ id) :
    h'.isLive j = h.isLive j :=
  (hg.others j hj).isLive hw hg.wellFormed

theorem Gains.ne_of_live (hg : h.Gains id o space h') (hlive : h.isLive j = true) : j ≠ id := by
  rintro rfl
  rw [hg.dead] at hlive
  simp at hlive

/-- What was there before is unchanged. -/
theorem Gains.find_live {o' : Object} (hg : h.Gains id o space h') (hw : h.WellFormed)
    (hfind : h.find j = .ok o') : h'.find j = .ok o' :=
  (hg.find_of_ne hw (hg.ne_of_live (isLive_of_find hfind))).trans hfind

theorem Gains.spaceOf_live (hg : h.Gains id o space h') (hw : h.WellFormed)
    (hlive : h.isLive j = true) : h'.spaceOf j = h.spaceOf j :=
  (hg.others j (hg.ne_of_live hlive)).spaceOf hw hlive

/-- An object that is placed is not interned yet. -/
theorem Gains.interned_iff (hg : h.Gains id o space h') (hw : h.WellFormed)
    (hplain : ∀ t, o = .string t → t.isInterned = false) :
    h'.Interned j w ↔ h.Interned j w := by
  by_cases hj : j = id
  · subst hj
    refine iff_of_false ?_ fun hi => hg.ne_of_live hi.live rfl
    rintro ⟨t, u, htext, hinterned, -⟩
    obtain rfl := Except.ok.inj (hg.find.symm.trans (text_eq_ok.mp htext))
    rw [hplain t rfl] at hinterned
    simp at hinterned
  · exact interned_congr (hg.find_of_ne hw hj)

theorem Gains.retains (hg : h.Gains id o space h') (hw : h.WellFormed)
    (hplain : ∀ t, o = .string t → t.isInterned = false) : h.Retains h' :=
  retains_of_interned hg.fullCollections fun _ _ => (hg.interned_iff hw hplain).mpr

theorem Tidy.gains (ht : h.Tidy) (hg : h.Gains id o space h') (hw : h.WellFormed)
    (hplain : ∀ t, o = .string t → t.isInterned = false)
    (hshort : ∀ t u, o = .string t → t.buffer? = some u → u.size < wordLimit) : h'.Tidy where
  old j w hj := by
    have hbefore := (hg.interned_iff hw hplain).mp hj
    rw [(hg.others j (hg.ne_of_live hbefore.live)).spaceOf hw hbefore.live]
    exact ht.old j w hbefore
  short j t u htext hbuffer := by
    rw [text_eq_ok] at htext
    by_cases hj : j = id
    · subst hj
      exact hshort t u (Except.ok.inj (hg.find.symm.trans htext)) hbuffer
    · rw [hg.find_of_ne hw hj, ← text_eq_ok] at htext
      exact ht.short j t u htext hbuffer

/-- The string `f` that is handed over is not interned, and neither was what it replaces. -/
theorem Hands.interned_iff (hh : h.Hands f id h') (hw : h.WellFormed)
    (hplain : ∀ w, ¬ h.Interned f w) (hplain' : ∀ w, ¬ h.Interned id w) :
    h'.Interned j w ↔ h.Interned j w := by
  by_cases hjid : j = id
  · subst hjid
    refine iff_of_false (fun hi => hplain w ?_) (hplain' w)
    unfold Interned at hi ⊢
    simpa only [text_eq_ok, hh.find] using hi
  · by_cases hjf : j = f
    · subst hjf
      refine iff_of_false (fun hi => ?_) (hplain w)
      have hlive := hi.live
      rw [hh.dead] at hlive
      simp at hlive
    · exact interned_congr ((hh.others j hjf hjid).find hw hh.wellFormed)

theorem Tidy.hands (ht : h.Tidy) (hh : h.Hands f id h') (hw : h.WellFormed)
    (hplain : ∀ w, ¬ h.Interned f w) (hplain' : ∀ w, ¬ h.Interned id w) : h'.Tidy where
  old j w hj := by
    have hbefore := (hh.interned_iff hw hplain hplain').mp hj
    -- neither handle is canonical before, so that a canonical string is another one
    have hjf : j ≠ f := by
      rintro rfl
      exact hplain w hbefore
    have hjid : j ≠ id := by
      rintro rfl
      exact hplain' w hbefore
    rw [(hh.others j hjf hjid).spaceOf hw hbefore.live]
    exact ht.old j w hbefore
  short j t u htext hbuffer := by
    rw [text_eq_ok] at htext
    by_cases hjid : j = id
    · rw [hjid, hh.find, ← text_eq_ok] at htext
      exact ht.short f t u htext hbuffer
    · by_cases hjf : j = f
      · rw [hjf, find_of_dead hh.dead] at htext
        simp at htext
      · rw [(hh.others j hjf hjid).find hw hh.wellFormed, ← text_eq_ok] at htext
        exact ht.short j t u htext hbuffer

/-! ## Collections -/

/-- What frees and moves objects leaves the number of full collections as it is. -/
private def Uncounted {α : Type} (m : HeapM α) : Prop :=
  ∀ h, Ends m h (fun _ h' => h'.fullCollections = h.fullCollections) fun _ _ => True

private theorem uncounted_onArena {α : Type} (space : Space) (act : EStateM Fault Arena α) :
    Uncounted (HeapM.onArena space act) := by
  intro h
  rw [ends_onArena]
  unfold Ends
  cases act (h.arena space) with
  | ok a arena => exact fullCollections_setArena arena
  | error e arena => trivial

private theorem uncounted_range {β : Type} {f : β → Nat → HeapM β}
    (hf : ∀ b k, Uncounted (f b k)) (n : Nat) (b : β) :
    Uncounted ((List.range n).foldlM f b) := by
  intro h
  refine ends_foldlM_range (fun _ _ (g : Heap) => g.fullCollections = h.fullCollections) ?_ rfl
  intro k b g _ hg
  exact (hf b k g).mono (fun _ _ hend => hend.trans hg) fun _ _ hfail => hfail

private theorem uncounted_markAll (roots : List Handle) : Uncounted (HeapM.markAll roots) := by
  intro h
  unfold Ends HeapM.markAll
  cases h.markFrom h.handles.size roots.reverse 0 .empty <;> simp

private theorem uncounted_sweep (space : Space) : Uncounted (HeapM.sweep space) := by
  intro h
  unfold HeapM.sweep
  simp only [ends_bind, ends_get, ends_modify, ends_pure, fullCollections_setArena]
  refine uncounted_range (fun freed slot g => ?_) _ _ h
  unfold HeapM.sweepSlot
  simp only [ends_bind, ends_get]
  split
  case h_1 => exact rfl
  case h_2 =>
      split
      case isTrue => exact rfl
      case isFalse =>
          simp only [ends_bind, HeapM.releaseHandle, ends_modify, ends_pure]
          exact uncounted_onArena _ _ g

private theorem uncounted_promoteSurvivors : Uncounted HeapM.promoteSurvivors := by
  intro h
  unfold HeapM.promoteSurvivors
  simp only [ends_bind, ends_get, ends_modify, ends_pure]
  refine uncounted_range (fun promoted slot g => ?_) _ _ h
  unfold HeapM.promoteSlot
  simp only [ends_bind, ends_get]
  split
  case h_1 => exact rfl
  case h_2 =>
      simp only [ends_bind, HeapM.bindHandle, ends_modify, ends_pure]
      refine (uncounted_onArena _ _ g).mono (fun _ g₁ hfirst => ?_) fun _ _ _ => trivial
      exact (uncounted_onArena _ _ g₁).mono (fun _ _ hsecond => hsecond.trans hfirst)
        fun _ _ _ => trivial

/-- A collection of the old space is a full one, and counts. -/
theorem ends_collect_count (h : Heap) (space : Space) (roots : List Handle) :
    Ends (HeapM.collect space roots) h
      (fun _ h' => h'.fullCollections = h.fullCollections + if space = .old then 1 else 0)
      fun _ _ => True := by
  unfold HeapM.collect HeapM.sweepFor
  simp only [ends_bind, ends_modify, ends_pure]
  refine (uncounted_markAll roots h).mono (fun _ g₁ hmark => ?_) fun _ _ _ => trivial
  -- of all that a collection does, only the end of the second sweep counts
  refine (uncounted_sweep .young g₁).mono (fun young g₂ hyoung => ?_) fun _ _ _ => trivial
  cases space with
  | young =>
      simp only [ends_bind, ends_modify, ends_pure]
      refine (uncounted_promoteSurvivors _).mono (fun _ g₃ hpromote => ?_) fun _ _ _ => trivial
      simpa [hmark, hyoung] using hpromote
  | old =>
      simp only [ends_bind]
      refine (uncounted_sweep .old g₂).mono (fun old g₃ hold => ?_) fun _ _ _ => trivial
      split
      case isTrue => trivial
      case isFalse =>
          simp only [ends_bind, ends_modify, ends_pure]
          refine (uncounted_promoteSurvivors _).mono (fun _ g₄ hpromote => ?_)
            fun _ _ _ => trivial
          simpa [hmark, hyoung, hold] using hpromote

variable {done : HeapM.Collected}

theorem Collects.interned_iff (hc : h.Collects space roots done h') :
    h'.Interned j w ↔ h'.isLive j = true ∧ h.Interned j w := by
  constructor
  · intro hi
    exact ⟨hi.live, (interned_congr (hc.find j hi.live)).mp hi⟩
  · intro h
    obtain ⟨hlive, hi⟩ := h
    exact (interned_congr (hc.find j hlive)).mpr hi

/-- A collection of the young space frees no interned string, and a full one counts. -/
theorem Collects.retains (hc : h.Collects space roots done h') (ht : h.Tidy)
    (hcount : h'.fullCollections = h.fullCollections + if space = .old then 1 else 0) :
    h.Retains h' where
  fullCollections := by omega
  interned hsame id w hi := by
    have hyoung : space = .young := by
      cases space with
      | young => rfl
      | old => simp at hcount; omega
    have hsurvives : h.Survives space roots id := ⟨hi.live, Or.inr ⟨hyoung, ht.old id w hi⟩⟩
    exact hc.interned_iff.mpr ⟨(hc.isLive_iff id).mpr hsurvives, hi⟩

theorem Tidy.collects (ht : h.Tidy) (hc : h.Collects space roots done h') : h'.Tidy where
  old j w hj := hc.spaceOf j hj.live
  short j t u htext hbuffer := by
    have hfind := text_eq_ok.mp htext
    rw [hc.find j (isLive_of_find hfind), ← text_eq_ok] at hfind
    exact ht.short j t u hfind hbuffer

end Heap

end ManagedHeap
