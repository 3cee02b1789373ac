import ManagedHeap.Proofs.Layouts

/-!
# The texts of numbers

The texts of numbers are no roots, so nothing but the store itself keeps them up to date.  All
collections run through `StoreM.collect`, which drops the texts before it does anything else,
and a text is put on the list only when it has its place.  Between the two, nobody but the
operations that ask for such a text touches the list.

What is said of the list speaks of the number of collections, too (`Kept.Follows`): an operation
leaves the list alone, or there was a collection and the list is empty.  That a collection
was counted is known only where it comes to its end, which takes a heap that is well formed.
Operations that ask for a text come to such a list and may put one more text on it
(`Kept.Turns`).
-/

namespace ManagedHeap

open Store

variable {α : Type} {s s' : Store} {k k' k'' : Kept} {number other : Double} {id found : Handle}
  {value : Value}

/-! ## What follows without a text being asked for -/

/-- The texts are the same and there was no collection, or there was one and there are none. -/
def Kept.Follows (k k' : Kept) : Prop :=
  k'.numberTexts = k.numberTexts ∧ k'.collections = k.collections ∨
    k'.numberTexts = [] ∧ k.collections < k'.collections

theorem Kept.Follows.refl (k : Kept) : k.Follows k :=
  Or.inl ⟨rfl, rfl⟩

theorem Kept.Follows.trans (hfirst : k.Follows k') (hsecond : k'.Follows k'') : k.Follows k'' := by
  rcases hfirst with ⟨htexts, hcount⟩ | ⟨htexts, hmore⟩
  · rcases hsecond with ⟨htexts', hcount'⟩ | ⟨htexts', hmore'⟩
    · exact Or.inl ⟨htexts'.trans htexts, hcount'.trans hcount⟩
    · exact Or.inr ⟨htexts', hcount ▸ hmore'⟩
  · rcases hsecond with ⟨htexts', hcount'⟩ | ⟨htexts', hmore'⟩
    · exact Or.inr ⟨htexts'.trans htexts, hcount' ▸ hmore⟩
    · exact Or.inr ⟨htexts', hmore.trans hmore'⟩

theorem Store.Prepares.follows {space : Space} {held : List Handle}
    (hp : s.Prepares space held s') : s.kept.Follows s'.kept := by
  cases hp with
  | once => exact .refl _
  | twice _ _ => exact Or.inr ⟨rfl, Nat.lt_succ_self _⟩

theorem ends_collect_follows (hw : s.heap.WellFormed) (space : Space) (held : List Handle) :
    Ends (StoreM.collect space held) s (fun _ s' => s.kept.Follows s'.kept)
      fun e _ => e = .wordOverflow := by
  refine (ends_collect hw space held).mono (fun done s' hend => ?_) fun _ _ hfail => hfail.1
  obtain ⟨h', -, -, rfl⟩ := hend
  exact Or.inr ⟨rfl, Nat.lt_succ_self _⟩

theorem ends_fulfil_follows (hw : s.heap.WellFormed) (request : HeapM.Request)
    (held : List Handle) (build : Unit → Object) :
    Ends (StoreM.fulfil request held build) s
      (fun _ s' => s'.heap.WellFormed ∧ s.kept.Follows s'.kept)
      (fun e s' => s'.heap.WellFormed ∧ s.kept.Follows s'.kept ∨ e = .wordOverflow) := by
  refine (ends_fulfil_prepares hw request held).mono ?_ fun e s' hfail => hfail.imp_left ?_
  · rintro id s' ⟨before, h', outages, hprepares, -, hgains, rfl⟩
    exact ⟨hgains.wellFormed, hprepares.follows⟩
  · rintro ⟨before, outages, hprepares, hbefore, rfl⟩
    exact ⟨hbefore, hprepares.follows⟩

theorem ends_flatten_follows (hw : s.heap.WellFormed) (id : Handle) :
    Ends (StoreM.flatten id) s (fun _ s' => s.kept.Follows s'.kept)
      (fun e s' => s.kept.Follows s'.kept ∨ e = .wordOverflow) := by
  unfold StoreM.flatten StoreM.text
  rw [ends_bind, ends_inspect]
  refine ⟨fun t _ => ?_, fun _ _ => Or.inl (.refl _)⟩
  split
  case h_2 => exact Kept.Follows.refl _
  case h_1 node =>
      rw [ends_bind, ends_inspect]
      refine ⟨fun units _ => ?_, fun _ _ => Or.inl (.refl _)⟩
      unfold StoreM.openScope StoreM.track
      simp only [ends_bind, ends_get, ends_pure, ends_modify]
      refine (ends_fulfil_follows (s := { s with scope := s.scope.push id }) hw _ _ _).mono ?_
        fun _ _ hfail => hfail.imp_left And.right
      rintro flat s₂ ⟨-, hfollows⟩
      rw [ends_onHeap]
      exact (ends_self _ _).mono (fun _ _ _ => hfollows) fun _ _ _ => Or.inl hfollows

/-- The texts follow in a heap that stays well formed. -/
theorem uniform_follows (k : Kept) :
    Uniform (fun h kept => h.WellFormed ∧ k.Follows kept) fun _ _ => True where
  fulfil request held build _ := by
    rintro s ⟨hw, hfollows⟩
    exact (ends_fulfil_follows hw request held build).mono
      (fun _ _ hend => ⟨hend.1, hfollows.trans hend.2⟩) fun _ _ hfail =>
        hfail.imp (fun hend => ⟨hend.1, hfollows.trans hend.2⟩) fun he => ⟨he, trivial⟩
  modifyObject id f _ := by
    rintro s ⟨hw, hfollows⟩
    refine (ends_modifyObject_any hw id f).mono ?_ fun _ _ hsame => Or.inl (hsame ▸ ⟨hw, hfollows⟩)
    rintro _ s' ⟨o, h', ho, hr, rfl⟩
    exact ⟨hr.wellFormed, hfollows⟩
  growObject id f := by
    rintro s ⟨hw, hfollows⟩
    refine (ends_growObject_any hw id f).mono ?_ ?_
    · rintro _ s' ⟨o, h', ho, hr, rfl⟩
      exact ⟨hr.wellFormed, hfollows⟩
    · rintro e s' (rfl | he)
      · exact Or.inl ⟨hw, hfollows⟩
      · exact Or.inr ⟨he, trivial⟩

section Follows

variable {m : StoreM α}

/-- What is told of the layouts and of the texts can be told together. -/
theorem follows_and (hordered : PreservesFrom (fun h _ => h.Ordered) (fun _ _ => True) s m)
    (hfollows : PreservesFrom (fun _ kept => k.Follows kept) (fun _ _ => True) s m) :
    PreservesFrom (fun h kept => h.Ordered ∧ k.Follows kept) (fun _ _ => True) s m := by
  refine (hordered.and hfollows).mono (fun _ _ hend => hend) ?_
  rintro e s' ⟨hfirst | hfirst, hsecond | hsecond⟩
  · exact Or.inl ⟨hfirst, hsecond⟩
  · exact Or.inr hsecond
  · exact Or.inr hfirst
  · exact Or.inr hfirst

theorem follows_of_uniform (hs : s.heap.Ordered ∧ k.Follows s.kept)
    (hordered : PreservesFrom (fun h _ => h.Ordered) (fun _ _ => True) s m)
    (huniform : Preserves (fun h kept => h.WellFormed ∧ k.Follows kept) (fun _ _ => True) m) :
    PreservesFrom (fun h kept => h.Ordered ∧ k.Follows kept) (fun _ _ => True) s m :=
  follows_and hordered ((huniform s ⟨hs.1.toWellFormed, hs.2⟩).mono (fun _ _ hend => hend.2)
    fun _ _ hfail => hfail.imp_left And.right)

end Follows

/-- An operation that asks for no text leaves the texts alone, if no collection drops them. -/
theorem lasting_follows (k : Kept) :
    Lasting (fun h kept => h.Ordered ∧ k.Follows kept) fun _ _ => True where
  collect space held s hs := by
    refine follows_and (lasting_ordered.collect space held s hs.1) ?_
    exact (ends_collect_follows hs.1.toWellFormed space held).mono
      (fun _ _ hend => hs.2.trans hend) fun _ _ he => Or.inr ⟨he, trivial⟩
  fulfil request held build hsize ho s hs :=
    follows_of_uniform hs (lasting_ordered.fulfil request held build hsize ho s hs.1)
      ((uniform_follows k).fulfil request held build hsize)
  modifyObject id f hspares hsize s hs :=
    follows_of_uniform hs (lasting_ordered.modifyObject id f hspares hsize s hs.1)
      ((uniform_follows k).modifyObject id f hsize)
  growObject id f hspares s hs :=
    follows_of_uniform hs (lasting_ordered.growObject id f hspares s hs.1)
      ((uniform_follows k).growObject id f)
  flatten id s hs := by
    refine follows_and (lasting_ordered.flatten id s hs.1) ?_
    exact (ends_flatten_follows hs.1.toWellFormed id).mono (fun _ _ hend => hs.2.trans hend)
      fun _ _ hfail => hfail.imp hs.2.trans fun he => ⟨he, trivial⟩
  newNativeContext s hs :=
    follows_of_uniform hs (lasting_ordered.newNativeContext s hs.1)
      (uniform_follows k).impartial.newNativeContext
  innerContext s kind closure previous extension inside native slots space hs hnative :=
    follows_of_uniform hs (lasting_ordered.innerContext s kind closure previous extension inside
      native slots space hs.1 hnative) ((uniform_follows k).impartial.allocate _ space)
  shapeFor id names s hs :=
    follows_of_uniform hs (lasting_ordered.shapeFor id names s hs.1)
      ((uniform_follows k).impartial.shapeFor id names)

/-! ## Asking for a text -/

/-- The list after the text of one more number was put on it. -/
def Kept.withText (k : Kept) (number : Double) (id : Handle) : List (Double × Handle) :=
  (number, id) :: if StoreM.numberTextLimit ≤ k.numberTexts.length then [] else k.numberTexts

/-- The text of a number was missing, and was put on the list that had followed by then. -/
def Kept.Admits (k k' : Kept) : Prop :=
  ∃ between number id, k.Follows between ∧ between.numberTexts.lookup number = none ∧
    k'.numberTexts = between.withText number id ∧ k'.collections = between.collections

/-- What a step does to the texts of numbers. -/
def Kept.Turns (k k' : Kept) : Prop :=
  k.Follows k' ∨ k.Admits k'

theorem Kept.Follows.lookup_eq_none (hf : k.Follows k')
    (hnone : k.numberTexts.lookup number = none) : k'.numberTexts.lookup number = none := by
  rcases hf with ⟨htexts, -⟩ | ⟨htexts, -⟩
  · rwa [htexts]
  · rw [htexts, List.lookup_nil]

theorem Kept.Follows.turns (hf : k.Follows k') (ht : k'.Turns k'') : k.Turns k'' := by
  rcases ht with hsecond | ⟨between, number, id, hsecond, hmissing, htexts, hcount⟩
  · exact Or.inl (hf.trans hsecond)
  · exact Or.inr ⟨between, number, id, hf.trans hsecond, hmissing, htexts, hcount⟩

/-- There are no more texts than can be kept, and one for a number. -/
structure Kept.Limited (k : Kept) : Prop where
  length_le : k.numberTexts.length ≤ StoreM.numberTextLimit
  distinct : (k.numberTexts.map Prod.fst).Nodup

theorem Kept.limited_of_nil (hnone : k.numberTexts = []) : k.Limited := by
  constructor <;> simp [hnone]

theorem Kept.Follows.limited (hf : k.Follows k') (hk : k.Limited) : k'.Limited := by
  rcases hf with ⟨htexts, -⟩ | ⟨htexts, -⟩
  · exact ⟨htexts ▸ hk.length_le, htexts ▸ hk.distinct⟩
  · exact limited_of_nil htexts

theorem Kept.Turns.limited (ht : k.Turns k') (hk : k.Limited) : k'.Limited := by
  rcases ht with hf | ⟨between, number, id, hf, hmissing, htexts, -⟩
  · exact hf.limited hk
  · have hbetween := hf.limited hk
    unfold withText at htexts
    split at htexts
    case isTrue => constructor <;> simp [htexts, StoreM.numberTextLimit]
    case isFalse hroom =>
        refine ⟨?_, ?_⟩
        · rw [htexts, List.length_cons]
          omega
        · rw [htexts, List.map_cons, List.nodup_cons]
          refine ⟨fun hmem => ?_, hbetween.distinct⟩
          obtain ⟨e, he, rfl⟩ := List.mem_map.mp hmem
          simpa using List.lookup_eq_none_iff.mp hmissing e he

/-- The texts give way to a new one, because there are as many as can be kept. -/
def Kept.Resets (k k' : Kept) : Prop :=
  k.numberTexts.length = StoreM.numberTextLimit ∧ ∃ e, k'.numberTexts = [e]

/-- A text stays on the list until a collection or a reset. -/
theorem Kept.Turns.lookup (ht : k.Turns k') (hk : k.Limited)
    (hcount : k'.collections = k.collections) (hreset : ¬ k.Resets k')
    (hkept : k.numberTexts.lookup number = some id) :
    k'.numberTexts.lookup number = some id := by
  have hsame {between : Kept} (hf : k.Follows between)
      (hcount' : between.collections = k.collections) :
      between.numberTexts = k.numberTexts := by
    rcases hf with ⟨htexts, -⟩ | ⟨-, hmore⟩
    · exact htexts
    · omega
  rcases ht with hf | ⟨between, other, found, hf, hmissing, htexts, hcount'⟩
  · rwa [hsame hf hcount]
  · have hbetween := hsame hf (hcount'.symm.trans hcount)
    rw [Kept.withText, hbetween] at htexts
    rw [hbetween] at hmissing
    split at htexts
    case isTrue hfull => exact absurd ⟨Nat.le_antisymm hk.length_le hfull, _, htexts⟩ hreset
    case isFalse =>
        -- the number of the new text was missing, so it is another one
        have hne : (number == other) = false := by
          rw [beq_eq_false_iff_ne]
          rintro rfl
          simp [hmissing] at hkept
        rw [htexts, List.lookup_cons, hne]
        exact hkept

/-- A text that is kept is given out, and no object is placed. -/
theorem numberText_of_kept (hnumber : s.heap.number? value = .ok (some number))
    (hkept : s.numberTexts.lookup number = some id) :
    StoreM.numberText value s = .ok id { s with scope := s.scope.push id } := by
  unfold StoreM.numberText
  rw [run_bind (run_inspect hnumber)]
  simp only
  rw [run_get, hkept]
  rfl

/-- A text that is missing is placed, and is the first of the list afterwards. -/
theorem numberText_of_missing (hnumber : s.heap.number? value = .ok (some number))
    (hmissing : s.numberTexts.lookup number = none) :
    StoreM.numberText value s = (StoreM.allocateFlat (.ofText number.text) .young >>= fun id => do
      modify fun (s : Store) => { s with numberTexts := s.kept.withText number id }
      return id) s := by
  unfold StoreM.numberText
  rw [run_bind (run_inspect hnumber)]
  simp only
  rw [run_get, hmissing]
  rfl

theorem ends_numberText_turns (hw : s.heap.WellFormed) (value : Value) :
    Ends (StoreM.numberText value) s (fun _ s' => s.kept.Turns s'.kept)
      (fun e s' => s.kept.Turns s'.kept ∨ e = .wordOverflow) := by
  unfold StoreM.numberText
  rw [ends_bind, ends_inspect]
  refine ⟨fun found _ => ?_, fun _ _ => Or.inl (Or.inl (.refl _))⟩
  split
  case h_1 => exact Or.inl (Or.inl (.refl _))
  case h_2 number _ =>
      rw [ends_bind, ends_get]
      split
      case h_1 => exact Or.inl (.refl _)
      case h_2 hmissing =>
          rw [ends_bind]
          refine (ends_fulfil_follows hw _ _ _).mono ?_
            fun _ _ hfail => hfail.imp_left fun hend => Or.inl hend.2
          rintro id s₁ ⟨-, hfollows⟩
          exact Or.inr ⟨s₁.kept, number, id, hfollows, hfollows.lookup_eq_none hmissing, rfl, rfl⟩

theorem ends_unsignedText_turns (hw : s.heap.WellFormed) (value : UInt32) :
    Ends (StoreM.unsignedText value) s (fun _ s' => s.kept.Turns s'.kept)
      (fun e s' => s.kept.Turns s'.kept ∨ e = .wordOverflow) := by
  have hnumber : Preserves (fun h kept => h.WellFormed ∧ s.kept.Follows kept) (fun _ _ => True)
      (StoreM.newUnsigned value) := by
    unfold StoreM.newUnsigned StoreM.newNumber
    split
    · exact upholds_pure
    · exact ((uniform_follows s.kept).impartial.allocate _ _).bind fun _ => upholds_pure
  unfold StoreM.unsignedText
  rw [ends_bind]
  refine (hnumber s ⟨hw, .refl _⟩).mono ?_
    fun _ _ hfail => hfail.imp (fun hend => Or.inl hend.2) And.left
  rintro found s₁ ⟨hw₁, hfollows⟩
  exact (ends_numberText_turns hw₁ found).mono (fun _ _ => hfollows.turns)
    fun _ _ hfail => hfail.imp_left hfollows.turns

/-! ## Steps -/

/-- Every step lets the texts of numbers follow, and puts one more on the list at most. -/
theorem Step.Leads.turns {step : Step} (hl : step.Leads s s') (hs : s.heap.Ordered) :
    s.kept.Turns s'.kept := by
  have hends : Ends step.run s (fun _ s' => s.kept.Turns s'.kept)
      fun e s' => s.kept.Turns s'.kept ∨ e = .wordOverflow := by
    cases hasks : step.asksText with
    | false =>
        rcases step.isOrdinary_or with hstep | ⟨object, space, rfl⟩ | ⟨id, rfl | rfl⟩
        · exact ((lasting_follows s.kept).step hstep (by simp [hasks]) s ⟨hs, .refl _⟩).mono
            (fun _ _ hend => Or.inl hend.2) fun _ _ hfail => hfail.imp (Or.inl ·.2) And.left
        · exact absurd rfl (hl.1.plain object space)
        · refine ends_bind.mpr ((ends_persist s id).mono ?_ ?_)
          · rintro _ s' ⟨-, rfl⟩
            exact Or.inl (Or.inl ⟨rfl, rfl⟩)
          · rintro e s' ⟨-, -, rfl⟩
            exact Or.inl (Or.inl (Or.inl ⟨rfl, rfl⟩))
        · exact Or.inl (Or.inl ⟨rfl, rfl⟩)
    | true =>
        obtain ⟨value, rfl⟩ | ⟨value, rfl⟩ := step.exists_of_asksText hasks
        · exact ends_bind.mpr (ends_numberText_turns hs.toWellFormed value)
        · exact ends_bind.mpr (ends_unsignedText_turns hs.toWellFormed value)
  rcases hl.2 with ⟨outcome, hrun⟩ | ⟨e, hrun, he⟩
  · exact hends.of_ok hrun
  · exact (hends.of_error hrun).resolve_right he

end ManagedHeap
