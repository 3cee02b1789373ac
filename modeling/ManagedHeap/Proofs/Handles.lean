import ManagedHeap.Proofs.AllocationProtocol

/-!
# Handles that are given out

Whoever is given a handle can use it at least until it closes a scope or drops a persistent
object, whatever is collected meanwhile.  So the store has to hold the object as soon as it
gives out the handle: the next collection of either space leaves it live and as it is
(`Store.Secures`).

Each operation sees to this in its own way.  Most of them place a new object or push the one
that they found onto the scope.  The readers give out what is reachable from an object that
they were given, and what was cached is a root anyway.  Builtins answer with what they are
given or have made; for answers of their own it takes whoever installs them
(`Store.HoldsAnswers`).

One operation does nothing of this kind.  The interning table is weak, and looking up the
canonical string of a string gives out the entry as it stands there.  If nothing held the
entry before, then nothing holds it afterwards, and the next collection of the old space
removes it (`Store.Loses`).
-/

namespace ManagedHeap

open Store

namespace Store

variable {s : Store} {id : Handle}

/-- The object is held, and outlives a collection of either space as it is. -/
structure Secures (s : Store) (id : Handle) : Prop where
  held : s.Holds id
  outlives : ∀ space, Ends (StoreM.collectGarbage space) s
    (fun _ s' => s'.heap.isLive id = true ∧ s'.heap.find id = s.heap.find id)
    (fun e _ => e = .wordOverflow ∧ wordLimit ≤ s.heap.bytes)

/-- The next collection of the old space removes the object. -/
def Loses (s : Store) (id : Handle) : Prop :=
  Ends (StoreM.collectGarbage .old) s (fun _ s' => s'.heap.isLive id = false)
    (fun e _ => e = .wordOverflow ∧ wordLimit ≤ s.heap.bytes)

theorem Holds.secures (hid : s.Holds id) (hw : s.heap.WellFormed) : s.Secures id := by
  refine ⟨hid, fun space => (ends_collect hw space []).mono ?_ fun _ _ hfail => hfail⟩
  intro _ s' hend
  obtain ⟨h', hc, -, rfl⟩ := hend
  have hlive : h'.isLive id = true := (hc.isLive_iff id).mpr ⟨hid.live, Or.inl hid.reaches⟩
  exact ⟨hlive, hc.find id hlive⟩

theorem loses_of_not_holds (hw : s.heap.WellFormed) (hid : ¬ s.Holds id) : s.Loses id := by
  refine (ends_collect hw .old []).mono ?_ fun _ _ hfail => hfail
  intro _ s' hend
  obtain ⟨h', hc, -, rfl⟩ := hend
  rw [Bool.eq_false_iff]
  intro hlive
  -- only a collection of the young space spares what nothing leads to
  obtain ⟨hbefore, hreach | ⟨hyoung, -⟩⟩ := (hc.isLive_iff id).mp hlive
  · exact hid ⟨hbefore, hreach⟩
  · simp at hyoung

/-! ## Objects that are placed as they are -/

/-- An object that is placed as it is becomes a root at once. -/
theorem Sound.secures_allocated (hs : s.Sound) (o : Object) (space : Space)
    (hlive : ∀ c ∈ o.children, s.heap.isLive c = true) :
    Ends (StoreM.allocate o space) s (fun id s' => s'.Secures id) fun _ _ => True := by
  by_cases hopen : s.gate.isOpen = true
  · refine (hs.ends_allocate hopen o space).mono (fun id s' hend => ?_) fun _ _ _ => trivial
    obtain ⟨collections, before, after, ht, rfl⟩ := hend
    have hplaced := ht.allocates hs hlive
    refine (holds_of_root (mem_roots.mpr (Or.inr (Or.inl ?_)))
      (Heap.isLive_of_find hplaced.find)).secures (ht.wellFormed hs)
    simp [ownRoots]
  · unfold StoreM.allocate StoreM.fulfil
    rw [ends_bind, ends_get, if_pos (by simpa using hopen)]
    trivial

end Store

variable {s : Store}

/-! ## What well-rooted stores give out -/

/-- A well-rooted store secures every object whose handle it gives out, unless that is a
canonical string that was looked up while nothing held it.  Such a string is lost in the next
collection of the old space. -/
theorem WellRooted.rooting (hs : WellRooted s) (hanswers : s.HoldsAnswers) :
    (∀ step : Step, step.Rooted s → Ends step.run s
      (fun outcome s' => ∀ found ∈ outcome.handle?, s'.Secures found ∨
        ∃ id, step = .perform (.interned id) ∧ s.FindsUnheld id found s' ∧ s'.Loses found)
      fun _ _ => True) ∧
    ∀ (o : Object) (space : Space), (∀ c ∈ o.children, s.heap.isLive c = true) →
      Ends (StoreM.allocate o space) s (fun id s' => s'.Secures id) fun _ _ => True := by
  refine ⟨fun step hr => ?_, hs.ready.1.toSound.secures_allocated⟩
  refine ((ends_self step.run s).and (hr.gives hs.ready.1 hs.ready.2 hanswers)).mono
    (fun outcome s' hend => ?_) fun _ _ _ => trivial
  obtain ⟨hrun, hgives⟩ := hend
  -- the store that the step leaves is well rooted, so that a collection of it is exact
  have hs' : WellRooted s' := hs.step ⟨hr, Or.inl ⟨outcome, hrun⟩⟩
  have hw : s'.heap.WellFormed := hs'.ready.1.wellFormed
  intro found hfound
  rcases hgives found hfound with hheld | ⟨id, hop, hunheld⟩
  · exact Or.inl (hheld.secures hw)
  · exact Or.inr ⟨id, hop, hunheld, loses_of_not_holds hw hunheld.after⟩

/-- Whether the values that builtins answer with of their own are no objects or live roots. -/
def Store.rootsAnswers (s : Store) : Bool :=
  s.builtins.entries.all fun e => e.2.constants.all fun v => v.handle?.all s.isLiveRoot

theorem Store.holdsAnswers_of_rootsAnswers (hroots : s.rootsAnswers = true) : s.HoldsAnswers := by
  intro name builtin hfound v hv id hid
  obtain ⟨front, back, hentries, -⟩ := List.lookup_eq_some_iff.mp hfound
  have hmem : (name, builtin) ∈ s.builtins.entries := by simp [hentries]
  have hroot := List.all_eq_true.mp (List.all_eq_true.mp hroots _ hmem) v hv
  rw [Option.mem_def.mp hid] at hroot
  exact holds_of_isLiveRoot hroot

/-- A text that is alive in a scope, and a builtin that answers with it whatever is raised. -/
theorem WellRooted.rooting_answer : ∃ s s' : Store, WellRooted s ∧ s.HoldsAnswers ∧
    (Step.perform (.raise .type "message" #[])).Rooted s ∧
    (Step.perform (.raise .type "message" #[])).run s =
      .ok (.completion ⟨false, .ref ⟨8⟩⟩) s' ∧ s'.Secures ⟨8⟩ := by
  have hcheck : (((Store.create {} none).toOption.bind (replay
      [.perform (.newText "abcdefg" .young), .perform (.register ErrorKind.type.makerName
        (.answer false (.constant (.ref ⟨8⟩))))])).any fun s =>
      s.rootsAnswers && Step.isDirect (.perform (.raise .type "message" #[])) s &&
      (s.result? (Step.run (.perform (.raise .type "message" #[])))).any fun result =>
        decide (result.1 = .completion ⟨false, .ref ⟨8⟩⟩)) = true := by
    decide +kernel
  obtain ⟨s, hs, hcheck⟩ := WellRooted.exists_replay hcheck
  simp only [Bool.and_eq_true, decide_eq_true_eq, Option.any_eq_true] at hcheck
  obtain ⟨⟨hroots, hdirect⟩, ⟨outcome, s'⟩, hresult, houtcome⟩ := hcheck
  have hrun := ok_of_result? hresult
  dsimp only at houtcome hrun
  subst houtcome
  have hanswers := holdsAnswers_of_rootsAnswers hroots
  have hrooted := Step.rooted_of_isDirect hdirect
  refine ⟨s, s', hs, hanswers, hrooted, hrun, ?_⟩
  refine (((hs.rooting hanswers).1 _ hrooted).of_ok hrun ⟨8⟩ rfl).resolve_right ?_
  rintro ⟨id, hop, -⟩
  simp at hop

/-- A canonical string is made in a scope that is closed afterwards, and looked up for a copy
of it.  It is given out, and removed by the next collection of the old space. -/
theorem not_secured_of_interned : ¬ ∀ (s : Store) (step : Step), WellRooted s → s.HoldsAnswers →
    step.Rooted s → Ends step.run s
      (fun outcome s' => ∀ found ∈ outcome.handle?, s'.Secures found) fun _ _ => True := by
  intro hsecures
  have hcheck : (((Store.create {} none).toOption.bind (replay
      [.perform (.internText "short lived name"), .closeScope ⟨0⟩,
        .perform (.newText "short lived name" .young)])).any fun s =>
      s.rootsAnswers && Step.isDirect (.perform (.interned ⟨9⟩)) s &&
      (s.result? (Step.run (.perform (.interned ⟨9⟩)))).any fun result =>
        decide (result.1 = .option (some (.ref ⟨8⟩))) &&
        (result.2.result? (StoreM.collectGarbage .old)).any fun collected =>
          !collected.2.heap.isLive ⟨8⟩) = true := by
    decide +kernel
  obtain ⟨s, hs, hcheck⟩ := WellRooted.exists_replay hcheck
  simp only [Bool.and_eq_true, Bool.not_eq_true', decide_eq_true_eq,
    Option.any_eq_true] at hcheck
  obtain ⟨⟨hroots, hdirect⟩, ⟨outcome, s'⟩, hresult, houtcome, collected, hcollect, hdead⟩ := hcheck
  have hrun := ok_of_result? hresult
  dsimp only at houtcome hrun hcollect
  subst houtcome
  have hsecured := (hsecures s _ hs (holdsAnswers_of_rootsAnswers hroots)
    (Step.rooted_of_isDirect hdirect)).of_ok hrun ⟨8⟩ rfl
  have hlive := ((hsecured.outlives .old).of_ok (ok_of_result? hcollect)).1
  simp [hdead] at hlive

end ManagedHeap
