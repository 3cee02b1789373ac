import ManagedHeap.Proofs.InterningRanges

/-!
# Strings of one unit

Two tables know the canonical string of a narrow unit.  The interning table knows it as long
as it lives, and does not keep it alive.  The cache of the strings of one unit is a part of the
roots, and nothing ever leaves it.  The two would come apart if the cache could hold a string
that the interning table does not know, or if a place of the cache could be taken a second time;
a string gets there only as the canonical string of its unit, and only into an empty place.

So once a unit was asked for, by itself or as a slice (`Store.AsksUnit`), its canonical string
stays what it is for the life of the store (`Store.Permanent`): no later request for it, in
whichever way, makes a new string, and so none can be refused.
-/

namespace ManagedHeap

open Store

variable {s s' : Store} {id source : Handle} {t : Text} {w : List UInt16} {unit : UInt16}
  {op : Operation} {start : Nat}

/-! ## Asking for the string of a unit -/

/-- The operation asks for the string of a unit: by its code, or as a proper slice of one
unit. -/
inductive Store.AsksUnit (s : Store) : Operation → UInt16 → Prop
  | code (unit : UInt16) : AsksUnit s (.singleUnit unit) unit
  | slice {source : Handle} {w : List UInt16} {start : Nat} {unit : UInt16}
      (hid : s.Holds source) (hw : s.heap.Spells source w) (hunit : w[start]? = some unit)
      (hproper : w.length ≠ 1) : AsksUnit s (.slice source start (start + 1)) unit

theorem Store.AsksUnit.rooted (ha : s.AsksUnit op unit) : (Step.perform op).Rooted s where
  given id hid := by
    cases ha with
    | code => simp [Step.handles, Operation.handles] at hid
    | slice hheld =>
        obtain rfl : id = _ := by simpa [Step.handles, Operation.handles] using hid
        exact hheld
  plain object space hop := by
    cases ha <;> simp at hop

/-- A proper slice of one unit is the string of this unit. -/
theorem Store.Sound.run_slice (hs : s.Sound) (hid : s.Holds source)
    (hw : s.heap.Spells source w) (hunit : w[start]? = some unit) (hproper : w.length ≠ 1) :
    StoreM.slice source start (start + 1) s = StoreM.singleUnit unit s := by
  obtain ⟨hlt, rfl⟩ := List.getElem?_eq_some_iff.mp hunit
  obtain ⟨t, htext⟩ := hw.text
  have hlength := hs.readable.length_eq hid htext hw
  unfold StoreM.slice
  rw [run_bind (show StoreM.text source s = .ok t s from run_inspect htext)]
  simp only [if_neg (show ¬ (start + 1 < start ∨ t.length < start + 1) by omega),
    if_neg (show ¬ (start = 0 ∧ start + 1 = t.length) by omega)]
  unfold StoreM.properSlice
  simp only [Nat.add_sub_cancel_left]
  exact run_bind (run_inspect (hs.readable.unitAt_ok hs.tidy hid hw htext hlt))

/-- Both ways of asking lead to the string of the unit. -/
theorem Store.AsksUnit.run (ha : s.AsksUnit op unit) (hs : s.Sound) :
    op.run s = (do return .handle (← StoreM.singleUnit unit) : StoreM Outcome) s := by
  cases ha with
  | code => rfl
  | slice hid hw hunit hproper =>
      show (StoreM.slice _ _ _ >>= _) s = (StoreM.singleUnit unit >>= _) s
      show EStateM.bind _ _ s = EStateM.bind _ _ s
      unfold EStateM.bind
      rw [hs.run_slice hid hw hunit hproper]

/-- A cached string is the canonical one of its unit. -/
theorem Store.Sound.interned_single (hs : s.Sound)
    (hsingle : s.singles[unit.toNat]? = some (some id)) : s.heap.Interned id [unit] := by
  have hinterned := hs.singles _ id hsingle
  rwa [UInt16.ofNat_toNat] at hinterned

/-- Whoever asks for a narrow unit is given its canonical string, which is in the cache from
then on. -/
theorem ends_singleUnit (hs : s.Sound) (hsize : s.singles.size = 256)
    (hnarrow : Units.isNarrowUnit unit = true) :
    Ends (StoreM.singleUnit unit) s
      (fun id s' => s'.singles[unit.toNat]? = some (some id) ∧
        ∀ j, s.heap.Interned j [unit] → id = j)
      (s.Refuses (flatBytes 1)) := by
  have hbound : unit.toNat < s.singles.size := by
    have hle : unit.toNat ≤ 255 := by simpa [Units.isNarrowUnit, UInt16.le_iff_toNat_le] using hnarrow
    omega
  unfold StoreM.singleUnit
  simp only [hnarrow, if_true, ends_bind, ends_get]
  cases hsingle : s.singles[unit.toNat]?.join with
  | some id =>
      rw [Option.join_eq_some_iff] at hsingle
      exact ⟨hsingle, fun j hj => hs.table.unique id j _ (hs.interned_single hsingle) hj⟩
  | none =>
      simp only [ends_bind]
      refine Ends.mono (adding_internUnits hs (.ofByte unit.toUInt8)) (fun id s₁ hend => ?_)
        fun _ _ hfail => hfail
      obtain ⟨-, -, hi⟩ := hend
      rw [Units.toList_ofByte hnarrow] at hi
      refine ⟨?_, hi.former⟩
      show (s₁.singles.setIfInBounds unit.toNat (some id))[unit.toNat]? = _
      rw [hi.singles, Array.getElem?_setIfInBounds_self_of_lt hbound]

/-! ## Content of one unit -/

/-- A string of one unit is no composite. -/
theorem Heap.Readable.not_composite {h : Heap} {config : Config} {held : Handle → Prop}
    (hr : h.Readable config held) (hid : held source) (htext : h.text source = .ok t)
    (hw : h.Spells source [unit]) (node : Composite) : t ≠ .composite node := by
  rintro rfl
  obtain ⟨a, b, -, -, hleft, hright, hlength, -⟩ := (hr.spelled source _ hid htext).shaped
  have hone := hr.length_eq hid htext hw
  simp only [Text.length, List.length_singleton] at hone
  omega

/-- Whoever interns content of one unit that has a canonical string is given it: no composite has
one unit, and there is a buffer for it. -/
theorem Store.Asks.run_found (ha : s.Asks op [unit]) (hs : s.Ready)
    (hvalid : s.config.error? = none) (hi : s.heap.Interned id [unit]) :
    ∃ s', op.run s = .ok (.handle id) s' := by
  have hknown := ha.known hi hs hvalid
  cases hrun : op.run s with
  | ok outcome s' =>
      obtain ⟨rfl, -⟩ := hknown.of_ok hrun
      exact ⟨s', rfl⟩
  | error e s' =>
      rcases hknown.of_error hrun with ⟨⟨source, node, rfl, hnode⟩, -⟩ | ⟨-, -, hlarge⟩
      · cases ha with
        | string hid hw => exact absurd rfl (hs.readable.not_composite hid hnode hw node)
      · rw [List.length_singleton] at hlarge
        exact absurd hlarge (by decide)

/-! ## Canonical for life -/

/-- The string is the canonical one of its unit, and everybody is given it who asks for this unit
or for content of this one unit. -/
structure Store.Permanent (s : Store) (unit : UInt16) (id : Handle) : Prop where
  holds : s.Holds id
  interned : s.heap.Interned id [unit]
  given : ∀ op, s.AsksUnit op unit ∨ s.Asks op [unit] → ∃ s', op.run s = .ok (.handle id) s'

theorem Store.permanent_of_cached (hs : s.Ready) (hvalid : s.config.error? = none)
    (hnarrow : Units.isNarrowUnit unit = true) (hsingle : s.singles[unit.toNat]? = some (some id)) :
    s.Permanent unit id where
  holds := hs.holds_single hsingle
  interned := hs.interned_single hsingle
  given op hasks := by
    rcases hasks with hunit | hcontent
    · have hrun : StoreM.singleUnit unit s = StoreM.track id s := by
        unfold StoreM.singleUnit
        simp only [hnarrow, if_true, run_get, hsingle, Option.join_some]
      exact ⟨_, (hunit.run hs.toSound).trans (run_bind hrun)⟩
    · exact hcontent.run_found hs hvalid (hs.interned_single hsingle)

/-- Asking for a narrow unit gives out its canonical string, the one that there was if there was
one, or is refused a place for it.  In all stores that a client can come to afterwards the string
is the canonical one, and is what everybody is given. -/
theorem WellRooted.single_units (hs : WellRooted s) (ha : s.AsksUnit op unit)
    (hnarrow : Units.isNarrowUnit unit = true) :
    Ends op.run s
      (fun outcome s' => ∃ id, outcome = .handle id ∧ (∀ j, s.heap.Interned j [unit] → id = j) ∧
        ∀ s'', s'.Becomes s'' → s''.Permanent unit id)
      (s.Refuses (flatBytes 1)) := by
  have hsound := hs.ready.1.toSound
  have hrun : Ends op.run s
      (fun outcome s' => ∃ id, outcome = .handle id ∧ s'.singles[unit.toNat]? = some (some id) ∧
        ∀ j, s.heap.Interned j [unit] → id = j)
      (s.Refuses (flatBytes 1)) := by
    unfold Ends
    rw [ha.run hsound, ← Ends, ends_bind]
    exact (ends_singleUnit hsound hs.size_singles hnarrow).mono
      (fun id _ hend => ⟨id, rfl, hend⟩) fun _ _ hfail => hfail
  refine (hrun.and (ends_self _ _)).mono (fun outcome s' hend => ?_) fun _ _ hfail => hfail.1
  obtain ⟨⟨id, hid, hsingle, hformer⟩, hstep⟩ := hend
  -- no step takes a string out of the cache, so that being cached carries over to later stores
  have hs' : WellRooted s' := hs.step ⟨ha.rooted, Or.inl ⟨outcome, hstep⟩⟩
  refine ⟨id, hid, hformer, fun s'' hlater => ?_⟩
  obtain ⟨hready, hvalid⟩ := (hlater.wellRooted hs').ready
  exact permanent_of_cached hready hvalid hnarrow
    ((hlater.keepsSingles hs').kept _ id hsingle)

/-- A text of one unit becomes canonical where it is, and is given out for a slice of another
text.  Then all scopes are closed, and a full collection takes the other text away. -/
theorem WellRooted.single_units_sliced : ∃ s s' s'' : Store, WellRooted s ∧
    s.AsksUnit (.slice ⟨9⟩ 1 2) 0x78 ∧ Units.isNarrowUnit 0x78 = true ∧
    s.heap.Interned ⟨8⟩ [0x78] ∧
    (Operation.slice ⟨9⟩ 1 2).run s = .ok (.handle ⟨8⟩) s' ∧ s'.Becomes s'' ∧
    s''.scope = #[] ∧ s''.heap.isLive ⟨9⟩ = false ∧ s''.Permanent 0x78 ⟨8⟩ := by
  have hcheck : (((Store.create {} none).toOption.bind (replay
      [.perform (.newText "x" .old), .perform (.internString ⟨8⟩),
        .perform (.newText "axb" .young)])).any fun s =>
      s.isLiveRoot ⟨9⟩ && decide (s.heap.text ⟨8⟩ = .ok (.flat (.ofText "x") true)) &&
      decide (s.heap.text ⟨9⟩ = .ok (.flat (.ofText "axb") false)) &&
      (s.result? (Operation.slice ⟨9⟩ 1 2).run).any fun result =>
        decide (result.1 = .handle ⟨8⟩) &&
        (replay [.closeScope ⟨0⟩, .perform (.collectGarbage .old)] result.2).any fun s'' =>
          decide (s''.scope = #[]) && !s''.heap.isLive ⟨9⟩) = true := by
    decide +kernel
  obtain ⟨s, hs, hcheck⟩ := WellRooted.exists_replay hcheck
  simp only [Bool.and_eq_true, decide_eq_true_eq, Option.any_eq_true, Bool.not_eq_true'] at hcheck
  obtain ⟨⟨⟨hroot, hx⟩, htext⟩, ⟨outcome, s'⟩, hresult, hid, s'', hlast, hscope, hdead⟩ := hcheck
  have hrun := ok_of_result? hresult
  dsimp only at hid hlast hrun
  obtain rfl := hid
  have hasks : s.AsksUnit (.slice ⟨9⟩ 1 2) 0x78 :=
    .slice (holds_of_isLiveRoot hroot) (.buffer htext rfl) (by decide +kernel) (by decide +kernel)
  have hinterned : s.heap.Interned ⟨8⟩ [0x78] := ⟨_, _, hx, rfl, rfl, by decide +kernel⟩
  have hlater : s'.Becomes s'' := becomes_of_replay hlast
  obtain ⟨id, hid, -, hpermanent⟩ := (hs.single_units hasks (by decide)).of_ok hrun
  obtain rfl : (⟨8⟩ : Handle) = id := by simpa [Outcome.handle] using hid
  exact ⟨s, s', s'', hs, hasks, by decide, hinterned, hrun, hlater, hscope, hdead,
    hpermanent s'' hlater⟩

end ManagedHeap
