import ManagedHeap.Proofs.Store.Steady
import ManagedHeap.Proofs.WellRooted

/-!
# The length limit

A string that would be longer than the configuration allows is refused, with its length and
the limit, and the store is left as it is.  Whatever is not too long is never refused as such
(`Store.LimitsLength`).  This holds in every state, whether the store got there by rooted steps
or not, and for every limit, down to zero.

The check comes before anything is changed, and nothing after it refuses a length (`Steady`).
Concatenation has three exits in front of it.  Those for empty operands make no string.  The
third one is for two operands of one unit each: their concatenation is looked up among the
canonical strings, or made, whatever the limit is, so that under a limit below two
concatenations get past it (`not_limited_of_concat`).
-/

namespace ManagedHeap

open Store

variable {s s' : Store} {left right id : Handle} {first second t : Text} {length : Nat}
  {m m' : StoreM Handle}

/-- Making a string of a length is refused for it exactly if it is past the limit.  The refusal
names the length and the limit, and the store is as before. -/
def Store.LimitsLength (s : Store) (m : StoreM Handle) (length : Nat) : Prop :=
  ∀ tried max s', m s = .error (.stringTooLong tried max) s' ↔
    s.config.maxStringLength < length ∧ tried = length ∧ max = s.config.maxStringLength ∧ s' = s

/-- No string is refused for its length. -/
def Store.NeverLimits (s : Store) (m : StoreM Handle) : Prop :=
  ∀ tried max s', m s ≠ .error (.stringTooLong tried max) s'

theorem Steady.neverLimits (hm : Steady Store.builtins m) : s.NeverLimits m := by
  intro tried max s' hrun
  have hfault := (hm s).of_error hrun
  simp [Fault.isTooLong] at hfault

/-- The check of a length, in front of what makes the string. -/
theorem limitsLength_check {rest : Unit → StoreM Handle} (hrest : s.NeverLimits (rest ())) :
    s.LimitsLength (StoreM.checkLength length >>= rest) length := by
  intro tried max s'
  -- the check is the first thing that is done, so that the store is as it was
  have hcheck : (StoreM.checkLength length >>= rest) s =
      if s.config.maxStringLength < length then
        .error (.stringTooLong length s.config.maxStringLength) s
      else rest () s := by
    by_cases hlong : s.config.maxStringLength < length
    · rw [if_pos hlong]
      have hrun : StoreM.checkLength length s =
          .error (.stringTooLong length s.config.maxStringLength) s := by
        unfold StoreM.checkLength
        rw [run_bind (rfl : (get : StoreM Store) s = .ok s s), if_pos hlong]
        rfl
      exact run_bind_error hrun
    · rw [if_neg hlong]
      have hrun : StoreM.checkLength length s = .ok () s := by
        unfold StoreM.checkLength
        rw [run_bind (rfl : (get : StoreM Store) s = .ok s s), if_neg hlong]
        rfl
      exact run_bind hrun
  rw [hcheck]
  split
  case isTrue hlong =>
      simp only [EStateM.Result.error.injEq, Fault.stringTooLong.injEq, hlong, true_and]
      constructor
      · rintro ⟨⟨rfl, rfl⟩, rfl⟩
        exact ⟨rfl, rfl, rfl⟩
      · rintro ⟨rfl, rfl, rfl⟩
        exact ⟨⟨rfl, rfl⟩, rfl⟩
  case isFalse hshort => exact iff_of_false (hrest tried max s') fun h => hshort h.1

/-! ## Strings from texts and units -/

theorem limitsLength_newString (s : Store) (units : Units) (space : Space) :
    s.LimitsLength (StoreM.newString units space) units.size :=
  limitsLength_check (steady_allocateFlat units space).neverLimits

theorem limitsLength_newText (s : Store) (content : String) (space : Space) :
    s.LimitsLength (StoreM.newText content space) (Utf16.encode content).length := by
  rw [← Units.toList_ofText, Units.length_toList]
  exact limitsLength_newString s _ space

theorem limitsLength_newPacked (s : Store) (units : Units) (space : Space) :
    s.LimitsLength (StoreM.newPacked units space) units.size := by
  rw [← units.length_toList, ← units.toList_packed, Units.length_toList]
  exact limitsLength_newString s _ space

theorem limitsLength_newExternal (s : Store) (units : Units) :
    s.LimitsLength (StoreM.newExternal units) units.size :=
  limitsLength_check (steady_allocate _ _).neverLimits

/-! ## Concatenations -/

theorem run_text (htext : s.heap.text id = .ok t) : StoreM.text id s = .ok t s :=
  run_inspect htext

theorem limitsLength_flatConcat (hfirst : s.heap.text left = .ok first)
    (hsecond : s.heap.text right = .ok second) :
    s.LimitsLength (StoreM.flatConcat left right) (first.length + second.length) := by
  intro tried max s'
  unfold StoreM.flatConcat
  rw [run_bind (run_text hfirst), run_bind (run_text hsecond)]
  refine limitsLength_check (Steady.neverLimits ?_) tried max s'
  refine Steady.bind (steady_inspect fun h => ?_) fun units => steady_allocateFlat units .young
  exact (h.limitFree_copyRange _ _ _ _).bind fun out => h.limitFree_appendRange out _ _ _

/-- The concatenation of strings that are not empty is limited, unless it takes the exit for
two strings of one unit. -/
theorem limitsLength_concat (hfirst : s.heap.text left = .ok first)
    (hsecond : s.heap.text right = .ok second) (hleft : 0 < first.length)
    (hright : 0 < second.length) :
    if first.length + second.length = 2 then s.NeverLimits (StoreM.concat left right)
    else s.LimitsLength (StoreM.concat left right) (first.length + second.length) := by
  -- neither operand is empty, so the first two exits are not taken
  unfold NeverLimits LimitsLength StoreM.concat
  rw [run_bind (run_text hfirst)]
  simp only
  rw [if_neg (Nat.ne_of_gt hleft), run_bind (run_text hsecond)]
  rw [if_neg (Nat.ne_of_gt hright)]
  split
  case isTrue =>
      refine Steady.neverLimits ?_
      exact Steady.bind (steady_inspect fun h => h.limitFree_unitAt _ _) fun a =>
        Steady.bind (steady_inspect fun h => h.limitFree_unitAt _ _) fun b =>
          steady_pairOfUnits a b
  case isFalse =>
      refine limitsLength_check (Steady.neverLimits ?_)
      refine Steady.bind (steady_text left) fun first => Steady.bind (steady_text right)
        fun second => Steady.bind steady_get fun s => ?_
      split
      · exact Steady.bind (steady_inspect fun h => h.limitFree_joinBuffers _ _ _) fun units =>
          steady_allocateFlat units .young
      · exact steady_allocate _ _

/-! ## All constructors -/

/-- The constructors of strings keep to the length limit, apart from the concatenation of two
strings of one unit each. -/
structure Store.LimitsLengths (s : Store) : Prop where
  newText : ∀ content space,
    s.LimitsLength (StoreM.newText content space) (Utf16.encode content).length
  newString : ∀ units space, s.LimitsLength (StoreM.newString units space) units.size
  newPacked : ∀ units space, s.LimitsLength (StoreM.newPacked units space) units.size
  newExternal : ∀ units, s.LimitsLength (StoreM.newExternal units) units.size
  flatConcat : ∀ left right first second, s.heap.text left = .ok first →
    s.heap.text right = .ok second →
      s.LimitsLength (StoreM.flatConcat left right) (first.length + second.length)
  concat : ∀ left right first second, s.heap.text left = .ok first →
    s.heap.text right = .ok second → 0 < first.length → 0 < second.length →
    ¬ (first.length = 1 ∧ second.length = 1) →
      s.LimitsLength (StoreM.concat left right) (first.length + second.length)
  concat_units : ∀ left right first second, s.heap.text left = .ok first →
    s.heap.text right = .ok second → first.length = 1 → second.length = 1 →
      s.NeverLimits (StoreM.concat left right)

/-- Every store keeps to its length limit. -/
theorem Store.length_limit (s : Store) : s.LimitsLengths where
  newText := limitsLength_newText s
  newString := limitsLength_newString s
  newPacked := limitsLength_newPacked s
  newExternal := limitsLength_newExternal s
  flatConcat _ _ _ _ := limitsLength_flatConcat
  concat left right first second hfirst hsecond hleft hright hunits := by
    have hends := limitsLength_concat hfirst hsecond hleft hright
    rwa [if_neg (by omega)] at hends
  concat_units left right first second hfirst hsecond hleft hright := by
    have hends := limitsLength_concat hfirst hsecond (by omega) (by omega)
    rwa [if_pos (by omega)] at hends

/-- Under a limit of one unit, two strings of one unit each are concatenated. -/
theorem not_limited_of_concat : ¬ ∀ (s : Store) (left right : Handle) (first second : Text),
    WellRooted s → s.Holds left → s.Holds right → s.heap.text left = .ok first →
    s.heap.text right = .ok second → 0 < first.length → 0 < second.length →
      s.LimitsLength (StoreM.concat left right) (first.length + second.length) := by
  intro hlimits
  have hcheck : (((Store.create { maxStringLength := 1 } none).toOption.bind (replay
      [.perform (.newText "a" .young), .perform (.newText "b" .young)])).any fun s =>
        s.isLiveRoot ⟨8⟩ && s.isLiveRoot ⟨9⟩ &&
        decide (s.heap.text ⟨8⟩ = .ok (.flat (.ofText "a") false)) &&
        decide (s.heap.text ⟨9⟩ = .ok (.flat (.ofText "b") false)) &&
        decide (s.config.maxStringLength = 1) &&
        decide (s.fault? (StoreM.concat ⟨8⟩ ⟨9⟩) = none)) = true := by
    decide +kernel
  obtain ⟨s, hs, hcheck⟩ := WellRooted.exists_replay hcheck
  simp only [Bool.and_eq_true, decide_eq_true_eq] at hcheck
  obtain ⟨⟨⟨⟨⟨hleft, hright⟩, hfirst⟩, hsecond⟩, hmax⟩, hfault⟩ := hcheck
  have hrefused := (hlimits s ⟨8⟩ ⟨9⟩ _ _ hs (holds_of_isLiveRoot hleft)
    (holds_of_isLiveRoot hright) hfirst hsecond (by decide) (by decide) 2 1 s).mpr
    ⟨by rw [hmax]; decide, rfl, hmax.symm, rfl⟩
  simp [Store.fault?, hrefused] at hfault

end ManagedHeap
