import ManagedHeap.Proofs.Store.Refusals
import ManagedHeap.Proofs.WellRooted

/-!
# The concatenation law

In every well-rooted store a concatenation spells what its operands spell, one after the
other, whatever their layouts and encodings are and whether a collection runs before the
result is placed or not.  `Store.Concatenates` lists which string is given out on each of the
exits: an operand if the other one is empty, the canonical string of two units if there is
one, a flat copy, or a composite.  The flat concatenation has one exit only, and always gives
out a new flat string (`Store.ConcatenatesFlat`).

On the first two exits there is nothing to refuse.  On the others the result may be too long, or
there may be no place for it (`Store.RefusesConcat`); nothing else can go wrong, since the readers
of the operands come to an end and the copy has an encoding that both operands fit.
-/

namespace ManagedHeap

open Store

variable {s s' : Store} {id left right : Handle} {first second t : Text} {u v : Units}
  {a b : List UInt16}

/-- What the flat concatenation of strings with the contents `a` and `b` gives out. -/
structure Store.ConcatenatesFlat (s : Store) (a b : List UInt16) (id : Handle) (s' : Store) :
    Prop where
  holds : s'.Holds id
  flat : ∃ units, s'.heap.text id = .ok (.flat units false)
  spells : s'.heap.Spells id (a ++ b)
  fresh : ¬ s.Holds id
  reused : s.heap.isLive id = true → s.collections < s'.collections

theorem Store.Placed.concatenatesFlat {units : Units}
    (hp : s.Placed (.string (.flat units false)) id s') (hunits : units.toList = a ++ b) :
    s.ConcatenatesFlat a b id s' where
  holds := hp.holds
  flat := ⟨units, Heap.text_eq_ok.mpr hp.find⟩
  spells := hunits ▸ .buffer (Heap.text_eq_ok.mpr hp.find) rfl
  fresh := hp.fresh
  reused := hp.reused

/-! ## Refusals -/

/-- The ways in which a new string of a length is refused: it would be too long, or else there is
no place for an object of so many bytes. -/
inductive Store.RefusesString (s : Store) (length bytes : Nat) : Fault → Store → Prop
  | tooLong (hlong : s.config.maxStringLength < length) :
      RefusesString s length bytes (.stringTooLong length s.config.maxStringLength) s
  | place {e : Fault} {s' : Store} (hfits : length ≤ s.config.maxStringLength)
      (hrefused : s.Refuses bytes e s') : RefusesString s length bytes e s'

/-- The bytes of a concatenation that is longer than two units, by its length. -/
def Store.joinedBytes (s : Store) (length : Nat) : Nat :=
  if s.config.compositeMinLength ≤ length then Object.baseSize else flatBytes length

/-- The ways in which the concatenation of strings with the contents `a` and `b` is refused.  It is
not refused if one of them is empty, nor if there is a canonical string of two units that is looked
up, and only longer ones can be too long. -/
inductive Store.RefusesConcat (s : Store) (a b : List UInt16) : Fault → Store → Prop
  | pair {x y : UInt16} {e : Fault} {s' : Store} (ha : a = [x]) (hb : b = [y])
      (hmissing : (StoreM.isDigitUnit x && StoreM.isDigitUnit y) = false →
        ∀ j, ¬ s.heap.Interned j [x, y])
      (hrefused : s.Refuses (flatBytes 2) e s') : RefusesConcat s a b e s'
  | longer {e : Fault} {s' : Store} (ha : a ≠ []) (hb : b ≠ [])
      (hlonger : a.length + b.length ≠ 2)
      (hrefused : s.RefusesString (a.length + b.length) (s.joinedBytes (a.length + b.length)) e s') :
      RefusesConcat s a b e s'

/-- A string is placed after its length was looked at. -/
theorem ends_checkLength_refuses {length bytes : Nat} {g : Unit → StoreM Handle}
    (htakes : Takes bytes (g ()) s) :
    Ends (StoreM.checkLength length >>= g) s (fun _ _ => True) (s.RefusesString length bytes) := by
  unfold StoreM.checkLength
  rw [bind_assoc, ends_bind, ends_get]
  simp only
  split
  case isTrue hlong => exact .tooLong hlong
  case isFalse hfits =>
      exact Ends.mono htakes (fun _ _ _ => trivial) fun _ _ hrefused =>
        .place (Nat.le_of_not_lt hfits) hrefused

theorem ends_pairOfUnits_refuses (hs : s.Sound) (x y : UInt16) :
    Ends (StoreM.pairOfUnits x y) s (fun _ _ => True) (s.RefusesConcat [x] [y]) := by
  by_cases hfound : (StoreM.isDigitUnit x && StoreM.isDigitUnit y) = false ∧
      ∃ j, s.heap.Interned j [x, y]
  · obtain ⟨hdigits, j, hj⟩ := hfound
    obtain ⟨s', hrun, -⟩ := run_pairOfUnits_found hs hj rfl hdigits
    exact .of_run hrun trivial
  · exact Ends.mono (takes_pairOfUnits hs x y) (fun _ _ _ => trivial) fun _ _ hrefused =>
      .pair rfl rfl (fun hdigits j hj => hfound ⟨hdigits, j, hj⟩) hrefused

/-- A string below the length at which composites begin has a buffer. -/
theorem Store.Sound.exists_buffer (hs : s.Sound) (hvalid : s.config.error? = none)
    (hid : s.Holds id) (htext : s.heap.text id = .ok t)
    (hshort : t.length < s.config.compositeMinLength) : ∃ u, t.buffer? = some u := by
  have hshaped := (hs.readable.spelled id t hid htext).shaped
  cases t using Text.casesLayout with
  | buffer t u hu => exact ⟨u, hu⟩
  | composite node =>
      obtain ⟨_, _, -, -, -, -, -, -, hmin, -⟩ := hshaped
      exact absurd hmin (Nat.not_le_of_lt hshort)
  | view node =>
      obtain ⟨_, _, -, -, -, -, hmin⟩ := hshaped
      exact absurd ((Config.compositeMinLength_le hvalid).trans hmin) (Nat.not_le_of_lt hshort)

/-- Two strings with buffers can be copied in an encoding for both. -/
theorem Heap.joinBuffers_ok {h : Heap} (hfirst : h.text left = .ok first)
    (hsecond : h.text right = .ok second) (hu : first.buffer? = some u)
    (hv : second.buffer? = some v) :
    ∃ units, StoreM.joinBuffers h (first.encoding.join second.encoding) left right = .ok units := by
  have hfits {piece : Units} (hpiece : piece.encoding = .narrow) :
      ∀ x ∈ piece.toList, Units.isNarrowUnit x = true := fun _ =>
    Units.isNarrowUnit_of_fitsNarrow (Units.fitsNarrow_of_encoding hpiece)
  obtain ⟨out, hout⟩ : ∃ out,
      (Units.empty (first.encoding.join second.encoding)).append? u = some out := by
    refine Units.exists_append? fun hnarrow => hfits ?_
    rw [Units.encoding_empty] at hnarrow
    exact (Text.encoding_of_buffer hu).symm.trans (Encoding.join_eq_narrow hnarrow).1
  obtain ⟨joined, hjoined⟩ : ∃ joined, out.append? v = some joined := by
    refine Units.exists_append? fun hnarrow => hfits ?_
    rw [(Units.append?_eq_some hout).2, Units.encoding_empty] at hnarrow
    exact (Text.encoding_of_buffer hv).symm.trans (Encoding.join_eq_narrow hnarrow).2
  refine ⟨joined, ?_⟩
  unfold StoreM.joinBuffers
  simp [hfirst, hsecond, hu, hv, hout, hjoined, bind, Except.bind, pure, Except.pure]

/-- A concatenation has a result unless it is refused one.  The operands of a copy have buffers,
since they are shorter than any composite, and what is copied fits the encoding for both. -/
theorem ends_concat_refuses (hs : s.Sound) (hvalid : s.config.error? = none) (hleft : s.Holds left)
    (hright : s.Holds right) (ha : s.heap.Spells left a) (hb : s.heap.Spells right b) :
    Ends (StoreM.concat left right) s (fun _ _ => True) (s.RefusesConcat a b) := by
  obtain ⟨first, hfirst⟩ := ha.text
  obtain ⟨second, hsecond⟩ := hb.text
  have halength := hs.readable.length_eq hleft hfirst ha
  have hblength := hs.readable.length_eq hright hsecond hb
  have hread₁ : StoreM.text left s = .ok first s := run_inspect hfirst
  have hread₂ : StoreM.text right s = .ok second s := run_inspect hsecond
  unfold StoreM.concat
  rw [ends_bind_ok hread₁, ← halength]
  simp only
  -- the exits in the order in which they are taken: only the last two can refuse
  split
  case isTrue => trivial
  case isFalse hpos =>
  rw [ends_bind_ok hread₂, ← hblength]
  split
  case isTrue => trivial
  case isFalse hpos' =>
  split
  case isTrue htwo =>
      obtain ⟨x, rfl⟩ : ∃ x, a = [x] := List.length_eq_one_iff.mp (by omega)
      obtain ⟨y, rfl⟩ : ∃ y, b = [y] := List.length_eq_one_iff.mp (by omega)
      rw [ends_bind_ok (run_inspect (hs.readable.unitAt_ok hs.tidy hleft ha hfirst Nat.one_pos)),
        ends_bind_ok (run_inspect (hs.readable.unitAt_ok hs.tidy hright hb hsecond Nat.one_pos))]
      exact ends_pairOfUnits_refuses hs x y
  case isFalse hlonger =>
      refine Ends.mono (ends_checkLength_refuses ?_) (fun _ _ _ => trivial)
        fun _ _ hrefused => .longer (List.length_pos_iff.mp (Nat.pos_of_ne_zero hpos))
          (List.length_pos_iff.mp (Nat.pos_of_ne_zero hpos')) hlonger hrefused
      rw [takes_text hfirst, takes_text hsecond, takes_get]
      unfold Store.joinedBytes
      split
      case isTrue hlong =>
          rw [if_neg (Nat.not_lt_of_le hlong)]
          exact takes_allocate hs _ .young
      case isFalse hnot =>
          -- a copy is short, so that its buffer is one that can be had
          have hshort := Nat.lt_of_not_le hnot
          obtain ⟨u, hu⟩ := hs.exists_buffer hvalid hleft hfirst (by omega)
          obtain ⟨v, hv⟩ := hs.exists_buffer hvalid hright hsecond (by omega)
          obtain ⟨units, hunits⟩ := Heap.joinBuffers_ok hfirst hsecond hu hv
          have hcontent := (hs.readable.reads_joinBuffers hleft hright ha hb _).of_ok hunits
          have hsize : units.size = a.length + b.length := by
            rw [← Units.length_toList, hcontent, List.length_append]
          rw [if_pos hshort, takes_inspect hunits, ← hsize]
          exact takes_allocateFlat hs units .young

theorem ends_flatConcat_refuses (hs : s.Sound) (hleft : s.Holds left) (hright : s.Holds right)
    (ha : s.heap.Spells left a) (hb : s.heap.Spells right b) :
    Ends (StoreM.flatConcat left right) s (fun _ _ => True)
      (s.RefusesString (a.length + b.length) (flatBytes (a.length + b.length))) := by
  obtain ⟨first, hfirst⟩ := ha.text
  obtain ⟨second, hsecond⟩ := hb.text
  have halength := hs.readable.length_eq hleft hfirst ha
  have hblength := hs.readable.length_eq hright hsecond hb
  have hread₁ : StoreM.text left s = .ok first s := run_inspect hfirst
  have hread₂ : StoreM.text right s = .ok second s := run_inspect hsecond
  -- each operand fits the encoding for both
  have hfits₁ : first.encoding.join second.encoding = .narrow → ∀ x ∈ Heap.part a 0 a.length,
      Units.isNarrowUnit x = true := fun hnarrow x hx =>
    hs.readable.narrow_of_spells hleft ha hfirst (Encoding.join_eq_narrow hnarrow).1 x
      (List.mem_of_mem_drop (List.mem_of_mem_take hx))
  have hfits₂ : first.encoding.join second.encoding = .narrow → ∀ x ∈ Heap.part b 0 b.length,
      Units.isNarrowUnit x = true := fun hnarrow x hx =>
    hs.readable.narrow_of_spells hright hb hsecond (Encoding.join_eq_narrow hnarrow).2 x
      (List.mem_of_mem_drop (List.mem_of_mem_take hx))
  obtain ⟨out, hout, hcontent, hencoding⟩ :=
    hs.readable.copyRange_ok hs.tidy hleft ha 0 (Nat.le_refl _) _ hfits₁
  obtain ⟨units, hunits, hjoined, -⟩ := hs.readable.appendRange_ok hs.tidy hright hb 0
    (Nat.le_refl _) out fun hnarrow => hfits₂ (hencoding.symm.trans hnarrow)
  have hsize : units.size = a.length + b.length := by
    rw [← Units.length_toList, hjoined, hcontent, Heap.part_full, Heap.part_full,
      List.length_append]
  unfold StoreM.flatConcat
  rw [ends_bind_ok hread₁, ends_bind_ok hread₂, ← halength, ← hblength]
  refine ends_checkLength_refuses ?_
  rw [takes_inspect (show _ = Except.ok units by rw [hout, ok_bind, hunits]), ← hsize]
  exact takes_allocateFlat hs units .young

/-! ## The law -/

/-- Two strings that a well-rooted store holds are concatenated as `Concatenates` and
`ConcatenatesFlat` tell, unless the concatenation is refused as `RefusesConcat` and
`RefusesString` tell. -/
theorem WellRooted.concatenation (hs : WellRooted s) (hleft : s.Holds left)
    (hright : s.Holds right) (hfirst : s.heap.text left = .ok first)
    (hsecond : s.heap.text right = .ok second) :
    ∃ a b, s.heap.Spells left a ∧ s.heap.Spells right b ∧
      Ends (StoreM.concat left right) s (s.Concatenates left right a b) (s.RefusesConcat a b) ∧
      Ends (StoreM.flatConcat left right) s (s.ConcatenatesFlat a b)
        (s.RefusesString (a.length + b.length) (flatBytes (a.length + b.length))) := by
  obtain ⟨hready, hvalid⟩ := hs.ready
  have hsound := hready.toSound
  obtain ⟨a, ha, -⟩ := hready.readable.spells hleft hfirst
  obtain ⟨b, hb, -⟩ := hready.readable.spells hright hsecond
  refine ⟨a, b, ha, hb, ?_, ?_⟩
  · exact (Ends.and (runs_concat hsound hvalid hleft hright ha hb)
      (ends_concat_refuses hsound hvalid hleft hright ha hb)).mono
      (fun _ _ hend => hend.1.2) fun _ _ hfail => hfail.2
  · refine (Ends.and (runs_flatConcat hsound hleft hright ha hb)
      (ends_flatConcat_refuses hsound hleft hright ha hb)).mono ?_ fun _ _ hfail => hfail.2
    rintro id s' ⟨⟨-, units, hp, hunits⟩, -⟩
    exact hp.concatenatesFlat hunits

/-- A composite, which is the only root, and one of its parts. -/
theorem WellRooted.concatenation_composite : ∃ s : Store, WellRooted s ∧
    s.Holds ⟨10⟩ ∧ s.Holds ⟨8⟩ ∧
    s.heap.text ⟨10⟩ = .ok (.composite ⟨⟨8⟩, ⟨9⟩, 14, .narrow, false⟩) ∧
    s.heap.text ⟨8⟩ = .ok (.flat (.ofText "abcdefg") false) ∧
    ∃ a b, s.heap.Spells ⟨10⟩ a ∧ s.heap.Spells ⟨8⟩ b ∧
      Ends (StoreM.concat ⟨10⟩ ⟨8⟩) s (s.Concatenates ⟨10⟩ ⟨8⟩ a b) (s.RefusesConcat a b) ∧
      Ends (StoreM.flatConcat ⟨10⟩ ⟨8⟩) s (s.ConcatenatesFlat a b)
        (s.RefusesString (a.length + b.length) (flatBytes (a.length + b.length))) := by
  have hcheck : (((Store.create {} none).toOption.bind (replay (joinTexts .young))).any fun s =>
      (s.roots []).contains ⟨10⟩ && s.heap.isLive ⟨10⟩ && s.heap.isLive ⟨8⟩ &&
        decide (s.heap.text ⟨10⟩ = .ok (.composite ⟨⟨8⟩, ⟨9⟩, 14, .narrow, false⟩)) &&
        decide (s.heap.text ⟨8⟩ = .ok (.flat (.ofText "abcdefg") false))) = true := by
    decide +kernel
  obtain ⟨s, hs, hcheck⟩ := WellRooted.exists_replay hcheck
  simp only [Bool.and_eq_true, List.contains_iff_mem, decide_eq_true_eq] at hcheck
  obtain ⟨⟨⟨⟨hroot, hlive⟩, hpart⟩, hnode⟩, hflat⟩ := hcheck
  have hid : s.Holds ⟨10⟩ := holds_of_root hroot hlive
  have hleft : s.Holds ⟨8⟩ :=
    ⟨hpart, .child hid.reaches (Heap.text_eq_ok.mp hnode)
      (by simp [Object.children, Text.children])⟩
  exact ⟨s, hs, hid, hleft, hnode, hflat, hs.concatenation hid hleft hnode hflat⟩

end ManagedHeap
