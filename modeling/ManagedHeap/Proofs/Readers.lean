import ManagedHeap.Proofs.Heap.Layers
import ManagedHeap.Proofs.Heap.Structured

/-!
# The two readers agree

One reader follows a single way down to a unit.  The other one copies a range with a list of
the ranges that are still to copy, and splits a range where it meets a composite.  On a string
whose structure fits they read the same: what is appended to a buffer is what the first reader
finds at each position of the range, one after the other.

The list of pending ranges is what makes this hard to see step by step, so the walk is told
range by range.  `h.Copies ranges n units` says that `n` steps deal with the first ranges of a
list, whatever follows them and whatever the buffer holds, and that this appends `units`.
Walks that copy one after the other are put together (`Copies.append`), and a step that meets
a view or a composite is put in front (`Copies.view`, `Copies.composite`).

How many steps this takes does not depend on the length of the list.  Each unit is at the end
of one way, and a way takes no more steps than there are strings below (`Heap.rank`), although
the ways together may meet a shared part any number of times.

A buffer takes everything if it is wide.  A narrow one refuses the first piece with a wide
unit, and the structure of a string does not tell whether there is one: the encodings that are
recorded have to be true for this (`Heap.Truthful`, `not_copied_of_encoding`).
-/

namespace ManagedHeap

open Relation

variable {start stop : Nat} {w a b : List UInt16} {u out : Units} {x : UInt16}

/-! ## Buffers that are extended -/

/-- The buffer with units appended, if it can hold them. -/
def Units.extended (out : Units) (units : List UInt16) : Except Fault Units :=
  match out with
  | .wide held => .ok (.wide (held ++ units.toArray))
  | .narrow held =>
    if units.all isNarrowUnit then .ok (.narrow (held ++ (units.map UInt16.toUInt8).toArray))
    else .error .unitTooWide

@[simp] theorem Units.extended_nil : out.extended [] = .ok out := by
  cases out <;> simp [extended]

theorem Units.extended_append :
    out.extended (a ++ b) = out.extended a >>= fun longer => longer.extended b := by
  cases out with
  | wide held => simp [extended, bind, Except.bind]
  | narrow held =>
      by_cases ha : a.all isNarrowUnit = true
      · by_cases hb : b.all isNarrowUnit = true
        · simp [extended, List.all_append, ha, hb, bind, Except.bind]
        · simp [extended, List.all_append, ha, hb, bind, Except.bind]
      · simp [extended, List.all_append, ha, bind, Except.bind]

/-- A buffer that can hold the units takes them all. -/
theorem Units.exists_extended (hfits : out.encoding = .narrow → ∀ x ∈ a, isNarrowUnit x = true) :
    ∃ longer, out.extended a = .ok longer ∧ longer.encoding = out.encoding ∧
      longer.toList = out.toList ++ a := by
  cases out with
  | wide held => exact ⟨_, rfl, rfl, by simp [toList]⟩
  | narrow held =>
      have hall : a.all isNarrowUnit = true := List.all_eq_true.mpr (hfits rfl)
      refine ⟨.narrow (held ++ (a.map UInt16.toUInt8).toArray), if_pos hall, rfl, ?_⟩
      simpa [toList] using map_toUInt8_toUInt16 a (hfits rfl)

/-- A narrow buffer takes no wide unit. -/
theorem Units.extended_refused (hnarrow : out.encoding = .narrow) (hx : x ∈ a)
    (hwide : isNarrowUnit x = false) : out.extended a = .error .unitTooWide := by
  cases out with
  | wide held => simp [encoding] at hnarrow
  | narrow held =>
      have hall : ¬ a.all isNarrowUnit = true := fun hall => by
        have hfits := List.all_eq_true.mp hall x hx
        simp [hwide] at hfits
      rw [extended, if_neg hall]

namespace Heap

variable {h : Heap} {id : Handle} {t : Text} {i n m : Nat} {ranges rest : List TextRange}

/-- A piece of a buffer is appended like its units, as long as it lies within the buffer. -/
theorem appendPiece_eq_extended (hle : start ≤ stop) (hstop : stop ≤ u.size) :
    appendPiece out u start stop = out.extended (part u.toList start stop) := by
  obtain ⟨piece, hpiece⟩ := Units.exists_slice? hle hstop
  obtain ⟨-, -, htoList, -⟩ := Units.slice?_eq_some hpiece
  have hpart : part u.toList start stop = piece.toList := htoList.symm
  rw [appendPiece, hpiece, hpart]
  cases happend : out.append? piece with
  | some longer =>
      obtain ⟨hlonger, hencoding⟩ := Units.append?_eq_some happend
      have hfits : out.encoding = .narrow → ∀ x ∈ piece.toList, Units.isNarrowUnit x = true :=
        fun hnarrow x hx => Units.isNarrowUnit_of_fitsNarrow
          (Units.fitsNarrow_of_encoding (hencoding.trans hnarrow))
          (hlonger ▸ List.mem_append_right _ hx)
      obtain ⟨longer', hextended, hencoding', hlonger'⟩ := Units.exists_extended hfits
      have hsame : longer = longer' := (Units.eq_iff_toList (hencoding.trans hencoding'.symm)).mpr
        (hlonger.trans hlonger'.symm)
      simp only [happend, hextended, hsame]
      rfl
  | none =>
      -- a buffer that takes all the units would have taken the piece
      by_cases hfits : out.encoding = .narrow → ∀ x ∈ piece.toList, Units.isNarrowUnit x = true
      · obtain ⟨longer, hlonger⟩ := Units.exists_append? hfits
        simp [happend] at hlonger
      · push Not at hfits
        obtain ⟨hnarrow, x, hx, hwide⟩ := hfits
        simp only [happend, Units.extended_refused hnarrow hx (Bool.eq_false_iff.mpr hwide)]
        rfl

/-! ## One unit -/

/-- The way to a unit takes no more steps than there are strings below. -/
theorem Structured.unitWithin_eq (hs : h.Structured id) (hw : h.Spells id w) (hi : i < w.length)
    (hsteps : h.rank id ≤ n) : h.unitWithin n id i = .ok w[i] := by
  -- on how the content comes about; the parts are below the string, so that they have a lower rank
  induction hw generalizing i n with
  | @buffer id t u htext hbuffer =>
      obtain ⟨n, rfl⟩ := Nat.exists_eq_add_of_lt (Nat.lt_of_lt_of_le hs.rank_pos hsteps)
      have hget : u.get? i = some u.toList[i] := by
        rw [Units.get?_eq, List.getElem?_eq_getElem hi]
      rw [unitWithin, htext, ok_bind]
      cases t with
      | flat units interned | external units interned =>
          obtain rfl := Option.some.inj hbuffer
          simp only [hget]
          rfl
      | view node => simp [Text.buffer?] at hbuffer
      | composite node => simp [Text.buffer?] at hbuffer
  | @composite id node a b htext hleft hright ihleft ihright =>
      obtain ⟨left, right, htextl, htextr, -, hsl, hsr, hltl, hltr⟩ := hs.parts htext
      obtain ⟨n, rfl⟩ := Nat.exists_eq_add_of_lt (Nat.lt_of_lt_of_le hs.rank_pos hsteps)
      rw [unitWithin, htext, ok_bind]
      simp only [textLength, htextl, ok_bind, pure_bind]
      have hsplit : a.length = left.length := hsl.length_eq htextl hleft
      rw [List.length_append] at hi
      by_cases hlt : i < left.length
      · rw [if_pos hlt, List.getElem_append_left (by omega)]
        exact ihleft hsl (by omega) (by omega)
      · rw [if_neg hlt, List.getElem_append_right (by omega)]
        simp only [hsplit]
        exact ihright hsr (by omega) (by omega)
  | @view id node w htext hparent ih =>
      obtain ⟨p, u, hp, hu, hrange, hshort, hsp, hltp⟩ := hs.parent htext
      obtain ⟨n, rfl⟩ := Nat.exists_eq_add_of_lt (Nat.lt_of_lt_of_le hs.rank_pos hsteps)
      have hsize : w.length = u.size := by
        rw [hparent.unique (.buffer hp hu), Units.length_toList]
      rw [List.length_take, List.length_drop] at hi
      rw [unitWithin, htext, ok_bind]
      simp only [if_neg (show ¬ wordLimit ≤ i + node.offset by omega), List.getElem_take,
        List.getElem_drop, Nat.add_comm node.offset i]
      exact ih hsp (by omega) (by omega)

/-! ## Ranges of units -/

/-- Some steps append some units for the first ranges of a list. -/
def Copies (h : Heap) (ranges : List TextRange) (n : Nat) (units : List UInt16) : Prop :=
  ∀ steps rest out, h.copyWithin (n + steps) (ranges ++ rest) out =
    Units.extended out units >>= h.copyWithin steps rest

theorem Copies.nil : h.Copies [] 0 [] := by
  intro steps rest out
  rw [Units.extended_nil, ok_bind, Nat.zero_add, List.nil_append]

theorem Copies.append (ha : h.Copies ranges n a) (hb : h.Copies rest m b) :
    h.Copies (ranges ++ rest) (n + m) (a ++ b) := by
  intro steps later out
  rw [List.append_assoc, Nat.add_assoc, ha, Units.extended_append, bind_assoc]
  exact bind_congr fun longer => hb steps later longer

theorem Copies.buffer (htext : h.text id = .ok t) (hbuffer : t.buffer? = some u)
    (hlt : start < stop) (hstop : stop ≤ u.size) :
    h.Copies [⟨id, start, stop⟩] 1 (part u.toList start stop) := by
  intro steps rest out
  rw [Nat.add_comm, List.singleton_append, copyWithin_of_buffer hlt htext hbuffer,
    appendPiece_eq_extended (Nat.le_of_lt hlt) hstop]

theorem Copies.view {node : View} (htext : h.text id = .ok (.view node)) (hlt : start < stop)
    (hshort : stop + node.offset < wordLimit)
    (hparent : h.Copies [⟨node.parent, start + node.offset, stop + node.offset⟩] n a) :
    h.Copies [⟨id, start, stop⟩] (n + 1) a := by
  intro steps rest out
  rw [Nat.add_right_comm, List.singleton_append, copyWithin_of_view hlt htext,
    if_neg (Nat.not_le_of_lt hshort)]
  exact hparent steps rest out

theorem Copies.composite {node : Composite} {left : Text}
    (htext : h.text id = .ok (.composite node)) (hlt : start < stop)
    (hleft : h.text node.left = .ok left)
    (hparts : h.Copies (partRanges node left.length start stop) n a) :
    h.Copies [⟨id, start, stop⟩] (n + 1) a := by
  intro steps rest out
  rw [Nat.add_right_comm, List.singleton_append, copyWithin_of_composite hlt htext hleft]
  exact hparts steps rest out

/-- Ranges that may be left out, as nothing is to be copied then. -/
theorem Copies.of_if {range : TextRange} {p : Prop} [Decidable p] {bound : Nat}
    (hrange : p → ∃ n ≤ bound, h.Copies [range] n a) (hempty : ¬ p → a = []) :
    ∃ n ≤ bound, h.Copies (if p then [range] else []) n a := by
  split
  case isTrue hp => exact hrange hp
  case isFalse hp => exact ⟨0, Nat.zero_le _, hempty hp ▸ .nil⟩

/-- A step is paid for by the string that it leaves. -/
theorem step_le {width rank rank' : Nat} (hn : n ≤ width * rank') (hrank : rank' < rank)
    (hwidth : 0 < width) : n + 1 ≤ width * rank :=
  calc n + 1 ≤ width * rank' + width := Nat.add_le_add hn hwidth
    _ = width * (rank' + 1) := (Nat.mul_succ width rank').symm
    _ ≤ width * rank := Nat.mul_le_mul_left width hrank

/-- A range of a string takes no more steps than the ways to its units together. -/
theorem Structured.exists_copies (hs : h.Structured id) (hw : h.Spells id w) (hlt : start < stop)
    (hstop : stop ≤ w.length) :
    ∃ n ≤ (stop - start) * h.rank id, h.Copies [⟨id, start, stop⟩] n (part w start stop) := by
  -- on how the content comes about: the part of a range in a part of the string is copied by itself
  induction hw generalizing start stop with
  | @buffer id t u htext hbuffer =>
      rw [Units.length_toList] at hstop
      have hcost : 1 ≤ (stop - start) * h.rank id :=
        Nat.mul_pos (Nat.sub_pos_of_lt hlt) hs.rank_pos
      exact ⟨1, hcost, .buffer htext hbuffer hlt hstop⟩
  | @composite id node a b htext hleft hright ihleft ihright =>
      obtain ⟨left, right, htextl, htextr, -, hsl, hsr, hltl, hltr⟩ := hs.parts htext
      have hsplit : a.length = left.length := hsl.length_eq htextl hleft
      rw [List.length_append] at hstop
      have hbefore (hp : start < left.length) :
          ∃ n ≤ (min stop left.length - start) * h.rank node.left,
            h.Copies [⟨node.left, start, min stop left.length⟩] n
              (part a start (min stop left.length)) :=
        ihleft hsl (by omega) (by omega)
      have hafter (hp : left.length < stop) :
          ∃ n ≤ (stop - left.length - (start - left.length)) * h.rank node.right,
            h.Copies [⟨node.right, start - left.length, stop - left.length⟩] n
              (part b (start - left.length) (stop - left.length)) :=
        ihright hsr (by omega) (by omega)
      obtain ⟨n, hn, hcopyl⟩ := Copies.of_if hbefore fun hge => part_of_le (by omega)
      obtain ⟨m, hm, hcopyr⟩ := Copies.of_if hafter fun hge => part_of_le (by omega)
      -- each part has a lower rank, which pays for the step that splits the range
      have hcost : n + m + 1 ≤ (stop - start) * h.rank id := by
        have hwidth : (min stop left.length - start) +
            (stop - left.length - (start - left.length)) = stop - start := by omega
        have hparts : n + m ≤ (stop - start) * (h.rank id - 1) :=
          calc n + m ≤ (min stop left.length - start) * (h.rank id - 1) +
                (stop - left.length - (start - left.length)) * (h.rank id - 1) :=
                Nat.add_le_add (hn.trans (Nat.mul_le_mul_left _ (by omega)))
                  (hm.trans (Nat.mul_le_mul_left _ (by omega)))
            _ = (stop - start) * (h.rank id - 1) := by rw [← Nat.add_mul, hwidth]
        exact step_le hparts (by omega) (by omega)
      refine ⟨n + m + 1, hcost, .composite htext hlt htextl ?_⟩
      rw [part_append, hsplit]
      exact hcopyl.append hcopyr
  | @view id node w htext hparent ih =>
      obtain ⟨p, u, hp, hu, hrange, hshort, hsp, hltp⟩ := hs.parent htext
      have hsize : w.length = u.size := by
        rw [hparent.unique (.buffer hp hu), Units.length_toList]
      have hlength : stop ≤ node.length ∧ stop + node.offset ≤ u.size := by
        rw [List.length_take, List.length_drop] at hstop
        omega
      have hbuffer : ∃ n ≤ (stop + node.offset - (start + node.offset)) * h.rank node.parent,
          h.Copies [⟨node.parent, start + node.offset, stop + node.offset⟩] n
            (part w (start + node.offset) (stop + node.offset)) :=
        ih hsp (by omega) (by omega)
      obtain ⟨n, hn, hcopy⟩ := hbuffer
      rw [Nat.add_sub_add_right] at hn
      refine ⟨n + 1, step_le hn hltp (by omega), .view htext hlt (by omega) ?_⟩
      rwa [part_take_drop hlength.1]

/-! ## Both readers -/

/-- The units at the positions of a range are the part that it covers. -/
theorem mapM_unitAt (hunits : ∀ i (hi : i < w.length), h.unitAt id i = .ok w[i])
    (hstop : start + n ≤ w.length) :
    (List.range' start n).mapM (h.unitAt id) = .ok (part w start (start + n)) := by
  induction n generalizing start with
  | zero => simp [part, pure, Except.pure]
  | succ n ih =>
      have hi : start < w.length := by omega
      have hstep : start + (n + 1) = start + 1 + n := by omega
      rw [List.range'_succ, List.mapM_cons, hunits start hi, ok_bind, ih (by omega), ok_bind,
        part_succ (by omega) (List.getElem?_eq_getElem hi), hstep]
      rfl

/-- Both readers come to an end within a string and read the same there, whatever the number of
steps is that they may take. -/
structure ReadsAlike (h : Heap) (id : Handle) (t : Text) : Prop where
  unit : ∀ i < t.length, ∃ x, h.unitAt id i = .ok x ∧
    ∀ n, h.handles.size ≤ n → h.unitWithin n id i = .ok x
  range : ∀ start stop, start ≤ stop → stop ≤ t.length → ∃ units,
    (List.range' start (stop - start)).mapM (h.unitAt id) = .ok units ∧
    ∀ out : Units,
      (∀ n, 1 + (stop - start) * h.handles.size ≤ n →
        h.copyWithin n [⟨id, start, stop⟩] out = h.appendRange out id start stop) ∧
      ((out.encoding = .wide ∨ (out.encoding = t.encoding ∧ h.Truthful id) ∨
          ∀ x ∈ units, Units.isNarrowUnit x = true) →
        ∃ longer, h.appendRange out id start stop = .ok longer ∧
          longer.encoding = out.encoding ∧ longer.toList = out.toList ++ units) ∧
      (out.encoding = .narrow → (∃ x ∈ units, Units.isNarrowUnit x = false) →
        h.appendRange out id start stop = .error .unitTooWide)

/-- A walk over one range of a string extends the buffer by what the string spells there. -/
theorem Structured.copyWithin_eq (hs : h.Structured id) (hw : h.Spells id w) (hle : start ≤ stop)
    (hstop : stop ≤ w.length) (hsteps : 1 + (stop - start) * h.handles.size ≤ n) :
    h.copyWithin n [⟨id, start, stop⟩] out = out.extended (part w start stop) := by
  rcases Nat.lt_or_eq_of_le hle with hlt | rfl
  · obtain ⟨m, hm, hcopies⟩ := hs.exists_copies hw hlt hstop
    have hbound : (stop - start) * h.rank id ≤ (stop - start) * h.handles.size :=
      Nat.mul_le_mul_left _ hs.rank_le
    obtain ⟨steps, rfl⟩ := Nat.exists_eq_add_of_le (show m ≤ n by omega)
    have hcopy := hcopies steps [] out
    simp only [List.append_nil] at hcopy
    rw [hcopy]
    cases out.extended (part w start stop) with
    | ok longer => exact copyWithin_nil
    | error e => rfl
  · obtain ⟨n, rfl⟩ := Nat.exists_eq_add_of_le (show 1 ≤ n by omega)
    rw [Nat.add_comm, copyWithin_of_empty (Nat.le_refl _), copyWithin_nil,
      part_of_le (Nat.le_refl _), Units.extended_nil]

theorem handles_le_pathBound (h : Heap) (position : Nat) :
    h.handles.size ≤ h.pathBound position := by
  have hpos : 0 < position + UInt32.size := Nat.lt_of_lt_of_le (by decide) (Nat.le_add_left _ _)
  calc h.handles.size ≤ h.handles.size + 1 := Nat.le_succ _
    _ ≤ h.pathBound position := Nat.le_mul_of_pos_right _ hpos

theorem Structured.appendRange_eq (hs : h.Structured id) (hw : h.Spells id w) (hle : start ≤ stop)
    (hstop : stop ≤ w.length) :
    h.appendRange out id start stop = out.extended (part w start stop) := by
  refine hs.copyWithin_eq hw hle hstop (Nat.add_le_add_left (Nat.mul_le_mul_left _ ?_) 1)
  exact Nat.le_succ_of_le (h.handles_le_pathBound stop)

/-- **The two readers agree.**  Below a string whose structure fits both come to an end: each
unit of it can be read, and a range is appended to a buffer as its units are read one by one.
A narrow buffer refuses wide units, which a narrow string does not have if the encodings below
it are recorded truthfully. -/
theorem Structured.readers_agree (hs : h.Structured id) (htext : h.text id = .ok t) :
    h.ReadsAlike id t := by
  obtain ⟨w, hw, hlength⟩ := hs.exists_spells htext
  have hunit {i n : Nat} (hi : i < w.length) (hn : h.handles.size ≤ n) :
      h.unitWithin n id i = .ok w[i] := hs.unitWithin_eq hw hi (hs.rank_le.trans hn)
  have hunits (i : Nat) (hi : i < w.length) : h.unitAt id i = .ok w[i] :=
    hunit hi (h.handles_le_pathBound i)
  refine ⟨fun i hi => ?_, fun start stop hle hstop => ?_⟩
  · rw [← hlength] at hi
    exact ⟨w[i], hunits i hi, fun n hn => hunit hi hn⟩
  · rw [← hlength] at hstop
    have hread : (List.range' start (stop - start)).mapM (h.unitAt id) =
        .ok (part w start (start + (stop - start))) := mapM_unitAt hunits (by omega)
    rw [Nat.add_sub_cancel' hle] at hread
    refine ⟨part w start stop, hread, fun out => ?_⟩
    have happend : h.appendRange out id start stop = out.extended (part w start stop) :=
      hs.appendRange_eq hw hle hstop
    refine ⟨fun n hn => ?_, fun hfits => ?_, fun hnarrow hwide => ?_⟩
    · rw [happend, hs.copyWithin_eq hw hle hstop hn]
    · rw [happend]
      apply Units.exists_extended
      intro hnarrow x hx
      rcases hfits with hwide | ⟨hsame, htruth⟩ | hall
      · simp [hnarrow] at hwide
      · have hmem : x ∈ w := List.mem_of_mem_drop (List.mem_of_mem_take hx)
        exact htruth.narrow_of_spells hw htext (hsame ▸ hnarrow) x hmem
      · exact hall x hx
    · obtain ⟨x, hx, hwide⟩ := hwide
      rw [happend, Units.extended_refused hnarrow hx hwide]

theorem Arises.string {h' : Heap} (ha : h.Arises) (t : Text)
    (hrun : HeapM.allocate? (.of (.string t) .young) (fun _ => .string t) h = .ok (some id) h') :
    h'.Arises :=
  ha.allocate _ _ hrun

/-- A view of a narrow buffer, a composite of the view and the buffer, and a composite that has
this one for both of its parts. -/
theorem Structured.readers_agree_shared : ∃ (h : Heap) (t : Text), h.Arises ∧
    h.text ⟨3⟩ = .ok t ∧ t.length = 6 ∧ h.Structured ⟨3⟩ ∧ h.ReadsAlike ⟨3⟩ t := by
  obtain ⟨h, harises, h0, h1, h2, h3⟩ : ∃ h : Heap, h.Arises ∧
      h.text ⟨0⟩ = .ok (.flat (.narrow #[97, 98]) false) ∧
      h.text ⟨1⟩ = .ok (.view ⟨⟨0⟩, 1, 1, .narrow⟩) ∧
      h.text ⟨2⟩ = .ok (.composite ⟨⟨1⟩, ⟨0⟩, 3, .narrow, false⟩) ∧
      h.text ⟨3⟩ = .ok (.composite ⟨⟨2⟩, ⟨2⟩, 6, .narrow, false⟩) := by
    have flat := (Arises.empty 1000 1000).string (.flat (.narrow #[97, 98]) false) rfl
    have view := flat.string (.view ⟨⟨0⟩, 1, 1, .narrow⟩) rfl
    have inner := view.string (.composite ⟨⟨1⟩, ⟨0⟩, 3, .narrow, false⟩) rfl
    have outer := inner.string (.composite ⟨⟨2⟩, ⟨2⟩, 6, .narrow, false⟩) rfl
    exact ⟨_, outer, rfl, rfl, rfl, rfl⟩
  have hstructured : h.Structured ⟨3⟩ := by
    refine (structured_of_older [⟨3⟩, ⟨2⟩, ⟨1⟩, ⟨0⟩] ?_ (by simp)).1
    simp only [List.forall_mem_cons]
    refine ⟨⟨_, h3, ⟨_, _, h2, h2, rfl⟩, by simp [Text.children]⟩,
      ⟨_, h2, ⟨_, _, h1, h0, rfl⟩, by simp [Text.children]⟩,
      ⟨_, h1, ⟨_, _, h0, rfl, by decide, by decide⟩, by simp [Text.children]⟩,
      ⟨_, h0, trivial, by simp [Text.children]⟩, by simp⟩
  exact ⟨h, _, harises, h3, rfl, hstructured, hstructured.readers_agree h3⟩

/-- The structure of a string does not tell that its own encoding can hold it: a composite may be
recorded as narrow over a part that is wide. -/
theorem not_copied_of_encoding : ¬ ∀ (h : Heap) (id : Handle) (t : Text) (start stop : Nat)
    (out : Units), h.Arises → h.Structured id → h.text id = .ok t → start ≤ stop →
    stop ≤ t.length → (out.encoding = t.encoding ∨ out.encoding = .wide) →
    ∃ units longer, (List.range' start (stop - start)).mapM (h.unitAt id) = .ok units ∧
      h.appendRange out id start stop = .ok longer ∧ longer.toList = out.toList ++ units := by
  intro hall
  obtain ⟨h, harises, h0, h1⟩ : ∃ h : Heap, h.Arises ∧
      h.text ⟨0⟩ = .ok (.flat (.wide #[256]) false) ∧
      h.text ⟨1⟩ = .ok (.composite ⟨⟨0⟩, ⟨0⟩, 2, .narrow, false⟩) := by
    have flat := (Arises.empty 1000 1000).string (.flat (.wide #[256]) false) rfl
    have node := flat.string (.composite ⟨⟨0⟩, ⟨0⟩, 2, .narrow, false⟩) rfl
    exact ⟨_, node, rfl, rfl⟩
  have hstructured : h.Structured ⟨1⟩ := by
    refine (structured_of_older [⟨1⟩, ⟨0⟩] ?_ (by simp)).1
    simp only [List.forall_mem_cons]
    refine ⟨⟨_, h1, ⟨_, _, h0, h0, rfl⟩, by simp [Text.children]⟩,
      ⟨_, h0, trivial, by simp [Text.children]⟩, by simp⟩
  obtain ⟨units, longer, -, hlonger, -⟩ := hall h ⟨1⟩ _ 0 2 (.narrow #[]) harises hstructured h1
    (by decide) (by decide) (Or.inl rfl)
  -- the first piece is the wide unit of the left part
  have hspells : h.Spells ⟨1⟩ [256, 256] := .composite h1 (.buffer h0 rfl) (.buffer h0 rfl)
  have hrefused : Units.extended (.narrow #[]) (part [256, 256] 0 2) = .error .unitTooWide := by
    decide
  rw [hstructured.appendRange_eq hspells (by decide) (by decide), hrefused] at hlonger
  simp at hlonger

end Heap

end ManagedHeap
