import ManagedHeap.Proofs.Heap.Spelling

/-!
# What the readers read

The two walks over the layouts of a string, one unit at a time and one range at a time,
come to no dead object when they begin at a string of a readable set.  If a walk has a
result, and the position or the range is one of the string, the result is that part of the
content.

Both are by induction on the steps that the walk may still take.  A list of pending ranges
is read as the list of the parts that they cover, one after the other.
-/

namespace ManagedHeap

namespace Heap

variable {h : Heap} {id : Handle} {t : Text} {u out : Units} {w v : List UInt16}
  {held : Handle → Prop} {config : Config} {i start stop : Nat} {x : UInt16}

/-- A string is as long as its record says. -/
theorem Readable.reads_textLength (hr : h.Readable config held) (hid : held id)
    (hw : h.Spells id w) : Reads (h.textLength id) fun n => n = w.length := by
  unfold textLength
  rw [reads_bind]
  exact (hr.reads_text hid).mono fun t htext => (hr.length_eq hid htext hw).symm

/-! ## One unit -/

theorem reads_get (hget : u.toList = w) :
    Reads (match u.get? i with
      | some x => return x
      | none => throw .outOfRange) fun x => i < w.length → w[i]? = some x := by
  subst hget
  rw [Units.get?_eq]
  cases hx : u.toList[i]? with
  | none => simp [reads_throw]
  | some x => exact fun _ => rfl

theorem Readable.reads_unitWithin (hr : h.Readable config held) (steps : Nat) (hid : held id)
    (hw : h.Spells id w) :
    Reads (h.unitWithin steps id i) fun x => i < w.length → w[i]? = some x := by
  -- on the steps; what is spelled is split as the string is, and the position goes to the part it
  -- is in
  induction steps generalizing id i w with
  | zero => simp [unitWithin, reads_error]
  | succ steps ih =>
      unfold unitWithin
      rw [reads_bind]
      apply (hr.reads_text hid).mono
      intro t htext
      have hchild {c : Handle} (hc : c ∈ t.children) : held c := hr.text_child hid htext hc
      cases t with
      | flat units interned | external units interned =>
          exact reads_get ((hw.unique (.buffer htext rfl)).symm)
      | view node =>
          obtain ⟨a, ha, rfl⟩ := hw.of_view htext
          simp only
          split
          case isTrue => simp [reads_throw]
          case isFalse =>
              apply (ih (hchild (by simp [Text.children])) ha).mono
              intro x hx hi
              rw [List.length_take, List.length_drop] at hi
              rw [List.getElem?_take_of_lt (by omega), List.getElem?_drop, Nat.add_comm]
              exact hx (by omega)
      | composite node =>
          obtain ⟨a, b, ha, hb, rfl⟩ := hw.of_composite htext
          have hleft : held node.left := hchild (by simp [Text.children])
          simp only [reads_bind]
          apply (hr.reads_textLength hleft ha).mono
          rintro _ rfl
          split
          case isTrue hlt =>
              apply (ih hleft ha).mono
              intro x hx _
              rw [List.getElem?_append_left hlt]
              exact hx hlt
          case isFalse hge =>
              apply (ih (hchild (by simp [Text.children])) hb).mono
              intro x hx hi
              rw [List.length_append] at hi
              rw [List.getElem?_append_right (by omega)]
              exact hx (by omega)

theorem Readable.reads_unitAt (hr : h.Readable config held) (hid : held id)
    (hw : h.Spells id w) : Reads (h.unitAt id i) fun x => i < w.length → w[i]? = some x :=
  hr.reads_unitWithin _ hid hw

/-! ## Ranges of units -/

/-- The part of some content that a range covers. -/
def part (w : List UInt16) (start stop : Nat) : List UInt16 :=
  (w.drop start).take (stop - start)

theorem length_part (hstop : stop ≤ w.length) : (part w start stop).length = stop - start := by
  simp only [part, List.length_take, List.length_drop]
  omega

theorem part_of_le (hle : stop ≤ start) : part w start stop = [] := by
  simp [part, Nat.sub_eq_zero_of_le hle]

/-- A range of a range is a range of the whole. -/
theorem part_take_drop {offset length : Nat} (hstop : stop ≤ length) :
    part ((w.drop offset).take length) start stop = part w (start + offset) (stop + offset) := by
  unfold part
  rw [List.drop_take, List.drop_drop, List.take_take, Nat.add_comm offset start]
  congr 1
  omega

/-- A range of what follows a position is a range of the whole. -/
theorem part_drop {offset : Nat} :
    part (w.drop offset) start stop = part w (start + offset) (stop + offset) := by
  unfold part
  rw [List.drop_drop, Nat.add_comm offset start, Nat.add_sub_add_right]

/-- A range of two contents is a range of the first and a range of the second. -/
theorem part_append {a b : List UInt16} : part (a ++ b) start stop =
    part a start (min stop a.length) ++ part b (start - a.length) (stop - a.length) := by
  unfold part
  rw [List.drop_append, List.take_append, List.length_drop]
  congr 1
  · rcases Nat.le_total stop a.length with hle | hle
    · rw [Nat.min_eq_left hle]
    · have hlength := List.length_drop (i := start) (l := a)
      rw [Nat.min_eq_right hle, List.take_of_length_le (by omega),
        List.take_of_length_le (by omega)]
  · congr 1
    omega

theorem part_append_left {a b : List UInt16} (hstop : stop ≤ a.length) :
    part (a ++ b) start stop = part a start stop := by
  have hafter : stop - a.length ≤ start - a.length := by omega
  rw [part_append, Nat.min_eq_left hstop, part_of_le hafter, List.append_nil]

/-- A range of a beginning is a range of the whole. -/
theorem part_of_begins (hbegins : w <+: v) (hstop : stop ≤ w.length) :
    part v start stop = part w start stop := by
  obtain ⟨rest, rfl⟩ := hbegins
  exact part_append_left hstop

theorem part_append_right {a b : List UInt16} {n : Nat} (hstart : a.length ≤ start) :
    part (a ++ b) start (start + n) = part b (start - a.length) (start - a.length + n) := by
  rw [part_append, part_of_le (by omega), List.nil_append]
  congr 1
  omega

theorem part_succ (hstart : start < stop) (hx : w[start]? = some x) :
    part w start stop = x :: part w (start + 1) stop := by
  obtain ⟨hlt, rfl⟩ := List.getElem?_eq_some_iff.mp hx
  unfold part
  rw [List.drop_eq_getElem_cons hlt, show stop - start = (stop - (start + 1)) + 1 by omega,
    List.take_succ_cons]

theorem part_one (hone : stop - start = 1) (hx : w[start]? = some x) : part w start stop = [x] := by
  rw [part_succ (by omega) hx, part_of_le (by omega)]

theorem part_two {y : UInt16} (htwo : stop - start = 2) (hx : w[start]? = some x)
    (hy : w[start + 1]? = some y) : part w start stop = [x, y] := by
  rw [part_succ (by omega) hx, part_one (by omega) hy]

/-- The range covers a part of what can be read of its string. -/
def Covers (h : Heap) (range : TextRange) (v : List UInt16) : Prop :=
  ∃ w, h.Affords range.id w ∧ (range.start < range.stop → range.stop ≤ w.length) ∧
    v = part w range.start range.stop

/-- A range of a string covers a part of its content. -/
theorem Spells.covers (hw : h.Spells id w) (hstop : start < stop → stop ≤ w.length) :
    h.Covers ⟨id, start, stop⟩ (part w start stop) := by
  obtain ⟨v, hv, hbegins⟩ := hw.affords
  refine ⟨v, hv, fun hlt => Nat.le_trans (hstop hlt) hbegins.length_le, ?_⟩
  by_cases hlt : start < stop
  · exact (part_of_begins hbegins (hstop hlt)).symm
  · simp only
    rw [part_of_le (Nat.le_of_not_lt hlt), part_of_le (Nat.le_of_not_lt hlt)]

/-- The ranges cover some content, one after the other. -/
inductive CoverAll (h : Heap) : List TextRange → List UInt16 → Prop
  | nil : CoverAll h [] []
  | cons {range : TextRange} {rest : List TextRange} {v vs : List UInt16}
      (hrange : h.Covers range v) (hrest : CoverAll h rest vs) :
      CoverAll h (range :: rest) (v ++ vs)

variable {ranges rest : List TextRange}

theorem CoverAll.of_cons (hcover : h.CoverAll (⟨id, start, stop⟩ :: rest) v)
    (hw : h.Affords id w) :
    ∃ vs, (start < stop → stop ≤ w.length) ∧ h.CoverAll rest vs ∧ v = part w start stop ++ vs := by
  cases hcover with
  | cons hrange hrest =>
      obtain ⟨w', hw', hle, rfl⟩ := hrange
      obtain rfl := hw.unique hw'
      exact ⟨_, hle, hrest, rfl⟩

/-- A list of ranges, which may be empty where nothing is to be covered. -/
theorem CoverAll.cons_if {range : TextRange} {vs : List UInt16} {p : Prop} [Decidable p]
    (hrange : p → h.Covers range v) (hempty : ¬ p → v = []) (hrest : h.CoverAll rest vs) :
    h.CoverAll ((if p then [range] else []) ++ rest) (v ++ vs) := by
  split
  case isTrue hp => exact .cons (hrange hp) hrest
  case isFalse hp =>
      rw [hempty hp]
      exact hrest

/-! ## The steps of a walk over ranges -/

/-- Appends a range of a buffer to another one. -/
def appendPiece (out u : Units) (start stop : Nat) : Except Fault Units :=
  match u.slice? start stop with
  | none => throw .outOfRange
  | some piece =>
    match out.append? piece with
    | none => throw .unitTooWide
    | some longer => return longer

/-- The ranges that a range of a composite consists of, in parts of which the left one has the
length `split`. -/
def partRanges (node : Composite) (split start stop : Nat) : List TextRange :=
  (if start < split then [⟨node.left, start, min stop split⟩] else []) ++
    if split < stop then [⟨node.right, start - split, stop - split⟩] else []

theorem forall_mem_partRanges {node : Composite} {split : Nat} {P : TextRange → Prop}
    (hleft : start < split → P ⟨node.left, start, min stop split⟩)
    (hright : split < stop → P ⟨node.right, start - split, stop - split⟩) :
    ∀ range ∈ partRanges node split start stop, P range := by
  intro range hrange
  simp only [partRanges, List.mem_append, List.mem_ite_nil_right, List.mem_singleton] at hrange
  rcases hrange with ⟨hlt, rfl⟩ | ⟨hlt, rfl⟩
  · exact hleft hlt
  · exact hright hlt

/-- The parent of a held view is held, and so are the strings of the ranges that a step leaves
to do in its place. -/
theorem Closed.held_parent {node : View} (hc : h.Closed held) (hid : held id)
    (htext : h.text id = .ok (.view node)) (hrest : ∀ range ∈ rest, held range.id) :
    ∀ range ∈ ⟨node.parent, start, stop⟩ :: rest, held range.id :=
  List.forall_mem_cons.mpr ⟨hc.text_child hid htext (by simp [Text.children]), hrest⟩

/-- The parts of a held composite are held, and so are the strings of the ranges that a step
leaves to do in its place. -/
theorem Closed.held_parts {node : Composite} {split : Nat} (hc : h.Closed held) (hid : held id)
    (htext : h.text id = .ok (.composite node)) (hrest : ∀ range ∈ rest, held range.id) :
    ∀ range ∈ partRanges node split start stop ++ rest, held range.id :=
  List.forall_mem_append.mpr ⟨forall_mem_partRanges
    (fun _ => hc.text_child hid htext (by simp [Text.children]))
    fun _ => hc.text_child hid htext (by simp [Text.children]), hrest⟩

section Steps

variable {steps : Nat} {e : Fault}

@[simp] theorem copyWithin_nil : h.copyWithin steps [] out = .ok out := by
  cases steps <;> rfl

theorem copyWithin_of_empty (hempty : stop ≤ start) :
    h.copyWithin (steps + 1) (⟨id, start, stop⟩ :: rest) out = h.copyWithin steps rest out := by
  rw [copyWithin, if_pos hempty]

theorem copyWithin_of_error (hlt : start < stop) (htext : h.text id = .error e) :
    h.copyWithin (steps + 1) (⟨id, start, stop⟩ :: rest) out = .error e := by
  rw [copyWithin, if_neg (Nat.not_le_of_lt hlt), htext]
  rfl

theorem copyWithin_of_buffer (hlt : start < stop) (htext : h.text id = .ok t)
    (hbuffer : t.buffer? = some u) :
    h.copyWithin (steps + 1) (⟨id, start, stop⟩ :: rest) out =
      appendPiece out u start stop >>= h.copyWithin steps rest := by
  rw [copyWithin, if_neg (Nat.not_le_of_lt hlt), htext, ok_bind]
  unfold appendPiece
  cases t with
  | flat units interned | external units interned =>
      obtain rfl := Option.some.inj hbuffer
      simp only
      cases units.slice? start stop with
      | none => rfl
      | some piece =>
          simp only
          cases out.append? piece <;> rfl
  | view node => simp [Text.buffer?] at hbuffer
  | composite node => simp [Text.buffer?] at hbuffer

theorem copyWithin_of_view {node : View} (hlt : start < stop)
    (htext : h.text id = .ok (.view node)) :
    h.copyWithin (steps + 1) (⟨id, start, stop⟩ :: rest) out =
      if wordLimit ≤ stop + node.offset then .error .wordOverflow
      else h.copyWithin steps (⟨node.parent, start + node.offset, stop + node.offset⟩ :: rest)
        out := by
  rw [copyWithin, if_neg (Nat.not_le_of_lt hlt), htext]
  rfl

theorem copyWithin_of_composite {node : Composite} {left : Text} (hlt : start < stop)
    (htext : h.text id = .ok (.composite node)) (hleft : h.text node.left = .ok left) :
    h.copyWithin (steps + 1) (⟨id, start, stop⟩ :: rest) out =
      h.copyWithin steps (partRanges node left.length start stop ++ rest) out := by
  rw [copyWithin, if_neg (Nat.not_le_of_lt hlt), htext, ok_bind]
  simp only [textLength, hleft]
  rfl

end Steps

theorem reads_appendPiece (out : Units) (hunits : u.toList = w) :
    Reads (appendPiece out u start stop) fun longer =>
      longer.toList = out.toList ++ part w start stop ∧ longer.encoding = out.encoding := by
  unfold appendPiece
  cases hslice : u.slice? start stop with
  | none => simp [reads_throw]
  | some piece =>
      obtain ⟨-, -, hpiece, -⟩ := Units.slice?_eq_some hslice
      simp only
      cases happend : out.append? piece with
      | none => simp [reads_throw]
      | some longer =>
          obtain ⟨htoList, hencoding⟩ := Units.append?_eq_some happend
          refine ⟨?_, hencoding⟩
          rw [htoList, hpiece, hunits]
          rfl

/-- What a range of a composite covers is covered by the ranges of its parts. -/
theorem coverAll_partRanges {node : Composite} {a b vs : List UInt16}
    (ha : h.Spells node.left a) (hb : h.Affords node.right b) (hlt : start < stop)
    (hle : stop ≤ (a ++ b).length) (hrest : h.CoverAll rest vs) :
    h.CoverAll (partRanges node a.length start stop ++ rest) (part (a ++ b) start stop ++ vs) := by
  rw [List.length_append] at hle
  rw [partRanges, part_append, List.append_assoc, List.append_assoc]
  refine .cons_if (fun _ => ha.covers fun _ => Nat.min_le_right _ _)
    (fun hge => part_of_le (by omega)) (.cons_if (fun _ => ?_) (fun hge => part_of_le (by omega))
      hrest)
  exact ⟨b, hb, fun _ => by simp only; omega, rfl⟩

theorem Readable.reads_copyWithin (hr : h.Readable config held) (steps : Nat)
    (hranges : ∀ range ∈ ranges, held range.id) : Reads (h.copyWithin steps ranges out)
      fun result => ∀ v, h.CoverAll ranges v →
        result.toList = out.toList ++ v ∧ result.encoding = out.encoding := by
  -- on the steps; the ranges that are left cover what is still to be written
  induction steps generalizing ranges out with
  | zero =>
      cases ranges with
      | nil =>
          intro v hv
          cases hv
          simp
      | cons range ranges => simp [copyWithin, reads_error]
  | succ steps ih =>
      cases ranges with
      | nil =>
          intro v hv
          cases hv
          simp
      | cons range rest =>
          obtain ⟨id, start, stop⟩ := range
          obtain ⟨hid, hrest⟩ := List.forall_mem_cons.mp hranges
          rcases Nat.lt_or_ge start stop with hlt | hempty
          case inr =>
              rw [copyWithin_of_empty hempty]
              apply (ih hrest).mono
              intro result hresult v hcover
              cases hcover with
              | cons hrange hcover =>
                  obtain ⟨w, -, -, rfl⟩ := hrange
                  rw [part_of_le hempty, List.nil_append]
                  exact hresult _ hcover
          cases htext : h.text id with
          | error e =>
              have hread := hr.reads_text hid
              rw [htext, reads_error] at hread
              rw [copyWithin_of_error hlt htext]
              exact hread
          | ok t =>
          obtain ⟨w, hw⟩ := hr.affords hid htext
          -- it is enough to cover what the step leaves to do
          suffices hstep : Reads (h.copyWithin (steps + 1) (⟨id, start, stop⟩ :: rest) out)
              fun result => ∀ vs, stop ≤ w.length → h.CoverAll rest vs →
                result.toList = out.toList ++ (part w start stop ++ vs) ∧
                  result.encoding = out.encoding from
            hstep.mono fun result hresult v hcover => by
              obtain ⟨vs, hle, hrest, rfl⟩ := hcover.of_cons hw
              exact hresult vs (hle hlt) hrest
          cases t using Text.casesLayout with
          | buffer t u hu =>
              rw [copyWithin_of_buffer hlt htext hu, reads_bind]
              apply (reads_appendPiece out (hw.of_buffer htext hu)).mono
              rintro longer ⟨hlonger, hencoding⟩
              apply (ih hrest).mono
              intro result hresult vs _ hcover
              rw [← List.append_assoc, ← hlonger, ← hencoding]
              exact hresult vs hcover
          | view node =>
              obtain ⟨a, ha, rfl⟩ := hw.of_view htext
              rw [copyWithin_of_view hlt htext]
              split
              case isTrue => simp [reads_error]
              case isFalse =>
                  apply (ih (hr.held_parent hid htext hrest)).mono
                  intro result hresult vs hle hcover
                  rw [List.length_drop] at hle
                  rw [part_drop]
                  exact hresult _ (.cons (ha.covers fun _ => by omega) hcover)
          | composite node =>
              obtain ⟨a, b, ha, hb, rfl⟩ := hw.of_composite htext
              have hleft : held node.left := hr.text_child hid htext (by simp [Text.children])
              obtain ⟨first, hfirst⟩ := ha.text
              rw [copyWithin_of_composite hlt htext hfirst, ← hr.length_eq hleft hfirst ha]
              apply (ih (hr.held_parts hid htext hrest)).mono
              intro result hresult vs hle hcover
              exact hresult _ (coverAll_partRanges ha hb hlt hle hcover)

theorem Readable.reads_appendRange (hr : h.Readable config held) (hid : held id)
    (hw : h.Spells id w) : Reads (h.appendRange out id start stop) fun result =>
      stop ≤ w.length → result.toList = out.toList ++ part w start stop ∧
        result.encoding = out.encoding := by
  apply (hr.reads_copyWithin _ (by simpa using hid)).mono
  intro result hresult hle
  have hcover : h.CoverAll [⟨id, start, stop⟩] (part w start stop ++ []) :=
    .cons (hw.covers fun _ => hle) .nil
  simpa using hresult _ hcover

theorem Readable.reads_copyRange (hr : h.Readable config held) (hid : held id)
    (hw : h.Spells id w) (encoding : Encoding) :
    Reads (h.copyRange id start stop encoding) fun result =>
      stop ≤ w.length → result.toList = part w start stop ∧ result.encoding = encoding := by
  apply (hr.reads_appendRange hid hw).mono
  intro result hresult hle
  simpa using hresult hle

/-- A range that is the whole content. -/
theorem part_full : part w 0 w.length = w := by
  simp [part]

end Heap

end ManagedHeap
