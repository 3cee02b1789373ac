import ManagedHeap.Proofs.Heap.Canonical
import ManagedHeap.Proofs.Heap.Reachability
import ManagedHeap.Proofs.Heap.Reading
import ManagedHeap.Proofs.Heap.Settling

/-!
# The readers come to an end

A walk over the layouts of a string meets composites, at most one view, and a buffer.  The
parts of a composite are shorter than it is, so the composites on one way are different
objects, and there are no more of them than the heap has handles.  `h.layers t` counts the
layouts that can be met from a string `t` on: the composites that are no longer than `t`, a
view and a buffer.  Each step of a walk goes to a string with fewer layers
(`layers_lt_of_part`).

So the walk to one unit needs no more steps than there are layers.  The walk over a range
splits where it meets a composite; it needs no more steps than there are layers below each
unit of the range (`TextRange.cost`).  The bounds of both readers are larger than that, and
none of their other faults can occur in a readable heap that is tidy.
-/

namespace ManagedHeap

namespace Heap

variable {h : Heap} {id : Handle} {t : Text} {u out : Units} {w v : List UInt16}
  {held : Handle → Prop} {config : Config} {i start stop steps : Nat} {node : Composite}
  {ranges : List TextRange}

/-! ## Layers -/

/-- The composites that are no longer than some length. -/
def compositesUpTo (h : Heap) (length : Nat) : Set Handle :=
  {id | ∃ node, h.text id = .ok (.composite node) ∧ node.length ≤ length}

theorem compositesUpTo_subset (length : Nat) : h.compositesUpTo length ⊆ h.live := by
  intro id hid
  obtain ⟨node, htext, -⟩ := hid
  exact isLive_of_find (text_eq_ok.mp htext)

/-- The layouts that a walk can meet from a string on. -/
noncomputable def layers (h : Heap) : Text → Nat
  | .flat _ _ | .external _ _ => 1
  | .view _ => 2
  | .composite node => (h.compositesUpTo node.length).ncard + 2

theorem layers_pos (h : Heap) (t : Text) : 0 < h.layers t := by
  cases t <;> simp [layers]

theorem layers_of_buffer (hbuffer : t.buffer? = some u) : h.layers t = 1 := by
  cases t <;> simp_all [Text.buffer?, layers]

theorem layers_le (h : Heap) (t : Text) : h.layers t ≤ h.handles.size + 2 := by
  cases t with
  | composite node =>
      have hcount := Set.ncard_le_ncard (compositesUpTo_subset (h := h) node.length) finite_live
      exact Nat.add_le_add_right (hcount.trans ncard_live_le) 2
  | _ => simp [layers]

/-- A string that is shorter than a composite has fewer layers. -/
theorem layers_lt_of_shorter (htext : h.text id = .ok (.composite node))
    (hshorter : t.length < node.length) : h.layers t < h.layers (.composite node) := by
  have hself : id ∈ h.compositesUpTo node.length := ⟨node, htext, Nat.le_refl _⟩
  have hfinite : (h.compositesUpTo node.length).Finite :=
    finite_live.subset (compositesUpTo_subset _)
  cases t with
  | composite part =>
      have hsub : h.compositesUpTo part.length ⊂ h.compositesUpTo node.length := by
        refine Set.ssubset_iff_exists.mpr ⟨fun j hj => ?_, id, hself, fun hid => ?_⟩
        · obtain ⟨other, hother, hle⟩ := hj
          exact ⟨other, hother, hle.trans (Nat.le_of_lt hshorter)⟩
        · obtain ⟨other, hother, hle⟩ := hid
          obtain rfl : node = other := by simpa [htext] using hother
          exact absurd hle (Nat.not_le_of_lt hshorter)
      exact Nat.add_lt_add_right (Set.ncard_lt_ncard hsub hfinite) 2
  | _ =>
      have hpos : 0 < (h.compositesUpTo node.length).ncard :=
        (Set.ncard_pos hfinite).mpr ⟨id, hself⟩
      simp only [layers]
      omega

/-- What a walk needs to know of a composite that it meets. -/
theorem Readable.parts (hr : h.Readable config held) (hid : held id)
    (htext : h.text id = .ok (.composite node)) :
    ∃ a b, h.text node.left = .ok a ∧ h.text node.right = .ok b ∧ held node.left ∧
      held node.right ∧ node.length = a.length + b.length ∧
      h.layers a < h.layers (.composite node) ∧ h.layers b < h.layers (.composite node) := by
  obtain ⟨a, b, ha, hb, hapos, hbpos, hlength, -⟩ := (hr.spelled id _ hid htext).shaped
  exact ⟨a, b, ha, hb, hr.text_child hid htext (by simp [Text.children]),
    hr.text_child hid htext (by simp [Text.children]), hlength,
    layers_lt_of_shorter htext (by omega), layers_lt_of_shorter htext (by omega)⟩

/-- What a walk needs to know of a view that it meets. -/
theorem Readable.parent {node : View} (hr : h.Readable config held) (ht : h.Tidy) (hid : held id)
    (htext : h.text id = .ok (.view node)) :
    ∃ p u, h.text node.parent = .ok p ∧ p.buffer? = some u ∧ held node.parent ∧
      node.offset + node.length ≤ u.size ∧ u.size < wordLimit := by
  obtain ⟨p, u, hp, hu, hrange, -⟩ := (hr.spelled id _ hid htext).shaped
  exact ⟨p, u, hp, hu, hr.text_child hid htext (by simp [Text.children]), hrange,
    ht.short _ p u hp hu⟩

/-- The length of a string fits a machine word if that of a composite does. -/
theorem Readable.length_lt_wordLimit (hr : h.Readable config held) (ht : h.Tidy)
    (hmax : config.maxStringLength < wordLimit) (hid : held id) (htext : h.text id = .ok t) :
    t.length < wordLimit := by
  cases t with
  | flat units interned | external units interned => exact ht.short _ _ _ htext rfl
  | composite node =>
      obtain ⟨a, b, -, -, -, -, -, -, -, hlong⟩ := (hr.spelled id _ hid htext).shaped
      exact Nat.lt_of_le_of_lt hlong hmax
  | view node =>
      obtain ⟨p, u, -, -, -, hrange, hshort⟩ := hr.parent ht hid htext
      exact Nat.lt_of_le_of_lt (by simp only [Text.length]; omega) hshort

/-! ## One unit -/

theorem Readable.unitWithin_ok (hr : h.Readable config held) (ht : h.Tidy) (hid : held id)
    (htext : h.text id = .ok t) (hi : i < t.length) (hsteps : h.layers t ≤ steps) :
    ∃ x, h.unitWithin steps id i = .ok x := by
  -- on the steps: each turn goes down a layer, so that the steps left suffice for the layers below
  induction steps generalizing id t i with
  | zero => exact absurd hsteps (Nat.not_le_of_lt (h.layers_pos t))
  | succ steps ih =>
      unfold unitWithin
      simp only [htext, bind, Except.bind]
      cases t with
      | flat units interned | external units interned =>
          obtain ⟨x, hx⟩ := Units.exists_get? (u := units) hi
          simp only [hx]
          exact ⟨x, rfl⟩
      | view node =>
          obtain ⟨p, u, hp, hu, hparent, hrange, hshort⟩ := hr.parent ht hid htext
          have hi' : i < node.length := hi
          simp only [if_neg (show ¬ wordLimit ≤ i + node.offset by omega)]
          refine ih hparent hp ?_ ?_
          · rw [Text.length_of_buffer hu]
            omega
          · have htwo : h.layers (.view node) = 2 := rfl
            rw [layers_of_buffer hu]
            omega
      | composite node =>
          obtain ⟨a, b, ha, hb, hleft, hright, hlength, hla, hlb⟩ := hr.parts hid htext
          have hi' : i < node.length := hi
          simp only [textLength, ha, bind, Except.bind, pure, Except.pure]
          split
          case isTrue hlt => exact ih hleft ha hlt (by omega)
          case isFalse hge => exact ih hright hb (by omega) (by omega)

theorem layers_le_pathBound (h : Heap) (t : Text) (position : Nat) :
    h.layers t ≤ h.pathBound position := by
  have htwo : 2 ≤ position + UInt32.size := by
    have hsize : UInt32.size = 4294967296 := rfl
    omega
  calc h.layers t ≤ h.handles.size + 2 := h.layers_le t
    _ ≤ (h.handles.size + 1) * 2 := by omega
    _ ≤ h.pathBound position := Nat.mul_le_mul_left _ htwo

/-- Each unit of a string can be read. -/
theorem Readable.unitAt_ok (hr : h.Readable config held) (ht : h.Tidy) (hid : held id)
    (hw : h.Spells id w) (htext : h.text id = .ok t) (hi : i < w.length) :
    h.unitAt id i = .ok w[i] := by
  have hlength := hr.length_eq hid htext hw
  obtain ⟨x, hx⟩ := hr.unitWithin_ok ht hid htext (hlength ▸ hi) (h.layers_le_pathBound t i)
  have hread := (hr.reads_unitAt hid hw).of_ok hx hi
  rw [List.getElem?_eq_getElem hi] at hread
  rw [unitAt, hx, ← Option.some.inj hread]

/-! ## Ranges of units -/

/-- The layers below a string. -/
noncomputable def layersAt (h : Heap) (id : Handle) : Nat :=
  match h.text id with
  | .ok t => h.layers t
  | .error _ => 0

theorem layersAt_eq (htext : h.text id = .ok t) : h.layersAt id = h.layers t := by
  rw [layersAt, htext]

/-- A bound on the steps that a range takes: each of its units is at the end of one way. -/
noncomputable def cost (h : Heap) (range : TextRange) : Nat :=
  (range.stop - range.start) * h.layersAt range.id

/-- The steps that some ranges take together. -/
noncomputable def costs (h : Heap) (ranges : List TextRange) : Nat :=
  (ranges.map h.cost).sum

@[simp] theorem costs_cons (range : TextRange) :
    h.costs (range :: ranges) = h.cost range + h.costs ranges := by
  simp [costs]

@[simp] theorem costs_append (rest : List TextRange) :
    h.costs (ranges ++ rest) = h.costs ranges + h.costs rest := by
  simp [costs]

theorem costs_if {p : Prop} [Decidable p] (range : TextRange) :
    h.costs (if p then [range] else []) ≤ h.cost range := by
  split <;> simp [costs]

/-- A range of a composite takes more steps than its two parts. -/
theorem Readable.costs_partRanges (hr : h.Readable config held) (hid : held id)
    (htext : h.text id = .ok (.composite node)) (split : Nat) (hlt : start < stop) :
    h.costs (partRanges node split start stop) < h.cost ⟨id, start, stop⟩ := by
  obtain ⟨a, b, ha, hb, -, -, -, hla, hlb⟩ := hr.parts hid htext
  -- a part that is not asked for costs nothing, so that both are a bound
  suffices hparts : h.cost ⟨node.left, start, min stop split⟩ +
      h.cost ⟨node.right, start - split, stop - split⟩ < h.cost ⟨id, start, stop⟩ by
    have hbefore := h.costs_if (p := start < split) ⟨node.left, start, min stop split⟩
    have hafter := h.costs_if (p := split < stop) ⟨node.right, start - split, stop - split⟩
    rw [partRanges, costs_append]
    omega
  have hmost : h.layers a ≤ h.layers (.composite node) - 1 := by omega
  have hmost' : h.layers b ≤ h.layers (.composite node) - 1 := by omega
  have hwidth : (min stop split - start) + (stop - split - (start - split)) = stop - start := by
    omega
  simp only [cost, layersAt_eq ha, layersAt_eq hb, layersAt_eq htext]
  -- each part is a layer lower, and together they are as wide as the range
  calc (min stop split - start) * h.layers a + (stop - split - (start - split)) * h.layers b
      ≤ (min stop split - start) * (h.layers (.composite node) - 1) +
        (stop - split - (start - split)) * (h.layers (.composite node) - 1) :=
        Nat.add_le_add (Nat.mul_le_mul_left _ hmost) (Nat.mul_le_mul_left _ hmost')
    _ = (stop - start) * (h.layers (.composite node) - 1) := by rw [← Nat.add_mul, hwidth]
    _ < (stop - start) * h.layers (.composite node) :=
        Nat.mul_lt_mul_of_pos_left (by omega) (by omega)

/-- A buffer takes what is appended to it, if it can hold wide units or they are narrow. -/
theorem exists_appendPiece (hw : u.toList = w) (hle : start ≤ stop) (hstop : stop ≤ w.length)
    (hfits : out.encoding = .narrow → ∀ x ∈ part w start stop, Units.isNarrowUnit x = true) :
    ∃ longer, appendPiece out u start stop = .ok longer ∧ longer.encoding = out.encoding := by
  subst hw
  rw [Units.length_toList] at hstop
  obtain ⟨piece, hpiece⟩ := Units.exists_slice? hle hstop
  obtain ⟨-, -, htoList, -⟩ := Units.slice?_eq_some hpiece
  obtain ⟨longer, hlonger⟩ : ∃ longer, out.append? piece = some longer :=
    Units.exists_append? fun hnarrow x hx => hfits hnarrow x (by rwa [htoList] at hx)
  refine ⟨longer, ?_, (Units.append?_eq_some hlonger).2⟩
  rw [appendPiece, hpiece]
  simp only [hlonger]
  rfl

theorem Readable.copyWithin_ok (hr : h.Readable config held) (ht : h.Tidy)
    (hheld : ∀ range ∈ ranges, held range.id) (hproper : ∀ range ∈ ranges, range.start < range.stop)
    (hcover : h.CoverAll ranges v)
    (hfits : out.encoding = .narrow → ∀ x ∈ v, Units.isNarrowUnit x = true)
    (hsteps : h.costs ranges ≤ steps) : ∃ result, h.copyWithin steps ranges out = .ok result := by
  -- on the steps and not on the ranges, as a turn may put two ranges in the place of one; what
  -- carries it is that the ranges cost less after each turn
  induction steps generalizing ranges out v with
  | zero =>
      cases hcover with
      | nil => exact ⟨out, copyWithin_nil⟩
      | @cons range rest v vs hrange hrest =>
          obtain ⟨w, hw, -⟩ := hrange
          obtain ⟨t, htext⟩ := hw.text
          -- a proper range costs a step, so that without steps there is no range left
          have hcost : 0 < h.cost range := Nat.mul_pos
            (Nat.sub_pos_of_lt (hproper range List.mem_cons_self))
            (layersAt_eq htext ▸ h.layers_pos t)
          rw [costs_cons] at hsteps
          omega
  | succ steps ih =>
      cases hcover with
      | nil => exact ⟨out, copyWithin_nil⟩
      | @cons range rest v vs hrange hrest =>
          obtain ⟨id, start, stop⟩ := range
          obtain ⟨w, hw, hstop, rfl⟩ := hrange
          simp only at hw hstop hfits
          have hid : held id := hheld _ List.mem_cons_self
          have hlt : start < stop := hproper _ List.mem_cons_self
          have hle : stop ≤ w.length := hstop hlt
          obtain ⟨hheld', hproper'⟩ :
              (∀ range ∈ rest, held range.id) ∧ ∀ range ∈ rest, range.start < range.stop :=
            ⟨(List.forall_mem_cons.mp hheld).2, (List.forall_mem_cons.mp hproper).2⟩
          obtain ⟨t, htext⟩ := hw.text
          rw [costs_cons] at hsteps
          have hcost : h.cost ⟨id, start, stop⟩ = (stop - start) * h.layers t := by
            rw [cost, layersAt_eq htext]
          cases t using Text.casesLayout with
          | buffer t u hu =>
              -- the range is done, and what the rest costs is still to be had
              obtain ⟨longer, hlonger, hencoding⟩ := exists_appendPiece (hw.of_buffer htext hu)
                (Nat.le_of_lt hlt) hle fun hnarrow x hx =>
                  hfits hnarrow x (List.mem_append_left _ hx)
              rw [copyWithin_of_buffer hlt htext hu, hlonger, ok_bind]
              refine ih hheld' hproper' hrest
                (fun hnarrow x hx => hfits (hencoding ▸ hnarrow) x (List.mem_append_right _ hx)) ?_
              rw [hcost, layers_of_buffer hu] at hsteps
              omega
          | view node =>
              obtain ⟨p, u, hp, hu, -, hrange, hshort⟩ := hr.parent ht hid htext
              -- the parent is a buffer: a unit of it costs one step, a unit of the view two
              obtain ⟨a, ha, rfl⟩ := hw.of_view htext
              have hsize : a.length = u.size := by
                rw [ha.unique (.buffer hp hu), Units.length_toList]
              rw [List.length_drop] at hle
              rw [copyWithin_of_view hlt htext,
                if_neg (show ¬ wordLimit ≤ stop + node.offset by omega)]
              rw [part_drop] at hfits
              refine ih (hr.held_parent hid htext hheld')
                (List.forall_mem_cons.mpr ⟨by simp only; omega, hproper'⟩)
                (.cons (ha.covers fun _ => by omega) hrest) hfits ?_
              have htwo : h.layers (.view node) = 2 := rfl
              rw [costs_cons, cost, layersAt_eq hp, layers_of_buffer hu]
              rw [hcost, htwo] at hsteps
              simp only
              omega
          | composite node =>
              obtain ⟨a, b, ha, hb, hleft, hright, hlength, -⟩ := hr.parts hid htext
              -- the parts spell together what the range did, and cost less than it
              obtain ⟨left, right, hwa, hwb, rfl⟩ := hw.of_composite htext
              rw [copyWithin_of_composite hlt htext ha, ← hr.length_eq hleft ha hwa]
              refine ih (hr.held_parts hid htext hheld')
                (List.forall_mem_append.mpr ⟨forall_mem_partRanges (fun hbefore => ?_)
                  fun hafter => ?_, hproper'⟩)
                (coverAll_partRanges hwa hwb hlt hle hrest) hfits ?_
              · simp only
                omega
              · simp only
                omega
              · have hparts := hr.costs_partRanges hid htext left.length hlt
                rw [costs_append]
                omega

/-- What can be read of a string in a range can be appended to a buffer that can hold it. -/
theorem Readable.appendRange_afforded (hr : h.Readable config held) (ht : h.Tidy) (hid : held id)
    (hv : h.Affords id v) (start : Nat) (hstop : stop ≤ v.length) (out : Units)
    (hfits : out.encoding = .narrow → ∀ x ∈ part v start stop, Units.isNarrowUnit x = true) :
    ∃ result, h.appendRange out id start stop = .ok result ∧
      result.toList = out.toList ++ part v start stop ∧ result.encoding = out.encoding := by
  have hcover : h.CoverAll [⟨id, start, stop⟩] (part v start stop ++ []) :=
    .cons ⟨v, hv, fun _ => hstop, rfl⟩ .nil
  -- what is read is right if the walk ends, so that it is enough that it does
  suffices hok : ∃ result, h.appendRange out id start stop = .ok result by
    obtain ⟨result, hresult⟩ := hok
    have hread := (hr.reads_copyWithin _ (by simpa using hid)).of_ok hresult _ hcover
    rw [List.append_nil] at hread
    exact ⟨result, hresult, hread⟩
  unfold appendRange
  by_cases hlt : start < stop
  · obtain ⟨t, htext⟩ := hv.text
    refine hr.copyWithin_ok ht (by simpa using hid) (by simpa using hlt) hcover
      (by simpa using hfits) ?_
    calc h.costs [⟨id, start, stop⟩] = (stop - start) * h.layers t := by
          simp [costs, cost, layersAt_eq htext]
      _ ≤ (stop - start) * (h.pathBound stop + 1) :=
          Nat.mul_le_mul_left _ (Nat.le_succ_of_le (h.layers_le_pathBound t stop))
      _ ≤ 1 + (stop - start) * (h.pathBound stop + 1) := Nat.le_add_left _ _
  · have hempty : stop ≤ start := Nat.le_of_not_lt hlt
    rw [Nat.sub_eq_zero_of_le hempty, Nat.zero_mul]
    exact ⟨out, by simp [copyWithin, hempty, pure, Except.pure]⟩

/-- What a string spells in a range can be appended to a buffer that can hold it. -/
theorem Readable.appendRange_ok (hr : h.Readable config held) (ht : h.Tidy) (hid : held id)
    (hw : h.Spells id w) (start : Nat) (hstop : stop ≤ w.length) (out : Units)
    (hfits : out.encoding = .narrow → ∀ x ∈ part w start stop, Units.isNarrowUnit x = true) :
    ∃ result, h.appendRange out id start stop = .ok result ∧
      result.toList = out.toList ++ part w start stop ∧ result.encoding = out.encoding := by
  obtain ⟨v, hv, hbegins⟩ := hw.affords
  rw [← part_of_begins hbegins hstop] at hfits ⊢
  exact hr.appendRange_afforded ht hid hv start (hstop.trans hbegins.length_le) out hfits

/-- A range of a string can be copied in an encoding that can hold it. -/
theorem Readable.copyRange_ok (hr : h.Readable config held) (ht : h.Tidy) (hid : held id)
    (hw : h.Spells id w) (start : Nat) (hstop : stop ≤ w.length) (encoding : Encoding)
    (hfits : encoding = .narrow → ∀ x ∈ part w start stop, Units.isNarrowUnit x = true) :
    ∃ result, h.copyRange id start stop encoding = .ok result ∧
      result.toList = part w start stop ∧ result.encoding = encoding := by
  have happend := hr.appendRange_ok ht hid hw start hstop (.empty encoding)
    (by rwa [Units.encoding_empty])
  simpa [copyRange] using happend

/-- What a narrow string spells is narrow. -/
theorem Readable.narrow_of_spells (hr : h.Readable config held) (hid : held id)
    (hw : h.Spells id w) (htext : h.text id = .ok t) (hnarrow : t.encoding = .narrow) :
    ∀ x ∈ w, Units.isNarrowUnit x = true := by
  obtain ⟨w', hw', -, hknown⟩ := (hr.spelled id t hid htext).content
  obtain rfl := hw.unique hw'
  exact hknown (Text.knownNarrow_of_encoding hnarrow)

/-- A range of a string can be copied in the encoding of the string. -/
theorem Readable.copyRange_encoding (hr : h.Readable config held) (ht : h.Tidy) (hid : held id)
    (hw : h.Spells id w) (htext : h.text id = .ok t) (start : Nat) (hstop : stop ≤ w.length) :
    ∃ result, h.copyRange id start stop t.encoding = .ok result ∧
      result.toList = part w start stop ∧ result.encoding = t.encoding :=
  hr.copyRange_ok ht hid hw start hstop t.encoding fun hnarrow x hx =>
    hr.narrow_of_spells hid hw htext hnarrow x (List.mem_of_mem_drop (List.mem_of_mem_take hx))

end Heap

end ManagedHeap
