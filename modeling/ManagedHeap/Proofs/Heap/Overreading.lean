import ManagedHeap.Proofs.Heap.Layers

/-!
# Ranges past the end of a string

No walk checks that a range lies within the string that it begins at.  A composite hands the
rest of the range to its right part, a view moves it into its parent, and the buffer at the
end of the way accepts it or refuses it.  So a range can be copied exactly if it lies within
what can be read of the string (`Heap.Affords`), which is more than its content if the last
part is a view that ends before its parent does.
-/

namespace ManagedHeap

namespace Heap

variable {h : Heap} {id : Handle} {t : Text} {u out result : Units} {w v : List UInt16}
  {held : Handle → Prop} {config : Config} {start stop steps : Nat} {ranges rest : List TextRange}

/-! ## Ranges that are refused -/

/-- The range ends within what can be read of its string. -/
def Within (h : Heap) (range : TextRange) : Prop :=
  range.start < range.stop → ∀ v, h.Affords range.id v → range.stop ≤ v.length

/-- A piece that could be appended ends within its buffer. -/
theorem le_size_of_appendPiece (hok : appendPiece out u start stop = .ok result) :
    stop ≤ u.size := by
  unfold appendPiece at hok
  cases hslice : u.slice? start stop with
  | none => simp [hslice, throw, throwThe, MonadExceptOf.throw] at hok
  | some piece =>
      obtain ⟨-, hstop, -⟩ := Units.slice?_eq_some hslice
      exact hstop

/-- A walk over some ranges has a result only if each of them ends within its string. -/
theorem Readable.within_of_copyWithin (hr : h.Readable config held)
    (hheld : ∀ range ∈ ranges, held range.id) (hok : h.copyWithin steps ranges out = .ok result) :
    ∀ range ∈ ranges, h.Within range := by
  -- on the steps, as those of `copyWithin`: a range is within its string if what is put in its
  -- place is within the parts
  induction steps generalizing ranges out with
  | zero =>
      cases ranges with
      | nil => simp
      | cons range rest => simp [copyWithin] at hok
  | succ steps ih =>
      cases ranges with
      | nil => simp
      | cons range rest =>
          obtain ⟨id, start, stop⟩ := range
          obtain ⟨hid, hrest⟩ := List.forall_mem_cons.mp hheld
          rcases Nat.lt_or_ge start stop with hlt | hempty
          case inr =>
              rw [copyWithin_of_empty hempty] at hok
              exact List.forall_mem_cons.mpr
                ⟨fun hlt => absurd hempty (Nat.not_le_of_lt hlt), ih hrest hok⟩
          cases htext : h.text id with
          | error e => simp [copyWithin_of_error hlt htext] at hok
          | ok t =>
          cases t using Text.casesLayout with
          | buffer t u hu =>
              rw [copyWithin_of_buffer hlt htext hu] at hok
              cases happend : appendPiece out u start stop with
              | error e => simp [happend, bind, Except.bind] at hok
              | ok longer =>
                  rw [happend, ok_bind] at hok
                  refine List.forall_mem_cons.mpr ⟨fun _ v hv => ?_, ih hrest hok⟩
                  rw [← hv.of_buffer htext hu, Units.length_toList]
                  exact le_size_of_appendPiece happend
          | view node =>
              rw [copyWithin_of_view hlt htext] at hok
              split at hok
              case isTrue => simp at hok
              case isFalse =>
                  obtain ⟨hview, hafter⟩ :=
                    List.forall_mem_cons.mp (ih (hr.held_parent hid htext hrest) hok)
                  refine List.forall_mem_cons.mpr ⟨fun _ v hv => ?_, hafter⟩
                  obtain ⟨a, ha, rfl⟩ := hv.of_view htext
                  obtain ⟨p, u, hp, hu, -⟩ := (hr.spelled id _ hid htext).shaped
                  obtain rfl := ha.unique (.buffer hp hu)
                  have hstop := hview (by simp only; omega) _ (.buffer hp hu)
                  rw [List.length_drop]
                  simp only at hstop ⊢
                  omega
          | composite node =>
              have hleft : held node.left := hr.text_child hid htext (by simp [Text.children])
              obtain ⟨a, b, ha, -⟩ := (hr.spelled id _ hid htext).shaped
              rw [copyWithin_of_composite hlt htext ha] at hok
              obtain ⟨hparts, hafter⟩ :=
                List.forall_mem_append.mp (ih (hr.held_parts hid htext hrest) hok)
              refine List.forall_mem_cons.mpr ⟨fun _ v hv => ?_, hafter⟩
              obtain ⟨w, x, hw, hx, rfl⟩ := hv.of_composite htext
              rw [List.length_append]
              have hlength := hr.length_eq hleft ha hw
              -- what goes past the left part is asked of the right one
              by_cases hsplit : a.length < stop
              · have hstop := hparts ⟨node.right, start - a.length, stop - a.length⟩
                  (by simp [partRanges, hsplit]) (by simp only; omega) x hx
                simp only at hstop ⊢
                omega
              · simp only
                omega

/-- A range that ends past what can be read of a string cannot be copied. -/
theorem Readable.copyRange_refused (hr : h.Readable config held) (hid : held id)
    (hv : h.Affords id v) (hlt : start < stop) (hover : v.length < stop) (encoding : Encoding) :
    ∃ e, h.copyRange id start stop encoding = .error e := by
  cases hcopy : h.copyRange id start stop encoding with
  | error e => exact ⟨e, rfl⟩
  | ok result =>
      have hstop := hr.within_of_copyWithin (by simpa using hid) hcopy _
        (List.mem_singleton_self _) hlt v hv
      exact absurd hover (Nat.not_lt_of_le hstop)

/-- The faults of a walk over held strings into a buffer that can hold them. -/
def WalkFault (e : Fault) : Prop :=
  e = .outOfRange ∨ e = .wordOverflow ∨ e = .endless ∨ ∃ id, e = .notAString id

/-- Every string of the ranges is narrow if the buffer is. -/
def Suits (h : Heap) (out : Units) (ranges : List TextRange) : Prop :=
  out.encoding = .narrow → ∀ range ∈ ranges, ∀ t, h.text range.id = .ok t → t.encoding = .narrow

/-- A piece of a buffer that suits fits, wherever the piece ends. -/
theorem outOfRange_of_appendPiece {e : Fault}
    (hfits : out.encoding = .narrow → u.encoding = .narrow)
    (hfail : appendPiece out u start stop = .error e) : e = .outOfRange := by
  unfold appendPiece at hfail
  cases hslice : u.slice? start stop with
  | none =>
      simp only [hslice, throw, throwThe, MonadExceptOf.throw, Except.error.injEq] at hfail
      exact hfail.symm
  | some piece =>
      obtain ⟨-, -, hpiece⟩ := Units.slice?_eq_some hslice
      obtain ⟨longer, hlonger⟩ : ∃ longer, out.append? piece = some longer := by
        refine Units.exists_append? fun hnarrow x hx => ?_
        refine Units.isNarrowUnit_of_fitsNarrow (Units.fitsNarrow_of_encoding (hfits hnarrow)) ?_
        rw [hpiece.1] at hx
        exact List.mem_of_mem_drop (List.mem_of_mem_take hx)
      simp [hslice, hlonger, pure, Except.pure] at hfail

theorem encoding_of_appendPiece (hok : appendPiece out u start stop = .ok result) :
    result.encoding = out.encoding :=
  ((reads_appendPiece out rfl).of_ok hok).2

/-- A walk goes from a string to strings of its encoding or a narrower one, so that no unit is
too wide for the buffer, even if a range goes past the end of its string. -/
theorem Readable.walkFault (hr : h.Readable config held) {e : Fault}
    (hheld : ∀ range ∈ ranges, held range.id) (hsuits : h.Suits out ranges)
    (hfail : h.copyWithin steps ranges out = .error e) : WalkFault e := by
  -- on the steps; the encoding of the buffer is carried along, so that no piece is refused for its
  -- units
  induction steps generalizing ranges out with
  | zero =>
      cases ranges with
      | nil => simp at hfail
      | cons range rest =>
          rw [copyWithin, Except.error.injEq] at hfail
          exact Or.inr (Or.inr (Or.inl hfail.symm))
  | succ steps ih =>
      cases ranges with
      | nil => simp at hfail
      | cons range rest =>
          obtain ⟨id, start, stop⟩ := range
          obtain ⟨hid, hrest⟩ := List.forall_mem_cons.mp hheld
          have hsuits' : h.Suits out rest := fun hnarrow =>
            (List.forall_mem_cons.mp (hsuits hnarrow)).2
          rcases Nat.lt_or_ge start stop with hlt | hempty
          case inr =>
              rw [copyWithin_of_empty hempty] at hfail
              exact ih hrest hsuits' hfail
          cases htext : h.text id with
          | error e' =>
              obtain rfl := text_error (hr.found id hid) htext
              rw [copyWithin_of_error hlt htext, Except.error.injEq] at hfail
              exact Or.inr (Or.inr (Or.inr ⟨id, hfail.symm⟩))
          | ok t =>
          have hown (hnarrow : out.encoding = .narrow) : t.encoding = .narrow :=
            hsuits hnarrow _ List.mem_cons_self t htext
          cases t using Text.casesLayout with
          | buffer t u hu =>
              rw [copyWithin_of_buffer hlt htext hu] at hfail
              cases happend : appendPiece out u start stop with
              | error e' =>
                  have hrange := outOfRange_of_appendPiece
                    (fun hnarrow => (Text.encoding_of_buffer hu).symm.trans (hown hnarrow)) happend
                  rw [happend] at hfail
                  exact Or.inl ((Except.error.inj hfail).symm.trans hrange)
              | ok longer =>
                  rw [happend, ok_bind] at hfail
                  refine ih hrest (fun hnarrow => hsuits' ?_) hfail
                  exact (encoding_of_appendPiece happend).symm.trans hnarrow
          | view node =>
              obtain ⟨p, u, hp, hu, -, hencoding, -⟩ := (hr.spelled id _ hid htext).shaped
              rw [copyWithin_of_view hlt htext] at hfail
              split at hfail
              case isTrue => exact Or.inr (Or.inl (Except.error.inj hfail).symm)
              case isFalse =>
                  refine ih (hr.held_parent hid htext hrest) (fun hnarrow =>
                    List.forall_mem_cons.mpr ⟨fun t ht => ?_, hsuits' hnarrow⟩) hfail
                  obtain rfl := Except.ok.inj (hp.symm.trans ht)
                  exact (Text.encoding_of_buffer hu).trans (hencoding.symm.trans (hown hnarrow))
          | composite node =>
              obtain ⟨a, b, ha, hb, -, -, -, hencoding, -⟩ := (hr.spelled id _ hid htext).shaped
              rw [copyWithin_of_composite hlt htext ha] at hfail
              refine ih (hr.held_parts hid htext hrest)
                (fun hnarrow => List.forall_mem_append.mpr ⟨forall_mem_partRanges
                  (fun _ t ht => ?_) fun _ t ht => ?_, hsuits' hnarrow⟩) hfail
              · obtain rfl := Except.ok.inj (ha.symm.trans ht)
                exact (Encoding.join_eq_narrow (hencoding.symm.trans (hown hnarrow))).1
              · obtain rfl := Except.ok.inj (hb.symm.trans ht)
                exact (Encoding.join_eq_narrow (hencoding.symm.trans (hown hnarrow))).2

/-- A range of a string, wherever it ends, is refused for its end only, or for the string. -/
theorem Readable.copyRange_walkFault (hr : h.Readable config held) (hid : held id)
    (htext : h.text id = .ok t) {e : Fault}
    (hfail : h.copyRange id start stop t.encoding = .error e) : WalkFault e := by
  refine hr.walkFault (by simpa using hid) (fun hnarrow range hrange t' ht' => ?_) hfail
  obtain rfl : range = ⟨id, start, stop⟩ := by simpa using hrange
  obtain rfl := Except.ok.inj (htext.symm.trans ht')
  simpa using hnarrow

/-- A unit of a string, wherever it is, is refused for its position only, or for the string. -/
theorem Readable.unitWithin_walkFault (hr : h.Readable config held) (hid : held id) {i : Nat}
    {e : Fault} (hfail : h.unitWithin steps id i = .error e) : WalkFault e := by
  induction steps generalizing id i with
  | zero => exact Or.inr (Or.inr (Or.inl (Except.error.inj hfail).symm))
  | succ steps ih =>
      unfold unitWithin at hfail
      cases htext : h.text id with
      | error e' =>
          obtain rfl := text_error (hr.found id hid) htext
          simp only [htext, bind, Except.bind, Except.error.injEq] at hfail
          exact Or.inr (Or.inr (Or.inr ⟨id, hfail.symm⟩))
      | ok t =>
      rw [htext, ok_bind] at hfail
      cases t with
      | flat units interned | external units interned =>
          cases hget : units.get? i with
          | some x => simp [hget, pure, Except.pure] at hfail
          | none =>
              simp only [hget, throw, throwThe, MonadExceptOf.throw, Except.error.injEq] at hfail
              exact Or.inl hfail.symm
      | view node =>
          have hparent : held node.parent := hr.text_child hid htext (by simp [Text.children])
          simp only at hfail
          split at hfail
          case isTrue =>
              simp only [throw, throwThe, MonadExceptOf.throw, Except.error.injEq] at hfail
              exact Or.inr (Or.inl hfail.symm)
          case isFalse => exact ih hparent hfail
      | composite node =>
          obtain ⟨a, b, ha, -⟩ := (hr.spelled id _ hid htext).shaped
          simp only [textLength, ha, bind, Except.bind, pure, Except.pure] at hfail
          split at hfail
          case isTrue => exact ih (hr.text_child hid htext (by simp [Text.children])) hfail
          case isFalse => exact ih (hr.text_child hid htext (by simp [Text.children])) hfail

/-! ## Ranges that are copied -/

/-- What can be read of a narrow string is narrow, also past its end. -/
theorem Readable.narrow_of_affords (hr : h.Readable config held) (hid : held id)
    (hv : h.Affords id v) (htext : h.text id = .ok t) (hnarrow : t.encoding = .narrow) :
    ∀ x ∈ v, Units.isNarrowUnit x = true := by
  induction hv generalizing t with
  | buffer htext' hbuffer =>
      exact hr.narrow_of_spells hid (.buffer htext' hbuffer) htext hnarrow
  | @composite id node a b htext' hleft _ ih =>
      obtain rfl := Except.ok.inj (htext.symm.trans htext')
      obtain ⟨first, second, hfirst, hsecond, -, -, -, hencoding, -⟩ :=
        (hr.spelled id _ hid htext').shaped
      obtain ⟨hfirstNarrow, hsecondNarrow⟩ := Encoding.join_eq_narrow (hencoding.symm.trans hnarrow)
      intro x hx
      rcases List.mem_append.mp hx with hx | hx
      · exact hr.narrow_of_spells (hr.text_child hid htext' (by simp [Text.children])) hleft hfirst
          hfirstNarrow x hx
      · exact ih (hr.text_child hid htext' (by simp [Text.children])) hsecond hsecondNarrow x hx
  | @view id node w htext' hparent =>
      obtain rfl := Except.ok.inj (htext.symm.trans htext')
      obtain ⟨p, u, hp, hu, -, hencoding, -⟩ := (hr.spelled id _ hid htext').shaped
      intro x hx
      exact hr.narrow_of_spells (hr.text_child hid htext' (by simp [Text.children])) hparent hp
        ((Text.encoding_of_buffer hu).trans (hencoding.symm.trans hnarrow)) x
        (List.mem_of_mem_drop hx)

/-- A range within what can be read of a string can be copied in the encoding of the
string. -/
theorem Readable.copyRange_afforded (hr : h.Readable config held) (ht : h.Tidy) (hid : held id)
    (hv : h.Affords id v) (htext : h.text id = .ok t) (start : Nat) (hstop : stop ≤ v.length) :
    ∃ result, h.copyRange id start stop t.encoding = .ok result ∧
      result.toList = part v start stop := by
  obtain ⟨result, hresult, hpart, -⟩ := hr.appendRange_afforded ht hid hv start hstop
    (.empty t.encoding) fun hnarrow x hx =>
      hr.narrow_of_affords hid hv htext (by simpa using hnarrow) x
        (List.mem_of_mem_drop (List.mem_of_mem_take hx))
  exact ⟨result, hresult, by simpa using hpart⟩

end Heap

end ManagedHeap
