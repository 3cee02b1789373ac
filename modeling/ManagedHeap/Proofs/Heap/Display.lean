import ManagedHeap.Heap.Display
import ManagedHeap.Proofs.Heap.Reading

/-!
# Values as texts come to no dead object

The readers that compare strings, show values and fill templates read strings by the two
walks, and other objects at most for their kind.  On values of a readable set they never
meet a dead object.
-/

namespace ManagedHeap

namespace Heap

variable {h : Heap} {held : Handle → Prop} {config : Config} {id a b : Handle} {value : Value}
  {values : Array Value} {w : List UInt16}

/-- The object that a value refers to, if any, is in the set. -/
def HeldValue (held : Handle → Prop) (value : Value) : Prop :=
  ∀ id, value.handle? = some id → held id

theorem Closed.reads_find (hc : h.Closed held) (hid : held id) :
    Reads (h.find id) fun o => h.find id = .ok o := by
  obtain ⟨o, ho⟩ := hc.found id hid
  rw [ho, reads_ok]

theorem Readable.reads_content (hr : h.Readable config held) (hid : held id) :
    Reads (h.content id) fun units => h.Spells id units.toList := by
  unfold Heap.content
  rw [reads_bind]
  apply (hr.reads_text hid).mono
  intro t ht
  cases hbuffer : t.buffer? with
  | some units => exact .buffer ht hbuffer
  | none =>
      obtain ⟨w, hw, hlength⟩ := hr.spells hid ht
      apply (hr.reads_copyRange hid hw t.encoding).mono
      intro units hunits
      rw [(hunits (Nat.le_of_eq hlength.symm)).1, ← hlength, part_full]
      exact hw

theorem Readable.reads_sameText (hr : h.Readable config held) (ha : held a) (hb : held b) :
    Reads (h.sameText a b) fun _ => True := by
  unfold Heap.sameText
  split
  case isTrue => trivial
  case isFalse =>
      rw [reads_bind]
      apply (hr.reads_text ha).mono
      intro first hfirst
      rw [reads_bind]
      apply (hr.reads_text hb).mono
      intro second hsecond
      -- both have contents, so that copying them comes to no dead object either
      obtain ⟨u, hu, -⟩ := hr.spells ha hfirst
      obtain ⟨v, hv, -⟩ := hr.spells hb hsecond
      split
      case isTrue => trivial
      case isFalse =>
          split
          case isTrue => trivial
          case isFalse =>
              split
              case h_1 => trivial
              case h_2 =>
                  rw [reads_bind]
                  apply (hr.reads_copyRange ha hu .wide).mono
                  intro _ _
                  rw [reads_bind]
                  exact (hr.reads_copyRange hb hv .wide).mono fun _ _ => trivial

theorem Closed.reads_number? (hc : h.Closed held) (hvalue : HeldValue held value) :
    Reads (h.number? value) fun _ => True := by
  unfold Heap.number?
  split
  case h_2 id =>
      rw [reads_bind]
      apply (hc.reads_find (hvalue id rfl)).mono
      intro o _
      split <;> trivial
  all_goals trivial

theorem Readable.reads_display (hr : h.Readable config held) (hvalue : HeldValue held value) :
    Reads (h.display value) fun _ => True := by
  unfold Heap.display
  split
  case h_3 id =>
      have hid := hvalue id rfl
      rw [reads_bind]
      apply (hr.reads_find hid).mono
      intro o ho
      split
      case h_1 =>
          rw [reads_bind]
          exact (hr.reads_content hid).mono fun _ _ => trivial
      all_goals trivial
  all_goals trivial

theorem Readable.reads_fillTemplate (hr : h.Readable config held)
    (hvalues : ∀ v ∈ values, HeldValue held v) (template : List Char) (out : String) :
    Reads (h.fillTemplate values template out) fun _ => True := by
  induction template, out using Heap.fillTemplate.induct values with
  | case1 out => simp [fillTemplate, reads_pure]
  | case2 out c => simp [fillTemplate, reads_pure]
  | case3 c d rest out hparam value hvalue ih =>
      rw [fillTemplate, if_pos hparam, hvalue]
      simp only [reads_bind]
      refine (hr.reads_display (hvalues value ?_)).mono fun shown _ => ih shown
      exact Array.mem_of_getElem? hvalue
  | case4 c d rest out hparam hnone ih =>
      rw [fillTemplate, if_pos hparam, hnone]
      exact ih
  | case5 c d rest out hplain ih =>
      rw [fillTemplate, if_neg hplain]
      exact ih

/-- The values of an array of arguments are in the set if the array is. -/
theorem Closed.reads_argumentValues (hc : h.Closed held) {arguments : Option Handle}
    (harguments : ∀ id, arguments = some id → held id) :
    Reads (h.argumentValues arguments) fun values => ∀ v ∈ values, HeldValue held v := by
  unfold Heap.argumentValues
  split
  case h_1 => simp [reads_pure]
  case h_2 id =>
      have hid := harguments id rfl
      rw [reads_bind]
      apply (hc.reads_find hid).mono
      intro o ho
      split
      case h_1 items =>
          intro v hv c hc'
          apply hc.children id _ c hid ho
          exact List.mem_filterMap.mpr ⟨v, by simpa using hv, hc'⟩
      case h_2 => simp [reads_pure]

end Heap

end ManagedHeap
