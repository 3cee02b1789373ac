import ManagedHeap.Heap.Display
import ManagedHeap.Proofs.Store.Refusals
import ManagedHeap.Proofs.Store.Values

/-!
# Readers that have a result

In a sound store the whole content of a held string can be read in the encoding of the
string, so every held value has a text, and every template with held arguments can be
filled.
-/

namespace ManagedHeap

namespace Store

variable {s : Store} {id : Handle} {t : Text} {w : List UInt16} {value : Value}
  {values : Array Value}

theorem Sound.content_ok (hs : s.Sound) (hid : s.Holds id) (htext : s.heap.text id = .ok t) :
    ∃ units, s.heap.content id = .ok units := by
  cases hbuffer : t.buffer? with
  | some u => exact ⟨u, Heap.content_of_buffer htext hbuffer⟩
  | none =>
      obtain ⟨w, hw, hlength⟩ := hs.readable.spells hid htext
      obtain ⟨units, hunits, -⟩ := hs.copyRange_ok hid htext hw 0 (Nat.le_of_eq hlength.symm)
      refine ⟨units, ?_⟩
      unfold Heap.content
      rw [htext, ok_bind]
      simp only [hbuffer]
      exact hunits

theorem Sound.display_ok (hs : s.Sound) (hvalue : s.HoldsValue value) :
    ∃ shown, s.heap.display value = .ok shown := by
  unfold Heap.display
  split
  case h_3 id =>
      obtain ⟨o, ho⟩ := hs.find (hvalue id rfl)
      rw [ho, ok_bind]
      split
      case h_1 t =>
          obtain ⟨units, hunits⟩ := hs.content_ok (hvalue id rfl) (Heap.text_eq_ok.mpr ho)
          rw [hunits, ok_bind]
          exact ⟨_, rfl⟩
      all_goals exact ⟨_, rfl⟩
  all_goals exact ⟨_, rfl⟩

theorem Sound.fillTemplate_ok (hs : s.Sound) (hvalues : ∀ v ∈ values, s.HoldsValue v)
    (template : List Char) (out : String) :
    ∃ content, s.heap.fillTemplate values template out = .ok content := by
  induction template, out using Heap.fillTemplate.induct values with
  | case1 out => exact ⟨out, by rw [Heap.fillTemplate]; rfl⟩
  | case2 c out => exact ⟨out.push c, by rw [Heap.fillTemplate]; rfl⟩
  | case3 c d rest out hparam value hvalue ih =>
      obtain ⟨shown, hshown⟩ := hs.display_ok (hvalues value (Array.mem_of_getElem? hvalue))
      rw [Heap.fillTemplate, if_pos hparam, hvalue]
      simp only
      rw [hshown, ok_bind]
      exact ih shown
  | case4 c d rest out hparam hnone ih =>
      rw [Heap.fillTemplate, if_pos hparam, hnone]
      exact ih
  | case5 c d rest out hplain ih =>
      rw [Heap.fillTemplate, if_neg hplain]
      exact ih

end Store

end ManagedHeap
