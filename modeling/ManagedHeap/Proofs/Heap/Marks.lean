import ManagedHeap.Heap.Marks

/-!
# Marks as a set

Marks answer `contains` like the set of the handles that were marked.  Marking a handle
changes the answer for that handle only (`contains_set`), also where the words had to be
extended first, and tells whether it was unmarked (`set_fst`).
-/

namespace ManagedHeap

namespace Marks

variable {m : Marks} {id j : Handle}

/-- The word at an index; past the end all words are zero. -/
def wordAt (m : Marks) (i : Nat) : UInt64 :=
  m.words[i]?.getD 0

theorem contains_eq_testBit :
    m.contains id = (m.wordAt (id.index / 64)).toNat.testBit (id.index % 64) := by
  unfold contains wordAt
  cases m.words[id.index / 64]? <;> simp

@[simp] theorem contains_empty : Marks.empty.contains id = false := by
  simp [contains_eq_testBit, wordAt, Marks.empty]

theorem wordAt_reserve (i : Nat) : (m.reserve id).wordAt i = m.wordAt i := by
  unfold wordAt reserve
  rw [Array.getElem?_append]
  split
  case isTrue => rfl
  case isFalse hge =>
      rw [Array.getElem?_replicate, Array.getElem?_eq_none (Nat.le_of_not_lt hge)]
      split <;> rfl

theorem index_lt_size_reserve : id.index / 64 < (m.reserve id).words.size := by
  simp only [reserve, Array.size_append, Array.size_replicate]
  omega

theorem wordAt_insert (hroom : id.index / 64 < m.words.size) (i : Nat) :
    (m.insert id).wordAt i =
      if i = id.index / 64 then m.wordAt i ||| (1 <<< UInt64.ofNat (id.index % 64))
      else m.wordAt i := by
  unfold wordAt insert
  rw [Array.getElem?_modify]
  by_cases hi : i = id.index / 64
  · subst hi
    simp [hroom]
  · simp [hi, Ne.symm hi]

/-- The bit of a position in a word, and no other. -/
theorem testBit_bit {i k : Nat} (hi : i < 64) (hk : k < 64) :
    ((1 : UInt64) <<< UInt64.ofNat i).toNat.testBit k = decide (k = i) := by
  have hmod : (UInt64.ofNat i).toNat % 64 = i := by
    rw [UInt64.toNat_ofNat_of_lt' (by change i < 2 ^ 64; omega)]
    exact Nat.mod_eq_of_lt hi
  rw [UInt64.toNat_shiftLeft, hmod]
  simp only [UInt64.toNat_one, Nat.testBit_mod_two_pow, hk, decide_true, Bool.true_and,
    Nat.one_shiftLeft, Nat.testBit_two_pow]
  exact decide_eq_decide.mpr eq_comm

theorem contains_insert (hroom : id.index / 64 < m.words.size) :
    (m.insert id).contains j = (m.contains j || decide (j = id)) := by
  rw [contains_eq_testBit, contains_eq_testBit, wordAt_insert hroom]
  have hj : j.index % 64 < 64 := Nat.mod_lt _ (by decide)
  have hid : id.index % 64 < 64 := Nat.mod_lt _ (by decide)
  -- a handle is known by the number of its word and its bit there
  have heq : j = id ↔ j.index / 64 = id.index / 64 ∧ j.index % 64 = id.index % 64 := by
    constructor
    · rintro rfl
      exact ⟨rfl, rfl⟩
    · intro h
      obtain ⟨hdiv, hmod⟩ := h
      obtain ⟨j⟩ := j
      obtain ⟨i⟩ := id
      simp only [Handle.mk.injEq] at *
      omega
  split
  case isTrue hword =>
      rw [UInt64.toNat_or, Nat.testBit_or, testBit_bit hid hj]
      simp [heq, hword]
  case isFalse hword => simp [heq, hword]

theorem set_fst : (m.set id).1 = !m.contains id := by
  unfold set
  split <;> simp_all

theorem contains_set : (m.set id).2.contains j = (m.contains j || decide (j = id)) := by
  unfold set
  split
  case isTrue hmarked =>
      by_cases hj : j = id
      · simp [hj, hmarked]
      · simp [hj]
  case isFalse =>
      rw [contains_insert index_lt_size_reserve]
      simp only [contains_eq_testBit, wordAt_reserve]

end Marks

end ManagedHeap
