import ManagedHeap.Heap.Collect
import ManagedHeap.Proofs.Heap.Marks
import ManagedHeap.Proofs.Heap.Reachability

/-!
# Marking

Marking marks exactly the live handles that the roots lead to, and counts each once.

The work left is a list of pending handles.  What the rounds keep (`Marking`) is that
everything marked or pending can be reached, and that whatever live handle is a root or a
child of a marked object is marked or pending.  When nothing is pending that is live and
unmarked, the marks are closed under children.  There are rounds enough: each marks one
more live handle, and there are at most as many live handles as handles.
-/

namespace ManagedHeap

namespace Heap

variable {h : Heap} {roots pending rest : List Handle} {count rounds : Nat} {m m' : Marks}
  {id : Handle} {o : Object}

/-- The marks, the pending handles and the count after some rounds. -/
structure Marking (h : Heap) (roots pending : List Handle) (count : Nat) (m : Marks) : Prop where
  sound : ∀ id, m.contains id = true → id ∈ h.reachable roots
  reached : ∀ id ∈ pending, h.Reaches roots id
  roots : ∀ id ∈ roots, h.isLive id = true → m.contains id = true ∨ id ∈ pending
  children : ∀ id o c, m.contains id = true → h.find id = .ok o → c ∈ o.children →
    h.isLive c = true → m.contains c = true ∨ c ∈ pending
  count_eq : count = {id | m.contains id = true}.ncard

theorem Marking.finite (hm : h.Marking roots pending count m) :
    {id | m.contains id = true}.Finite :=
  finite_live.subset fun id hid => (hm.sound id hid).1

theorem marking_start (h : Heap) (roots : List Handle) :
    h.Marking roots roots.reverse 0 .empty where
  sound := by simp
  reached id hid := .root (by simpa using hid)
  roots id hid _ := Or.inr (by simpa using hid)
  children := by simp
  count_eq := by simp

/-! ## One round -/

/-- The next handle to mark is one that is pending, live and unmarked. -/
structure Next (h : Heap) (m : Marks) (pending : List Handle) (id : Handle)
    (rest : List Handle) (m' : Marks) : Prop where
  mem : id ∈ pending
  live : h.isLive id = true
  unmarked : m.contains id = false
  marks : ∀ j, m'.contains j = (m.contains j || decide (j = id))
  later : ∀ j ∈ rest, j ∈ pending
  passed : ∀ j ∈ pending, h.isLive j = true → m'.contains j = true ∨ j ∈ rest

/-- The handles before the next one are passed over, as they are dead or marked. -/
theorem nextUnmarked_split (hnext : h.nextUnmarked m pending = some (id, rest, m')) :
    ∃ passed, pending = passed ++ id :: rest ∧ h.isLive id = true ∧ m.set id = (true, m') ∧
      ∀ j ∈ passed, h.isLive j = true → m.contains j = true := by
  induction pending with
  | nil => simp [nextUnmarked] at hnext
  | cons j pending ih =>
      -- a handle that is passed over stands in front of what the rest of the search finds
      have hskip (hfound : h.nextUnmarked m pending = some (id, rest, m'))
          (hj : h.isLive j = true → m.contains j = true) :
          ∃ passed, j :: pending = passed ++ id :: rest ∧ h.isLive id = true ∧
            m.set id = (true, m') ∧ ∀ j ∈ passed, h.isLive j = true → m.contains j = true := by
        obtain ⟨passed, rfl, hlive, hset, hpassed⟩ := ih hfound
        exact ⟨j :: passed, rfl, hlive, hset, List.forall_mem_cons.mpr ⟨hj, hpassed⟩⟩
      unfold nextUnmarked at hnext
      split at hnext
      case isFalse hdead => exact hskip hnext fun hlive => absurd hlive hdead
      case isTrue hlive =>
          have hset : (m.set j).1 = !m.contains j := Marks.set_fst
          cases hpair : m.set j with
          | mk fresh marks =>
              rw [hpair] at hnext hset
              cases fresh with
              | false => exact hskip hnext fun _ => by simpa using hset.symm
              | true =>
                  simp only [Option.some.injEq, Prod.mk.injEq] at hnext
                  obtain ⟨rfl, rfl, rfl⟩ := hnext
                  exact ⟨[], rfl, hlive, hpair, by simp⟩

theorem nextUnmarked_some (hnext : h.nextUnmarked m pending = some (id, rest, m')) :
    h.Next m pending id rest m' := by
  obtain ⟨passed, rfl, hlive, hset, hpassed⟩ := nextUnmarked_split hnext
  have hfresh : (m.set id).1 = !m.contains id := Marks.set_fst
  have hmarks (j : Handle) : (m.set id).2.contains j = (m.contains j || decide (j = id)) :=
    Marks.contains_set
  rw [hset] at hfresh hmarks
  refine ⟨by simp, hlive, by simpa using hfresh.symm, hmarks, fun j hj => by simp [hj],
    fun j hj hjlive => ?_⟩
  rcases List.mem_append.mp hj with hbefore | hafter
  · exact Or.inl (by rw [hmarks, hpassed j hbefore hjlive, Bool.true_or])
  · rcases List.mem_cons.mp hafter with rfl | hrest
    · exact Or.inl (by simp [hmarks])
    · exact Or.inr hrest

theorem nextUnmarked_none (hnext : h.nextUnmarked m pending = none) :
    ∀ j ∈ pending, h.isLive j = true → m.contains j = true := by
  induction pending with
  | nil => simp
  | cons j pending ih =>
      unfold nextUnmarked at hnext
      have hset : (m.set j).1 = !m.contains j := Marks.set_fst
      intro k hk hlive
      split at hnext
      case isFalse hdead =>
          rcases List.mem_cons.mp hk with rfl | hk
          · exact absurd hlive hdead
          · exact ih hnext k hk hlive
      case isTrue =>
          cases hpair : m.set j with
          | mk fresh marks =>
              rw [hpair] at hnext hset
              cases fresh with
              | true => simp at hnext
              | false =>
                  rcases List.mem_cons.mp hk with rfl | hk
                  · simpa using hset.symm
                  · exact ih hnext k hk hlive

theorem Marking.step (hm : h.Marking roots pending count m)
    (hnext : h.Next m pending id rest m') (hfind : h.find id = .ok o) :
    h.Marking roots (o.children.reverse ++ rest) (count + 1) m' where
  sound j hj := by
    rw [hnext.marks] at hj
    rcases (Bool.or_eq_true _ _).mp hj with hj | hj
    · exact hm.sound j hj
    · obtain rfl : j = id := by simpa using hj
      exact ⟨hnext.live, hm.reached _ hnext.mem⟩
  reached j hj := by
    rcases List.mem_append.mp hj with hj | hj
    · exact .child (hm.reached _ hnext.mem) hfind (by simpa using hj)
    · exact hm.reached j (hnext.later j hj)
  roots j hj hlive := by
    rcases hm.roots j hj hlive with hmarked | hpending
    · exact Or.inl (by simp [hnext.marks, hmarked])
    · exact (hnext.passed j hpending hlive).imp_right fun hrest =>
        List.mem_append.mpr (Or.inr hrest)
  children j o' c hj hfind' hc hlive := by
    rw [hnext.marks] at hj
    rcases (Bool.or_eq_true _ _).mp hj with hj | hj
    · rcases hm.children j o' c hj hfind' hc hlive with hmarked | hpending
      · exact Or.inl (by simp [hnext.marks, hmarked])
      · exact (hnext.passed c hpending hlive).imp_right fun hrest =>
          List.mem_append.mpr (Or.inr hrest)
    · obtain rfl : j = id := by simpa using hj
      rw [hfind] at hfind'
      obtain rfl : o = o' := by simpa using hfind'
      -- the object is marked in this step, and its children are pending from now on
      exact Or.inr (List.mem_append.mpr (Or.inl (by simpa using hc)))
  count_eq := by
    have hinsert : {j | m'.contains j = true} = insert id {j | m.contains j = true} := by
      ext j
      simp only [hnext.marks, Set.mem_ofPred_eq, Set.mem_insert_iff, Bool.or_eq_true,
        decide_eq_true_eq]
      exact Or.comm
    rw [hinsert, Set.ncard_insert_of_notMem (by simp [hnext.unmarked]) hm.finite,
      ← hm.count_eq]

/-! ## All rounds -/

/-- When nothing is left to mark, the marks are what the roots reach. -/
theorem Marking.complete (hm : h.Marking roots pending count m)
    (hdone : ∀ j ∈ pending, h.isLive j = true → m.contains j = true) :
    {id | m.contains id = true} = h.reachable roots := by
  ext id
  refine ⟨fun hid => hm.sound id hid, fun ⟨hlive, hreach⟩ => ?_⟩
  have hall : h.isLive id = true → m.contains id = true := by
    refine hreach.closed (fun id => h.isLive id = true → m.contains id = true) ?_ ?_
    · intro r hr hlive
      exact (hm.roots r hr hlive).elim (fun h => h) fun hpending => hdone r hpending hlive
    · intro id o c hid hfind hc hlive
      rcases hm.children id o c (hid (isLive_of_find hfind)) hfind hc hlive with hc | hc
      · exact hc
      · exact hdone c hc hlive
  exact hall hlive

theorem WellFormed.ends_markFrom (hw : h.WellFormed) (hm : h.Marking roots pending count m)
    (hrounds : h.live.ncard ≤ rounds + count) :
    Ends (h.markFrom rounds pending count) m
      (fun total marks => {id | marks.contains id = true} = h.reachable roots ∧
        total = (h.reachable roots).ncard)
      (fun _ _ => False) := by
  -- on the rounds, each of which marks one handle more
  induction rounds generalizing pending count m with
  | zero =>
      -- every live handle is marked, as the marks are as many
      have hall : {id | m.contains id = true} = h.live := by
        refine Set.eq_of_subset_of_ncard_le (fun id hid => (hm.sound id hid).1) ?_ finite_live
        rw [← hm.count_eq]
        omega
      have hdone := hm.complete fun j _ hlive => by
        have hj : j ∈ {id | m.contains id = true} := hall ▸ hlive
        exact hj
      exact ⟨hdone, hdone ▸ hm.count_eq⟩
  | succ rounds ih =>
      unfold markFrom
      rw [ends_bind, ends_get]
      split
      case _ hnext =>
          have hdone := hm.complete (nextUnmarked_none hnext)
          exact ⟨hdone, hdone ▸ hm.count_eq⟩
      case _ id rest marks hnext =>
          have hspec := nextUnmarked_some hnext
          rw [ends_bind, ends_set]
          obtain ⟨o, hfind⟩ := hw.isLive_iff_find.mp hspec.live
          rw [hfind]
          exact ih (hm.step hspec hfind) (by omega)

/-- Marking ends as its rounds do, with the marks in the heap. -/
theorem ends_markAll_iff {ok : Nat → Heap → Prop} {fail : Fault → Heap → Prop} :
    Ends (HeapM.markAll roots) h ok fail ↔
      Ends (h.markFrom h.handles.size roots.reverse 0) .empty
        (fun total marks => ok total { h with marks })
        (fun e marks => fail e { h with marks }) := by
  unfold Ends HeapM.markAll
  cases h.markFrom h.handles.size roots.reverse 0 .empty <;> rfl

theorem WellFormed.ends_markAll (hw : h.WellFormed) (roots : List Handle) :
    Ends (HeapM.markAll roots) h
      (fun total h' => ∃ marks : Marks, h' = { h with marks } ∧
        {id | marks.contains id = true} = h.reachable roots ∧
          total = (h.reachable roots).ncard)
      (fun _ _ => False) := by
  have hrounds : h.live.ncard ≤ h.handles.size + 0 := by simpa using ncard_live_le
  exact ends_markAll_iff.mpr ((hw.ends_markFrom (marking_start h roots) hrounds).mono
    (fun _ marks hmarks => ⟨marks, rfl, hmarks⟩) fun _ _ hfail => hfail)

end Heap

end ManagedHeap
