import ManagedHeap.Proofs.Heap.Marking
import Mathlib.Data.Prod.Lex
import Mathlib.Logic.Relation
import Mathlib.Order.WellFounded

/-!
# The marking loop

The loop takes the pending handle that was added last, passes it over if it is dead or
marked, and otherwise marks it and adds the children of its object.  It knows no bound: a
turn can add any number of handles, dead ones and marked ones among them.  `HeapM.markAll`
has a bound on its rounds, which the loop has not.

* **Every run of the loop ends** (`wellFounded_turn`), in every heap.  A turn that marks
  leaves fewer live handles unmarked, and any other turn leaves fewer handles pending.
* **The bounded rounds are the loop** (`ends_markFrom_loop`).  There is a round for each
  handle, so that the loop has come to its end when the rounds have.
* **The marks are exact** (`Tallied.exact`).  What a turn keeps is `Marking` together with
  the list of the handles that were traced, which has each marked handle once.

The heap need not be well formed here.  The loop can only come to a halt early at a live
handle that names no object, and then this handle is one that the roots lead to.
-/

namespace ManagedHeap

open Relation

/-- The marking loop between two turns, with the handles that were traced so far. -/
structure MarkingLoop where
  marks : Marks
  pending : List Handle
  traced : List Handle

namespace Heap

variable {h : Heap} {roots passed pending rest traced : List Handle} {rounds : Nat}
  {m m' : Marks} {id : Handle} {o : Object} {s t : MarkingLoop}

/-- One turn of the marking loop. -/
inductive Turn (h : Heap) : MarkingLoop → MarkingLoop → Prop
  | pass {m : Marks} {id : Handle} {rest traced : List Handle}
      (hpass : h.isLive id = true → (m.set id).1 = false) :
      Turn h ⟨m, id :: rest, traced⟩ ⟨m, rest, traced⟩
  | trace {m : Marks} {id : Handle} {rest traced : List Handle} {o : Object}
      (hlive : h.isLive id = true) (hfresh : (m.set id).1 = true) (hfind : h.find id = .ok o) :
      Turn h ⟨m, id :: rest, traced⟩ ⟨(m.set id).2, o.children.reverse ++ rest, id :: traced⟩

/-- The loop as it starts.  The last root is the first to be taken. -/
def loopStart (roots : List Handle) : MarkingLoop :=
  ⟨.empty, roots.reverse, []⟩

/-! ## Every run ends -/

/-- The live handles that are not marked yet. -/
def unmarked (h : Heap) (m : Marks) : Set Handle :=
  {id | h.isLive id = true ∧ m.contains id = false}

theorem finite_unmarked : (h.unmarked m).Finite :=
  finite_live.subset fun _ hid => hid.1

theorem unmarked_set_lt (hlive : h.isLive id = true) (hfresh : (m.set id).1 = true) :
    (h.unmarked (m.set id).2).ncard < (h.unmarked m).ncard := by
  have hid : m.contains id = false := by simpa [Marks.set_fst] using hfresh
  apply Set.ncard_lt_ncard _ finite_unmarked
  refine ⟨fun j hj => ?_, fun hsub => ?_⟩
  · obtain ⟨hjlive, hj⟩ := hj
    rw [Marks.contains_set, Bool.or_eq_false_iff] at hj
    exact ⟨hjlive, hj.1⟩
  · obtain ⟨-, hmarked⟩ := hsub ⟨hlive, hid⟩
    simp [Marks.contains_set] at hmarked

/-- What a turn makes smaller: the handles still to mark first, then those still to pass. -/
noncomputable def remaining (h : Heap) (s : MarkingLoop) : Nat × Nat :=
  ((h.unmarked s.marks).ncard, s.pending.length)

theorem Turn.remaining_lt (hturn : h.Turn s t) :
    Prod.Lex (· < ·) (· < ·) (h.remaining t) (h.remaining s) := by
  cases hturn with
  | pass hpass => exact .right _ (Nat.lt_succ_self _)
  | trace hlive hfresh hfind => exact .left _ _ (unmarked_set_lt hlive hfresh)

theorem wellFounded_turn (h : Heap) : WellFounded fun t s => h.Turn s t := by
  have hlex : WellFounded (Prod.Lex (α := Nat) (β := Nat) (· < ·) (· < ·)) :=
    WellFounded.prod_lex Nat.lt_wfRel.wf Nat.lt_wfRel.wf
  exact Subrelation.wf (fun hturn => hturn.remaining_lt) (InvImage.wf h.remaining hlex)

/-! ## What the turns keep -/

/-- The marks are on their way to what the roots lead to, and each marked handle was traced
once, which took an object. -/
structure Tallied (h : Heap) (roots : List Handle) (s : MarkingLoop) : Prop where
  marking : h.Marking roots s.pending s.traced.length s.marks
  once : s.traced.Nodup
  mem_traced : ∀ id, id ∈ s.traced ↔ s.marks.contains id = true
  found : ∀ id ∈ s.traced, ∃ o, h.find id = .ok o

theorem tallied_start (h : Heap) (roots : List Handle) : h.Tallied roots (loopStart roots) where
  marking := marking_start h roots
  once := List.nodup_nil
  mem_traced := by simp [loopStart]
  found := by simp [loopStart]

theorem Tallied.turn (hs : h.Tallied roots s) (hturn : h.Turn s t) : h.Tallied roots t := by
  cases hturn with
  | @pass m id rest traced hpass =>
      rw [Marks.set_fst, Bool.not_eq_false'] at hpass
      -- a handle that is passed over was pending for nothing
      have hpassed {j : Handle} (hlive : h.isLive j = true)
          (hj : m.contains j = true ∨ j ∈ id :: rest) : m.contains j = true ∨ j ∈ rest := by
        rcases hj with hmarked | hpending
        · exact Or.inl hmarked
        · rcases List.mem_cons.mp hpending with rfl | hrest
          · exact Or.inl (hpass hlive)
          · exact Or.inr hrest
      exact { hs with
        marking := { hs.marking with
          reached := fun j hj => hs.marking.reached j (List.mem_cons_of_mem _ hj)
          roots := fun j hj hlive => hpassed hlive (hs.marking.roots j hj hlive)
          children := fun j o c hj hfind hc hlive =>
            hpassed hlive (hs.marking.children j o c hj hfind hc hlive) } }
  | @trace m id rest traced o hlive hfresh hfind =>
      have hunmarked : m.contains id = false := by simpa [Marks.set_fst] using hfresh
      have hnext : h.Next m (id :: rest) id rest (m.set id).2 :=
        { mem := List.mem_cons_self
          live := hlive
          unmarked := hunmarked
          marks := fun _ => Marks.contains_set
          later := fun _ => List.mem_cons_of_mem _
          passed := fun j hj _ => by
            rcases List.mem_cons.mp hj with rfl | hrest
            · exact Or.inl (by simp [Marks.contains_set])
            · exact Or.inr hrest }
      -- what was traced is marked, so that a fresh handle is traced for the first time
      have hnew : id ∉ traced := fun hold => by
        have hmarked : m.contains id = true := (hs.mem_traced id).mp hold
        simp [hmarked] at hunmarked
      exact
        { marking := hs.marking.step hnext hfind
          once := List.nodup_cons.mpr ⟨hnew, hs.once⟩
          mem_traced := fun j => by
            have hj : j ∈ traced ↔ m.contains j = true := hs.mem_traced j
            simp only [List.mem_cons, Marks.contains_set, Bool.or_eq_true, decide_eq_true_eq, hj]
            exact Or.comm
          found := fun j hj => by
            rcases List.mem_cons.mp hj with rfl | hold
            · exact ⟨o, hfind⟩
            · exact hs.found j hold }

theorem Tallied.turns (hs : h.Tallied roots s) (hturns : ReflTransGen h.Turn s t) :
    h.Tallied roots t := by
  induction hturns with
  | refl => exact hs
  | tail _ hturn ih => exact ih.turn hturn

/-- When nothing is pending, the marked handles are the live ones that the roots lead to. -/
theorem Tallied.exact (hs : h.Tallied roots s) (hdone : s.pending = []) (id : Handle) :
    s.marks.contains id = true ↔ h.isLive id = true ∧ h.Reaches roots id := by
  have hmarks := hs.marking.complete fun j hj => by simp [hdone] at hj
  exact Set.ext_iff.mp hmarks id

/-! ## The bounded rounds are the loop -/

theorem turns_pass (hpass : ∀ j ∈ passed, h.isLive j = true → m.contains j = true) :
    ReflTransGen h.Turn ⟨m, passed ++ rest, traced⟩ ⟨m, rest, traced⟩ := by
  induction passed with
  | nil => exact .refl
  | cons j passed ih =>
      have hturn : h.Turn ⟨m, j :: (passed ++ rest), traced⟩ ⟨m, passed ++ rest, traced⟩ :=
        .pass fun hlive => by simp [Marks.set_fst, hpass j List.mem_cons_self hlive]
      exact .head hturn (ih fun k hk => hpass k (List.mem_cons_of_mem _ hk))

theorem turns_pass_all (hpass : ∀ j ∈ pending, h.isLive j = true → m.contains j = true) :
    ReflTransGen h.Turn ⟨m, pending, traced⟩ ⟨m, [], traced⟩ := by
  have hturns : ReflTransGen h.Turn ⟨m, pending ++ [], traced⟩ ⟨m, [], traced⟩ := turns_pass hpass
  rwa [List.append_nil] at hturns

/-- The rounds end where the loop does.  They fail at a live handle without an object. -/
theorem ends_markFrom_loop (hs : h.Tallied roots ⟨m, pending, traced⟩)
    (hrounds : h.live.ncard ≤ rounds + traced.length) :
    Ends (h.markFrom rounds pending traced.length) m
      (fun total marks => ∃ all, total = all.length ∧
        ReflTransGen h.Turn ⟨m, pending, traced⟩ ⟨marks, [], all⟩)
      (fun e _ => ∃ id, h.isLive id = true ∧ h.Reaches roots id ∧ h.find id = .error e) := by
  induction rounds generalizing pending traced m with
  | zero =>
      -- as many handles are marked as are live
      have hall : {id | m.contains id = true} = h.live := by
        refine Set.eq_of_subset_of_ncard_le (fun id hid => (hs.marking.sound id hid).1) ?_
          finite_live
        have hcount : traced.length = {id | m.contains id = true}.ncard := hs.marking.count_eq
        omega
      exact ⟨traced, rfl, turns_pass_all fun j _ hlive => (Set.ext_iff.mp hall j).mpr hlive⟩
  | succ rounds ih =>
      unfold markFrom
      rw [ends_bind, ends_get]
      split
      case _ hnext => exact ⟨traced, rfl, turns_pass_all (nextUnmarked_none hnext)⟩
      case _ id rest marks hnext =>
          obtain ⟨passed, rfl, hlive, hset, hpassed⟩ := nextUnmarked_split hnext
          have hpass : ReflTransGen h.Turn ⟨m, passed ++ id :: rest, traced⟩
              ⟨m, id :: rest, traced⟩ := turns_pass hpassed
          rw [ends_bind, ends_set]
          cases hfind : h.find id with
          | error e =>
              have hid : id ∈ passed ++ id :: rest := by simp
              exact ⟨id, hlive, hs.marking.reached id hid, hfind⟩
          | ok o =>
              have htrace : h.Turn ⟨m, id :: rest, traced⟩
                  ⟨marks, o.children.reverse ++ rest, id :: traced⟩ := by
                have hturn : h.Turn ⟨m, id :: rest, traced⟩
                    ⟨(m.set id).2, o.children.reverse ++ rest, id :: traced⟩ :=
                  .trace hlive (congrArg Prod.fst hset) hfind
                rwa [congrArg Prod.snd hset] at hturn
              have hrun := hpass.tail htrace
              have hend := ih (hs.turns hrun) (by simp only [List.length_cons]; omega)
              refine hend.mono (fun total final hfinal => ?_) fun _ _ hfail => hfail
              obtain ⟨all, htotal, hrest⟩ := hfinal
              exact ⟨all, htotal, hrun.trans hrest⟩

/-- **The marking loop.**  Whatever the heap and the roots are, every run of the loop ends.
Marking gives the marks at which the loop has nothing pending: they hold exactly the live
handles that the roots lead to, each of them was traced once, and they are as many as were
counted.  It fails only if a live handle that the roots lead to names no object.  Setting a
mark changes the answer for its handle and for no other one, and tells whether the handle
was unmarked. -/
theorem marking_loop (h : Heap) (roots : List Handle) :
    (WellFounded fun t s => h.Turn s t) ∧
    Ends (HeapM.markAll roots) h
      (fun total h' => ∃ traced,
        ReflTransGen h.Turn (loopStart roots) ⟨h'.marks, [], traced⟩ ∧
        h' = { h with marks := h'.marks } ∧
        (∀ id, h'.isMarked id = true ↔ h.isLive id = true ∧ h.Reaches roots id) ∧
        traced.Nodup ∧ (∀ id, id ∈ traced ↔ h'.isMarked id = true) ∧
        (∀ id ∈ traced, ∃ o, h.find id = .ok o) ∧ total = traced.length)
      (fun e _ => ∃ id, h.isLive id = true ∧ h.Reaches roots id ∧ h.find id = .error e) ∧
    ∀ (m : Marks) (id : Handle), (m.set id).1 = !m.contains id ∧
      ∀ j, (m.set id).2.contains j = (m.contains j || decide (j = id)) := by
  refine ⟨wellFounded_turn h, ?_, fun m id => ⟨Marks.set_fst, fun _ => Marks.contains_set⟩⟩
  have hstart := tallied_start h roots
  have hrounds : h.live.ncard ≤ h.handles.size + (loopStart roots).traced.length := by
    simpa [loopStart] using ncard_live_le
  refine ends_markAll_iff.mpr ((ends_markFrom_loop hstart hrounds).mono ?_ fun _ _ hfail => hfail)
  rintro total marks ⟨traced, htotal, hturns⟩
  have hend := hstart.turns hturns
  exact ⟨traced, hturns, rfl, hend.exact rfl, hend.once, hend.mem_traced, hend.found, htotal⟩

end Heap

end ManagedHeap
