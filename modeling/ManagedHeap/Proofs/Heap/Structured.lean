import ManagedHeap.Proofs.StringStructure
import Mathlib.Data.Set.Card
import Mathlib.Logic.Relation

/-!
# Strings whose structure fits

`h.Structured id` tells of the strings that the string `id` is made of that their records fit
each other, and that none of them is made of itself.  It asks nothing of the rest of the heap
and nothing of the encodings that are recorded, and strings may share their parts freely: the
same part may be met on any number of ways.

So the ways down from `id` are more than its strings, but none is longer.  The number of the
strings below (`Heap.rank`) goes down along every link (`Structured.rank_lt`) and is at most
the number of the handles.  By induction on it a structured string has a content that is as
long as its record says (`Structured.exists_spells`).
-/

namespace ManagedHeap

open Relation

namespace Heap

variable {h : Heap} {id c : Handle} {t : Text} {w : List UInt16}

/-- The strings that a string is made of, itself included. -/
def below (h : Heap) (id : Handle) : Set Handle :=
  {c | ReflTransGen h.Link c id}

/-- Whether the record of a string fits the strings that it refers to: a composite is as long
as its parts together, and a view lies within a buffer that its parent has. -/
def Fits (h : Heap) : Text → Prop
  | .flat _ _ | .external _ _ => True
  | .composite node => ∃ a b, h.text node.left = .ok a ∧ h.text node.right = .ok b ∧
      node.length = a.length + b.length
  | .view node => ∃ p u, h.text node.parent = .ok p ∧ p.buffer? = some u ∧
      node.offset + node.length ≤ u.size ∧ u.size < wordLimit

/-- The strings below a handle fit each other, and none is a part of itself. -/
structure Structured (h : Heap) (id : Handle) : Prop where
  text : ∀ c ∈ h.below id, ∃ t, h.text c = .ok t ∧ h.Fits t
  acyclic : ∀ c ∈ h.below id, ¬ TransGen h.Link c c

theorem mem_below_self : id ∈ h.below id := ReflTransGen.refl

theorem link_iff (htext : h.text id = .ok t) : h.Link c id ↔ c ∈ t.children := by
  constructor
  · intro hlink
    obtain ⟨t', htext', hc⟩ := hlink
    obtain rfl := Except.ok.inj (htext.symm.trans htext')
    exact hc
  · exact fun hc => ⟨t, htext, hc⟩

theorem below_subset_of_link (hlink : h.Link c id) : h.below c ⊆ h.below id :=
  fun _ hd => ReflTransGen.tail hd hlink

theorem Structured.of_link (hs : h.Structured id) (hlink : h.Link c id) : h.Structured c where
  text d hd := hs.text d (below_subset_of_link hlink hd)
  acyclic d hd := hs.acyclic d (below_subset_of_link hlink hd)

theorem Structured.fits (hs : h.Structured id) (htext : h.text id = .ok t) : h.Fits t := by
  obtain ⟨t', htext', hfits⟩ := hs.text id mem_below_self
  obtain rfl := Except.ok.inj (htext.symm.trans htext')
  exact hfits

/-! ## Ranks -/

/-- The number of the strings that a string is made of. -/
noncomputable def rank (h : Heap) (id : Handle) : Nat :=
  (h.below id).ncard

theorem Structured.below_subset (hs : h.Structured id) : h.below id ⊆ h.live := by
  intro c hc
  obtain ⟨t, htext, -⟩ := hs.text c hc
  exact isLive_of_find (text_eq_ok.mp htext)

theorem Structured.finite_below (hs : h.Structured id) : (h.below id).Finite :=
  finite_live.subset hs.below_subset

theorem Structured.rank_pos (hs : h.Structured id) : 0 < h.rank id :=
  (Set.ncard_pos hs.finite_below).mpr ⟨id, mem_below_self⟩

theorem Structured.rank_le (hs : h.Structured id) : h.rank id ≤ h.handles.size :=
  (Set.ncard_le_ncard hs.below_subset finite_live).trans ncard_live_le

/-- A string that another one refers to is made of fewer strings. -/
theorem Structured.rank_lt (hs : h.Structured id) (hlink : h.Link c id) : h.rank c < h.rank id := by
  apply Set.ncard_lt_ncard _ hs.finite_below
  refine Set.ssubset_iff_exists.mpr ⟨below_subset_of_link hlink, id, mem_below_self, fun hid => ?_⟩
  exact hs.acyclic id mem_below_self (TransGen.tail' hid hlink)

/-! ## What they are made of -/

/-- What a walk needs to know of a composite that it meets. -/
theorem Structured.parts {node : Composite} (hs : h.Structured id)
    (htext : h.text id = .ok (.composite node)) :
    ∃ a b, h.text node.left = .ok a ∧ h.text node.right = .ok b ∧
      node.length = a.length + b.length ∧ h.Structured node.left ∧ h.Structured node.right ∧
      h.rank node.left < h.rank id ∧ h.rank node.right < h.rank id := by
  obtain ⟨a, b, ha, hb, hlength⟩ := hs.fits htext
  have hleft : h.Link node.left id := ⟨_, htext, by simp [Text.children]⟩
  have hright : h.Link node.right id := ⟨_, htext, by simp [Text.children]⟩
  exact ⟨a, b, ha, hb, hlength, hs.of_link hleft, hs.of_link hright, hs.rank_lt hleft,
    hs.rank_lt hright⟩

/-- What a walk needs to know of a view that it meets. -/
theorem Structured.parent {node : View} (hs : h.Structured id)
    (htext : h.text id = .ok (.view node)) :
    ∃ p u, h.text node.parent = .ok p ∧ p.buffer? = some u ∧
      node.offset + node.length ≤ u.size ∧ u.size < wordLimit ∧ h.Structured node.parent ∧
      h.rank node.parent < h.rank id := by
  obtain ⟨p, u, hp, hu, hrange, hshort⟩ := hs.fits htext
  have hlink : h.Link node.parent id := ⟨_, htext, by simp [Text.children]⟩
  exact ⟨p, u, hp, hu, hrange, hshort, hs.of_link hlink, hs.rank_lt hlink⟩

/-- A structured string has a content, which is as long as its record says. -/
theorem Structured.exists_spells (hs : h.Structured id) (htext : h.text id = .ok t) :
    ∃ w, h.Spells id w ∧ w.length = t.length := by
  induction hrank : h.rank id using Nat.strong_induction_on generalizing id t with
  | _ n ih =>
      cases t using Text.casesLayout with
      | buffer t u hu =>
          exact ⟨_, .buffer htext hu, by rw [Units.length_toList, Text.length_of_buffer hu]⟩
      | view node =>
          obtain ⟨p, u, hp, hu, hrange, -⟩ := hs.parent htext
          refine ⟨_, .view htext (.buffer hp hu), ?_⟩
          rw [List.length_take, List.length_drop, Units.length_toList]
          simp only [Text.length]
          omega
      | composite node =>
          obtain ⟨a, b, ha, hb, hlength, hleft, hright, hltl, hltr⟩ := hs.parts htext
          obtain ⟨wa, hwa, hla⟩ := ih _ (hrank ▸ hltl) hleft ha rfl
          obtain ⟨wb, hwb, hlb⟩ := ih _ (hrank ▸ hltr) hright hb rfl
          refine ⟨_, .composite htext hwa hwb, ?_⟩
          rw [List.length_append, hla, hlb]
          exact hlength.symm

theorem Structured.length_eq (hs : h.Structured id) (htext : h.text id = .ok t)
    (hw : h.Spells id w) : w.length = t.length := by
  obtain ⟨w', hw', hlength⟩ := hs.exists_spells htext
  rw [hw.unique hw', hlength]

/-- Where each string of a list refers to older ones of the list, all of them are structured. -/
theorem structured_of_older (cs : List Handle) (hcs : ∀ c ∈ cs, ∃ t, h.text c = .ok t ∧
    h.Fits t ∧ ∀ d ∈ t.children, d ∈ cs ∧ d.index < c.index) (hid : id ∈ cs) :
    h.Structured id ∧ h.below id ⊆ {c | c ∈ cs} := by
  have holder {d c : Handle} (hc : c ∈ cs) (hlink : h.Link d c) :
      d ∈ cs ∧ d.index < c.index := by
    obtain ⟨t, htext, -, hchildren⟩ := hcs c hc
    exact hchildren d ((link_iff htext).mp hlink)
  have hbelow : h.below id ⊆ {c | c ∈ cs} := by
    intro c hc
    induction hc using ReflTransGen.head_induction_on with
    | refl => exact hid
    | head hlink _ ih => exact (holder ih hlink).1
  -- along any links the index gets smaller, so that no string is below itself
  have hlt {d c : Handle} (hc : c ∈ cs) (hlinks : TransGen h.Link d c) : d.index < c.index := by
    have hboth : d ∈ cs ∧ d.index < c.index := by
      induction hlinks using TransGen.head_induction_on with
      | single hlink => exact holder hc hlink
      | head hlink _ ih =>
          obtain ⟨hd, hlt⟩ := holder ih.1 hlink
          exact ⟨hd, hlt.trans ih.2⟩
    exact hboth.2
  refine ⟨⟨fun c hc => ?_, fun c hc hcycle => ?_⟩, hbelow⟩
  · obtain ⟨t, htext, hfits, -⟩ := hcs c (hbelow hc)
    exact ⟨t, htext, hfits⟩
  · exact Nat.lt_irrefl _ (hlt (hbelow hc) hcycle)

/-! ## Encodings -/

/-- The strings below a handle that are recorded as narrow refer to narrow strings only. -/
def Truthful (h : Heap) (id : Handle) : Prop :=
  ∀ c ∈ h.below id, ∀ t, h.text c = .ok t → t.encoding = .narrow →
    ∀ d ∈ t.children, ∀ t', h.text d = .ok t' → t'.encoding = .narrow

/-- A narrow string hands its encoding down to the strings that it refers to. -/
theorem Truthful.of_child (ht : h.Truthful id) (htext : h.text id = .ok t)
    (hnarrow : t.encoding = .narrow) (hc : c ∈ t.children) (hw : h.Spells c w) :
    h.Truthful c ∧ ∃ t', h.text c = .ok t' ∧ t'.encoding = .narrow := by
  obtain ⟨t', htext'⟩ := hw.text
  have hsub : h.below c ⊆ h.below id := below_subset_of_link ((link_iff htext).mpr hc)
  exact ⟨fun d hd => ht d (hsub hd), t', htext',
    ht id mem_below_self t htext hnarrow c hc t' htext'⟩

/-- Where the records of encodings are truthful, a narrow string spells narrow units. -/
theorem Truthful.narrow_of_spells (ht : h.Truthful id) (hw : h.Spells id w)
    (htext : h.text id = .ok t) (hnarrow : t.encoding = .narrow) :
    ∀ x ∈ w, Units.isNarrowUnit x = true := by
  induction hw generalizing t with
  | @buffer id t' u htext' hbuffer =>
      obtain rfl := Except.ok.inj (htext.symm.trans htext')
      rw [Text.encoding_of_buffer hbuffer] at hnarrow
      exact fun x hx => Units.isNarrowUnit_of_fitsNarrow (Units.fitsNarrow_of_encoding hnarrow) hx
  | @composite id node a b htext' hleft hright ihleft ihright =>
      obtain rfl := Except.ok.inj (htext.symm.trans htext')
      obtain ⟨htl, tl, htextl, hnl⟩ := ht.of_child htext hnarrow (by simp [Text.children]) hleft
      obtain ⟨htr, tr, htextr, hnr⟩ := ht.of_child htext hnarrow (by simp [Text.children]) hright
      exact List.forall_mem_append.mpr ⟨ihleft htl htextl hnl, ihright htr htextr hnr⟩
  | @view id node w htext' hparent ih =>
      obtain rfl := Except.ok.inj (htext.symm.trans htext')
      obtain ⟨htp, tp, htextp, hnp⟩ := ht.of_child htext hnarrow (by simp [Text.children]) hparent
      exact fun x hx => ih htp htextp hnp x (List.mem_of_mem_drop (List.mem_of_mem_take hx))

end Heap

end ManagedHeap
