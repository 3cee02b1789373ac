import ManagedHeap.Proofs.WellRooted

/-!
# The structure of strings

A string may refer to other strings: a composite to its two parts, a view to its parent.
In a well-rooted store the record of a string that is held fits the strings it refers to
(`Store.Structured`).  Readers rely on it twice.  They stay within buffers, since a part is
as long as the composite counts it and a view lies within its parent.  They come to an end,
since no string is reached from itself: a string that has a content is made of strings whose
contents were there before, so the links that lead to it are well founded (`Heap.Spells.acc`).

Flattening and interning rewrite strings that others refer to, and a collection moves them.
None of this can bring a link back, since all of it leaves the contents as they are.
-/

namespace ManagedHeap

/-! ## Links -/

/-- The string `id` refers to `c`, as to one of its parts or to its parent. -/
def Heap.Link (h : Heap) (c id : Handle) : Prop :=
  ∃ t, h.text id = .ok t ∧ c ∈ t.children

/-- From a string that has a content, every chain of links ends. -/
theorem Heap.Spells.acc {h : Heap} {id : Handle} {w : List UInt16} (hw : h.Spells id w) :
    Acc h.Link id := by
  -- on how the content comes about: a link leads to a string whose content was there before
  induction hw with
  | @buffer id t u htext hbuffer =>
      refine .intro id fun c hlink => ?_
      obtain ⟨t', htext', hc⟩ := hlink
      obtain rfl := Except.ok.inj (htext.symm.trans htext')
      simp [Text.children_of_buffer hbuffer] at hc
  | @composite id node a b htext hleft hright ihleft ihright =>
      refine .intro id fun c hlink => ?_
      obtain ⟨t', htext', hc⟩ := hlink
      obtain rfl := Except.ok.inj (htext.symm.trans htext')
      rcases List.mem_pair.mp hc with rfl | rfl
      · exact ihleft
      · exact ihright
  | @view id node w htext hparent ih =>
      refine .intro id fun c hlink => ?_
      obtain ⟨t', htext', hc⟩ := hlink
      obtain rfl := Except.ok.inj (htext.symm.trans htext')
      obtain rfl := List.mem_singleton.mp hc
      exact ih

namespace Store

variable {s : Store} {id : Handle}

/-! ## Strings that fit what they refer to -/

/-- The composite has two parts that are not empty and as long as it counts them, and is long
enough to be a composite. -/
def Joins (s : Store) (node : Composite) : Prop :=
  ∃ a b, s.Holds node.left ∧ s.heap.text node.left = .ok a ∧ 0 < a.length ∧
    s.Holds node.right ∧ s.heap.text node.right = .ok b ∧ 0 < b.length ∧
    node.length = a.length + b.length ∧ s.config.compositeMinLength ≤ node.length

/-- The view lies within a parent that has a buffer, has its encoding, and is long enough to be
a view. -/
def LiesWithin (s : Store) (node : View) : Prop :=
  ∃ p u, s.Holds node.parent ∧ s.heap.text node.parent = .ok p ∧ p.buffer? = some u ∧
    node.offset + node.length ≤ p.length ∧ s.config.viewMinLength ≤ node.length ∧
    node.encoding = p.encoding

/-- The strings that a store holds fit what they refer to, and only strings with buffers of
their own are interned. -/
structure Structured (s : Store) : Prop where
  composite : ∀ id node, s.Holds id → s.heap.text id = .ok (.composite node) → s.Joins node
  view : ∀ id node, s.Holds id → s.heap.text id = .ok (.view node) → s.LiesWithin node
  interned : ∀ id t, s.Holds id → s.heap.text id = .ok t →
    (t.isInterned = true ∨ ∃ hash, (hash, id) ∈ s.table.entries) → ∃ u, t.buffer? = some u
  acyclic : WellFounded fun c id => s.Holds id ∧ s.heap.Link c id

/-- From a string that is held every chain of links ends, and nothing else has links. -/
theorem Sound.links_wellFounded (hs : s.Sound) :
    WellFounded fun c id => s.Holds id ∧ s.heap.Link c id := by
  refine ⟨fun id => .intro id fun c hlink => ?_⟩
  -- the first link starts at a held string, which has a content, so that all others end
  obtain ⟨hid, t, htext, hc⟩ := hlink
  obtain ⟨w, hw, -⟩ := hs.readable.spells hid htext
  have hacc : Acc s.heap.Link c := hw.acc.inv ⟨t, htext, hc⟩
  exact Subrelation.accessible And.right hacc

theorem Sound.structured (hs : s.Sound) : s.Structured where
  composite id node hid htext := by
    obtain ⟨a, b, ha, hb, hleft, hright, hlength, -, hmin, -⟩ :=
      (hs.readable.spelled id _ hid htext).shaped
    have hpart {c : Handle} (hc : c ∈ (Text.composite node).children) : s.Holds c :=
      hs.readable.text_child hid htext hc
    exact ⟨a, b, hpart (by simp [Text.children]), ha, hleft,
      hpart (by simp [Text.children]), hb, hright, hlength, hmin⟩
  view id node hid htext := by
    obtain ⟨p, u, hp, hu, hrange, hencoding, hmin⟩ :=
      (hs.readable.spelled id _ hid htext).shaped
    have hparent : s.Holds node.parent :=
      hs.readable.text_child hid htext (by simp [Text.children])
    refine ⟨p, u, hparent, hp, hu, ?_, hmin, ?_⟩
    · rwa [Text.length_of_buffer hu]
    · rwa [Text.encoding_of_buffer hu]
  interned id t hid htext hmark := by
    -- the flag of a string and the table are set together, but each is believed on its own
    rcases hmark with hflag | ⟨hash, he⟩
    · exact Text.exists_buffer_of_interned hflag
    · obtain ⟨w, hi, -⟩ := hs.table.entries _ he
      obtain ⟨t', u, htext', -, hu, -⟩ := hi
      obtain rfl := Except.ok.inj (htext.symm.trans htext')
      exact ⟨u, hu⟩
  acyclic := hs.links_wellFounded

end Store

open Store

/-- The strings of every well-rooted store are structured, whatever was made, flattened,
interned and collected on the way. -/
theorem WellRooted.string_structure {s : Store} (hs : WellRooted s) : s.Structured :=
  hs.ready.1.structured

/-- A view, and a composite that has it for its left part. -/
theorem WellRooted.string_structure_nested : ∃ s : Store,
    WellRooted s ∧ s.Holds ⟨9⟩ ∧ s.Holds ⟨10⟩ ∧
    s.heap.text ⟨9⟩ = .ok (.view ⟨⟨8⟩, 1, 13, .narrow⟩) ∧
    s.heap.text ⟨10⟩ = .ok (.composite ⟨⟨9⟩, ⟨8⟩, 29, .narrow, false⟩) ∧ s.Structured := by
  have hcheck : (((Store.create {} none).toOption.bind (replay
      [.perform (.newText "abcdefghijklmnop" .young), .perform (.slice ⟨8⟩ 1 14),
        .perform (.concat ⟨9⟩ ⟨8⟩)])).any fun s =>
        s.isLiveRoot ⟨9⟩ && s.isLiveRoot ⟨10⟩ &&
        decide (s.heap.text ⟨9⟩ = .ok (.view ⟨⟨8⟩, 1, 13, .narrow⟩)) &&
        decide (s.heap.text ⟨10⟩ = .ok (.composite ⟨⟨9⟩, ⟨8⟩, 29, .narrow, false⟩))) = true := by
    decide +kernel
  obtain ⟨s, hs, hcheck⟩ := WellRooted.exists_replay hcheck
  simp only [Bool.and_eq_true, decide_eq_true_eq] at hcheck
  obtain ⟨⟨⟨hpart, hwhole⟩, hview⟩, hnode⟩ := hcheck
  exact ⟨s, hs, holds_of_isLiveRoot hpart, holds_of_isLiveRoot hwhole, hview, hnode,
    hs.string_structure⟩

end ManagedHeap
