import ManagedHeap.Heap.Content
import ManagedHeap.Proofs.Heap.Residence
import ManagedHeap.Proofs.Text.Units

/-!
# What strings spell

`h.Spells id w` says that `w` is the content of the string `id`: the content of its buffer,
its left part followed by its right part, or its range of its parent.  A string has at most
one content, and one whose parts contain themselves has none.

The readers of the heap walk over the layouts instead.  Within a set of handles that is
closed under children they never meet a dead object; where the recorded lengths fit the
contents (`Spelled`), what they read is the content.
-/

namespace ManagedHeap

/-- A string has a buffer, or it is a composite or a view. -/
@[elab_as_elim]
theorem Text.casesLayout {motive : Text → Prop} (t : Text)
    (buffer : ∀ t u, t.buffer? = some u → motive t)
    (composite : ∀ node, motive (.composite node)) (view : ∀ node, motive (.view node)) :
    motive t := by
  cases t with
  | flat units interned => exact buffer _ units rfl
  | external units interned => exact buffer _ units rfl
  | composite node => exact composite node
  | view node => exact view node

namespace Heap

variable {h : Heap} {id : Handle} {t : Text} {u out : Units}
  {w w' v v' : List UInt16} {held : Handle → Prop} {config : Config}

/-! ## Strings of a heap -/

theorem text_eq_ok : h.text id = .ok t ↔ h.find id = .ok (.string t) := by
  unfold Heap.text
  cases hfind : h.find id with
  | error e => simp [bind, Except.bind]
  | ok o =>
      cases o <;>
        simp [bind, Except.bind, pure, Except.pure, throw, throwThe, MonadExceptOf.throw]

/-- A live object that is no string is refused as such. -/
theorem text_error {e : Fault} (hlive : ∃ o, h.find id = .ok o) (htext : h.text id = .error e) :
    e = .notAString id := by
  obtain ⟨o, hfind⟩ := hlive
  unfold Heap.text at htext
  rw [hfind] at htext
  cases o <;>
    simp_all [bind, Except.bind, pure, Except.pure, throw, throwThe, MonadExceptOf.throw]

/-- The content of a string. -/
inductive Spells (h : Heap) : Handle → List UInt16 → Prop
  | buffer {id : Handle} {t : Text} {u : Units} (htext : h.text id = .ok t)
      (hbuffer : t.buffer? = some u) : Spells h id u.toList
  | composite {id : Handle} {node : Composite} {a b : List UInt16}
      (htext : h.text id = .ok (.composite node)) (hleft : Spells h node.left a)
      (hright : Spells h node.right b) : Spells h id (a ++ b)
  | view {id : Handle} {node : View} {w : List UInt16} (htext : h.text id = .ok (.view node))
      (hparent : Spells h node.parent w) : Spells h id ((w.drop node.offset).take node.length)

/-- Only strings spell something. -/
theorem Spells.text (hw : h.Spells id w) : ∃ t, h.text id = .ok t := by
  cases hw with
  | buffer htext => exact ⟨_, htext⟩
  | composite htext => exact ⟨_, htext⟩
  | view htext => exact ⟨_, htext⟩

/-- What a string of some layout spells, wherever it is. -/
def Forms (h : Heap) : Text → List UInt16 → Prop
  | .flat units _, w => w = units.toList
  | .external units _, w => w = units.toList
  | .composite node, w => ∃ a b, h.Spells node.left a ∧ h.Spells node.right b ∧ w = a ++ b
  | .view node, w => ∃ a, h.Spells node.parent a ∧ w = (a.drop node.offset).take node.length

theorem forms_iff_of_buffer (hbuffer : t.buffer? = some u) : h.Forms t w ↔ w = u.toList := by
  cases t with
  | flat units interned | external units interned =>
      obtain rfl := Option.some.inj hbuffer
      exact Iff.rfl
  | composite node | view node => simp [Text.buffer?] at hbuffer

/-- The layout of a string tells what it spells. -/
theorem Spells.forms (hw : h.Spells id w) (htext : h.text id = .ok t) : h.Forms t w := by
  cases hw with
  | buffer htext' hbuffer =>
      obtain rfl := Except.ok.inj (htext.symm.trans htext')
      exact (forms_iff_of_buffer hbuffer).mpr rfl
  | composite htext' hleft hright =>
      obtain rfl := Except.ok.inj (htext.symm.trans htext')
      exact ⟨_, _, hleft, hright, rfl⟩
  | view htext' hparent =>
      obtain rfl := Except.ok.inj (htext.symm.trans htext')
      exact ⟨_, hparent, rfl⟩

theorem Forms.spells (hf : h.Forms t w) (htext : h.text id = .ok t) : h.Spells id w := by
  cases t using Text.casesLayout with
  | buffer t u hu =>
      obtain rfl := (forms_iff_of_buffer hu).mp hf
      exact .buffer htext hu
  | composite node =>
      obtain ⟨a, b, ha, hb, rfl⟩ := hf
      exact .composite htext ha hb
  | view node =>
      obtain ⟨a, ha, rfl⟩ := hf
      exact .view htext ha

/-- What a composite spells is what its parts spell. -/
theorem Spells.of_composite {node : Composite} (hw : h.Spells id w)
    (htext : h.text id = .ok (.composite node)) :
    ∃ a b, h.Spells node.left a ∧ h.Spells node.right b ∧ w = a ++ b :=
  hw.forms htext

/-- What a view spells is a range of what its parent spells. -/
theorem Spells.of_view {node : View} (hw : h.Spells id w) (htext : h.text id = .ok (.view node)) :
    ∃ a, h.Spells node.parent a ∧ w = (a.drop node.offset).take node.length :=
  hw.forms htext

theorem Spells.unique (hw : h.Spells id w) (hw' : h.Spells id w') : w = w' := by
  -- on how the content comes about: the layout says which parts it is made of, and these spell one
  -- thing
  induction hw generalizing w' with
  | buffer htext hbuffer => exact ((forms_iff_of_buffer hbuffer).mp (hw'.forms htext)).symm
  | composite htext _ _ ihleft ihright =>
      obtain ⟨a, b, ha, hb, rfl⟩ := hw'.of_composite htext
      rw [ihleft ha, ihright hb]
  | view htext _ ih =>
      obtain ⟨a, ha, rfl⟩ := hw'.of_view htext
      rw [ih ha]

/-- What the walks can read of a string, which is its content and what follows it in the
buffer below its end: a walk knows the end of a buffer, but not where a view ends. -/
inductive Affords (h : Heap) : Handle → List UInt16 → Prop
  | buffer {id : Handle} {t : Text} {u : Units} (htext : h.text id = .ok t)
      (hbuffer : t.buffer? = some u) : Affords h id u.toList
  | composite {id : Handle} {node : Composite} {a b : List UInt16}
      (htext : h.text id = .ok (.composite node)) (hleft : Spells h node.left a)
      (hright : Affords h node.right b) : Affords h id (a ++ b)
  | view {id : Handle} {node : View} {w : List UInt16} (htext : h.text id = .ok (.view node))
      (hparent : Spells h node.parent w) : Affords h id (w.drop node.offset)

theorem Affords.text (hv : h.Affords id v) : ∃ t, h.text id = .ok t := by
  cases hv with
  | buffer htext => exact ⟨_, htext⟩
  | composite htext => exact ⟨_, htext⟩
  | view htext => exact ⟨_, htext⟩

/-- The content is a beginning of what can be read. -/
theorem Spells.affords (hw : h.Spells id w) : ∃ v, h.Affords id v ∧ w <+: v := by
  induction hw with
  | buffer htext hbuffer => exact ⟨_, .buffer htext hbuffer, List.prefix_rfl⟩
  | composite htext hleft hright _ ih =>
      obtain ⟨v, hv, hbegins⟩ := ih
      exact ⟨_, .composite htext hleft hv, (List.prefix_append_right_inj _).mpr hbegins⟩
  | view htext hparent => exact ⟨_, .view htext hparent, List.take_prefix _ _⟩

/-- The content of a string from what can be read of it. -/
theorem Affords.spells (hv : h.Affords id v) : ∃ w, h.Spells id w ∧ w <+: v := by
  induction hv with
  | buffer htext hbuffer => exact ⟨_, .buffer htext hbuffer, List.prefix_rfl⟩
  | composite htext hleft _ ih =>
      obtain ⟨w, hw, hbegins⟩ := ih
      exact ⟨_, .composite htext hleft hw, (List.prefix_append_right_inj _).mpr hbegins⟩
  | view htext hparent => exact ⟨_, .view htext hparent, List.take_prefix _ _⟩

theorem Affords.of_buffer (hv : h.Affords id v) (htext : h.text id = .ok t)
    (hbuffer : t.buffer? = some u) : u.toList = v := by
  cases hv with
  | buffer htext' hbuffer' =>
      obtain rfl := Except.ok.inj (htext.symm.trans htext')
      obtain rfl : u = _ := by simpa [hbuffer] using hbuffer'
      rfl
  | composite htext' | view htext' =>
      obtain rfl := Except.ok.inj (htext.symm.trans htext')
      simp [Text.buffer?] at hbuffer

theorem Affords.of_composite {node : Composite} (hv : h.Affords id v)
    (htext : h.text id = .ok (.composite node)) :
    ∃ a b, h.Spells node.left a ∧ h.Affords node.right b ∧ v = a ++ b := by
  cases hv with
  | buffer htext' hbuffer =>
      obtain rfl := Except.ok.inj (htext.symm.trans htext')
      simp [Text.buffer?] at hbuffer
  | composite htext' hleft hright =>
      obtain rfl : node = _ := by simpa [htext] using htext'
      exact ⟨_, _, hleft, hright, rfl⟩
  | view htext' => simp [htext] at htext'

theorem Affords.of_view {node : View} (hv : h.Affords id v)
    (htext : h.text id = .ok (.view node)) :
    ∃ a, h.Spells node.parent a ∧ v = a.drop node.offset := by
  cases hv with
  | buffer htext' hbuffer =>
      obtain rfl := Except.ok.inj (htext.symm.trans htext')
      simp [Text.buffer?] at hbuffer
  | composite htext' => simp [htext] at htext'
  | view htext' hparent =>
      obtain rfl : node = _ := by simpa [htext] using htext'
      exact ⟨_, hparent, rfl⟩

theorem Affords.unique (hv : h.Affords id v) (hv' : h.Affords id v') : v = v' := by
  induction hv generalizing v' with
  | buffer htext hbuffer => exact hv'.of_buffer htext hbuffer
  | composite htext hleft _ ih =>
      obtain ⟨a, b, ha, hb, rfl⟩ := hv'.of_composite htext
      rw [hleft.unique ha, ih hb]
  | view htext hparent =>
      obtain ⟨a, ha, rfl⟩ := hv'.of_view htext
      rw [hparent.unique ha]

/-- A string with a buffer is read without a copy. -/
theorem content_of_buffer (htext : h.text id = .ok t) (hbuffer : t.buffer? = some u) :
    h.content id = .ok u := by
  simp [content, htext, hbuffer, bind, Except.bind, pure, Except.pure]

/-! ## Strings whose records fit -/

/-- Whether the record of a string fits the strings that it refers to. -/
def Shaped (h : Heap) (config : Config) : Text → Prop
  | .flat _ _ | .external _ _ => True
  | .composite node => ∃ a b, h.text node.left = .ok a ∧ h.text node.right = .ok b ∧
      0 < a.length ∧ 0 < b.length ∧ node.length = a.length + b.length ∧
      node.encoding = a.encoding.join b.encoding ∧ config.compositeMinLength ≤ node.length ∧
      node.length ≤ config.maxStringLength
  | .view node => ∃ p u, h.text node.parent = .ok p ∧ p.buffer? = some u ∧
      node.offset + node.length ≤ u.size ∧ node.encoding = u.encoding ∧
      config.viewMinLength ≤ node.length

/-- A string that has a content, of which its record tells the truth. -/
structure Spelled (h : Heap) (config : Config) (id : Handle) (t : Text) : Prop where
  shaped : h.Shaped config t
  content : ∃ w, h.Spells id w ∧ w.length = t.length ∧
    (t.knownNarrow = true → ∀ x ∈ w, Units.isNarrowUnit x = true)

/-- A set of live objects that holds the children of its objects. -/
structure Closed (h : Heap) (held : Handle → Prop) : Prop where
  found : ∀ id, held id → ∃ o, h.find id = .ok o
  children : ∀ id o c, held id → h.find id = .ok o → c ∈ o.children → held c

/-- A closed set of objects whose strings are all spelled. -/
structure Readable (h : Heap) (config : Config) (held : Handle → Prop) : Prop
    extends h.Closed held where
  spelled : ∀ id t, held id → h.text id = .ok t → h.Spelled config id t

theorem Closed.reads_text (hc : h.Closed held) (hid : held id) :
    Reads (h.text id) fun t => h.text id = .ok t := by
  apply reads_self
  intro htext
  have herror := text_error (hc.found id hid) htext
  simp at herror

theorem Closed.text_child (hc : h.Closed held) (hid : held id) (htext : h.text id = .ok t)
    {c : Handle} (hchild : c ∈ t.children) : held c :=
  hc.children id (.string t) c hid (text_eq_ok.mp htext) hchild

theorem Readable.spells (hr : h.Readable config held) (hid : held id) (htext : h.text id = .ok t) :
    ∃ w, h.Spells id w ∧ w.length = t.length := by
  obtain ⟨w, hw, hlength, -⟩ := (hr.spelled id t hid htext).content
  exact ⟨w, hw, hlength⟩

theorem Readable.affords (hr : h.Readable config held) (hid : held id)
    (htext : h.text id = .ok t) : ∃ v, h.Affords id v := by
  obtain ⟨w, hw, -⟩ := hr.spells hid htext
  obtain ⟨v, hv, -⟩ := hw.affords
  exact ⟨v, hv⟩

theorem Readable.length_eq (hr : h.Readable config held) (hid : held id)
    (htext : h.text id = .ok t) (hw : h.Spells id w) : w.length = t.length := by
  obtain ⟨w', hw', hlength⟩ := hr.spells hid htext
  rw [hw.unique hw', hlength]

end Heap

end ManagedHeap
