import ManagedHeap.Proofs.Heap.Spelling

/-!
# Strings that settle

Strings are immutable, but their layout is not: a composite can be replaced by a flat copy
of its content, and a string with a buffer can become the canonical one of its content.  A
string that `Settles` keeps its length and its encoding, and its buffer if it has one.

`h.Settled h' held` says that the strings of a set settle from `h` to `h'` and spell there
what they spelled before.  What the records of strings say then stays true (`spelled`).
-/

namespace ManagedHeap

theorem Encoding.join_eq_narrow {e e' : Encoding} (hjoin : e.join e' = .narrow) :
    e = .narrow ∧ e' = .narrow := by
  cases e <;> cases e' <;> simp [Encoding.join] at hjoin ⊢

namespace Text

variable {t t' t'' : Text} {u : Units}

/-- The layouts that a string can take on. -/
inductive Settles : Text → Text → Prop
  | refl (t : Text) : Settles t t
  | intern (t : Text) : Settles t t.intern
  | flatten {node : Composite} {units : Units} {interned : Bool} (hsize : units.size = node.length)
      (hencoding : units.encoding = node.encoding) :
      Settles (.composite node) (.flat units interned)

@[simp] theorem length_intern : t.intern.length = t.length := by
  cases t <;> rfl

@[simp] theorem encoding_intern : t.intern.encoding = t.encoding := by
  cases t <;> rfl

@[simp] theorem buffer?_intern : t.intern.buffer? = t.buffer? := by
  cases t <;> rfl

@[simp] theorem knownNarrow_intern : t.intern.knownNarrow = t.knownNarrow := by
  cases t <;> rfl

@[simp] theorem children_intern : t.intern.children = t.children := by
  cases t <;> rfl

theorem children_of_buffer (hbuffer : t.buffer? = some u) : t.children = [] := by
  cases t <;> first | rfl | simp [Text.buffer?] at hbuffer

theorem length_of_buffer (hbuffer : t.buffer? = some u) : t.length = u.size := by
  cases t <;> simp_all [Text.buffer?, Text.length]

theorem encoding_of_buffer (hbuffer : t.buffer? = some u) : t.encoding = u.encoding := by
  cases t <;> simp_all [Text.buffer?, Text.encoding]

theorem knownNarrow_of_encoding (hnarrow : t.encoding = .narrow) : t.knownNarrow = true := by
  cases t with
  | external units interned => exact Units.fitsNarrow_of_encoding hnarrow
  | flat units interned => exact beq_iff_eq.mpr hnarrow
  | composite node => exact Bool.or_eq_true_iff.mpr (Or.inl (beq_iff_eq.mpr hnarrow))
  | view node => exact beq_iff_eq.mpr hnarrow

theorem exists_buffer (hcomposite : ∀ node, t ≠ .composite node) (hview : ∀ node, t ≠ .view node) :
    ∃ u, t.buffer? = some u := by
  cases t using Text.casesLayout with
  | buffer t u hu => exact ⟨u, hu⟩
  | composite node => exact absurd rfl (hcomposite node)
  | view node => exact absurd rfl (hview node)

theorem Settles.trans (hfirst : t.Settles t') (hsecond : t'.Settles t'') : t.Settles t'' := by
  cases hfirst with
  | refl => exact hsecond
  | intern =>
      cases t <;> cases hsecond <;> first | exact .refl _ | exact .intern _ | exact .flatten ‹_› ‹_›
  | flatten hsize hencoding =>
      cases hsecond with
      | refl => exact .flatten hsize hencoding
      | intern => exact .flatten hsize hencoding

theorem Settles.length (hs : t.Settles t') : t'.length = t.length := by
  cases hs with
  | refl => rfl
  | intern => exact length_intern
  | flatten hsize hencoding => exact hsize

theorem Settles.encoding (hs : t.Settles t') : t'.encoding = t.encoding := by
  cases hs with
  | refl => rfl
  | intern => exact encoding_intern
  | flatten hsize hencoding => exact hencoding

theorem Settles.buffer? (hs : t.Settles t') (hbuffer : t.buffer? = some u) :
    t'.buffer? = some u := by
  cases hs with
  | refl => exact hbuffer
  | intern => rwa [buffer?_intern]
  | flatten => simp [Text.buffer?] at hbuffer

/-- A canonical string stays marked as one. -/
theorem Settles.isInterned (hs : t.Settles t') (hflag : t.isInterned = true) :
    t'.isInterned = true := by
  cases hs with
  | refl => exact hflag
  | intern => cases t <;> first | rfl | exact hflag
  | flatten => simp [Text.isInterned] at hflag

theorem Settles.children (hs : t.Settles t') {c : Handle} (hc : c ∈ t'.children) :
    c ∈ t.children := by
  cases hs with
  | refl => exact hc
  | intern => rwa [children_intern] at hc
  | flatten => simp [Text.children] at hc

/-- A string that is known to be narrow was so before. -/
theorem Settles.knownNarrow (hs : t.Settles t') (hnarrow : t'.knownNarrow = true) :
    t.knownNarrow = true := by
  cases hs with
  | refl => exact hnarrow
  | intern => rwa [knownNarrow_intern] at hnarrow
  | flatten hsize hencoding =>
      rw [Text.knownNarrow, hencoding] at hnarrow
      rw [Text.knownNarrow, hnarrow, Bool.true_or]

end Text

namespace Heap

variable {h h' h'' : Heap} {held : Handle → Prop} {id : Handle} {t t' : Text}
  {config : Config} {w : List UInt16}

/-- The strings of a set settle, and spell what they spelled before. -/
structure Settled (h h' : Heap) (held : Handle → Prop) : Prop where
  text : ∀ id t, held id → h.text id = .ok t → ∃ t', h'.text id = .ok t' ∧ t.Settles t'
  known : ∀ id t', held id → h'.text id = .ok t' → ∃ t, h.text id = .ok t
  spells : ∀ id w, held id → h.Spells id w → h'.Spells id w

/-- It is enough that each string of a closed set settles to a buffer that holds what the
string spells, where it did not have one. -/
theorem settled_of_text
    (hclosed : ∀ id t c, held id → h'.text id = .ok t → c ∈ t.children → held c)
    (htext : ∀ id t, held id → h.text id = .ok t → ∃ t', h'.text id = .ok t' ∧ t.Settles t' ∧
      ∀ u w, t'.buffer? = some u → h.Spells id w → u.toList = w)
    (hknown : ∀ id t', held id → h'.text id = .ok t' → ∃ t, h.text id = .ok t) :
    h.Settled h' held where
  text id t hid ht := by
    obtain ⟨t', ht', hsettles, -⟩ := htext id t hid ht
    exact ⟨t', ht', hsettles⟩
  known := hknown
  spells id w hid hw := by
    -- on how the content comes about: the strings below are settled and spell what they did
    induction hw with
    | @buffer id t u ht hbuffer =>
        obtain ⟨t', ht', hsettles, -⟩ := htext id t hid ht
        exact .buffer ht' (hsettles.buffer? hbuffer)
    | @composite id node a b ht hleft hright ihleft ihright =>
        obtain ⟨t', ht', hsettles, hcontent⟩ := htext id _ hid ht
        have hchild {c : Handle} (hc : c ∈ t'.children) : held c := hclosed id t' c hid ht' hc
        cases hsettles with
        | refl =>
            exact .composite ht' (ihleft (hchild (by simp [Text.children])))
              (ihright (hchild (by simp [Text.children])))
        | intern =>
            exact .composite ht' (ihleft (hchild (by simp [Text.children, Text.intern])))
              (ihright (hchild (by simp [Text.children, Text.intern])))
        | flatten hsize hencoding =>
            -- the parts of a flattened string are no longer asked, its buffer has what they spelled
            rw [← hcontent _ _ rfl (.composite ht hleft hright)]
            exact .buffer ht' rfl
    | @view id node w ht hparent ih =>
        obtain ⟨t', ht', hsettles, -⟩ := htext id _ hid ht
        have hchild {c : Handle} (hc : c ∈ t'.children) : held c := hclosed id t' c hid ht' hc
        cases hsettles with
        | refl => exact .view ht' (ih (hchild (by simp [Text.children])))
        | intern => exact .view ht' (ih (hchild (by simp [Text.children, Text.intern])))

/-- Strings that are left alone settle. -/
theorem settled_of_find (hc : h.Closed held) (hfind : ∀ id, held id → h'.find id = h.find id) :
    h.Settled h' held := by
  have htext (id : Handle) (hid : held id) : h'.text id = h.text id := by
    unfold Heap.text
    rw [hfind id hid]
  refine settled_of_text ?_ ?_
    fun id t' hid ht' => ⟨t', htext id hid ▸ ht'⟩
  · intro id t c hid ht hchild
    exact hc.text_child hid (htext id hid ▸ ht) hchild
  · intro id t hid ht
    exact ⟨t, htext id hid ▸ ht, .refl t, fun u w hbuffer hw =>
      (Spells.buffer ht hbuffer).unique hw⟩

theorem Settled.mono {held' : Handle → Prop} (hs : h.Settled h' held)
    (hsub : ∀ id, held' id → held id) : h.Settled h' held' where
  text id t hid := hs.text id t (hsub id hid)
  known id t hid := hs.known id t (hsub id hid)
  spells id w hid := hs.spells id w (hsub id hid)

/-- What a string of some layout spells by its parts stays the same when the parts settle. -/
theorem Settled.forms (hs : h.Settled h' held) (hchildren : ∀ c ∈ t.children, held c)
    (hforms : h.Forms t w) : h'.Forms t w := by
  cases t using Text.casesLayout with
  | buffer t u hu => rwa [forms_iff_of_buffer hu] at hforms ⊢
  | composite node =>
      obtain ⟨a, b, ha, hb, rfl⟩ := hforms
      exact ⟨a, b, hs.spells _ a (hchildren _ (by simp [Text.children])) ha,
        hs.spells _ b (hchildren _ (by simp [Text.children])) hb, rfl⟩
  | view node =>
      obtain ⟨a, ha, rfl⟩ := hforms
      exact ⟨a, hs.spells _ a (hchildren _ (by simp [Text.children])) ha, rfl⟩

/-- The records of strings that settle fit as before. -/
theorem Settled.shaped (hs : h.Settled h' held) (hsettles : t.Settles t')
    (hchildren : ∀ c ∈ t'.children, held c) (hshaped : h.Shaped config t) :
    h'.Shaped config t' := by
  -- the conditions of a shape are about lengths and encodings of the parts, which settling keeps
  have hsame (hchildren : ∀ c ∈ t.children, held c) : h'.Shaped config t := by
    cases t with
    | flat units interned => trivial
    | external units interned => trivial
    | composite node =>
        obtain ⟨a, b, ha, hb, hapos, hbpos, hlength, hencoding, hbounds⟩ := hshaped
        obtain ⟨a', ha', hsa⟩ := hs.text _ a (hchildren node.left (by simp [Text.children])) ha
        obtain ⟨b', hb', hsb⟩ := hs.text _ b (hchildren node.right (by simp [Text.children])) hb
        refine ⟨a', b', ha', hb', ?_, ?_, ?_, ?_, hbounds⟩
        · rwa [hsa.length]
        · rwa [hsb.length]
        · rwa [hsa.length, hsb.length]
        · rwa [hsa.encoding, hsb.encoding]
    | view node =>
        obtain ⟨p, u, hp, hu, hrange, hencoding, hmin⟩ := hshaped
        obtain ⟨p', hp', hsp⟩ := hs.text _ p (hchildren node.parent (by simp [Text.children])) hp
        exact ⟨p', u, hp', hsp.buffer? hu, hrange, hencoding, hmin⟩
  cases hsettles with
  | refl => exact hsame hchildren
  | intern =>
      rw [Text.children_intern] at hchildren
      have hfits := hsame hchildren
      cases t <;> exact hfits
  | flatten => trivial

theorem Settled.spelled (hs : h.Settled h' held) (hid : held id)
    (hsettles : t.Settles t') (hchildren : ∀ c ∈ t'.children, held c)
    (hspelled : h.Spelled config id t) : h'.Spelled config id t' where
  shaped := hs.shaped hsettles hchildren hspelled.shaped
  content := by
    obtain ⟨w, hw, hlength, hnarrow⟩ := hspelled.content
    refine ⟨w, hs.spells id w hid hw, ?_, fun hknown => hnarrow (hsettles.knownNarrow hknown)⟩
    rw [hsettles.length, hlength]

end Heap

end ManagedHeap
