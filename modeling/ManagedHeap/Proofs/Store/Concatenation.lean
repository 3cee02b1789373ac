import ManagedHeap.Proofs.Store.Interning
import ManagedHeap.Store.Strings

/-!
# Concatenation

A concatenation leaves through one of four exits: with the other operand where one is
empty, with a string of two units (`runs_concat_pair`), with a copy of two short operands
(`runs_concat_copy`), or with a composite of the two (`runs_concat_composite`).  Whichever
it takes, the result spells what the operands spell, one after the other (`Concatenates`).

Every exit adds to the store.  A collection on the way keeps the operands, which the store
holds, and so also the composite that waits for its place finds them as they were.
-/

namespace ManagedHeap

open Store

variable {s s' : Store} {left right id : Handle} {a b w : List UInt16} {t : Text}

theorem Config.le_compositeMinLength {c : Config} (hvalid : c.error? = none) :
    3 ≤ c.compositeMinLength := by
  unfold Config.error? at hvalid
  split at hvalid
  case isTrue => simp at hvalid
  case isFalse hmin => exact Nat.le_of_not_lt hmin

theorem Config.compositeMinLength_le {c : Config} (hvalid : c.error? = none) :
    c.compositeMinLength ≤ c.viewMinLength := by
  unfold Config.error? at hvalid
  split_ifs at hvalid
  omega

theorem Config.two_le_errorBufferSize {c : Config} (hvalid : c.error? = none) :
    2 ≤ c.errorBufferSize := by
  unfold Config.error? at hvalid
  split_ifs at hvalid
  omega

theorem Config.maxStringLength_lt {c : Config} (hvalid : c.error? = none) :
    c.maxStringLength < wordLimit := by
  have hmax : c.maxStringLength ≤ longestString := by
    by_contra hmore
    unfold Config.error? at hvalid
    rw [if_pos (Nat.lt_of_not_le hmore)] at hvalid
    split at hvalid
    case isTrue => simp at hvalid
    case isFalse => split at hvalid <;> simp at hvalid
  exact Nat.lt_of_le_of_lt hmax (by decide)

/-! ## New strings -/

theorem runs_checkLength {β : Type} {R E : Store → Store → Prop} {g : Unit → StoreM β}
    {s₀ : Store} {Q : β → Store → Prop} (length : Nat) (hfail : E s₀ s)
    (hnext : length ≤ s.config.maxStringLength → RunsFrom R E s₀ (g ()) s Q) :
    RunsFrom R E s₀ (StoreM.checkLength length >>= g) s Q := by
  unfold StoreM.checkLength
  rw [bind_assoc]
  exact runs_get.mpr (runs_unless (by simp) hfail fun hmax => hnext (Nat.le_of_not_lt hmax))

theorem runs_newString (hs : s.Sound) (units : Units) (space : Space) :
    RunsFrom Adds Rests s (StoreM.newString units space) s
      (s.Placed (.string (.flat units false))) :=
  runs_checkLength _ (.refl hs) fun _ => runs_allocateFlat hs units space

theorem runs_newExternal (hs : s.Sound) (hvalid : s.config.error? = none) (units : Units) :
    RunsFrom Adds Rests s (StoreM.newExternal units) s
      (s.Placed (.string (.external units false))) :=
  runs_checkLength _ (.refl hs) fun hmax =>
    runs_allocate hs (fits_external s (hmax.trans_lt (Config.maxStringLength_lt hvalid))) .young

/-! ## Copies -/

/-- The operand of a copy is a held string, and its buffer is its content. -/
theorem Heap.Readable.reads_operand {h : Heap} {config : Config} {held : Handle → Prop}
    (hr : h.Readable config held) (hid : held id) (hw : h.Spells id w) :
    Reads (h.text id) fun t => Reads (match t.buffer? with
      | some units => return units
      | none => throw (.operandWithoutBuffer id)) fun units => units.toList = w := by
  apply (hr.reads_text hid).mono
  intro t ht
  cases hbuffer : t.buffer? with
  | none => simp [reads_throw]
  | some units => exact (hw.unique (.buffer ht hbuffer)).symm

/-- What is copied from two operands with buffers is their content, one after the other. -/
theorem Heap.Readable.reads_joinBuffers {h : Heap} {config : Config} {held : Handle → Prop}
    (hr : h.Readable config held) (hleft : held left) (hright : held right)
    (ha : h.Spells left a) (hb : h.Spells right b) (encoding : Encoding) :
    Reads (StoreM.joinBuffers h encoding left right) fun units => units.toList = a ++ b := by
  unfold StoreM.joinBuffers
  simp only [List.mapM_cons, List.mapM_nil, reads_bind, reads_pure]
  refine (hr.reads_operand hleft ha).mono fun _ hread => hread.mono ?_
  intro u hu
  refine (hr.reads_operand hright hb).mono fun _ hread => hread.mono ?_
  intro v hv
  simp only [List.foldlM_cons, List.foldlM_nil]
  cases hfirst : (Units.empty encoding).append? u with
  | none => simp [reads_bind, reads_error]
  | some out =>
      cases hsecond : out.append? v with
      | none => simp [reads_bind, reads_error, reads_ok, hsecond]
      | some joined =>
          simp only [reads_bind, reads_ok, reads_pure, hsecond]
          rw [(Units.append?_eq_some hsecond).1, (Units.append?_eq_some hfirst).1, hu, hv]
          simp

/-! ## Composites -/

/-- The composite of two held strings that are not empty fits. -/
theorem Store.fits_composite {first second : Text} (hs : s.Sound) (hleft : s.Holds left)
    (hright : s.Holds right) (hfirst : s.heap.text left = .ok first)
    (hsecond : s.heap.text right = .ok second) (hpos : 0 < first.length)
    (hpos' : 0 < second.length)
    (hmin : s.config.compositeMinLength ≤ first.length + second.length)
    (hmax : first.length + second.length ≤ s.config.maxStringLength) :
    let encoding := first.encoding.join second.encoding
    s.Fits (.string (.composite ⟨left, right, first.length + second.length, encoding,
      encoding = .wide && first.knownNarrow && second.knownNarrow⟩)) := by
  obtain ⟨a, ha, halength, hanarrow⟩ := (hs.readable.spelled left first hleft hfirst).content
  obtain ⟨b, hb, hblength, hbnarrow⟩ := (hs.readable.spelled right second hright hsecond).content
  intro encoding
  refine ⟨?_, ?_, ?_⟩
  · intro c hc
    have hc' : c = left ∨ c = right := by simpa [Object.children, Text.children] using hc
    rcases hc' with rfl | rfl
    · exact hleft
    · exact hright
  · intro t u ht hu
    obtain rfl := Object.string.inj ht
    simp [Text.buffer?] at hu
  · intro t ht
    obtain rfl := Object.string.inj ht
    refine ⟨rfl, ⟨first, second, hfirst, hsecond, hpos, hpos', rfl, rfl, hmin, hmax⟩, a ++ b,
      ⟨a, b, ha, hb, rfl⟩, ?_, ?_⟩
    · rw [List.length_append, halength, hblength]
      rfl
    · intro hknown x hx
      -- a narrow composite has two narrow operands, and a wide one says what is known of them
      have hboth : first.knownNarrow = true ∧ second.knownNarrow = true := by
        by_cases hencoding : encoding = .narrow
        · obtain ⟨hn, hn'⟩ := Encoding.join_eq_narrow hencoding
          exact ⟨Text.knownNarrow_of_encoding hn, Text.knownNarrow_of_encoding hn'⟩
        · simp only [Text.knownNarrow, beq_eq_false_iff_ne.mpr hencoding, Bool.false_or,
            Bool.and_eq_true] at hknown
          exact ⟨hknown.1.2, hknown.2⟩
      rcases List.mem_append.mp hx with hx | hx
      · exact hanarrow hboth.1 x hx
      · exact hbnarrow hboth.2 x hx

/-! ## Concatenations -/

/-- What a concatenation of strings with the contents `a` and `b` gives out. -/
structure Store.Concatenates (s : Store) (left right : Handle) (a b : List UInt16) (id : Handle)
    (s' : Store) : Prop where
  holds : s'.Holds id
  spells : s'.heap.Spells id (a ++ b)
  left_empty : a = [] → id = right ∧ s' = s
  right_empty : a ≠ [] → b = [] → id = left ∧ s' = s
  composite : a ≠ [] → b ≠ [] → ((∃ node, s'.heap.text id = .ok (.composite node)) ↔
    s.config.compositeMinLength ≤ a.length + b.length)
  buffer : a ≠ [] → b ≠ [] → a.length + b.length < s.config.compositeMinLength →
    (∃ units, s'.heap.text id = .ok (.flat units false)) ∨
      s.heap.Interned id (a ++ b) ∧ s'.heap.Interned id (a ++ b)
  pair : ∀ x y, a = [x] → b = [y] → (StoreM.isDigitUnit x && StoreM.isDigitUnit y) = false →
    ∀ j, s.heap.Interned j [x, y] → id = j

/-- The result has a buffer. -/
theorem Store.concatenates_of_buffer (hid : s'.Holds id)
    (hbuffer : ∃ t u, s'.heap.text id = .ok t ∧ t.buffer? = some u ∧ u.toList = a ++ b)
    (ha : a ≠ []) (hb : b ≠ []) (hshort : a.length + b.length < s.config.compositeMinLength)
    (hresult : (∃ units, s'.heap.text id = .ok (.flat units false)) ∨
      s.heap.Interned id (a ++ b) ∧ s'.heap.Interned id (a ++ b))
    (hpair : ∀ x y, a = [x] → b = [y] → (StoreM.isDigitUnit x && StoreM.isDigitUnit y) = false →
      ∀ j, s.heap.Interned j [x, y] → id = j) : s.Concatenates left right a b id s' := by
  obtain ⟨t, u, htext, hu, hcontent⟩ := hbuffer
  refine ⟨hid, hcontent ▸ .buffer htext hu, by simp [ha], by simp [hb], fun _ _ => ?_,
    fun _ _ _ => hresult, hpair⟩
  refine iff_of_false ?_ (Nat.not_le_of_lt hshort)
  intro h
  obtain ⟨node, hnode⟩ := h
  obtain rfl := Except.ok.inj (htext.symm.trans hnode)
  simp [Text.buffer?] at hu

/-- Two operands of one unit each give the string of the two units. -/
theorem runs_concat_pair (hs : s.Sound) (hmin : 3 ≤ s.config.compositeMinLength) (x y : UInt16) :
    Runs Adds (StoreM.pairOfUnits x y) s (s.Concatenates left right [x] [y]) := by
  apply (runs_pairOfUnits hs x y).weaken
  intro id s' _ hend
  obtain ⟨hid, -, hresult, hcanonical⟩ := hend
  have hshort : ([x] : List UInt16).length + [y].length < s.config.compositeMinLength :=
    Nat.lt_of_lt_of_le (by simp) hmin
  have hpair : ∀ x' y', [x] = [x'] → [y] = [y'] →
      (StoreM.isDigitUnit x' && StoreM.isDigitUnit y') = false →
      ∀ j, s.heap.Interned j [x', y'] → id = j := by
    intro x' y' hx hy hdigits
    obtain rfl : x = x' := by simpa using hx
    obtain rfl : y = y' := by simpa using hy
    exact hcanonical hdigits
  rcases hresult with ⟨hbefore, hafter⟩ | hp
  · exact concatenates_of_buffer hid hafter.buffer (by simp) (by simp) hshort
      (Or.inr ⟨hbefore, hafter⟩) hpair
  · exact concatenates_of_buffer hid ⟨_, _, Heap.text_eq_ok.mpr hp.find, rfl, by simp⟩ (by simp)
      (by simp) hshort (Or.inl ⟨_, Heap.text_eq_ok.mpr hp.find⟩) hpair

section Longer

variable (hs : s.Sound) (hanil : a ≠ []) (hbnil : b ≠ []) (hlonger : a.length + b.length ≠ 2)

include hs hanil hbnil hlonger

/-- Short operands are copied. -/
theorem runs_concat_copy {units : Units} (hunits : units.toList = a ++ b)
    (hshort : a.length + b.length < s.config.compositeMinLength) :
    Runs Adds (StoreM.allocateFlat units .young) s (s.Concatenates left right a b) := by
  apply (runs_allocateFlat hs units .young).adds.weaken
  intro id s' _ hp
  refine concatenates_of_buffer hp.holds ⟨_, _, Heap.text_eq_ok.mpr hp.find, rfl, hunits⟩ hanil
    hbnil hshort (Or.inl ⟨units, Heap.text_eq_ok.mpr hp.find⟩) ?_
  rintro x y rfl rfl
  exact absurd rfl hlonger

/-- Long operands become the parts of a composite. -/
theorem runs_concat_composite {node : Composite} (hfits : s.Fits (.string (.composite node)))
    (ha : s.heap.Spells node.left a) (hb : s.heap.Spells node.right b)
    (hlong : s.config.compositeMinLength ≤ a.length + b.length) :
    Runs Adds (StoreM.allocate (.string (.composite node)) .young) s
      (s.Concatenates node.left node.right a b) := by
  apply (runs_allocate hs hfits .young).adds.weaken
  intro id s' hadds hp
  have htext := Heap.text_eq_ok.mpr hp.find
  have hsettled := hadds.heap_settled hs
  have hheld {c : Handle} (hc : c ∈ [node.left, node.right]) : s.Holds c := hfits.children c hc
  refine ⟨hp.holds, .composite htext (hsettled.spells _ a (hheld (by simp)) ha)
    (hsettled.spells _ b (hheld (by simp)) hb), by simp [hanil], by simp [hbnil],
    fun _ _ => iff_of_true ⟨_, htext⟩ hlong,
    fun _ _ hshort => absurd hlong (Nat.not_le_of_lt hshort), ?_⟩
  rintro x y rfl rfl
  exact absurd rfl hlonger

end Longer

theorem runs_concat (hs : s.Sound) (hvalid : s.config.error? = none) (hleft : s.Holds left)
    (hright : s.Holds right) (ha : s.heap.Spells left a) (hb : s.heap.Spells right b) :
    Runs Adds (StoreM.concat left right) s (s.Concatenates left right a b) := by
  have hrefl : s.Adds s := .refl hs
  unfold StoreM.concat
  apply runs_text hs hleft hrefl
  intro first hfirst
  have halength := hs.readable.length_eq hleft hfirst ha
  simp only
  -- the exits in the order in which they are taken; each settles which clause of the result applies
  split
  case isTrue hzero =>
      obtain rfl : a = [] := List.eq_nil_of_length_eq_zero (halength.trans hzero)
      exact ⟨hrefl, hright, hb, fun _ => ⟨rfl, rfl⟩, by simp, by simp, by simp, by simp⟩
  case isFalse hpos =>
  apply runs_text hs hright hrefl
  intro second hsecond
  have hblength := hs.readable.length_eq hright hsecond hb
  have hanil : a ≠ [] := by
    rintro rfl
    exact hpos halength.symm
  split
  case isTrue hzero =>
      obtain rfl : b = [] := List.eq_nil_of_length_eq_zero (hblength.trans hzero)
      exact ⟨hrefl, hleft, by simpa using ha, by simp [hanil], fun _ _ => ⟨rfl, rfl⟩, by simp,
        by simp, by simp⟩
  case isFalse hpos' =>
  have hbnil : b ≠ [] := by
    rintro rfl
    exact hpos' hblength.symm
  split
  case isTrue htwo =>
      obtain ⟨x, rfl⟩ : ∃ x, a = [x] := List.length_eq_one_iff.mp (by omega)
      obtain ⟨y, rfl⟩ : ∃ y, b = [y] := List.length_eq_one_iff.mp (by omega)
      refine runs_inspect ((hs.readable.reads_unitAt hleft ha).mono fun x' hx => ?_) hrefl
      refine runs_inspect ((hs.readable.reads_unitAt hright hb).mono fun y' hy => ?_) hrefl
      obtain rfl : x = x' := by simpa using hx
      obtain rfl : y = y' := by simpa using hy
      exact runs_concat_pair hs (Config.le_compositeMinLength hvalid) x y
  case isFalse htwo =>
      have hlonger : a.length + b.length ≠ 2 := by rwa [halength, hblength]
      refine runs_checkLength _ hrefl fun hmax => ?_
      apply runs_text hs hleft hrefl
      intro first' hfirst'
      obtain rfl := Except.ok.inj (hfirst.symm.trans hfirst')
      apply runs_text hs hright hrefl
      intro second' hsecond'
      obtain rfl := Except.ok.inj (hsecond.symm.trans hsecond')
      apply runs_get.mpr
      split
      case isTrue hshort =>
          refine runs_inspect ((hs.readable.reads_joinBuffers hleft hright ha hb _).mono
            fun units hunits => ?_) hrefl
          exact runs_concat_copy hs hanil hbnil hlonger hunits (by rwa [halength, hblength])
      case isFalse hlong =>
          have hfits := fits_composite hs hleft hright hfirst hsecond (Nat.pos_of_ne_zero hpos)
            (Nat.pos_of_ne_zero hpos') (Nat.le_of_not_lt hlong) hmax
          refine runs_concat_composite hs hanil hbnil hlonger hfits ha hb ?_
          rw [halength, hblength]
          exact Nat.le_of_not_lt hlong

/-- Operands that are no strings are refused, if they are looked at. -/
theorem runs_concat_held (hs : s.Sound) (hvalid : s.config.error? = none) (hleft : s.Holds left)
    (hright : s.Holds right) :
    Runs Adds (StoreM.concat left right) s fun id s' => s'.Holds id := by
  by_cases hspelled : ∃ a b, s.heap.Spells left a ∧ s.heap.Spells right b
  · obtain ⟨a, b, ha, hb⟩ := hspelled
    exact (runs_concat hs hvalid hleft hright ha hb).weaken fun _ _ _ hend => hend.holds
  · unfold StoreM.concat
    apply runs_text hs hleft (.refl hs)
    intro first hfirst
    obtain ⟨a, ha, -⟩ := hs.readable.spells hleft hfirst
    simp only
    split
    case isTrue => exact ⟨.refl hs, hright⟩
    case isFalse =>
        apply runs_text hs hright (.refl hs)
        intro second hsecond
        obtain ⟨b, hb, -⟩ := hs.readable.spells hright hsecond
        exact absurd ⟨a, b, ha, hb⟩ hspelled

/-- The flat concatenation is a new flat string. -/
theorem runs_flatConcat (hs : s.Sound) (hleft : s.Holds left) (hright : s.Holds right)
    (ha : s.heap.Spells left a) (hb : s.heap.Spells right b) :
    RunsFrom Adds Rests s (StoreM.flatConcat left right) s (fun id s' => ∃ units,
      s.Placed (.string (.flat units false)) id s' ∧ units.toList = a ++ b) := by
  have hrefl : s.Rests s := .refl hs
  unfold StoreM.flatConcat
  apply runs_text hs hleft hrefl
  intro first hfirst
  apply runs_text hs hright hrefl
  intro second hsecond
  have halength := hs.readable.length_eq hleft hfirst ha
  have hblength := hs.readable.length_eq hright hsecond hb
  refine runs_checkLength _ hrefl fun _ => runs_inspect ?_ hrefl
  rw [reads_bind]
  apply (hs.readable.reads_copyRange hleft ha _).mono
  intro out hout
  apply (hs.readable.reads_appendRange hright hb).mono
  intro units hunits
  refine (runs_allocateFlat hs units .young).weaken fun id s' _ hp => ⟨units, hp, ?_⟩
  rw [(hunits (Nat.le_of_eq hblength.symm)).1, (hout (Nat.le_of_eq halength.symm)).1, ← halength,
    ← hblength, Heap.part_full, Heap.part_full]

theorem runs_flatConcat_held (hs : s.Sound) (hleft : s.Holds left) (hright : s.Holds right) :
    Runs Adds (StoreM.flatConcat left right) s fun id s' => s'.Holds id := by
  by_cases hspelled : ∃ a b, s.heap.Spells left a ∧ s.heap.Spells right b
  · obtain ⟨a, b, ha, hb⟩ := hspelled
    exact (runs_flatConcat hs hleft hright ha hb).adds.weaken fun id s' _ hend => by
      obtain ⟨units, hp, -⟩ := hend
      exact hp.holds
  · unfold StoreM.flatConcat
    apply runs_text hs hleft (.refl hs)
    intro first hfirst
    apply runs_text hs hright (.refl hs)
    intro second hsecond
    obtain ⟨a, ha, -⟩ := hs.readable.spells hleft hfirst
    obtain ⟨b, hb, -⟩ := hs.readable.spells hright hsecond
    exact absurd ⟨a, b, ha, hb⟩ hspelled

end ManagedHeap
