import ManagedHeap.Proofs.DegradedText
import ManagedHeap.Proofs.Text.Templates
import ManagedHeap.Proofs.Texts

/-!
# Errors from templates

An error that is made by the standard builtin of its kind is made in four steps, each of which
can collect: the template is interned, the arguments are put into an array, the message is
placed, and the error with it.  The text of the message is read off the array and the template
in between.  It depends on what the arguments show, and this is not changed by the steps
before, since the arguments stay held and nothing that is held is changed (`Store.Adds.display`).

The message is what the template expands to with the texts of the arguments, in one pass
(`Template.Expands`).  If it is too long for a string, the template takes its place.

An error can be refused its place (`not_template_always`).
-/

namespace ManagedHeap

open Store

variable {s s' : Store} {kind : ErrorKind} {values : Array Value} {value : Value}
  {template text content : String} {shown : List String} {id array : Handle} {call : Invocation}

/-! ## The standard builtins -/

theorem ErrorKind.makerName_inj {kind kind' : ErrorKind} :
    kind.makerName = kind'.makerName ↔ kind = kind' := by
  cases kind <;> cases kind' <;> decide

theorem ErrorKind.constructorName_inj {kind kind' : ErrorKind} :
    kind.constructorName = kind'.constructorName ↔ kind = kind' := by
  cases kind <;> cases kind' <;> decide

theorem ErrorKind.makerName_ne {kind kind' : ErrorKind} : kind.makerName ≠ kind'.constructorName := by
  cases kind <;> cases kind' <;> decide

namespace Builtins

/-- The builtins of all kinds of errors are the standard ones. -/
def Standard (b : Builtins) : Prop :=
  ∀ kind : ErrorKind, b.find? kind.makerName = some .expand ∧
    b.find? kind.constructorName = some .construct

theorem find?_erase (b : Builtins) (name other : String) :
    (b.erase name).find? other = if other = name then none else b.find? other := by
  unfold find? erase
  induction b.entries with
  | nil => simp
  | cons e entries ih =>
      obtain ⟨key, builtin⟩ := e
      rw [List.filter_cons, List.lookup_cons]
      by_cases hkey : other = key
      · subst hkey
        by_cases hname : other = name
        · rw [if_neg (by simpa using hname), ih, if_pos hname, if_pos hname]
        · rw [if_pos (by simpa using hname), List.lookup_cons, beq_self_eq_true, if_neg hname]
      · have hskip : (other == key) = false := beq_eq_false_iff_ne.mpr hkey
        split
        case isTrue => rw [List.lookup_cons, hskip, ih]
        case isFalse => rw [ih, hskip]

theorem find?_register (b : Builtins) (name other : String) (builtin : Builtin) :
    (b.register name builtin).find? other =
      if other = name then some builtin else b.find? other := by
  have herased := b.find?_erase name other
  unfold find? at herased ⊢
  rw [register, List.lookup_append, herased]
  split
  case isTrue hname => simp [hname]
  case isFalse hother => simp [List.lookup_cons, beq_eq_false_iff_ne.mpr hother]

theorem standard_installStandard (b : Builtins) : b.installStandard.Standard := by
  intro kind
  cases kind <;> simp [installStandard, ErrorKind.all, find?_register,
    ErrorKind.makerName_inj, ErrorKind.constructorName_inj, ErrorKind.makerName_ne,
    ErrorKind.makerName_ne.symm]

end Builtins

/-! ## Texts of values -/

/-- A held string is shown by its whole content. -/
theorem Store.Sound.display_string {w : List UInt16} (hs : s.Sound) (hid : s.Holds id)
    (hw : s.heap.Spells id w) : s.heap.display (.ref id) = .ok (Utf16.decode w) := by
  obtain ⟨t, htext⟩ := hw.text
  obtain ⟨units, hunits⟩ := hs.content_ok hid htext
  have hcontent : units.toList = w :=
    ((hs.readable.reads_content hid).of_ok hunits).unique hw
  unfold Heap.display
  simp only [Heap.text_eq_ok.mp htext, hunits, ok_bind, Units.text, hcontent]
  rfl

/-- Held values are shown as before when something is added. -/
theorem Store.Adds.display (ha : s.Adds s') (hs : s.Sound) (hvalue : s.HoldsValue value) :
    s'.heap.display value = s.heap.display value := by
  cases value with
  | ref id =>
      have hid : s.Holds id := hvalue id rfl
      obtain ⟨o, ho⟩ := hs.find hid
      have ho' : s'.heap.find id = .ok o := (ha.find id hid).trans ho
      cases o with
      | string t =>
          obtain ⟨w, hw, -⟩ := hs.readable.spells hid (Heap.text_eq_ok.mpr ho)
          have hw' : s'.heap.Spells id w := (ha.heap_settled hs).spells id w hid hw
          rw [hs.display_string hid hw, ha.sound.display_string (ha.holds hs hid) hw']
      | _ => simp only [Heap.display, ho, ho', ok_bind]
  | _ => rfl

theorem Store.Adds.shows {list : List Value} (ha : s.Adds s') (hs : s.Sound)
    (hvalues : ∀ v ∈ list, s.HoldsValue v) (hshown : s.heap.Shows list shown) :
    s'.heap.Shows list shown := by
  induction hshown with
  | nil => exact .nil
  | cons hvalue _ ih =>
      refine .cons ?_ (ih fun v hv => hvalues v (by simp [hv]))
      rw [ha.display hs (hvalues _ (by simp)), hvalue]

/-! ## Filling a template -/

theorem Heap.Shows.getElem? {h : Heap} {list : List Value} (hshown : h.Shows list shown)
    (index : Nat) : (∃ value text, list[index]? = some value ∧ shown[index]? = some text ∧
      h.display value = .ok text) ∨ list[index]? = none ∧ shown[index]? = none := by
  induction hshown generalizing index with
  | nil => simp
  | @cons value text list shown hvalue hrest ih =>
      cases index with
      | zero => simp [hvalue]
      | succ index => simpa using ih index

/-- A template is filled with what it expands to. -/
theorem Heap.Shows.fillTemplate_eq {h : Heap} {template : List Char} {text : String}
    (hshown : h.Shows values.toList shown) (hexpands : Template.Expands shown template text)
    (out : String) : h.fillTemplate values template out = .ok (out ++ text) := by
  -- on the expansion; what was filled before it is only carried along
  induction hexpands generalizing out with
  | nil => simp [fillTemplate, pure, Except.pure]
  | @argument d rest text hdigit _ ih =>
      rw [fillTemplate, if_pos (by simp [hdigit])]
      rcases hshown.getElem? (d.toNat - '0'.toNat) with
        ⟨value, text, hvalue, htext, hdisplay⟩ | ⟨hvalue, htext⟩
      · rw [Array.getElem?_toList] at hvalue
        rw [hvalue]
        simp only [hdisplay, ok_bind]
        rw [ih, Template.argument, List.getD_eq_getElem?_getD, htext, Option.getD_some,
          String.append_assoc]
      · rw [Array.getElem?_toList] at hvalue
        rw [hvalue]
        simp only
        rw [ih, Template.argument, List.getD_eq_getElem?_getD, htext, Option.getD_none,
          String.append_assoc]
  | @copied c rest text hplain _ ih =>
      have hpush : out ++ (String.singleton c ++ text) = out.push c ++ text := by
        rw [← String.append_assoc, String.append_singleton]
      rw [hpush]
      cases rest with
      | nil =>
          rw [fillTemplate, ← ih, fillTemplate]
      | cons d rest =>
          rw [Template.beginsWithDigit_cons] at hplain
          rw [fillTemplate, if_neg (by simpa using hplain), ih]

/-! ## The message -/

namespace Store

/-- A string with the text, or the canonical string of the template if a string of the text would
be too long. -/
def TemplateMessage (s : Store) (template text : String) (message : Handle) : Prop :=
  if (Utf16.encode text).length ≤ s.config.maxStringLength then Stored text message s
  else s.heap.Interned message (Utf16.encode template) ∧
    StoreM.toText message s = .ok template s

theorem Stored.of_adds (hst : Stored content id s) (hs : s.Sound) (ha : s.Adds s') :
    Stored content id s' := by
  obtain ⟨units, htext, hunits, hencoding⟩ := hst.flat
  have hid : s'.Holds id := ha.holds hs hst.holds
  have htext' : s'.heap.text id = .ok (.flat units false) :=
    Heap.text_eq_ok.mpr ((ha.find id hst.holds).trans (Heap.text_eq_ok.mp htext))
  exact ⟨hid, ⟨units, htext', hunits, hencoding⟩,
    ha.sound.toText_encode hid (hunits ▸ .buffer htext' rfl)⟩

theorem Adds.interned {w : List UInt16} (ha : s.Adds s') (hid : s.Holds id)
    (hi : s.heap.Interned id w) : s'.heap.Interned id w :=
  (Heap.interned_congr (ha.find id hid)).mpr hi

theorem TemplateMessage.of_adds (hm : s.TemplateMessage template text id) (hs : s.Sound)
    (hid : s.Holds id) (ha : s.Adds s') : s'.TemplateMessage template text id := by
  unfold TemplateMessage at hm ⊢
  rw [ha.config]
  split
  case isTrue hfits =>
      rw [if_pos hfits] at hm
      exact hm.of_adds hs ha
  case isFalse hlong =>
      rw [if_neg hlong] at hm
      have hi := ha.interned hid hm.1
      exact ⟨hi, ha.sound.toText_encode (ha.holds hs hid) hi.spells⟩

end Store

/-- The builtin is called with a canonical template and an array of values that show what the
template expands with. -/
structure Store.Calls (s : Store) (call : Invocation) (array : Handle) (values : Array Value)
    (shown : List String) (template : String) : Prop where
  message : s.Holds call.message
  interned : s.heap.Interned call.message (Utf16.encode template)
  arguments : call.arguments = some array
  holds : s.Holds array
  find : s.heap.find array = .ok (.array values)
  shows : s.heap.Shows values.toList shown

theorem adding_expandMessage (hs : s.Sound) (hc : s.Calls call array values shown template)
    (hexpands : Template.Expands shown template.toList text) :
    Adding (flatBytes (Utf16.encode text).length) (StoreM.expandMessage call) s
      (fun id s' => s'.Holds id ∧ s'.TemplateMessage template text id) := by
  have htemplate := hs.toText_encode hc.message hc.interned.spells
  have hvalues : s.heap.argumentValues call.arguments = .ok values := by
    unfold Heap.argumentValues
    simp only [hc.arguments, hc.find]
    rfl
  have hfilled : s.heap.fillTemplate values template.toList "" = .ok text := by
    rw [hc.shows.fillTemplate_eq hexpands, String.empty_append]
  unfold StoreM.expandMessage Adding
  rw [ends_bind_ok htemplate, ends_bind_ok (run_inspect hvalues),
    ends_bind_ok (run_inspect hfilled), ← Adding, adding_get, size_ofText]
  split
  case isTrue hfits =>
      rw [← size_ofText]
      refine (adding_allocateFlat hs (.ofText text) .young).mono fun id s' ha hp => ⟨hp.holds, ?_⟩
      unfold TemplateMessage
      rw [ha.config, if_pos hfits]
      exact hp.stored ha.sound
  case isFalse hlong =>
      refine adding_pure hs ⟨hc.message, ?_⟩
      unfold TemplateMessage
      rw [if_neg hlong]
      exact ⟨hc.interned, htemplate⟩

/-! ## The error -/

/-- An error of the kind, made of a template: it is not degraded, its arguments are an array of
the values, and its message is the text. -/
structure Store.HasTemplateError (s : Store) (kind : ErrorKind) (values : Array Value)
    (template text : String) (error : Handle) : Prop where
  holds : s.Holds error
  record : ∃ message array, s.heap.find error = .ok (.error ⟨kind, message, some array, false⟩) ∧
    s.heap.find array = .ok (.array values) ∧ s.TemplateMessage template text message

theorem adding_newErrorObject {message : Handle} (hs : s.Sound) (kind : ErrorKind)
    (hmessage : s.Holds message) (harray : s.Holds array) :
    Adding (Object.baseSize + 16) (StoreM.newErrorObject kind message (some array)) s
      (s.Placed (.error ⟨kind, message, some array, false⟩)) := by
  refine adding_place hs .young (fun j hj => ?_) (by simp)
  rcases List.mem_append.mp hj with hj | hj
  · obtain rfl : j = message := by simpa using hj
    exact hmessage
  · obtain rfl : j = array := by simpa using hj
    exact harray

/-- The standard builtin makes the error, however deep it is called. -/
theorem adding_expand (depth : Nat) (hs : s.Sound)
    (hc : s.Calls call array values shown template)
    (hexpands : Template.Expands shown template.toList text) :
    Adding (flatBytes (Utf16.encode text).length + (Object.baseSize + 16))
      (StoreM.invoke (depth + 1) .expand call) s
      (fun c s' => ∃ error, c = ⟨false, .ref error⟩ ∧
        s'.HasTemplateError call.kind values template text error) := by
  unfold StoreM.invoke
  apply (adding_expandMessage hs hc hexpands).bind hs
  intro message s₁ ha₁ hend
  obtain ⟨hmessage, htext⟩ := hend
  rw [hc.arguments, ← Nat.add_zero (Object.baseSize + 16)]
  apply (adding_newErrorObject ha₁.sound call.kind hmessage (ha₁.holds hs hc.holds)).bind ha₁.sound
  intro error s₂ ha₂ hp
  refine adding_pure ha₂.sound ⟨error, rfl, hp.holds, message, array, hp.find, ?_,
    htext.of_adds ha₁.sound hmessage ha₂⟩
  rw [ha₂.find array (ha₁.holds hs hc.holds), ha₁.find array hc.holds, hc.find]

theorem adding_newArray (hs : s.Ready)
    (hempty : s.heap.find s.canonical.emptyArray = .ok (.array #[]))
    (hvalues : ∀ v ∈ values, s.HoldsValue v) :
    Adding (Object.baseSize + 8 * values.size) (StoreM.newArray values .young) s
      (fun id s' => s'.Holds id ∧ s'.heap.find id = .ok (.array values)) := by
  have hruns := runs_newArray hs hvalues .young
  unfold StoreM.newArray at hruns ⊢
  split
  case isTrue hnone =>
      obtain rfl : values = #[] := by simpa using hnone
      rw [if_pos hnone] at hruns
      exact ⟨hruns.1, (takes_track s _).mono (Nat.zero_le _), hruns.2, hempty⟩
  case isFalse hsome =>
      have hchildren : ∀ c ∈ (Object.array values).children, s.Holds c :=
        fun _ hc => holds_of_mem_handlesOf hvalues hc
      exact (adding_place hs.toSound .young hchildren (by simp)).mono
        fun _ _ _ hp => ⟨hp.holds, hp.find⟩

/-- The bytes that an error takes at most, with all that is made on the way. -/
def templateBytes (values : Array Value) (template text : String) : Nat :=
  flatBytes (Utf16.encode template).length + ((Object.baseSize + 8 * values.size) +
    (flatBytes (Utf16.encode text).length + (Object.baseSize + 16)))

theorem adding_raise (hs : s.Ready)
    (hempty : s.heap.find s.canonical.emptyArray = .ok (.array #[]))
    (hstandard : s.builtins.Standard) (kind : ErrorKind) (hvalues : ∀ v ∈ values, s.HoldsValue v)
    (hshown : s.heap.Shows values.toList shown)
    (hexpands : Template.Expands shown template.toList text) :
    Adding (templateBytes values template text) (StoreM.raise kind template values) s
      (fun c s' => ∃ error, c = ⟨false, .ref error⟩ ∧
        s'.HasTemplateError kind values template text error) := by
  have hlist : ∀ v ∈ values.toList, s.HoldsValue v := by simpa using hvalues
  unfold StoreM.raise StoreM.raiseWith
  rw [adding_get, (hstandard kind).1]
  have hintern := adding_internUnits hs.toSound (.ofText template)
  rw [size_ofText] at hintern
  apply hintern.bind hs.toSound
  intro message s₁ ha₁ hi
  rw [Units.toList_ofText] at hi
  have hs₁ := ha₁.ready hs
  have hempty₁ : s₁.heap.find s₁.canonical.emptyArray = .ok (.array #[]) := by
    rw [ha₁.canonical, ha₁.find _ (hs.holds_canonical (by simp [Canonical.toList])), hempty]
  apply (adding_newArray hs₁ hempty₁
    fun v hv => ha₁.holdsValue hs.toSound (hvalues v hv)).bind hs₁.toSound
  intro array s₂ ha₂ hend
  obtain ⟨harray, hfind⟩ := hend
  have ha : s.Adds s₂ := ha₁.trans hs.toSound ha₂
  refine adding_get.mpr (adding_expand _ ha.sound ⟨?_, ?_, rfl, harray, hfind, ?_⟩ hexpands)
  · exact ha₂.holds hs₁.toSound hi.holds
  · exact ha₂.interned hi.holds hi.interned
  · exact ha.shows hs.toSound hlist hshown

end ManagedHeap
