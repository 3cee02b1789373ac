import ManagedHeap.Proofs.ShapeCaches
import ManagedHeap.Proofs.ShapeRefusals

/-!
# Object literals

A literal lists names with values, and may list a name more than once.  The first time decides
which slot the name has, the last time which value is in it.  The two come from different places:
the slots from a shape that other literals share, maybe a cached one, and the values from the list
at hand.

So it is shown in two steps.  A shape that orders the names by their first occurrences gives every
name one slot, and after all writes a slot has what was written last
(`Shape.Orders.getElem?_literalSlots`); this is a fact about arrays.  The shape that is given out
orders the names, whatever collections it took to make it, and the object is placed last, when
shape and values are held.  Neither the object nor its shape is ever changed in place
(`Object.isFixed`), so what was read back at first is read back later (`Store.HasLiteral.keeping`).
-/

namespace ManagedHeap

open Store

/-! ## Slots -/

/-- The value that a list of names and values has last for a name. -/
def lastValue (names : Array Handle) (values : Array Value) (name : Handle) : Option Value :=
  (names.toList.zip values.toList).reverse.lookup name

namespace Shape

variable {layout : Shape} {name name' : Handle} {i : Nat} {names : Array Handle}
  {values : Array Value}

theorem slotOf?_inj (hname : layout.slotOf? name = some i)
    (hname' : layout.slotOf? name' = some i) : name = name' := by
  obtain ⟨_, hfirst, -⟩ := Array.findIdx?_eq_some_iff_getElem.mp hname
  obtain ⟨_, hsecond, -⟩ := Array.findIdx?_eq_some_iff_getElem.mp hname'
  exact (beq_iff_eq.mp hfirst).symm.trans (beq_iff_eq.mp hsecond)

theorem slotOf?_lt (hname : layout.slotOf? name = some i) : i < layout.propertyCount :=
  (Array.findIdx?_eq_some_iff_getElem.mp hname).1

/-- Writes a value to the slot of a name, if it has one. -/
def write (layout : Shape) (slots : Array Value) (entry : Handle × Value) : Array Value :=
  match layout.slotOf? entry.1 with
  | some slot => slots.setIfInBounds slot entry.2
  | none => slots

@[simp] theorem size_write (layout : Shape) (slots : Array Value) (entry : Handle × Value) :
    (layout.write slots entry).size = slots.size := by
  unfold write
  split <;> simp

theorem size_foldl_write (layout : Shape) (entries : List (Handle × Value)) (slots : Array Value) :
    (entries.foldl layout.write slots).size = slots.size := by
  induction entries generalizing slots with
  | nil => rfl
  | cons entry entries ih => rw [List.foldl_cons, ih, size_write]

/-- After some writes a slot has the value that was written last for its name. -/
theorem getElem?_foldl_write (hname : layout.slotOf? name = some i)
    (entries : List (Handle × Value)) {slots : Array Value} (hi : i < slots.size) :
    (entries.foldl layout.write slots)[i]? =
      some ((entries.reverse.lookup name).getD slots[i]) := by
  -- on the entries from behind, as the last one of a name is the one that counts
  induction entries using List.reverseRecOn with
  | nil => simp [hi]
  | append_singleton entries entry ih =>
      obtain ⟨name', value⟩ := entry
      have hsize : i < (entries.foldl layout.write slots).size := by
        rwa [size_foldl_write]
      rw [List.foldl_append, List.foldl_cons, List.foldl_nil, List.reverse_append,
        List.reverse_singleton, List.singleton_append, List.lookup_cons]
      by_cases heq : name = name'
      · subst heq
        simp [write, hname, hsize]
      · have hother : (layout.write (entries.foldl layout.write slots) (name', value))[i]? =
            (entries.foldl layout.write slots)[i]? := by
          unfold write
          split
          case h_1 slot hslot =>
              have hne : slot ≠ i := by
                rintro rfl
                exact heq (slotOf?_inj hname hslot)
              rw [Array.getElem?_setIfInBounds, if_neg hne]
          case h_2 => rfl
        rw [hother, ih, beq_eq_false_iff_ne.mpr heq]

theorem literalSlots_eq (layout : Shape) (names : Array Handle) (values : Array Value) :
    StoreM.literalSlots layout names values =
      (names.toList.zip values.toList).foldl layout.write
        (Array.replicate layout.propertyCount .undefined) := by
  rw [← Array.toList_zip, Array.foldl_toList]
  rfl

@[simp] theorem size_literalSlots (layout : Shape) (names : Array Handle) (values : Array Value) :
    (StoreM.literalSlots layout names values).size = layout.propertyCount := by
  rw [literalSlots_eq, size_foldl_write, Array.size_replicate]

theorem lastValue_of_notMem (hname : name ∉ names) : lastValue names values name = none := by
  unfold lastValue
  rw [List.lookup_eq_none_iff]
  intro entry hentry
  rw [List.mem_reverse] at hentry
  have hmem : entry.1 ∈ names := Array.mem_toList_iff.mp (List.of_mem_zip hentry).1
  rw [bne_iff_ne]
  rintro rfl
  exact hname hmem

theorem exists_lastValue (hsize : names.size = values.size) (hname : name ∈ names) :
    ∃ value, lastValue names values name = some value := by
  unfold lastValue
  rw [← Option.isSome_iff_exists, Option.isSome_iff_ne_none, ne_eq, List.lookup_eq_none_iff]
  intro hall
  obtain ⟨k, hk, rfl⟩ := Array.mem_iff_getElem.mp hname
  have hentry : (names[k], values[k]) ∈ (names.toList.zip values.toList).reverse := by
    rw [List.mem_reverse, List.mem_iff_getElem]
    exact ⟨k, by simp [hk, ← hsize], by simp⟩
  simpa using hall _ hentry

/-- The slots of a literal have its last values, at the places that the shape gives the names. -/
theorem Orders.getElem?_literalSlots (ho : layout.Orders names) (hsize : names.size = values.size)
    (hname : layout.slotOf? name = some i) :
    (StoreM.literalSlots layout names values)[i]? = lastValue names values name := by
  have hmem : name ∈ names := by
    by_contra hnot
    simp [ho.slotOf?_eq_none.mpr hnot] at hname
  obtain ⟨value, hvalue⟩ := exists_lastValue hsize hmem
  have hi : i < (Array.replicate layout.propertyCount Value.undefined).size := by
    simpa using slotOf?_lt hname
  unfold lastValue at hvalue
  rw [literalSlots_eq, getElem?_foldl_write hname _ hi, hvalue, lastValue, hvalue]
  rfl

end Shape

/-! ## One literal -/

/-- The bytes of an object with a number of slots. -/
def plainBytes (count : Nat) : Nat :=
  Object.baseSize + 24 + 8 * count

/-- The bytes that a literal with a number of names takes at most: those of a cache, of a shape
and of its entry in the cache `t`, and of the object. -/
def literalBytes (t : ShapeCache) (count : Nat) : Nat :=
  cacheBytes + (shapeBytes count + grownBytes t) + plainBytes count

section Literal

variable {s s' s'' : Store} {c id r j : Handle} {names : Array Handle} {values : Array Value}
  {x : Context} {t : ShapeCache} {l : Shape} {o : Object} {step : Step} {steps : List Step}

/-- The object has the shape `r` of the names, and the last values of a literal. -/
structure Store.HasLiteral (s : Store) (names : Array Handle) (values : Array Value)
    (id r : Handle) (l : Shape) : Prop where
  object : s.heap.find id = .ok (.plain ⟨r, StoreM.literalSlots l names values⟩)
  shape : s.heap.find r = .ok (.shape l)
  orders : l.Orders names

/-- What can be read of the object of a literal: for every name its last value, from as many
slots as there are different names, in the order of their first occurrences. -/
structure Store.ReadsBack (s : Store) (names : Array Handle) (values : Array Value)
    (id : Handle) : Prop where
  holds : s.Holds id
  slots : ∃ o l, s.heap.find id = .ok (.plain o) ∧ s.heap.find o.shape = .ok (.shape l) ∧
    l.Orders names ∧ o.slots.size = names.toList.toFinset.card
  property : ∀ name, StoreM.property? id name s = .ok (lastValue names values name) s

theorem Store.HasLiteral.property (hl : s.HasLiteral names values id r l)
    (hsize : names.size = values.size) (name : Handle) :
    StoreM.property? id name s = .ok (lastValue names values name) s := by
  unfold StoreM.property?
  rw [run_bind (run_inspect hl.object)]
  simp only
  rw [run_bind (run_shape hl.shape)]
  cases hslot : l.slotOf? name with
  | some slot =>
      rw [← hl.orders.getElem?_literalSlots hsize hslot]
      rfl
  | none =>
      rw [Shape.lastValue_of_notMem (hl.orders.slotOf?_eq_none.mp hslot)]
      rfl

theorem Store.HasLiteral.readsBack (hl : s.HasLiteral names values id r l)
    (hsize : names.size = values.size) (hid : s.Holds id) : s.ReadsBack names values id where
  holds := hid
  slots := ⟨_, l, hl.object, hl.shape, hl.orders, by
    rw [Shape.size_literalSlots, hl.orders.propertyCount]⟩
  property := hl.property hsize

/-- A literal is a new object, unless one of the objects that it needs is refused its place. -/
theorem ends_newLiteral (hs : WellRooted s)
    (hr : (Step.perform (.newLiteral c names values)).Rooted s)
    (hx : s.heap.find c = .ok (.context x)) (hnames : ∀ name ∈ names, name ∈ s.heap.canonical)
    (hsize : names.size = values.size) (ht : s.heap.CacheOf c t) :
    Ends (StoreM.newLiteral c names values) s
      (fun id s' => ¬ s.Holds id ∧ s'.Holds id ∧ ∃ r l, s'.HasLiteral names values id r l)
      (s.Refuses (literalBytes t names.size)) := by
  have hready := hs.ready.1
  have hgiven (j : Handle) (hj : j ∈ c :: names.toList ++ Object.handlesOf values) : s.Holds j :=
    hr.given j hj
  have hcontext : s.Holds c := hgiven c (by simp)
  have hheld : ∀ name ∈ names, s.Holds name := fun name hname => hgiven name (by simp [hname])
  have hvalues : ∀ v ∈ values, s.HoldsValue v :=
    holdsValue_of_givenAll fun j hj => hgiven j (List.mem_append_right _ hj)
  have hshaping : (Step.perform (.shapeFor c names)).Rooted s :=
    ⟨fun j hj => hgiven j (List.mem_append_left _ hj), by simp⟩
  unfold StoreM.newLiteral
  rw [if_neg (by simpa using hsize), ends_bind]
  refine ((takes_shapeFor hready.toSound hs.ordered hcontext hx hheld hnames ht).and
    (ends_self _ _)).mono ?_ fun _ _ hfail => hfail.1.mono (Nat.le_add_right _ _)
  rintro r s₁ ⟨hspends, hrun⟩
  -- the shape is that of a step of its own, so that what is known of steps is known of it
  have hs₁ : WellRooted s₁ := hs.step ⟨hshaping, Or.inl ⟨_, run_bind hrun⟩⟩
  obtain ⟨-, -, -, -, l, -, -, -, hl, -, horders⟩ := shapesNames_of_shapeFor hs hshaping hrun
  obtain ⟨hgrows, hfound⟩ := (runs_shapeFor hready.toSound hcontext hheld).of_ok hrun
  unfold StoreM.newPlain
  rw [ends_bind_ok (run_shape hl), ends_bind_ok (run_shape hl), Shape.size_literalSlots,
    if_neg (by simp)]
  have hchildren : ∀ j ∈ (Object.plain ⟨r, StoreM.literalSlots l names values⟩).children,
      s₁.Holds j := by
    intro j hj
    rcases List.mem_append.mp hj with hj | hj
    · obtain rfl : j = r := by simpa using hj
      exact hfound
    · refine holds_of_mem_handlesOf (fun v hv => ?_) hj
      rcases mem_literalSlots hv with rfl | hv
      · exact holdsValue_undefined
      · exact fun k hk => hgrows.holds (hvalues v hv k hk)
  refine Ends.mono (adding_place hs₁.ready.1.toSound .young hchildren (by simp)) ?_
    fun e _ hfail => ?_
  · rintro id s' ⟨ha, -, hp⟩
    exact ⟨fun hid => hp.fresh (hgrows.holds hid), hp.holds, r, l, hp.find,
      (ha.find r hfound).trans hl, horders⟩
  -- a name that is given twice has one slot, so that the object may be smaller than allowed for
  · refine (hfail.mono ?_).after hspends
    have hslots : (StoreM.literalSlots l names values).size ≤ names.size := by
      rw [Shape.size_literalSlots, horders.propertyCount, ← Array.length_toList]
      exact List.toFinset_card_le _
    simp only [Object.size, plainBytes]
    omega

/-! ## Afterwards -/

/-- Whether the object is of a kind that no step changes in place. -/
def Object.isFixed : Object → Bool
  | .plain _ => true
  | .shape _ => true
  | _ => false

theorem Step.Changes.fixed {o' : Object} (hchange : step.Changes id o o')
    (ho : o.isFixed = true) : o' = o := by
  rcases hchange.inv with hs | hg | ⟨_, _, _, rfl, -⟩ | ⟨_, _, _, rfl, -⟩
  · cases hs with
    | refl => rfl
    | string => simp [Object.isFixed] at ho
  · cases hg with
    | refl => rfl
    | context | shapeCache => simp [Object.isFixed] at ho
  · simp [Object.isFixed] at ho
  · simp [Object.isFixed] at ho

/-- A fixed object stays what it is, and what it refers to stays reachable with it. -/
theorem Step.Keeps.fixed (hk : step.Keeps id s s') (hs : WellRooted s)
    (hfind : s.heap.find id = .ok o) (ho : o.isFixed = true) :
    s'.heap.find id = .ok o ∧ ∀ j ∈ o.children, step.Keeps j s s' := by
  refine ⟨?_, fun j hj => hk.child_of hs hfind ?_ hj fun o' hchange => ?_⟩
  · obtain ⟨o₁, o', ho₁, ho', hchange⟩ := (hk.remains hs).object
    obtain rfl : o = o₁ := by simpa [hfind] using ho₁
    rwa [hchange.fixed ho] at ho'
  · rintro t rfl
    simp [Object.isFixed] at ho
  · rwa [hchange.fixed ho]

theorem Step.Keeping.fixed (hk : Step.Keeping id steps s s') (hs : WellRooted s)
    (hfind : s.heap.find id = .ok o) (ho : o.isFixed = true) :
    s'.heap.find id = .ok o ∧ ∀ j ∈ o.children, Step.Keeping j steps s s' := by
  induction hk with
  | nil s => exact ⟨hfind, fun j _ => .nil s⟩
  | cons hstep _ ih =>
      obtain ⟨hfind', hchildren⟩ := hstep.fixed hs hfind ho
      obtain ⟨hfind'', hrest⟩ := ih (hs.step hstep.leads) hfind'
      exact ⟨hfind'', fun j hj => .cons (hchildren j hj) (hrest j hj)⟩

theorem Store.HasLiteral.mem_slots {name : Handle} {value : Value}
    (hl : s.HasLiteral names values id r l) (hsize : names.size = values.size)
    (hvalue : lastValue names values name = some value) :
    value ∈ StoreM.literalSlots l names values := by
  cases hslot : l.slotOf? name with
  | some slot =>
      rw [← hl.orders.getElem?_literalSlots hsize hslot] at hvalue
      exact Array.mem_of_getElem? hvalue
  | none =>
      simp [Shape.lastValue_of_notMem (hl.orders.slotOf?_eq_none.mp hslot)] at hvalue

/-- While the object stays reachable it stays the object of the literal, and so do the names and
the values that it has. -/
theorem Store.HasLiteral.keeping (hl : s.HasLiteral names values id r l) (hs : WellRooted s)
    (hsize : names.size = values.size) (hk : Step.Keeping id steps s s') :
    s'.HasLiteral names values id r l ∧ (∀ name ∈ names, Step.Keeping name steps s s') ∧
      ∀ name value j, lastValue names values name = some value → value.handle? = some j →
        Step.Keeping j steps s s' := by
  obtain ⟨hobject, hchildren⟩ := hk.fixed hs hl.object rfl
  have hk' := hchildren r (by simp [Object.children])
  obtain ⟨hshape, hnames⟩ := hk'.fixed hs hl.shape rfl
  refine ⟨⟨hobject, hshape, hl.orders⟩, fun name hname => hnames name ?_,
    fun name value j hvalue hj => hchildren j ?_⟩
  · exact List.mem_append_right _ (Array.mem_toList_iff.mpr ((hl.orders.mem name).mpr hname))
  · exact List.mem_append_right _ (List.mem_filterMap.mpr
      ⟨value, Array.mem_toList_iff.mpr (hl.mem_slots hsize hvalue), hj⟩)

/-- A literal, as a step that keeps whatever was held. -/
theorem keeps_of_newLiteral (hr : (Step.perform (.newLiteral c names values)).Rooted s)
    (hs : WellRooted s) (hrun : StoreM.newLiteral c names values s = .ok id s')
    (hj : s.Holds j) : (Step.perform (.newLiteral c names values)).Keeps j s s' := by
  have hgiven (j : Handle) (hj : j ∈ c :: names.toList ++ Object.handlesOf values) : s.Holds j :=
    hr.given j hj
  have hgrows := (runs_newLiteral hs.ready.1.toSound (hgiven c (by simp))
    (fun name hname => hgiven name (by simp [hname])) (holdsValue_of_givenAll fun j hj =>
      hgiven j (List.mem_append_right _ hj))).of_ok hrun
  exact ⟨hr, hj, hgrows.1.holds hj, Or.inl ⟨_, run_bind hrun, fun hgo => hgo.reused⟩⟩

/-- What is true of the object of a literal, made at the store `s`, after some steps from `s'` to
`s''` during which it stays reachable.  The names are the strings that they were, and the values
the objects that they were. -/
structure Store.KeepsLiteral (s : Store) (names : Array Handle) (values : Array Value)
    (id : Handle) (steps : List Step) (s' s'' : Store) : Prop where
  reads : s''.ReadsBack names values id
  strings : ∀ name ∈ names, s''.Holds name ∧
    ∃ w, s.heap.Interned name w ∧ s''.heap.Interned name w
  values : ∀ name value j, lastValue names values name = some value → value.handle? = some j →
    Step.Keeping j steps s' s''

end Literal

variable {s : Store} {c : Handle} {names : Array Handle} {values : Array Value} {x : Context}

theorem Heap.exists_context {h : Heap} {id : Handle}
    (hkind : (h.find id).map Object.kind = .ok .context) : ∃ x, h.find id = .ok (.context x) := by
  cases hfind : h.find id with
  | error e => simp [hfind, Except.map] at hkind
  | ok o => cases o <;> simp_all [Except.map, Object.kind]

end ManagedHeap
