import ManagedHeap.Proofs.Heap.Layers
import ManagedHeap.Proofs.Store.Concatenation
import ManagedHeap.Proofs.Store.Slicing

/-!
# What operations on strings take

Slicing a range of a string and interning its content have a result unless an object on the
way is refused its place (`Store.Refuses`).  The other faults of their readers do not occur
in a sound store: the ranges lie within the strings, the buffers can take what is copied, the
walks come to an end, and no handle on the way is dead.

`Takes bytes m s` says this of a computation, and how many bytes it needs at most.  The bytes
of its steps add up (`Takes.bind`); a step that is known to run in some way is followed at the
stores that it can leave.  `Adding` says both of a computation that adds to the store.

A slice needs a flat copy of the string at most, and a view of it; interning a string needs two
copies of it at most.
-/

namespace ManagedHeap

open Store

variable {α β : Type} {s : Store} {id source : Handle} {t : Text} {w : List UInt16}
  {start stop length offset bytes more : Nat}

/-- The computation takes a number of bytes at most, or is refused a place for an object of
so many. -/
def Takes (bytes : Nat) (m : StoreM α) (s : Store) : Prop :=
  Ends m s (fun _ s' => s.Spends bytes s') (s.Refuses bytes)

/-! ## The rules -/

theorem Takes.of_ends {m : StoreM α}
    (hm : Ends m s (fun _ s' => s.Spends bytes s') fun _ _ => False) : Takes bytes m s :=
  Ends.mono hm (fun _ _ hspends => hspends) fun _ _ hfail => hfail.elim

theorem Takes.mono {m : StoreM α} (hm : Takes bytes m s) (hle : bytes ≤ more) : Takes more m s :=
  Ends.mono hm (fun _ _ hspends => hspends.mono hle) fun _ _ hrefused => hrefused.mono hle

theorem Takes.bind {m : StoreM α} {f : α → StoreM β} {ok : α → Store → Prop}
    {fail : Fault → Store → Prop} (hm : Takes bytes m s) (hends : Ends m s ok fail)
    (hnext : ∀ a s', ok a s' → Takes more (f a) s') : Takes (bytes + more) (m >>= f) s := by
  unfold Takes
  rw [ends_bind]
  refine (Ends.and hm hends).mono (fun a s' hend => ?_)
    fun _ _ hfail => hfail.1.mono (Nat.le_add_right _ _)
  obtain ⟨hspends, hok⟩ := hend
  exact Ends.mono (hnext a s' hok) (fun _ _ hlast => hspends.trans hlast)
    fun _ _ hrefused => hrefused.after hspends

/-- A step that takes nothing. -/
theorem Takes.free {m : StoreM α} {f : α → StoreM β} {ok : α → Store → Prop}
    {fail : Fault → Store → Prop} (hm : Takes 0 m s) (hends : Ends m s ok fail)
    (hnext : ∀ a s', ok a s' → Takes bytes (f a) s') : Takes bytes (m >>= f) s :=
  (hm.bind hends hnext).mono (Nat.le_of_eq (Nat.zero_add _))

/-- A step after which nothing more is taken. -/
theorem Takes.last {m : StoreM α} {f : α → StoreM β} {ok : α → Store → Prop}
    {fail : Fault → Store → Prop} (hm : Takes bytes m s) (hends : Ends m s ok fail)
    (hnext : ∀ a s', ok a s' → Takes 0 (f a) s') : Takes bytes (m >>= f) s :=
  hm.bind hends hnext

theorem takes_get {g : Store → StoreM β} : Takes bytes (get >>= g) s ↔ Takes bytes (g s) s := by
  unfold Takes
  rw [ends_bind, ends_get]

theorem takes_read {f : Store → Except Fault α} {g : α → StoreM β} {a : α} (hf : f s = .ok a) :
    Takes bytes (StoreM.read f >>= g) s ↔ Takes bytes (g a) s := by
  unfold Takes
  rw [ends_bind, ends_storeRead, hf]
  simp

theorem takes_inspect {f : Heap → Except Fault α} {g : α → StoreM β} {a : α}
    (hf : f s.heap = .ok a) : Takes bytes (StoreM.inspect f >>= g) s ↔ Takes bytes (g a) s :=
  takes_read hf

theorem takes_text {g : Text → StoreM β} (htext : s.heap.text id = .ok t) :
    Takes bytes (StoreM.text id >>= g) s ↔ Takes bytes (g t) s :=
  takes_inspect htext

/-- A step that has a result and leaves the store as it is. -/
theorem takes_run {m : StoreM α} {g : α → StoreM β} {a : α} (hm : m s = .ok a s) :
    Takes bytes (m >>= g) s ↔ Takes bytes (g a) s :=
  ends_bind_ok hm

/-- A change of the store at first that takes nothing. -/
theorem takes_modify {f : Store → Store} {g : PUnit → StoreM β} (hf : s.Spends 0 (f s))
    (hnext : Takes bytes (g ⟨⟩) (f s)) : Takes bytes (modify f >>= g) s := by
  unfold Takes
  rw [ends_bind, ends_modify]
  exact Ends.mono hnext (fun _ _ hspends => hspends.after hf) fun _ _ hrefused =>
    (hrefused.after hf).mono (Nat.le_of_eq (Nat.zero_add _))

theorem takes_pure (a : α) (s : Store) : Takes 0 (pure a) s :=
  spends_zero rfl rfl rfl le_rfl

/-- A change at the end that leaves the heap alone. -/
theorem takes_update {f : Store → Store} (a : α) (hf : s.Spends 0 (f s)) :
    Takes 0 (do modify f; return a) s :=
  hf

theorem takes_track (s : Store) (id : Handle) : Takes 0 (StoreM.track id) s :=
  takes_update id (spends_zero rfl rfl rfl le_rfl)

theorem takes_allocate (hs : s.Sound) (o : Object) (space : Space) :
    Takes o.size (StoreM.allocate o space) s :=
  (ends_fulfil hs _ _).mono (fun _ _ hend => hend.2.2) fun _ _ hfail => hfail

/-- The computation adds to the store and ends with a result as told, and takes a number of bytes
at most, or it is refused a place for an object of so many. -/
def Adding (bytes : Nat) (m : StoreM α) (s : Store) (Q : α → Store → Prop) : Prop :=
  Ends m s (fun a s' => s.Adds s' ∧ s.Spends bytes s' ∧ Q a s') (s.Refuses bytes)

theorem Adding.of_runs {m : StoreM α} {Q : α → Store → Prop} {E : Store → Store → Prop}
    (hruns : RunsFrom Adds E s m s Q) (htakes : Takes bytes m s) : Adding bytes m s Q :=
  (Ends.and hruns htakes).mono (fun _ _ hend => ⟨hend.1.1, hend.2, hend.1.2⟩)
    fun _ _ hfail => hfail.2

theorem Adding.mono {m : StoreM α} {Q Q' : α → Store → Prop} (hm : Adding bytes m s Q)
    (hQ : ∀ a s', s.Adds s' → Q a s' → Q' a s') : Adding bytes m s Q' :=
  Ends.mono hm (fun a s' hend => ⟨hend.1, hend.2.1, hQ a s' hend.1 hend.2.2⟩)
    fun _ _ hfail => hfail

theorem adding_pure {a : α} {Q : α → Store → Prop} (hs : s.Sound) (hQ : Q a s) :
    Adding bytes (pure a) s Q :=
  ⟨.refl hs, (takes_pure a s).mono (Nat.zero_le _), hQ⟩

theorem adding_get {g : Store → StoreM α} {Q : α → Store → Prop} :
    Adding bytes (get >>= g) s Q ↔ Adding bytes (g s) s Q :=
  ends_bind

theorem Adding.bind {m : StoreM α} {f : α → StoreM β} {Q : α → Store → Prop}
    {Q' : β → Store → Prop} (hs : s.Sound) (hm : Adding bytes m s Q)
    (hnext : ∀ a s', s.Adds s' → Q a s' → Adding more (f a) s' Q') :
    Adding (bytes + more) (m >>= f) s Q' := by
  unfold Adding
  rw [ends_bind]
  refine Ends.mono hm (fun a s' hend => ?_) fun _ _ hfail => hfail.mono (Nat.le_add_right _ _)
  obtain ⟨hadds, hspends, hq⟩ := hend
  exact Ends.mono (hnext a s' hadds hq)
    (fun _ _ hlast => ⟨hadds.trans hs hlast.1, hspends.trans hlast.2.1, hlast.2.2⟩)
    fun _ _ hfail => hfail.after hspends

/-- An object other than a string is placed. -/
theorem adding_place {o : Object} (hs : s.Sound) (space : Space)
    (hchildren : ∀ c ∈ o.children, s.Holds c) (hstring : ∀ t, o ≠ .string t) :
    Adding o.size (StoreM.allocate o space) s (s.Placed o) :=
  .of_runs (runs_allocate hs (fits_of_not_string hchildren hstring) space)
    (takes_allocate hs o space)

/-! ## Flat strings -/

/-- The bytes that a flat string of a length takes at most. -/
def flatBytes (length : Nat) : Nat :=
  Object.baseSize + 2 * length

theorem flatBytes_mono (hle : length ≤ more) : flatBytes length ≤ flatBytes more := by
  unfold flatBytes
  omega

theorem Units.byteSize_le (units : Units) : units.byteSize ≤ 2 * units.size := by
  cases units <;> simp only [byteSize, size] <;> omega

theorem takes_allocateFlat (hs : s.Sound) (units : Units) (space : Space) :
    Takes (flatBytes units.size) (StoreM.allocateFlat units space) s :=
  (takes_allocate hs _ space).mono (Nat.add_le_add_left units.byteSize_le _)

theorem adding_allocateFlat (hs : s.Sound) (units : Units) (space : Space) :
    Adding (flatBytes units.size) (StoreM.allocateFlat units space) s
      (s.Placed (.string (.flat units false))) :=
  .of_runs (runs_allocateFlat hs units space) (takes_allocateFlat hs units space)

theorem takes_markInterned {u : Units} (hash : UInt64) (htext : s.heap.text id = .ok t)
    (hbuffer : t.buffer? = some u) : Takes 0 (StoreM.markInterned hash id) s := by
  apply Takes.of_ends
  unfold StoreM.markInterned
  rw [ends_bind, ends_checkInternable htext hbuffer, ends_bind, ends_onHeap]
  exact (Heap.ends_modifyObject_bytes (Heap.text_eq_ok.mp htext) _).mono
    (fun _ _ hbytes => spends_zero rfl rfl rfl (Nat.le_of_eq hbytes)) fun _ _ hfail => hfail

/-! ## Interning content -/

theorem takes_search (hs : s.Sound) (units : Units) :
    Takes 0 (StoreM.search (s.table.hashUnits units) units) s := by
  obtain ⟨found, hfound, -⟩ := hs.table.find? units
  unfold StoreM.search
  rw [takes_read hfound]
  exact takes_update found (spends_zero rfl rfl rfl le_rfl)

theorem takes_internUnits (hs : s.Sound) (units : Units) :
    Takes (flatBytes units.size) (StoreM.internUnits units) s := by
  unfold StoreM.internUnits
  rw [takes_get]
  refine (takes_search hs units).free (runs_search hs units) fun found s₁ hend => ?_
  obtain ⟨ha₁, hd, -⟩ := hend
  cases found with
  | some id => exact (takes_track s₁ id).mono (Nat.zero_le _)
  | none =>
      have hsize : units.packed.size = units.size := by
        rw [← Units.length_toList, Units.toList_packed, Units.length_toList]
      refine (hsize ▸ takes_allocateFlat ha₁.sound units.packed .old).last
        (runs_allocateFlat_placed ha₁.sound units.packed .old) fun id s₂ hend => ?_
      obtain ⟨ha₂, hp, -⟩ := hend
      have hhash : s.table.hashUnits units = s₂.table.hashUnits units := by
        rw [InternTable.hashUnits, InternTable.hashUnits, hp.hash, hd.hash]
      -- the second search of the table asks for no room
      obtain ⟨found, hfound, -⟩ := ha₂.sound.table.find? units
      rw [hhash, takes_read hfound]
      cases found with
      | some j => exact takes_track s₂ j
      | none =>
          have htext := Heap.text_eq_ok.mpr hp.find
          exact (takes_markInterned _ htext rfl).free (ends_markInterned ha₂.sound _ htext rfl)
            fun _ s₃ _ => takes_pure id s₃

theorem adding_internUnits (hs : s.Sound) (units : Units) :
    Adding (flatBytes units.size) (StoreM.internUnits units) s (s.Interns units.toList) :=
  .of_runs (runs_internUnits hs units) (takes_internUnits hs units)

theorem takes_singleUnit (hs : s.Sound) (unit : UInt16) :
    Takes (flatBytes 1) (StoreM.singleUnit unit) s := by
  unfold StoreM.singleUnit
  split
  case isTrue =>
      rw [takes_get]
      split
      case h_1 id _ => exact (takes_track s id).mono (Nat.zero_le _)
      case h_2 =>
          exact (takes_internUnits hs (.ofByte unit.toUInt8)).last (runs_internUnits hs _)
            fun id _ _ => takes_update id (spends_zero rfl rfl rfl le_rfl)
  case isFalse => exact takes_allocateFlat hs (.wide #[unit]) .young

theorem takes_pairOfUnits (hs : s.Sound) (a b : UInt16) :
    Takes (flatBytes 2) (StoreM.pairOfUnits a b) s := by
  have hsize : (Units.pair a b).size = 2 := by
    rw [← Units.length_toList, Units.toList_pair]
    rfl
  unfold StoreM.pairOfUnits
  split
  case isTrue => exact hsize ▸ takes_allocateFlat hs (.pair a b) .young
  case isFalse =>
      unfold StoreM.internedUnits?
      rw [bind_assoc, takes_get]
      refine (takes_search hs _).free (runs_search hs _) fun found s₁ hend => ?_
      cases found with
      | some id => exact (takes_track s₁ id).mono (Nat.zero_le _)
      | none => exact hsize ▸ takes_allocateFlat hend.1.sound (.pair a b) .young

/-! ## Copies -/

/-- The copy of a range is as long as the range. -/
theorem Store.Sound.copyRange_ok (hs : s.Sound) (hid : s.Holds id)
    (htext : s.heap.text id = .ok t) (hw : s.heap.Spells id w) (start : Nat)
    (hstop : stop ≤ w.length) : ∃ units, s.heap.copyRange id start stop t.encoding = .ok units ∧
      units.size ≤ stop - start := by
  obtain ⟨units, hunits, hcontent, -⟩ :=
    hs.readable.copyRange_encoding hs.tidy hid hw htext start hstop
  refine ⟨units, hunits, ?_⟩
  rw [← Units.length_toList, hcontent]
  simp only [Heap.part, List.length_take]
  exact Nat.min_le_left _ _

theorem takes_flatten (hs : s.Ready) (hid : s.Holds id) (htext : s.heap.text id = .ok t) :
    Takes (flatBytes t.length) (StoreM.flatten id) s := by
  by_cases hnode : ∃ node, t = .composite node
  · obtain ⟨node, rfl⟩ := hnode
    obtain ⟨units, hsize, hends⟩ := ends_flatten_composite hs hid htext
    obtain ⟨ha₁, -⟩ := runs_track hs.toSound hid
    have hpushed : s.Spends 0 { s with scope := s.scope.push id } :=
      spends_zero rfl rfl rfl le_rfl
    have hplace : Takes (flatBytes node.length) (StoreM.allocateFlat units .young)
        { s with scope := s.scope.push id } :=
      (takes_allocateFlat ha₁.sound units .young).mono (flatBytes_mono (Nat.le_of_eq hsize))
    have hzero : 0 + flatBytes node.length = flatBytes (Text.composite node).length :=
      Nat.zero_add _
    refine hends.mono ?_ fun e s' hrun => hzero ▸ (hplace.of_error hrun).after hpushed
    rintro found s' ⟨-, f, s₂, hrun, hh, heap, rfl⟩
    exact ((hplace.of_ok hrun).after hpushed).before
      (spends_zero rfl rfl rfl hh.hands.bytes)
  · unfold Takes Ends
    rw [run_flatten_of_not_composite htext fun node h => hnode ⟨node, h⟩]
    exact (spends_zero rfl rfl rfl le_rfl).mono (Nat.zero_le _)

/-! ## Slicing -/

/-- The descent into a string comes to an end. -/
theorem Heap.Readable.descend_ok {h : Heap} {config : Config} {held : Handle → Prop} {steps : Nat}
    (hr : h.Readable config held) (length offset : Nat) (hid : held id) (htext : h.text id = .ok t)
    (hsteps : h.layers t ≤ steps) :
    ∃ found, StoreM.descend h length steps id offset = .ok found := by
  induction steps generalizing id t offset with
  | zero => exact absurd hsteps (Nat.not_le_of_lt (h.layers_pos t))
  | succ steps ih =>
      unfold StoreM.descend
      rw [htext, ok_bind]
      cases t with
      | composite node =>
          obtain ⟨a, b, ha, hb, hleft, hright, -, hla, hlb⟩ := hr.parts hid htext
          have hsplit : h.textLength node.left = .ok a.length := by
            rw [textLength, ha, ok_bind]
            rfl
          simp only [hsplit, ok_bind]
          split
          case isTrue => exact ih _ hright hb (by omega)
          case isFalse =>
              split
              case isTrue => exact ih _ hleft ha (by omega)
              case isFalse => exact ⟨_, rfl⟩
      | _ => exact ⟨_, rfl⟩

theorem takes_newView (hs : s.Ready) (hid : s.Holds source) (htext : s.heap.text source = .ok t)
    (hw : s.heap.Spells source w) (hrange : start + length ≤ w.length)
    (hfits : length < UInt32.size) :
    Takes (flatBytes w.length + Object.baseSize) (StoreM.newView source start length) s := by
  obtain ⟨⟨part, offset⟩, hfound⟩ := hs.readable.descend_ok length start hid htext
    (s.heap.layers_le_pathBound t start)
  obtain ⟨hpart, v, hv, -, hshorter, -⟩ :=
    (hs.readable.reads_descend _ hid hw hrange).of_ok hfound
  simp only at hpart hv
  obtain ⟨t', ht'⟩ := hv.text
  have hlength := hs.readable.length_eq hpart ht' hv
  unfold StoreM.newView
  rw [takes_run (run_checkCount hfits), takes_inspect hfound, takes_text ht']
  split
  case h_1 node =>
      obtain ⟨p, u, hp, -⟩ := (hs.readable.spelled part _ hpart ht').shaped
      rw [pure_bind, takes_text hp]
      exact (takes_allocate hs.toSound _ .young).mono (Nat.le_add_left _ _)
  case h_2 =>
      -- the parent is flattened first, and is no longer than the whole
      refine ((takes_flatten hs hpart ht').mono
        (flatBytes_mono (hlength ▸ hshorter))).bind (runs_flatten hs hpart) fun found s₁ hend => ?_
      obtain ⟨hsettles, rfl, hflat⟩ := hend
      obtain ⟨p, hp, -⟩ := hflat.text
      rw [pure_bind]
      simp only
      rw [takes_text hp]
      exact takes_allocate hsettles.ready.toSound _ .young

/-- A slice needs two flat strings of the length of the string at most.  One that is too long for
a view is refused. -/
theorem ends_properSlice_spends (hs : s.Ready) (hid : s.Holds source)
    (htext : s.heap.text source = .ok t) (hw : s.heap.Spells source w)
    (hrange : start ≤ stop ∧ stop ≤ w.length) :
    Ends (StoreM.properSlice source start stop) s
      (fun _ s' => s.Spends (2 * flatBytes w.length) s')
      (fun e s' => s.Refuses (2 * flatBytes w.length) e s' ∨
        e = .countOverflow ∧ UInt32.size ≤ stop - start) := by
  have hunit {i : Nat} (hi : i < w.length) := hs.readable.unitAt_ok hs.tidy hid hw htext hi
  have hcopy {n : Nat} (hn : n ≤ w.length) : flatBytes n ≤ 2 * flatBytes w.length :=
    (flatBytes_mono hn).trans (Nat.le_mul_of_pos_left _ Nat.two_pos)
  have htakes {m : StoreM Handle} (hm : Takes (2 * flatBytes w.length) m s) :
      Ends m s (fun _ s' => s.Spends (2 * flatBytes w.length) s')
        (fun e s' => s.Refuses (2 * flatBytes w.length) e s' ∨
          e = .countOverflow ∧ UInt32.size ≤ stop - start) :=
    Ends.mono hm (fun _ _ hspends => hspends) fun _ _ hrefused => Or.inl hrefused
  unfold StoreM.properSlice
  split
  case h_1 =>
      refine htakes (takes_get.mpr ?_)
      exact (takes_track s _).mono (Nat.zero_le _)
  case h_2 hone =>
      refine htakes ((takes_inspect (hunit (by omega))).mpr ?_)
      exact (takes_singleUnit hs.toSound _).mono (hcopy (by omega))
  case h_3 htwo =>
      refine htakes ((takes_inspect (hunit (i := start) (by omega))).mpr ?_)
      rw [takes_inspect (hunit (i := start + 1) (by omega))]
      exact (takes_pairOfUnits hs.toSound _ _).mono (hcopy (by omega))
  case h_4 =>
      rw [ends_bind, ends_get]
      simp only
      split
      case isTrue =>
          obtain ⟨units, hunits, hsize⟩ := hs.copyRange_ok hid htext hw start hrange.2
          refine htakes ((takes_text htext).mpr ((takes_inspect hunits).mpr ?_))
          exact (takes_allocateFlat hs.toSound units .young).mono (hcopy (by omega))
      case isFalse =>
          rcases Nat.lt_or_ge (stop - start) UInt32.size with hfits | hlarge
          · refine htakes ((takes_newView hs hid htext hw (by omega) hfits).mono ?_)
            unfold flatBytes
            omega
          · unfold StoreM.newView
            rw [ends_bind, ends_checkCount]
            exact ⟨fun hfits => absurd hfits (Nat.not_lt_of_le hlarge),
              fun _ => Or.inr ⟨rfl, hlarge⟩⟩

theorem takes_properSlice (hs : s.Ready) (hid : s.Holds source)
    (htext : s.heap.text source = .ok t) (hw : s.heap.Spells source w)
    (hrange : start ≤ stop ∧ stop ≤ w.length) (hfits : stop - start < UInt32.size) :
    Takes (2 * flatBytes w.length) (StoreM.properSlice source start stop) s :=
  (ends_properSlice_spends hs hid htext hw hrange).mono (fun _ _ hspends => hspends)
    fun _ _ hfail => hfail.resolve_right fun hlarge => Nat.not_le_of_lt hfits hlarge.2

/-! ## Interning strings -/

/-- Interning a string needs two flat strings of its length at most. -/
theorem takes_internString (hs : s.Ready) (hid : s.Holds id) (htext : s.heap.text id = .ok t) :
    Takes (2 * flatBytes t.length) (StoreM.internString id) s := by
  rw [Nat.two_mul]
  unfold StoreM.internString
  rw [takes_text htext]
  split
  case isTrue => exact (takes_pure id s).mono (Nat.zero_le _)
  case isFalse =>
      refine (takes_flatten hs hid htext).bind (runs_flatten hs hid) fun found s₁ hend => ?_
      obtain ⟨hsettles, hfound, hflat⟩ := hend
      obtain rfl : id = found := hfound.symm
      have hs₁ : s₁.Sound := hsettles.ready.toSound
      obtain ⟨loc, r, hhouses, -⟩ := hs₁.wellFormed.houses hflat.holds.live
      obtain ⟨t₁, ht₁, -⟩ := hflat.text
      obtain ⟨w, hw, hlength⟩ := hs.readable.spells hid htext
      have hw₁ : s₁.heap.Spells id w := hflat.spells hsettles hw
      have hlength₁ := hs₁.readable.length_eq hflat.holds ht₁ hw₁
      rw [takes_inspect hhouses.spaceOf, takes_text ht₁]
      split
      case isTrue hplace =>
          simp only [Bool.and_eq_true, decide_eq_true_eq, Option.isSome_iff_exists] at hplace
          obtain ⟨u, hu⟩ := hplace.2
          rw [takes_read (InternTable.hashOf_of_buffer ht₁ hu),
            takes_inspect (Heap.content_of_buffer ht₁ hu)]
          refine Takes.mono ?_ (Nat.zero_le _)
          refine (takes_search hs₁ u).free (runs_search hs₁ u) fun found s₂ hend => ?_
          obtain ⟨ha₂, hd, -⟩ := hend
          cases found with
          | some j => exact takes_track s₂ j
          | none =>
              have ht₂ := hd.heap ▸ ht₁
              exact (takes_markInterned _ ht₂ hu).free (ends_markInterned ha₂.sound _ ht₂ hu)
                fun _ s₃ _ => takes_pure id s₃
      case isFalse =>
          obtain ⟨units, hunits, hsize⟩ :=
            hs₁.copyRange_ok hflat.holds ht₁ hw₁ 0 (Nat.le_of_eq hlength₁.symm)
          rw [takes_inspect hunits]
          exact (takes_internUnits hs₁ units).mono (flatBytes_mono (by omega))

/-- Interning a range of a string is refused for one more reason: there can be no buffer of
so many units. -/
theorem ends_internRange {count : Nat} (hs : s.Sound) (hvalid : s.config.error? = none)
    (hid : s.Holds id) (htext : s.heap.text id = .ok t) (hw : s.heap.Spells id w)
    (hrange : start + count ≤ w.length) :
    Ends (StoreM.internRange id start count) s (fun _ s' => s.Spends (flatBytes count) s')
      (fun e s' => s.Refuses (flatBytes count) e s' ∨
        e = .bufferTooLarge ∧ bufferLimit ≤ 2 * count) := by
  obtain ⟨units, hunits, hsize⟩ := hs.copyRange_ok hid htext hw start hrange
  have hword : t.length < wordLimit := hs.readable.length_lt_wordLimit hs.tidy
    (Config.maxStringLength_lt hvalid) hid htext
  have hlength := hs.readable.length_eq hid htext hw
  unfold Ends
  rcases run_internRange htext (by omega) hunits with hrun | ⟨hrun, hlarge⟩
  · rw [hrun]
    have hfits : units.size ≤ count := by omega
    have htakes := (takes_internUnits hs units).mono (flatBytes_mono hfits)
    exact Ends.mono htakes (fun _ _ hspends => hspends) fun _ _ hfail => Or.inl hfail
  · rw [hrun]
    exact Or.inr ⟨rfl, hlarge⟩

end ManagedHeap
