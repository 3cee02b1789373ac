import ManagedHeap.Proofs.Store.Concatenation
import ManagedHeap.Proofs.Store.Contexts
import ManagedHeap.Proofs.Store.Errors
import ManagedHeap.Proofs.Store.Rooting
import ManagedHeap.Proofs.Store.Slicing
import ManagedHeap.Store.Operation

/-!
# What operations do to a ready store

Every operation that is given held objects leaves a ready store, whether it has a result or
fails.  What the former roots still lead to is the same object as before: it is unchanged,
or the operation is one that changes objects in place and this is the change
(`Operation.Changes`).  Strings keep what they spell.

What the former roots do not lead to any more may be gone, and its handle may name another
object.  The only such handle that can be held again is the one that slicing or interning a
string gives out (`Operation.Reuses`), and only after a collection on the way.

The objects that an operation gives out are held afterwards (`Operation.Gives`), with one
exception: the canonical string that is looked up for another string is given out as it is
found, whether anything holds it or not.

Objects that are made by hand and placed as they are can have records that do not fit what
they refer to; the operation that places them is left out.
-/

namespace ManagedHeap

/-! ## What an operation is given -/

/-- The objects that an operation is given, directly or as values. -/
def Operation.handles : Operation → List Handle
  | .concat left right => [left, right]
  | .flatConcat left right => [left, right]
  | .slice source _ _ => [source]
  | .flatten id => [id]
  | .internString id => [id]
  | .internRange id _ _ => [id]
  | .interned id => [id]
  | .numberText value => value.handle?.toList
  | .globalConstant name => [name]
  | .newArray items _ => Object.handlesOf items
  | .copyArray id => [id]
  | .copyArrayOfSize id _ => [id]
  | .arrayGet id _ => [id]
  | .arraySet id _ value => id :: value.handle?.toList
  | .dictionaryPutName id name value => id :: name :: value.handle?.toList
  | .dictionaryPutIndex id _ value => id :: value.handle?.toList
  | .dictionaryGet id key => id :: key.handle?.toList
  | .newGlobalContext inside closure globalObject _ =>
    inside :: closure.handle?.toList ++ globalObject.handle?.toList
  | .newModuleContext inside _ => [inside]
  | .newFunctionContext _ function => [function]
  | .newCatchContext closure previous name thrown =>
    previous :: name :: closure.handle?.toList ++ thrown.handle?.toList
  | .newWithContext closure previous extension =>
    previous :: closure.handle?.toList ++ extension.handle?.toList
  | .newBlockContext closure previous _ => previous :: closure.handle?.toList
  | .nativeContextOf id => [id]
  | .contextSlot id _ => [id]
  | .newFunction name context => [name, context]
  | .newFunctionWithPrototype name context => [name, context]
  | .prototype id => [id]
  | .newBox value => value.handle?.toList
  | .recordField id _ => [id]
  | .newScript source => [source]
  | .shapeFor context names => context :: names.toList
  | .newPlain shape values => shape :: Object.handlesOf values
  | .newLiteral context names values => context :: names.toList ++ Object.handlesOf values
  | .property id name => [id, name]
  | .newErrorObject _ message arguments => message :: arguments.toList
  | .raise _ _ arguments => Object.handlesOf arguments
  | .raiseMessage _ message => [message]
  | .allocate object _ => object.children
  | .persist id => [id]
  | .unpersist id => [id]
  | _ => []

/-! ## What an operation changes -/

/-- The changes in place that an operation makes: the object of the handle was the first one
before it and is the second one after it. -/
inductive Operation.Changes : Operation → Handle → Object → Object → Prop
  | same {op : Operation} {id : Handle} (o : Object) : Changes op id o o
  | flatten {id j : Handle} {o o' : Object} (hsettles : o.Settles o') :
      Changes (.flatten id) j o o'
  | slice {source j : Handle} {start stop : Nat} {o o' : Object} (hsettles : o.Settles o') :
      Changes (.slice source start stop) j o o'
  | internString {id j : Handle} {o o' : Object} (hsettles : o.Settles o') :
      Changes (.internString id) j o o'
  | shapeFor {context j : Handle} {names : Array Handle} {o o' : Object} (hgrows : o.Grows o') :
      Changes (.shapeFor context names) j o o'
  | newLiteral {context j : Handle} {names : Array Handle} {values : Array Value} {o o' : Object}
      (hgrows : o.Grows o') : Changes (.newLiteral context names values) j o o'
  | newFunctionWithPrototype {name context j : Handle} {o o' : Object} (hgrows : o.Grows o') :
      Changes (.newFunctionWithPrototype name context) j o o'
  | arraySet {id : Handle} {index : Nat} {value : Value} (items : Array Value) :
      Changes (.arraySet id index value) id (.array items)
        (.array (items.setIfInBounds index value))
  | dictionaryPutName {id name : Handle} {value : Value} (d : Dictionary) :
      Changes (.dictionaryPutName id name value) id (.dictionary d)
        (.dictionary (d.insert (.name name) value))
  | dictionaryPutIndex {id : Handle} {index : Nat} {value : Value} (d : Dictionary) :
      Changes (.dictionaryPutIndex id index value) id (.dictionary d)
        (.dictionary (d.insert (.index index) value))

/-- The handles that an operation may give out for another object than they named before. -/
def Operation.Reuses : Operation → Outcome → Handle → Prop
  | .slice _ _ _, outcome, id => outcome = .handle id
  | .internString _, outcome, id => outcome = .handle id
  | _, _, _ => False

namespace Store

variable {s s' : Store} {id : Handle} {o o' : Object} {C : Handle → Object → Object → Prop}
  {given : Handle → Prop}

/-- The handle names what it named before, with a change that is allowed.  If that is a
string, then it spells what it spelled. -/
structure Remains (C : Handle → Object → Object → Prop) (s s' : Store) (id : Handle) : Prop where
  object : ∃ o o', s.heap.find id = .ok o ∧ s'.heap.find id = .ok o' ∧ C id o o'
  spells : ∀ w, s.heap.Spells id w → s'.heap.Spells id w

/-- What was held and is held again remains.  If a handle is given out for another object,
then the former roots do not lead to it any more, and there was a collection meanwhile. -/
structure Alters (C : Handle → Object → Object → Prop) (given : Handle → Prop) (s s' : Store) :
    Prop where
  ready : s'.Ready
  config : s'.config = s.config
  canonical : s'.canonical = s.canonical
  singles : s.KeepsSingles s'
  retains : s.heap.Retains s'.heap
  remains : ∀ id, s.Holds id → s'.Holds id → Remains C s s' id ∨
    given id ∧ ¬ s'.heap.Reaches (s.roots []) id ∧ s.collections < s'.collections

/-- A root that is held afterwards, too, remains. -/
theorem Alters.remains_of_root (ha : s.Alters C given s') (hs : s.Ready) (hroot : id ∈ s.roots [])
    (hid' : s'.Holds id) : Remains C s s' id :=
  (ha.remains id (holds_of_root hroot (hs.live_of_root hroot)) hid').resolve_right
    fun h => h.2.1 (.root hroot)

theorem Adds.remains (ha : s.Adds s') (hs : s.Ready) (hC : ∀ id o, C id o o) (hid : s.Holds id) :
    Remains C s s' id := by
  obtain ⟨o, ho⟩ := hs.find hid
  exact ⟨⟨o, o, ho, (ha.find id hid).trans ho, hC id o⟩, fun w hw =>
    (ha.heap_settled hs.toSound).spells id w hid hw⟩

theorem Adds.alters (ha : s.Adds s') (hs : s.Ready) (hC : ∀ id o, C id o o) :
    s.Alters C given s' :=
  ⟨ha.ready hs, ha.config, ha.canonical, ha.singles, ha.retains, fun _ hid _ =>
    Or.inl (ha.remains hs hC hid)⟩

theorem Grows.text_iff (hg : s.Grows s') (hid : s.Holds id) {t : Text} :
    s'.heap.text id = .ok t ↔ s.heap.text id = .ok t := by
  obtain ⟨o, o', ho, ho', hgrows⟩ := hg.grown id hid
  rw [Heap.text_eq_ok, Heap.text_eq_ok, ho, ho']
  cases hgrows <;> simp

/-- A store that grew has the strings that it had. -/
theorem Grows.alters (hg : s.Grows s') (hs : s.Ready) (hC : ∀ id o o', o.Grows o' → C id o o') :
    s.Alters C given s' := by
  have hsettled : s.heap.Settled s'.heap s.Holds := by
    refine Heap.settled_of_text ?_ ?_
      fun j t hj ht => ⟨t, (hg.text_iff hj).mp ht⟩
    · intro j t c hj ht hc
      exact hs.readable.text_child hj ((hg.text_iff hj).mp ht) hc
    · intro j t hj ht
      exact ⟨t, (hg.text_iff hj).mpr ht, .refl t, fun u w hu hw =>
        (Heap.Spells.buffer ht hu).unique hw⟩
  refine ⟨hg.ready hs, hg.config, hg.canonical, hg.singles, hg.retains, fun id hid _ =>
    Or.inl ⟨?_, fun w => hsettled.spells id w hid⟩⟩
  obtain ⟨o, o', ho, ho', hgrows⟩ := hg.grown id hid
  exact ⟨o, o', ho, ho', hC id o o' hgrows⟩

theorem Settles.remains (hsettles : s.Settles s') (hC : ∀ id o o', o.Settles o' → C id o o')
    (hreach : s'.heap.Reaches (s.roots []) id) : Remains C s s' id := by
  obtain ⟨o, o', ho, ho', hso⟩ := hsettles.settled id hreach
  exact ⟨⟨o, o', ho, ho', hC id o o' hso⟩, fun w => hsettles.spells id w hreach⟩

theorem Keeps.alters (hk : s.Keeps s') (hC : ∀ id o o', o.Settles o' → C id o o') :
    s.Alters C given s' :=
  ⟨hk.settles.ready, hk.settles.config, hk.settles.canonical, hk.settles.singles,
    hk.settles.retains, fun id hid hid' => Or.inl (hk.settles.remains hC (hk.kept id hid hid'))⟩

theorem Settles.alters {found : Handle} (hsettles : s.Settles s') (hrecycles : s.Recycles found s')
    (hC : ∀ id o o', o.Settles o' → C id o o') (hgiven : given found) : s.Alters C given s' := by
  refine ⟨hsettles.ready, hsettles.config, hsettles.canonical, hsettles.singles,
    hsettles.retains, fun id hid hid' => ?_⟩
  by_cases hreach : s'.heap.Reaches (s.roots []) id
  · exact Or.inl (hsettles.remains hC hreach)
  · obtain ⟨rfl, ⟨t, u, ht, ht', hu⟩ | hless⟩ := (hrecycles id hid hid').resolve_left hreach
    · refine Or.inl ⟨⟨_, _, Heap.text_eq_ok.mp ht, Heap.text_eq_ok.mp ht', hC _ _ _ (.refl _)⟩,
        fun w hw => ?_⟩
      obtain rfl := (Heap.Spells.buffer ht hu).unique hw
      exact .buffer ht' hu
    · exact Or.inr ⟨hgiven, hreach, hless⟩

/-- A change of one object that is no string. -/
theorem Ready.alters_rewrite {h' : Heap} (hs : s.Ready) (hid : s.Holds id)
    (hfind : s.heap.find id = .ok o) (hr : s.heap.Rewrites id o' h') (ho : ∀ t, o ≠ .string t)
    (ho' : ∀ t, o' ≠ .string t) (hchildren : ∀ c ∈ o'.children, s.Holds c)
    (hC : ∀ id o, C id o o) (hchange : C id o o') : s.Alters C given { s with heap := h' } := by
  obtain ⟨hsound, hsettled, halike, -⟩ := hs.rewrite hid hfind hr ho ho' hchildren
  have hcanonical : ∀ j ∈ s.canonical.toList, h'.isLive j = true := by
    intro j hj
    rw [hr.isLive hs.wellFormed hid.live]
    exact hs.canonical j hj
  exact ⟨⟨hsound, hcanonical⟩, rfl, rfl, .of_eq rfl, halike.retains, fun j hj _ =>
    Or.inl ⟨hr.exists_find hs.wellFormed hfind hchange hC hj.live,
      fun w => hsettled.spells j w hj⟩⟩

/-- A change of the roots alone. -/
theorem Reroots.alters (hr : s.Reroots s') (hs : s.Ready) (hC : ∀ id o, C id o o)
    (hroots : ∀ id ∈ s'.ownRoots, s.Holds id) : s.Alters C given s' := by
  refine ⟨hr.ready hs hroots, hr.config, hr.canonical, .of_eq hr.singles,
    hr.heap ▸ .refl _, fun j hj _ => Or.inl ⟨?_, fun w hw => hr.heap ▸ hw⟩⟩
  obtain ⟨o, ho⟩ := hs.find hj
  exact ⟨o, o, ho, by rw [hr.heap, ho], hC j o⟩

end Store

/-! ## What an operation gives out -/

/-- The object that is given out, if there is one. -/
def Outcome.handle? (outcome : Outcome) : Option Handle :=
  outcome.value?.bind Value.handle?

open Store

/-- The store `s'` that the operation leaves holds what it gives out, as long as the values
that builtins answer with of their own are held; or what it gives out is a canonical string
that was looked up and that nothing keeps alive. -/
def Operation.Gives (op : Operation) (s : Store) (outcome : Outcome) (s' : Store) : Prop :=
  s.HoldsAnswers → ∀ found ∈ outcome.handle?,
    s'.Holds found ∨ ∃ id, op = .interned id ∧ s.FindsUnheld id found s'

section Gives

variable {s s' : Store} {op : Operation}

theorem gives_done : op.Gives s .done s' := by
  intro _ found hfound
  simp [Outcome.handle?, Outcome.value?] at hfound

theorem gives_value {v : Value} (hv : s'.HoldsValue v) : op.Gives s (.value v) s' :=
  fun _ found hfound => Or.inl (hv found hfound)

theorem gives_handle {id : Handle} (hid : s'.Holds id) : op.Gives s (.handle id) s' :=
  gives_value (holdsValue_ref hid)

theorem gives_option {v? : Option Value} (hv : ∀ v, v? = some v → s'.HoldsValue v) :
    op.Gives s (.option v?) s' := by
  intro _ found hfound
  obtain ⟨v, hv?, hhandle⟩ := Option.bind_eq_some_iff.mp hfound
  exact Or.inl (hv v hv? found hhandle)

theorem gives_completion {c : Completion} (hc : s.HoldsAnswers → s'.HoldsValue c.value) :
    op.Gives s (.completion c) s' :=
  fun hanswers found hfound => Or.inl (hc hanswers found hfound)

theorem gives_interned {id : Handle} {found? : Option Handle}
    (hfound : ∀ j, found? = some j → s'.Holds j ∨ s.FindsUnheld id j s') :
    (Operation.interned id).Gives s (.option (found?.map .ref)) s' := by
  intro _ found hmem
  obtain ⟨v, hv?, hhandle⟩ := Option.bind_eq_some_iff.mp hmem
  obtain ⟨j, hj, rfl⟩ := Option.map_eq_some_iff.mp hv?
  obtain rfl : j = found := by simpa [Value.handle?] using hhandle
  exact (hfound j hj).imp_right fun hunheld => ⟨id, rfl, hunheld⟩

end Gives

/-! ## Carrying out operations -/

/-- The operation keeps the store ready, whether it has a result or fails, changes only what
it says it changes, and gives out what the store holds. -/
def Operation.Performs (op : Operation) (s : Store) : Prop :=
  Ends op.run s
    (fun outcome s' => s.Alters op.Changes (op.Reuses outcome) s' ∧ op.Gives s outcome s')
    (fun e s' => e ≠ .deadObject ∧ (e = .wordOverflow ∨ s.Alters op.Changes (fun _ => False) s'))

section Performs

variable {s : Store} {op : Operation} {α : Type} {m : StoreM α} {Q : α → Store → Prop}
  {R E : Store → Store → Prop} {f : α → Outcome} {id : Handle}

/-- An operation that runs one computation and gives out its result. -/
theorem performs_of_runs (hm : RunsFrom R E s m s Q) (hrun : op.run = m >>= fun a => pure (f a))
    (hok : ∀ a s', R s s' → Q a s' → s.Alters op.Changes (op.Reuses (f a)) s')
    (hfail : ∀ s', E s s' → s.Alters op.Changes (fun _ => False) s')
    (hgives : ∀ a s', Q a s' → op.Gives s (f a) s') : op.Performs s := by
  unfold Operation.Performs
  rw [hrun, ends_bind]
  exact Ends.mono hm (fun a s' hend => ⟨hok a s' hend.1 hend.2, hgives a s' hend.2⟩)
    fun _ s' hend => ⟨hend.1, hend.2.imp_right (hfail s')⟩

theorem performs_of_adds (hs : s.Ready) (hm : Runs Adds m s Q)
    (hrun : op.run = m >>= fun a => pure (f a))
    (hgives : ∀ a s', Q a s' → op.Gives s (f a) s') : op.Performs s :=
  performs_of_runs hm hrun (fun _ _ ha _ => ha.alters hs fun _ => .same)
    (fun _ ha => ha.alters hs fun _ => .same) hgives

/-- An operation that gives out a new object, or one that was there. -/
theorem performs_of_held {m : StoreM Handle} (hs : s.Ready)
    (hm : Runs Adds m s fun id s' => s'.Holds id)
    (hrun : op.run = m >>= fun id => pure (.handle id)) : op.Performs s :=
  performs_of_adds hs hm hrun fun _ _ hid => gives_handle hid

theorem performs_of_placed {m : StoreM Handle} {o : Object} (hs : s.Ready)
    (hm : RunsFrom Adds Rests s m s (s.Placed o))
    (hrun : op.run = m >>= fun id => pure (.handle id)) : op.Performs s :=
  performs_of_adds hs hm.adds hrun fun _ _ hp => gives_handle hp.holds

theorem performs_of_value {m : StoreM Value} (hs : s.Ready)
    (hm : Runs Adds m s fun v s' => s'.HoldsValue v)
    (hrun : op.run = m >>= fun v => pure (.value v)) : op.Performs s :=
  performs_of_adds hs hm hrun fun _ _ hv => gives_value hv

theorem performs_of_option {m : StoreM (Option Value)} (hs : s.Ready)
    (hm : Runs Adds m s fun found s' => ∀ v, found = some v → s'.HoldsValue v)
    (hrun : op.run = m >>= fun found => pure (.option found)) : op.Performs s :=
  performs_of_adds hs hm hrun fun _ _ hv => gives_option hv

theorem performs_of_completion {m : StoreM Completion} (hs : s.Ready)
    (hm : Runs Adds m s fun c s' => s.HoldsAnswers → s'.HoldsValue c.value)
    (hrun : op.run = m >>= fun c => pure (.completion c)) : op.Performs s :=
  performs_of_adds hs hm hrun fun _ _ hc => gives_completion hc

theorem performs_of_grows {m : StoreM Handle} (hs : s.Ready)
    (hm : Runs Grows m s fun id s' => s'.Holds id)
    (hrun : op.run = m >>= fun id => pure (.handle id))
    (hC : ∀ id o o', o.Grows o' → op.Changes id o o') : op.Performs s :=
  performs_of_runs hm hrun (fun _ _ hg _ => hg.alters hs hC) (fun _ hg => hg.alters hs hC)
    fun _ _ hid => gives_handle hid

theorem performs_of_settles {m : StoreM Handle}
    (hm : RunsFrom Settles Keeps s m s fun found s' => s'.Holds found ∧ s.Recycles found s')
    (hrun : op.run = m >>= fun found => pure (.handle found))
    (hC : ∀ id o o', o.Settles o' → op.Changes id o o')
    (hgiven : ∀ found, op.Reuses (.handle found) found) : op.Performs s :=
  performs_of_runs hm hrun (fun found _ hsettles hend => hsettles.alters hend.2 hC (hgiven found))
    (fun _ hk => hk.alters hC) fun _ _ hend => gives_handle hend.1

theorem performs_of_reroots {g : Store → Store} (hs : s.Ready)
    (hrun : op.run = modify g >>= fun _ => pure .done) (hr : s.Reroots (g s))
    (hroots : ∀ id ∈ (g s).ownRoots, s.Holds id) : op.Performs s := by
  unfold Operation.Performs
  rw [hrun, ends_bind, ends_modify]
  exact ⟨hr.alters hs (fun _ => .same) hroots, gives_done⟩

theorem performs_persist (hs : s.Ready) (hid : s.Holds id) : (Operation.persist id).Performs s := by
  unfold Operation.Performs Operation.run
  rw [ends_bind]
  refine (ends_persist s id).mono ?_ ?_
  · rintro _ s' ⟨-, rfl⟩
    have hr : s.Reroots { s with persistent := StoreM.addRelease id s.persistent } :=
      ⟨rfl, rfl, rfl, rfl, rfl, rfl⟩
    exact ⟨hr.alters hs (fun _ => .same) fun _ => hs.holds_of_persist hid, gives_done⟩
  · rintro e s' ⟨-, rfl, rfl⟩
    exact ⟨by simp, Or.inr ((Adds.refl hs.toSound).alters hs fun _ => .same)⟩

/-- An operation that changes what is no matter of the heap. -/
theorem performs_of_settings {builtins : Store → Builtins} {lastScriptId : Store → Int32}
    (hs : s.Ready) (hrun : op.run = (modify fun s =>
      { s with builtins := builtins s, lastScriptId := lastScriptId s }) >>= fun _ => pure .done) :
    op.Performs s := by
  have hadds : s.Adds { s with builtins := builtins s, lastScriptId := lastScriptId s } :=
    adds_settings hs.toSound _ _ _ _ _
  have hm : Runs Adds (modify fun s : Store =>
      { s with builtins := builtins s, lastScriptId := lastScriptId s }) s fun _ _ => True :=
    ⟨hadds, trivial⟩
  exact performs_of_adds hs hm hrun fun _ _ _ => gives_done

theorem performs_flatten (hs : s.Ready) (hid : s.Holds id) : (Operation.flatten id).Performs s :=
  performs_of_runs (runs_flatten hs hid) rfl
    (fun _ _ hsettles hend => (hsettles.keeps hend.2.toAlike).alters fun _ _ _ => .flatten)
    (fun _ hk => hk.alters fun _ _ _ => .flatten)
    fun _ _ hend => gives_handle (hend.1 ▸ hend.2.holds)

/-! ### Writing -/

theorem performs_arraySet {index : Nat} {value : Value} (hs : s.Ready) (hid : s.Holds id)
    (hvalue : s.HoldsValue value) : (Operation.arraySet id index value).Performs s := by
  have hrefl : s.Alters (Operation.arraySet id index value).Changes (fun _ => False) s :=
    (Adds.refl hs.toSound).alters hs fun _ => .same
  suffices hm : Runs (Alters (Operation.arraySet id index value).Changes fun _ => False)
      (StoreM.arraySet id index value) s fun _ _ => True from
    performs_of_runs hm rfl (fun _ _ ha _ => ha) (fun _ ha => ha) fun _ _ _ => gives_done
  unfold StoreM.arraySet
  apply runs_array hs.toSound hid hrefl
  intro items hitems
  split
  case isTrue => exact ⟨by simp, Or.inr hrefl⟩
  case isFalse =>
      refine Ends.mono (ends_modifyObject hs.wellFormed hitems _) ?_ fun _ _ hfail => hfail.elim
      intro _ s' hend
      obtain ⟨h', hr, rfl⟩ := hend
      refine ⟨hs.alters_rewrite hid hitems hr (by simp) (by simp) (fun c hc => ?_)
        (fun _ => .same) (.arraySet items), trivial⟩
      refine holds_of_mem_handlesOf (fun v hv => ?_) hc
      rcases Array.mem_or_eq_of_mem_setIfInBounds hv with hv | rfl
      · exact hs.holdsValue_of_array hid hitems hv
      · exact hvalue

/-- An entry of a dictionary is written. -/
theorem runs_dictionaryPut {kind : KeyKind} {key : Key} {value : Value}
    {C : Handle → Object → Object → Prop} (hs : s.Ready) (hid : s.Holds id)
    (hkey : ∀ c ∈ key.handle?, s.Holds c) (hvalue : s.HoldsValue value)
    (hC : ∀ id o, C id o o)
    (hchange : ∀ d, C id (.dictionary d) (.dictionary (d.insert key value))) :
    Runs (Alters C fun _ => False) (StoreM.dictionaryPut id kind key value) s
      fun found s' => s'.Holds found := by
  have hrefl : s.Alters C (fun _ => False) s := (Adds.refl hs.toSound).alters hs hC
  unfold StoreM.dictionaryPut
  apply runs_dictionary hs.toSound hid hrefl
  intro d hd
  split
  case isTrue => exact ⟨by simp, Or.inr hrefl⟩
  case isFalse =>
      unfold RunsFrom
      rw [ends_bind]
      refine (ends_growObject hs.wellFormed hd _).mono ?_ fun e s' he => ⟨by simp [he], Or.inl he⟩
      intro _ s' hend
      obtain ⟨h', hr, rfl⟩ := hend
      -- the dictionary refers to what it referred to, and to what is put into it
      have hchildren : ∀ c ∈ (Object.dictionary (d.insert key value)).children, s.Holds c := by
        intro c hc
        obtain ⟨e, he, hce⟩ := List.mem_flatMap.mp hc
        rcases Dictionary.mem_insert (Array.mem_toList_iff.mp he) with he | rfl
        · exact hs.holds_child hid hd (List.mem_flatMap.mpr ⟨e, Array.mem_toList_iff.mpr he, hce⟩)
        · rcases List.mem_append.mp hce with hc | hc
          · exact hkey c (by simpa using hc)
          · exact hvalue c (by simpa using hc)
      obtain ⟨-, -, halike, -⟩ := hs.rewrite hid hd hr (by simp) (by simp) hchildren
      exact ⟨hs.alters_rewrite hid hd hr (by simp) (by simp) hchildren hC (hchange d),
        hid.self_of_rewrites hs.toSound halike hr⟩

theorem performs_dictionaryPutName {name : Handle} {value : Value} (hs : s.Ready)
    (hid : s.Holds id) (hname : s.Holds name) (hvalue : s.HoldsValue value) :
    (Operation.dictionaryPutName id name value).Performs s := by
  have hrefl : s.Alters (Operation.dictionaryPutName id name value).Changes (fun _ => False) s :=
    (Adds.refl hs.toSound).alters hs fun _ => .same
  suffices hm : Runs (Alters (Operation.dictionaryPutName id name value).Changes fun _ => False)
      (StoreM.dictionaryPutName id name value) s fun found s' => s'.Holds found from
    performs_of_runs hm rfl (fun _ _ ha _ => ha) (fun _ ha => ha) fun _ _ hid => gives_handle hid
  unfold StoreM.dictionaryPutName
  apply runs_text hs.toSound hname hrefl
  intro t _
  split
  case isTrue => exact ⟨by simp, Or.inr hrefl⟩
  case isFalse =>
      refine runs_dictionaryPut hs hid ?_ hvalue (fun _ => .same) .dictionaryPutName
      intro c hc
      cases hc
      exact hname

theorem performs_dictionaryPutIndex {index : Nat} {value : Value} (hs : s.Ready)
    (hid : s.Holds id) (hvalue : s.HoldsValue value) :
    (Operation.dictionaryPutIndex id index value).Performs s :=
  performs_of_runs (runs_dictionaryPut hs hid (by rintro c ⟨⟩) hvalue (fun _ => .same)
    .dictionaryPutIndex) rfl (fun _ _ ha _ => ha) (fun _ ha => ha) fun _ _ hid => gives_handle hid

/-! ### All operations -/

theorem runs_closure_held (hs : s.Sound) (hid : s.Holds id) :
    Runs Adds (StoreM.closure id) s fun c s' => s'.HoldsValue c.prototype := by
  rw [← bind_pure (StoreM.closure id)]
  refine runs_closure hs hid (.refl hs) fun c hc => ⟨.refl hs, fun j hj => ?_⟩
  exact hs.holds_child hid hc (List.mem_append_right _ (Option.mem_toList.mpr hj))

/-- The values that an operation is given are held if the objects are that they refer to. -/
theorem holdsValue_of_given {value : Value} (hgiven : ∀ c ∈ value.handle?.toList, s.Holds c) :
    s.HoldsValue value :=
  fun c hc => hgiven c (by simp [hc])

theorem holdsValue_of_givenAll {values : Array Value}
    (hgiven : ∀ c ∈ Object.handlesOf values, s.Holds c) : ∀ v ∈ values, s.HoldsValue v :=
  fun v hv c hc => hgiven c (List.mem_filterMap.mpr ⟨v, by simpa using hv, hc⟩)

theorem Operation.performs (op : Operation) (hs : s.Ready) (hvalid : s.config.error? = none)
    (hgiven : ∀ id ∈ op.handles, s.Holds id)
    (hplain : ∀ object space, op ≠ .allocate object space) : op.Performs s := by
  have hsound := hs.toSound
  unfold Operation.handles at hgiven
  -- one case for each operation; the lemma that it names says what its function changes
  cases op with
  | newText content space => exact performs_of_placed hs (runs_newString hsound _ space) rfl
  | newString units space => exact performs_of_placed hs (runs_newString hsound units space) rfl
  | newPacked units space => exact performs_of_placed hs (runs_newString hsound _ space) rfl
  | newExternal units => exact performs_of_placed hs (runs_newExternal hsound hvalid units) rfl
  | concat left right =>
      exact performs_of_held hs (runs_concat_held hsound hvalid (hgiven left (by simp))
        (hgiven right (by simp))) rfl
  | flatConcat left right =>
      exact performs_of_held hs (runs_flatConcat_held hsound (hgiven left (by simp))
        (hgiven right (by simp))) rfl
  | slice source start stop =>
      exact performs_of_settles (runs_slice hs (hgiven source (by simp)) start stop) rfl
        (fun _ _ _ => .slice) fun _ => rfl
  | flatten id => exact performs_flatten hs (hgiven id (by simp))
  | singleUnit unit =>
      exact performs_of_adds hs (runs_singleUnit hsound unit) rfl fun _ _ hend =>
        gives_handle hend.1
  | internText content =>
      exact performs_of_adds hs (runs_internText hsound content).adds rfl fun _ _ hi =>
        gives_handle hi.holds
  | internUnits units =>
      exact performs_of_adds hs (runs_internUnits hsound units).adds rfl fun _ _ hi =>
        gives_handle hi.holds
  | internString id =>
      exact performs_of_settles ((runs_internString hs (hgiven id (by simp))).weaken
        fun _ _ _ hend => hend.1) rfl (fun _ _ _ => .internString) fun _ => rfl
  | internRange id start count =>
      exact performs_of_adds hs (runs_internRange hsound (hgiven id (by simp)) start count) rfl
        fun _ _ hend => gives_handle hend.1
  | interned id =>
      exact performs_of_adds hs (runs_interned? hsound (hgiven id (by simp))) rfl fun _ _ hfound =>
        gives_interned hfound
  | newNumber value space => exact performs_of_value hs (runs_newNumber hsound value space) rfl
  | newUnsigned value => exact performs_of_value hs (runs_newUnsigned hsound value) rfl
  | newHeapNumber value space =>
      exact performs_of_placed hs (runs_newHeapNumber hsound value space) rfl
  | numberText value =>
      exact performs_of_held hs (runs_numberText hsound (holdsValue_of_given hgiven)) rfl
  | unsignedText value => exact performs_of_held hs (runs_unsignedText hsound value) rfl
  | globalConstant name =>
      exact performs_of_option hs (runs_globalConstant? hs (hgiven name (by simp))) rfl
  | newArray items space =>
      exact performs_of_held hs (runs_newArray hs (holdsValue_of_givenAll hgiven) space) rfl
  | newArrayOfSize length space =>
      exact performs_of_held hs (runs_emptyOrUniform hs .undefined rfl length space) rfl
  | newArrayOfHoles length space =>
      exact performs_of_held hs (runs_emptyOrUniform hs .hole rfl length space) rfl
  | newDoubles length space =>
      exact performs_of_held hs (runs_newUniform hsound rfl (by simp) .doubles 8 length space) rfl
  | newBytes length space =>
      exact performs_of_held hs (runs_newUniform hsound rfl (by simp) .bytes 1 length space) rfl
  | copyArray id => exact performs_of_held hs (runs_copyArray hs (hgiven id (by simp))) rfl
  | copyArrayOfSize id length =>
      exact performs_of_held hs (runs_copyArrayOfSize hs (hgiven id (by simp)) length) rfl
  | arrayGet id index =>
      exact performs_of_value hs (runs_arrayGet hsound (hgiven id (by simp)) index) rfl
  | arraySet id index value =>
      exact performs_arraySet hs (hgiven id (by simp)) (holdsValue_of_given fun c hc =>
        hgiven c (List.mem_cons_of_mem id hc))
  | newDictionary kind capacity =>
      exact performs_of_held hs (runs_newDictionary hsound kind capacity) rfl
  | dictionaryPutName id name value =>
      exact performs_dictionaryPutName hs (hgiven id (by simp)) (hgiven name (by simp))
        (holdsValue_of_given fun c hc => hgiven c (by simp [hc]))
  | dictionaryPutIndex id index value =>
      exact performs_dictionaryPutIndex hs (hgiven id (by simp)) (holdsValue_of_given fun c hc =>
        hgiven c (List.mem_cons_of_mem id hc))
  | dictionaryGet id key =>
      exact performs_of_option hs (runs_dictionaryGet hsound (hgiven id (by simp)) key) rfl
  | newNativeContext => exact performs_of_held hs (runs_newNativeContext hsound) rfl
  | newGlobalContext inside closure globalObject slots =>
      refine performs_of_held hs (runs_newGlobalContext hsound (hgiven inside (by simp))
        (holdsValue_of_given fun c hc => hgiven c ?_) (holdsValue_of_given fun c hc => hgiven c ?_)
        slots).adds rfl
      · simp only [List.cons_append, List.mem_cons, List.mem_append, hc, true_or, or_true]
      · simp only [List.cons_append, List.mem_cons, List.mem_append, hc, or_true]
  | newModuleContext inside slots =>
      exact performs_of_held hs (runs_newModuleContext hsound (hgiven inside (by simp)) slots).adds
        rfl
  | newFunctionContext length function =>
      exact performs_of_held hs
        (runs_newFunctionContext hsound (hgiven function (by simp)) length).adds rfl
  | newCatchContext closure previous name thrown =>
      refine performs_of_held hs (runs_newCatchContext hsound
        (holdsValue_of_given fun c hc => hgiven c ?_) (hgiven previous (by simp))
        (hgiven name (by simp)) (holdsValue_of_given fun c hc => hgiven c ?_)).adds rfl
      · simp only [List.cons_append, List.mem_cons, List.mem_append, hc, true_or, or_true]
      · simp only [List.cons_append, List.mem_cons, List.mem_append, hc, or_true]
  | newWithContext closure previous extension =>
      refine performs_of_held hs (runs_newWithContext hsound
        (holdsValue_of_given fun c hc => hgiven c ?_) (hgiven previous (by simp))
        (holdsValue_of_given fun c hc => hgiven c ?_)).adds rfl
      · simp only [List.cons_append, List.mem_cons, List.mem_append, hc, true_or, or_true]
      · simp only [List.cons_append, List.mem_cons, List.mem_append, hc, or_true]
  | newBlockContext closure previous slots =>
      exact performs_of_held hs (runs_newBlockContext hsound (holdsValue_of_given fun c hc =>
        hgiven c (List.mem_cons_of_mem previous hc)) (hgiven previous (by simp)) slots).adds rfl
  | nativeContextOf id =>
      exact performs_of_adds hs (runs_nativeContextOf hsound (hgiven id (by simp))).adds rfl
        fun _ _ hend => gives_handle (hend.1 ▸ hend.2)
  | contextSlot id index =>
      exact performs_of_value hs (runs_contextSlot hsound (hgiven id (by simp)) index) rfl
  | newFunction name context =>
      exact performs_of_placed hs (runs_newFunction hsound (hgiven name (by simp))
        (hgiven context (by simp))) rfl
  | newFunctionWithPrototype name context =>
      exact performs_of_grows hs (runs_newFunctionWithPrototype hs (hgiven name (by simp))
        (hgiven context (by simp))) rfl fun _ _ _ => .newFunctionWithPrototype
  | prototype id =>
      exact performs_of_adds hs (runs_closure_held hsound (hgiven id (by simp))) rfl
        fun _ _ hv => gives_value hv
  | newBlankRecord kind =>
      exact performs_of_placed hs (runs_newRecord hsound kind fun v hv =>
        holdsValue_of_mem_replicate hv) rfl
  | newBox value =>
      refine performs_of_placed hs (runs_newRecord hsound .box fun v hv => ?_) rfl
      obtain rfl : v = value := by simpa using hv
      exact holdsValue_of_given hgiven
  | newAccessorPair =>
      exact performs_of_placed hs (runs_newRecord hsound .accessorPair fun v hv =>
        holdsValue_of_none (by simp_all [Value.handle?])) rfl
  | newAliasedArgumentsEntry contextSlot =>
      exact performs_of_placed hs (runs_newRecord hsound .aliasedArgumentsEntry fun v hv =>
        holdsValue_of_none (by simp_all [Value.handle?])) rfl
  | newTypeFeedbackInfo =>
      exact performs_of_placed hs (runs_newRecord hsound .typeFeedbackInfo fun v hv =>
        holdsValue_of_none (by simp_all [Value.handle?])) rfl
  | recordField id index =>
      exact performs_of_value hs (runs_recordField hsound (hgiven id (by simp)) index) rfl
  | newScript source =>
      exact performs_of_held hs (runs_newScript hsound (hgiven source (by simp))) rfl
  | setLastScriptId scriptId =>
      exact performs_of_settings hs rfl
  | shapeFor context names =>
      exact performs_of_grows hs (runs_shapeFor hsound (hgiven context (by simp))
        fun name hname => hgiven name (by simp [hname])) rfl fun _ _ _ => .shapeFor
  | newPlain shape values =>
      exact performs_of_held hs (runs_newPlain hsound (hgiven shape (by simp))
        (holdsValue_of_givenAll fun c hc => hgiven c (List.mem_cons_of_mem shape hc))).adds rfl
  | newLiteral context names values =>
      refine performs_of_grows hs (runs_newLiteral hsound (hgiven context (by simp))
        (fun name hname => hgiven name ?_) (holdsValue_of_givenAll fun c hc => hgiven c ?_)) rfl
        fun _ _ _ => .newLiteral
      · simp [hname]
      · simp only [List.cons_append, List.mem_cons, List.mem_append, hc, or_true]
  | property id name =>
      exact performs_of_option hs (runs_property? hsound (hgiven id (by simp))) rfl
  | newErrorObject kind message arguments =>
      exact performs_of_held hs (runs_newErrorObject hsound kind (hgiven message (by simp))
        fun c hc => hgiven c (by simp [hc])) rfl
  | raise kind message arguments =>
      exact performs_of_completion hs
        (runs_raise hs kind message (holdsValue_of_givenAll hgiven)) rfl
  | raiseMessage kind message =>
      exact performs_of_completion hs (runs_raiseMessage hs kind (hgiven message (by simp))) rfl
  | installStandard =>
      exact performs_of_settings hs rfl
  | register name builtin =>
      exact performs_of_settings hs rfl
  | removeBuiltin name =>
      exact performs_of_settings hs rfl
  | allocate object space => exact absurd rfl (hplain object space)
  | collectGarbage space =>
      exact performs_of_adds hs (runs_collect hsound space []).adds rfl fun _ _ _ => gives_done
  | persist id => exact performs_persist hs (hgiven id (by simp))
  | unpersist id =>
      exact performs_of_reroots hs rfl ⟨rfl, rfl, rfl, rfl, rfl, rfl⟩
        fun _ => hsound.holds_of_unpersist

end Performs

end ManagedHeap
