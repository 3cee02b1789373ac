import ManagedHeap.Proofs.Literals
import ManagedHeap.Proofs.Store.ContextChains

/-!
# Contexts form chains

In a well-rooted store every context belongs to a native context, which is its own native
context, and following the contexts before it one comes to an end, having met contexts of the
same native context only (`WellRooted.context_chains`).

The invariant is that of `Heap.Chained`.  Contexts are placed in two ways.  One that is made
inside of another one takes the native context of that one, and the two are held until it is
there, so that it still fits what a collection has left (`chained_innerContext`).  A native
context is placed without a native context at first.  It fits only after it has been made to
refer to itself, so that the two deeds are told as one (`chained_newNativeContext`).

A shape in the cache of a context is based on the template of the native context because the
layouts of the store say so, and it stays what it is for as long as it is reachable.
-/

namespace ManagedHeap

variable {α : Type} {s s' : Store} {c : Handle} {x : Context}

/-- The computation keeps contexts in chains. -/
abbrev PreservesChains (m : StoreM α) : Prop :=
  Upholds (fun s => s.heap.Chained) (fun _ => True) m

theorem aboutLayouts_chained : Heap.AboutLayouts Heap.Chained where
  wellFormed _ hc := hc.toWellFormed
  thins _ _ _ := Heap.Chained.thins
  keepsLayouts _ _ hc hk hw := hc.prolongs (hk.prolongs hw)

/-- What is no context is no link of a chain. -/
theorem chained_allocate {o : Object} (space : Space) (ho : ∀ x, o ≠ .context x) :
    PreservesChains (StoreM.allocate o space) := fun _ hs =>
  aboutLayouts_chained.fulfil_from hs fun _ _ _ ht hleft hg =>
    hleft.prolongs (hg.prolongs ht.wellFormed fun x hx => absurd hx (ho x))

theorem Heap.Chained.rewrites {h h' : Heap} {o o' : Object} (hc : h.Chained)
    (hfind : h.find c = .ok o) (hr : h.Rewrites c o' h') (hlinks : o.KeepsLinks o') :
    h'.Chained :=
  hc.prolongs (hr.prolongs hc.toWellFormed hfind hlinks)

/-! ## Contexts -/

/-- A context inside another one has the native context of that one.  Both are held, so that a
collection leaves them. -/
theorem chained_innerContext {kind : ContextKind} {closure : Value} {previous : Option Handle}
    {extension : Value} {inside native : Handle} {slots : Array Value} {space : Space}
    (hs : s.heap.Chained) (hnative : s.heap.Native inside native)
    (hprevious : ∀ p ∈ previous, p = native ∨ p = inside ∧ space = .young) :
    UpholdsFrom (fun s => s.heap.Chained) (fun _ => True) s (StoreM.allocate (.context
      (StoreM.innerContext kind closure previous extension native slots)) space) := by
  refine aboutLayouts_chained.fulfil_from hs fun g id h' ht hleft hg =>
    hleft.prolongs (hg.prolongs ht.wellFormed fun x hx => ?_)
  obtain rfl := Object.context.inj hx
  obtain ⟨z, hz, rfl⟩ := hnative
  obtain ⟨n, y, template, hn, hheads⟩ := (hs.fits inside z hz).native
  rw [hn, Option.getD_some] at hg hprevious ht ⊢
  have hkept {j : Handle} {o : Object} (hfind : s.heap.find j = .ok o)
      (hchild : j ∈ (Object.context
        (StoreM.innerContext kind closure previous extension n slots)).children) :
      g.find j = .ok o :=
    (ht.kept j (by simp [Store.roots, hchild]) (Heap.isLive_of_find hfind)).trans hfind
  have hy := hkept hheads.found (Heap.mem_children_context (Or.inl rfl))
  refine hleft.fits_gains hg rfl hy hheads.native (fun p hp => ?_) rfl
  rcases hprevious p hp with rfl | ⟨rfl, hspace⟩
  · exact ⟨Or.inl rfl, y, hy, hheads.native⟩
  · exact ⟨Or.inr hspace, z, hkept hz (Heap.mem_children_link (Or.inl hp)), hn⟩

/-- A native context belongs to itself. -/
theorem chained_newNativeContext : PreservesChains StoreM.newNativeContext := by
  intro s hs
  have hplaced {kept : List Handle} {g h : Heap} {template : Handle} (ht : s.heap.Thins kept g)
      (hg : g.Gains template (.shape (.ofNames none #[] 0)) .old h) : h.Chained :=
    (hs.thins ht).prolongs (hg.prolongs ht.wellFormed (by simp))
  refine (ends_newNativeContext_gains hs.toWellFormed).mono ?_ ?_
  · rintro id s' ⟨_, g, template, h, _, g', x, ht, hg, ht', hblank, hg', hkind, hprevious,
      hnative, -, htemplate⟩
    have hw := ht'.wellFormed
    -- the context is the end of its chain, and its own native context
    refine ((hplaced ht hg).thins ht').prolongs (hg'.prolongs hw ?_)
    rintro _ ⟨⟩
    have hold : g'.spaceOf template = .ok .old := ht'.old template _ hblank hg.spaceOf
    exact ⟨{
      native := ⟨id, x, template, hnative, {
        found := hg'.find
        kind := hkind
        native := hnative
        objectTemplate := htemplate
        blank := hg'.find_live hw hblank
        old := hg'.spaceOf
        oldTemplate := (hg'.spaceOf_live hw (Heap.isLive_of_find hblank)).trans hold }⟩
      previous := by simp [hprevious]
      template := fun _ => hkind }, by simp [hprevious]⟩
  · rintro e s' (ht | ⟨_, g, template, h, ht, hg, ht'⟩ | he)
    · exact Or.inl (hs.thins ht)
    · exact Or.inl ((hplaced ht hg).thins ht')
    · exact Or.inr ⟨he, trivial⟩

/-! ## Shapes -/

theorem chained_shapeCacheOf (c : Handle) : PreservesChains (StoreM.shapeCacheOf c) := by
  refine (upholds_context c).bind fun x => ?_
  split
  case h_1 => exact upholds_pure
  case h_2 =>
      refine (chained_allocate _ (by simp)).bind fun cache => (upholds_context c).bind fun _ =>
        (aboutLayouts_chained.modifyObject_from fun h o h' hc ho hr => hc.rewrites ho hr ?_).bind
          fun _ => upholds_pure
      cases o with
      | context x => exact .context x (some cache)
      | _ => exact .same _

theorem chained_newShape (c : Handle) (names : Array Handle) :
    PreservesChains (StoreM.newShape c names) :=
  (upholds_nativeContextOf c).bind fun native => (upholds_context native).bind fun _ =>
    chained_allocate _ (by simp)

theorem chained_shapeFor (c : Handle) (names : Array Handle) :
    PreservesChains (StoreM.shapeFor c names) := by
  refine (upholds_checkNames names).bind fun _ => (chained_shapeCacheOf c).bind fun cache =>
    (upholds_shapeCache cache).bind fun t => ?_
  split
  case h_1 => exact fun _ hs => hs
  case h_2 =>
      refine Upholds.bind (upholds_modify fun _ hs => hs) fun _ =>
        (chained_newShape c names).bind fun shape => (upholds_shapeCache cache).bind fun _ =>
          (aboutLayouts_chained.growObject_from fun h o h' hc ho hr =>
            hc.rewrites ho hr ?_).bind fun _ => upholds_pure
      cases o with
      | shapeCache t => exact .shapeCache t _
      | _ => exact .same _

/-! ## Runs -/

theorem durable_chained : Durable (fun s => s.heap.Chained) fun _ => True where
  agrees _ _ ha hs := ha.heap.symm ▸ hs
  track _ _ hs := hs
  collect := aboutLayouts_chained.collect
  fulfil _ _ _ _ := aboutLayouts_chained.fulfil
  modifyObject id _ hf _ := aboutLayouts_chained.modifyObject id hf
  growObject id _ hf := aboutLayouts_chained.growObject id hf
  flatten := aboutLayouts_chained.flatten
  newNativeContext := chained_newNativeContext
  innerContext _ _ _ _ _ _ _ _ _ hs hnative _ hprevious :=
    chained_innerContext hs hnative hprevious
  shapeFor := chained_shapeFor

theorem Heap.chained_empty (youngBytes oldBytes : Nat) :
    (Heap.empty youngBytes oldBytes).Chained :=
  chained_of_nothing (wellFormed_empty _ _) (find_empty _ _)

/-- The invariant of the contexts in well-rooted runs. -/
theorem WellRooted.chained (hs : WellRooted s) : s.heap.Chained :=
  durable_chained.wellRooted Heap.chained_empty hs

/-! ## Chains -/

/-- The context `x`, which `c` names, belongs to the native context `n`, and so does the one
before it.  Only native contexts have templates.  The shapes in the cache of the context are
based on the template of the native context, and stay so for as long as they are reachable. -/
structure Store.InChain (s : Store) (c : Handle) (x : Context) (n template : Handle) : Prop where
  native : x.native = some n
  heads : ∃ y, s.heap.Heads n y template
  belongs : StoreM.nativeContextOf c s = .ok n s
  again : StoreM.nativeContextOf n s = .ok n s
  previous : ∀ p, x.previous = some p → ∃ z, s.heap.find p = .ok (.context z) ∧ z.native = some n
  carries : x.objectTemplate ≠ none → x.kind = .native
  shapes : ∀ names r, s.heap.Caches c names r → ∃ l, l.base = some template ∧
    ∀ steps s', Step.Keeping r steps s s' → s'.heap.find r = .ok (.shape l) ∧
      s'.heap.find template = .ok (.shape (.ofNames none #[] 0))

theorem run_nativeContextOf {n : Handle} (hx : s.heap.find c = .ok (.context x))
    (hn : x.native = some n) : StoreM.nativeContextOf c s = .ok n s := by
  show (StoreM.context c >>= fun x => pure (x.native.getD c)) s = .ok n s
  rw [run_bind (run_context hx), hn]
  rfl

/-- What the cache of a context lists is based on the template of the native context, also when
only the shape itself is still reachable. -/
theorem WellRooted.shape_based {n r : Handle} {y : Context} {template : Handle}
    {names : Array Handle} (hs : WellRooted s) (hx : s.heap.find c = .ok (.context x))
    (hn : x.native = some n) (hheads : s.heap.Heads n y template)
    (hr : s.heap.Caches c names r) : ∃ l, l.base = some template ∧
      ∀ steps s', Step.Keeping r steps s s' → s'.heap.find r = .ok (.shape l) ∧
        s'.heap.find template = .ok (.shape (.ofNames none #[] 0)) := by
  obtain ⟨native, y', template', ⟨x', hx', rfl⟩, hy', htemplate, hshape⟩ :=
    hs.ordered.based c names r hr
  obtain rfl : x = x' := by simpa [hx] using hx'
  rw [hn, Option.getD_some] at hy'
  obtain rfl : y = y' := by simpa [hheads.found] using hy'
  obtain rfl : template = template' := by simpa [hheads.objectTemplate] using htemplate
  refine ⟨.ofNames (some template) names names.size, rfl, fun steps s' hk => ?_⟩
  obtain ⟨hfind, hchildren⟩ := hk.fixed hs hshape rfl
  have hkept := hchildren template (by simp [Object.children, Shape.ofNames])
  exact ⟨hfind, (hkept.fixed hs hheads.blank rfl).1⟩

/-- In a well-rooted store contexts form chains, each of them with one native context, and each
of them ends. -/
theorem WellRooted.context_chains (hs : WellRooted s) :
    (∀ c x, s.heap.find c = .ok (.context x) → ∃ n template, s.InChain c x n template) ∧
      WellFounded s.heap.Precedes := by
  refine ⟨fun c x hx => ?_, hs.chained.ends⟩
  have hfits := hs.chained.fits c x hx
  obtain ⟨n, y, template, hn, hheads⟩ := hfits.native
  exact ⟨n, template, {
    native := hn
    heads := ⟨y, hheads⟩
    belongs := run_nativeContextOf hx hn
    again := run_nativeContextOf hheads.found hheads.native
    previous := fun p hp => by
      obtain ⟨z, hz, hbelongs, -⟩ := hfits.previous p hp
      exact ⟨z, hz, hbelongs.trans hn⟩
    carries := hfits.template
    shapes := fun names r hr => hs.shape_based hx hn hheads hr }⟩

/-- A chain of contexts of all kinds but one.  The innermost one alone is kept when the scope is
closed, and a full collection frees a handle, which is then given to a block inside of it. -/
theorem WellRooted.context_chains_collected : ∃ (s : Store) (x : Context), WellRooted s ∧
    s.heap.find ⟨16⟩ = .ok (.context x) ∧ x.kind = .block ∧ x.previous = some ⟨15⟩ ∧
    s.heap.Caches ⟨16⟩ #[⟨7⟩] ⟨18⟩ ∧ 0 < s.heap.fullCollections ∧
    (∃ template, s.InChain ⟨16⟩ x ⟨9⟩ template) ∧ WellFounded s.heap.Precedes := by
  have hcheck : (((Store.create {} none).toOption.bind (replay [.perform .newNativeContext,
      .perform (.newGlobalContext ⟨9⟩ .undefined .undefined 2),
      .perform (.internText "f"),
      .perform (.newFunction ⟨11⟩ ⟨10⟩),
      .perform (.newFunctionContext 4 ⟨12⟩),
      .perform (.newCatchContext (.ref ⟨12⟩) ⟨13⟩ ⟨11⟩ .null),
      .perform (.newWithContext (.ref ⟨12⟩) ⟨14⟩ (.ref ⟨12⟩)),
      .perform (.newText "x" .young),
      .escape ⟨0⟩ ⟨15⟩,
      .perform (.collectGarbage .old),
      .perform (.newBlockContext .undefined ⟨15⟩ 1)])).any fun s =>
      (Step.perform (.shapeFor ⟨16⟩ #[⟨7⟩])).isDirect s &&
      (s.result? (StoreM.shapeFor ⟨16⟩ #[⟨7⟩])).any fun result => decide (result.1 = ⟨18⟩) &&
        decide (0 < result.2.heap.fullCollections) &&
        decide (result.2.heap.find ⟨16⟩ = .ok (.context {
          kind := .block, closure := .undefined, previous := some ⟨15⟩, extension := .undefined,
          native := some ⟨9⟩, slots := #[.undefined], shapeCache := some ⟨17⟩,
          objectTemplate := none }))) = true := by
    decide +kernel
  obtain ⟨s, hs, hcheck⟩ := WellRooted.exists_replay hcheck
  simp only [Bool.and_eq_true, decide_eq_true_eq, Option.any_eq_true] at hcheck
  obtain ⟨hdirect, ⟨found, s'⟩, hresult, ⟨rfl, hfull⟩, hx⟩ := hcheck
  have hr := Step.rooted_of_isDirect hdirect
  have hrun := Store.ok_of_result? hresult
  have hs' : WellRooted s' := hs.step ⟨hr, Or.inl ⟨_, run_bind hrun⟩⟩
  obtain ⟨hchains, hends⟩ := hs'.context_chains
  obtain ⟨n, template, hchain⟩ := hchains _ _ hx
  obtain rfl : ⟨9⟩ = n := Option.some.inj hchain.native
  exact ⟨s', _, hs', hx, rfl, rfl, caches_of_shapeFor hs hr hrun, hfull, ⟨template, hchain⟩, hends⟩

end ManagedHeap
