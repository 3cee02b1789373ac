import ManagedHeap.InternTable
import ManagedHeap.Proofs.Heap.Spelling

/-!
# The interning table

`h.Interned id w` says that `id` is the canonical string of the content `w`.  A table fits a
heap if its entries are the interned strings of the heap with the hashes of their contents,
and no content has two of them (`Fits`).  A search in a table that fits finds the interned
string of a content whenever there is one.
-/

namespace ManagedHeap

/-- The string is marked as the canonical one of its content. -/
def Heap.Interned (h : Heap) (id : Handle) (w : List UInt16) : Prop :=
  ∃ t u, h.text id = .ok t ∧ t.isInterned = true ∧ t.buffer? = some u ∧ u.toList = w

/-- Only strings with a buffer are marked. -/
theorem Text.exists_buffer_of_interned {t : Text} (hflag : t.isInterned = true) :
    ∃ u, t.buffer? = some u := by
  cases t <;> simp [Text.isInterned, Text.buffer?] at hflag ⊢

theorem Heap.Interned.buffer {h : Heap} {id : Handle} {w : List UInt16} (hi : h.Interned id w) :
    ∃ t u, h.text id = .ok t ∧ t.buffer? = some u ∧ u.toList = w := by
  obtain ⟨t, u, htext, -, hu, hw⟩ := hi
  exact ⟨t, u, htext, hu, hw⟩

namespace InternTable

variable {table : InternTable} {h h' : Heap} {id : Handle} {w : List UInt16} {hash : UInt64}
  {units : Units} {ids : List Handle}

/-- The entries of the table are the interned strings of the heap. -/
structure Fits (table : InternTable) (h : Heap) : Prop where
  entries : ∀ e ∈ table.entries, ∃ w, h.Interned e.2 w ∧ e.1 = table.hash w
  complete : ∀ id w, h.Interned id w → ∃ hash, (hash, id) ∈ table.entries
  unique : ∀ id id' w, h.Interned id w → h.Interned id' w → id = id'
  nodup : (table.entries.toList.map Prod.snd).Nodup

/-! ## Searching -/

theorem hashOf_of_buffer {t : Text} {u : Units} (htext : h.text id = .ok t)
    (hbuffer : t.buffer? = some u) : table.hashOf h id = .ok (table.hashUnits u) := by
  simp [hashOf, htext, hbuffer, bind, Except.bind, pure, Except.pure]

theorem firstWith_eq (hids : ∀ id ∈ ids, ∃ w, h.Interned id w) (units : Units) :
    ∃ found, firstWith h units ids = .ok found ∧
      (∀ id, found = some id → h.Interned id units.toList) ∧
      (found = none → ∀ id ∈ ids, ¬ h.Interned id units.toList) := by
  -- on the candidates, which are looked at in order
  induction ids with
  | nil => exact ⟨none, rfl, by simp, by simp⟩
  | cons id ids ih =>
      obtain ⟨found, hfound, hsome, hnone⟩ := ih fun id hid => hids id (List.mem_cons_of_mem _ hid)
      obtain ⟨w, t, u, htext, hinterned, hbuffer, hw⟩ := hids id List.mem_cons_self
      have hlive : h.isLive id = true := Heap.isLive_of_find (Heap.text_eq_ok.mp htext)
      unfold firstWith
      simp only [hlive, htext, hbuffer, if_true, bind, Except.bind]
      by_cases hsame : u.sameContent units = true
      · refine ⟨some id, by simp [hsame, pure, Except.pure], fun j hj => ?_, by simp⟩
        obtain rfl : id = j := by simpa using hj
        exact ⟨t, u, htext, hinterned, hbuffer, Units.sameContent_iff.mp hsame⟩
      · refine ⟨found, by simp [hsame, hfound], hsome, fun hfalse j hj => ?_⟩
        rcases List.mem_cons.mp hj with rfl | hj
        · intro h
          obtain ⟨t', u', htext', -, hbuffer', hw'⟩ := h
          obtain rfl := Except.ok.inj (htext.symm.trans htext')
          rw [hbuffer] at hbuffer'
          obtain rfl : u = u' := by simpa using hbuffer'
          exact hsame (Units.sameContent_iff.mpr hw')
        · exact hnone hfalse j hj

theorem mem_bucket : id ∈ table.bucket hash ↔ (hash, id) ∈ table.entries := by
  unfold bucket
  simp only [List.mem_map, Array.mem_toList_iff, Array.mem_filter, beq_iff_eq]
  constructor
  · intro h
    obtain ⟨⟨hash', id'⟩, ⟨hmem, rfl⟩, rfl⟩ := h
    exact hmem
  · intro hmem
    exact ⟨(hash, id), ⟨hmem, rfl⟩, rfl⟩

theorem Fits.hash_eq (hf : table.Fits h) (hmem : (hash, id) ∈ table.entries)
    (hw : h.Interned id w) : hash = table.hash w := by
  obtain ⟨w', ⟨t, u, htext, -, hbuffer, hu⟩, hhash⟩ := hf.entries _ hmem
  obtain ⟨t', u', htext', -, hbuffer', hu'⟩ := hw
  obtain rfl := Except.ok.inj (htext.symm.trans htext')
  rw [hbuffer] at hbuffer'
  obtain rfl : u = u' := by simpa using hbuffer'
  rw [← hu', hu]
  exact hhash

/-- A search finds the canonical string of a content if there is one. -/
theorem Fits.find? (hf : table.Fits h) (units : Units) :
    ∃ found, table.find? h (table.hashUnits units) units = .ok found ∧
      (∀ id, found = some id → h.Interned id units.toList) ∧
      (found = none → ∀ id, ¬ h.Interned id units.toList) := by
  have hbucket : ∀ id ∈ table.bucket (table.hashUnits units), ∃ w, h.Interned id w := by
    intro id hid
    obtain ⟨w, hw, -⟩ := hf.entries _ (mem_bucket.mp hid)
    exact ⟨w, hw⟩
  obtain ⟨found, hfound, hsome, hnone⟩ := firstWith_eq hbucket units
  refine ⟨found, hfound, hsome, fun hfalse id hid => ?_⟩
  obtain ⟨hash, hmem⟩ := hf.complete id _ hid
  obtain rfl := hf.hash_eq hmem hid
  exact hnone hfalse id (mem_bucket.mpr hmem) hid

/-! ## Keeping the table -/

/-- Only the entries, the hash function and the interned strings matter. -/
theorem Fits.congr {table' : InternTable} (hf : table.Fits h)
    (hentries : table'.entries = table.entries) (hhash : table'.hash = table.hash)
    (hinterned : ∀ id w, h'.Interned id w ↔ h.Interned id w) : table'.Fits h' where
  entries e he := by
    obtain ⟨w, hw, hash⟩ := hf.entries e (hentries ▸ he)
    exact ⟨w, (hinterned e.2 w).mpr hw, hhash ▸ hash⟩
  complete id w hw := by
    obtain ⟨hash, hmem⟩ := hf.complete id w ((hinterned id w).mp hw)
    exact ⟨hash, hentries ▸ hmem⟩
  unique id id' w hw hw' :=
    hf.unique id id' w ((hinterned id w).mp hw) ((hinterned id' w).mp hw')
  nodup := hentries ▸ hf.nodup

/-- The entries of the strings that are still live. -/
theorem Fits.retain (hf : table.Fits h)
    (hinterned : ∀ id w, h'.Interned id w ↔ h'.isLive id = true ∧ h.Interned id w) :
    (table.retain h'.isLive).Fits h' where
  entries e he := by
    obtain ⟨hmem, hlive⟩ := Array.mem_filter.mp he
    obtain ⟨w, hw, hash⟩ := hf.entries e hmem
    exact ⟨w, (hinterned e.2 w).mpr ⟨hlive, hw⟩, hash⟩
  complete id w hw := by
    obtain ⟨hlive, hbefore⟩ := (hinterned id w).mp hw
    obtain ⟨hash, hmem⟩ := hf.complete id w hbefore
    exact ⟨hash, Array.mem_filter.mpr ⟨hmem, hlive⟩⟩
  unique id id' w hw hw' :=
    hf.unique id id' w ((hinterned id w).mp hw).2 ((hinterned id' w).mp hw').2
  nodup := by
    refine hf.nodup.sublist (List.Sublist.map _ ?_)
    rw [InternTable.retain, Array.toList_filter]
    exact List.filter_sublist

/-- A new canonical string is entered. -/
theorem Fits.insert (hf : table.Fits h) (hnew : ∀ id, ¬ h.Interned id w)
    (hfresh : ∀ v, ¬ h.Interned id v)
    (hinterned : ∀ j v, h'.Interned j v ↔ h.Interned j v ∨ (j = id ∧ v = w)) :
    (table.insert (table.hash w) id).Fits h' where
  entries e he := by
    rcases Array.mem_push.mp he with hmem | rfl
    · obtain ⟨v, hv, hash⟩ := hf.entries e hmem
      exact ⟨v, (hinterned e.2 v).mpr (Or.inl hv), hash⟩
    · exact ⟨w, (hinterned id w).mpr (Or.inr ⟨rfl, rfl⟩), rfl⟩
  complete j v hv := by
    rcases (hinterned j v).mp hv with hbefore | ⟨rfl, rfl⟩
    · obtain ⟨hash, hmem⟩ := hf.complete j v hbefore
      exact ⟨hash, Array.mem_push.mpr (Or.inl hmem)⟩
    · exact ⟨table.hash v, Array.mem_push.mpr (Or.inr rfl)⟩
  unique j j' v hv hv' := by
    -- two entries of one content would both be old, or the new content would have been there
    rcases (hinterned j v).mp hv with hj | ⟨rfl, rfl⟩
    · rcases (hinterned j' v).mp hv' with hj' | ⟨rfl, rfl⟩
      · exact hf.unique j j' v hj hj'
      · exact absurd hj (hnew j)
    · rcases (hinterned j' v).mp hv' with hj' | ⟨rfl, -⟩
      · exact absurd hj' (hnew j')
      · rfl
  nodup := by
    rw [InternTable.insert, Array.toList_push, List.map_append, List.nodup_append]
    refine ⟨hf.nodup, by simp, fun j hj k hk => ?_⟩
    obtain rfl : k = id := by simpa using hk
    rintro rfl
    obtain ⟨e, he, rfl⟩ := List.mem_map.mp hj
    obtain ⟨v, hv, -⟩ := hf.entries e (Array.mem_toList_iff.mp he)
    exact hfresh v hv

theorem fits_empty (hash : List UInt16 → UInt64) (hnone : ∀ id w, ¬ h.Interned id w) :
    (InternTable.empty hash).Fits h where
  entries e he := by simp [InternTable.empty] at he
  complete id w hw := absurd hw (hnone id w)
  unique id id' w hw := absurd hw (hnone id w)
  nodup := by simp [InternTable.empty]

end InternTable

end ManagedHeap
