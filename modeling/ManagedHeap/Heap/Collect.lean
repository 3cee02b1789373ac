import ManagedHeap.Heap

/-!
# Collections

A collection marks every object that can be reached from its roots and frees the
others: those of the young space, and in a full collection also those of the old
space.  Afterwards the young objects that are left are moved to the old space, under
the same handles.
-/

namespace ManagedHeap

/-! ## Marking -/

/-- The first pending handle that is live and unmarked, with the handles after it and
the marks it is added to. -/
def Heap.nextUnmarked (h : Heap) (marks : Marks) :
    List Handle → Option (Handle × List Handle × Marks)
  | [] => none
  | id :: rest =>
    if h.isLive id then
      match marks.set id with
      | (true, marks) => some (id, rest, marks)
      | (false, _) => h.nextUnmarked marks rest
    else h.nextUnmarked marks rest

/-- Marks what is pending and what can be reached from it, and counts it.  Each round
marks one live object, so there are at most as many rounds as handles. -/
def Heap.markFrom (h : Heap) : Nat → List Handle → Nat → EStateM Fault Marks Nat
  | 0, _, count => return count
  | rounds + 1, pending, count => do
    match h.nextUnmarked (← get) pending with
    | none => return count
    | some (id, rest, marks) =>
      set marks
      match h.find id with
      | .ok object => h.markFrom rounds (object.children.reverse ++ rest) (count + 1)
      | .error e => throw e

namespace HeapM

/-- Marks everything that can be reached from the roots and counts it.  Handles that
name no object are passed over. -/
def markAll (roots : List Handle) : HeapM Nat := fun h =>
  match h.markFrom h.handles.size roots.reverse 0 .empty with
  | .ok count marks => .ok count { h with marks }
  | .error e marks => .error e { h with marks }

/-! ## Sweeping -/

/-- The objects that a sweep freed. -/
structure Freed where
  objects : Nat
  bytes : Nat
deriving DecidableEq, Repr

/-- Frees the object in a slot unless its owner is marked. -/
def sweepSlot (space : Space) (freed : Freed) (slot : Nat) : HeapM Freed := do
  let h ← get
  match (h.arena space).slots[slot]?.join with
  | none => return freed
  | some resident =>
    if h.isMarked resident.owner then return freed
    let resident ← onArena space (Arena.take slot)
    releaseHandle resident.owner
    return ⟨freed.objects + 1, freed.bytes + resident.size⟩

/-- Frees the unmarked objects of a space, in the order of their slots. -/
def sweep (space : Space) : HeapM Freed := do
  let freed ← (List.range ((← get).arena space).slots.size).foldlM (sweepSlot space) ⟨0, 0⟩
  modify fun h => h.setArena space (h.arena space).compactTail
  return freed

/-! ## Promotion -/

/-- Moves the object in a slot of the young space to the old space. -/
def promoteSlot (promoted : Nat) (slot : Nat) : HeapM Nat := do
  match (← get).young.slots[slot]?.join with
  | none => return promoted
  | some _ =>
    let resident ← onArena .young (Arena.take slot)
    let place ← onArena .old (Arena.insert resident)
    bindHandle resident.owner ⟨.old, place⟩
    return promoted + 1

/-- Moves every object of the young space to the old space. -/
def promoteSurvivors : HeapM Nat := do
  let promoted ← (List.range (← get).young.slots.size).foldlM promoteSlot 0
  modify fun h => { h with young := { h.young with slots := #[], free := [] } }
  return promoted

/-! ## A whole collection -/

/-- What a collection did. -/
structure Collected where
  space : Space
  marked : Nat
  freed : Freed
  promoted : Nat
deriving DecidableEq, Repr

/-- Frees the unmarked objects of the young space, or of both spaces, and counts the
collection. -/
def sweepFor (space : Space) : HeapM Freed := do
  let young ← sweep .young
  match space with
  | .young =>
    modify fun h => { h with scavenges := h.scavenges + 1 }
    return young
  | .old =>
    let old ← sweep .old
    if wordLimit ≤ young.bytes + old.bytes then throw .wordOverflow
    modify fun h => { h with fullCollections := h.fullCollections + 1 }
    return ⟨young.objects + old.objects, young.bytes + old.bytes⟩

/-- Collects the young space, or both spaces. -/
def collect (space : Space) (roots : List Handle) : HeapM Collected := do
  let marked ← markAll roots
  let freed ← sweepFor space
  let promoted ← promoteSurvivors
  modify fun h => { h with marks := .empty }
  return ⟨space, marked, freed, promoted⟩

end HeapM

end ManagedHeap
