import ManagedHeap.Fault
import ManagedHeap.Heap.Marks
import ManagedHeap.Object

/-!
# The heap

A heap has a table of handles and two arenas, one for each space.  An arena is a row
of slots with a count of the bytes in use.  An occupied handle gives the location of
its object, and each resident of an arena knows the handle that owns it.  Handles and
slots that were given back are used again, the last one first.

Readers are functions of a heap that return `Except Fault`.  Operations that change
the heap are in `HeapM`; when one of them fails, the heap stays as the failure left it.
-/

namespace ManagedHeap

/-- The first number that does not fit a machine word. -/
def wordLimit : Nat := UInt64.size

/-! ## Arenas -/

/-- An object in its slot, with the handle that names it and the bytes that it was
accounted for when it was placed or last measured. -/
structure Resident where
  owner : Handle
  size : Nat
  object : Object
deriving DecidableEq, Repr

/-- The slots of one space.  `free` holds the empty ones, the next to use first. -/
structure Arena where
  slots : Array (Option Resident)
  free : List Nat
  used : Nat
  limit : Nat
deriving DecidableEq, Repr

namespace Arena

def empty (limit : Nat) : Arena :=
  ⟨#[], [], 0, limit⟩

/-- Whether an object of a size can be placed.  A sum past the machine word counts as
the largest word. -/
def hasRoom (a : Arena) (size : Nat) : Bool :=
  min (a.used + size) (wordLimit - 1) ≤ a.limit

/-- Places a resident in the slot that became empty last, or in a new one. -/
def insert (resident : Resident) : EStateM Fault Arena Nat := do
  let a ← get
  if wordLimit ≤ a.used + resident.size then throw .wordOverflow
  let used := a.used + resident.size
  match a.free with
  | slot :: free =>
    set { a with slots := a.slots.setIfInBounds slot (some resident), free, used }
    return slot
  | [] =>
    set { a with slots := a.slots.push (some resident), used }
    return a.slots.size

/-- Empties a slot. -/
def take (slot : Nat) : EStateM Fault Arena Resident := do
  let a ← get
  match a.slots[slot]? with
  | none => throw .outOfRange
  | some none => throw .deadObject
  | some (some resident) =>
    let slots := a.slots.setIfInBounds slot none
    if a.used < resident.size then
      set { a with slots }
      throw .wordOverflow
    set { a with slots, free := slot :: a.free, used := a.used - resident.size }
    return resident

/-- Drops the empty slots at the end of the row. -/
def compactTail (a : Arena) : Arena :=
  let slots := a.slots.popWhile Option.isNone
  { a with slots, free := a.free.filter (· < slots.size) }

/-- The residents, in the order of their slots. -/
def residents (a : Arena) : List Resident :=
  a.slots.toList.filterMap id

def objectCount (a : Arena) : Nat :=
  a.residents.length

end Arena

/-! ## The heap and its readers -/

/-- Where the object of a handle is. -/
structure Location where
  space : Space
  slot : Nat
deriving DecidableEq, Repr

structure Heap where
  handles : Array (Option Location)
  freeHandles : List Handle
  young : Arena
  old : Arena
  marks : Marks
  scavenges : Nat
  fullCollections : Nat
deriving DecidableEq, Repr

/-- Computations that change a heap. -/
abbrev HeapM := EStateM Fault Heap

namespace Heap

/-- A heap without objects, with a limit of bytes for each space. -/
def empty (youngLimit oldLimit : Nat) : Heap where
  handles := #[]
  freeHandles := []
  young := .empty youngLimit
  old := .empty oldLimit
  marks := .empty
  scavenges := 0
  fullCollections := 0

def arena (h : Heap) : Space → Arena
  | .young => h.young
  | .old => h.old

def setArena (h : Heap) (space : Space) (a : Arena) : Heap :=
  match space with
  | .young => { h with young := a }
  | .old => { h with old := a }

/-- Whether a handle names an object. -/
def isLive (h : Heap) (id : Handle) : Bool :=
  h.handles[id.index]?.join.isSome

/-- The location of a live object. -/
def locate (h : Heap) (id : Handle) : Except Fault Location :=
  match h.handles[id.index]? with
  | some (some location) => .ok location
  | _ => .error .deadObject

/-- The resident at a location. -/
def residentAt (h : Heap) (location : Location) : Except Fault Resident :=
  match (h.arena location.space).slots[location.slot]? with
  | none => .error .outOfRange
  | some none => .error .deadObject
  | some (some resident) => .ok resident

/-- The object that a handle names. -/
def find (h : Heap) (id : Handle) : Except Fault Object := do
  return (← h.residentAt (← h.locate id)).object

def spaceOf (h : Heap) (id : Handle) : Except Fault Space := do
  return (← h.locate id).space

def isMarked (h : Heap) (id : Handle) : Bool :=
  h.marks.contains id

/-- The string that a handle names. -/
def text (h : Heap) (id : Handle) : Except Fault Text := do
  match ← h.find id with
  | .string text => return text
  | _ => throw (.notAString id)

end Heap

/-! ## Operations -/

namespace HeapM

/-- Reads the heap. -/
def read (f : Heap → Except Fault α) : HeapM α := do
  match f (← get) with
  | .ok a => return a
  | .error e => throw e

/-- Changes one arena. -/
def onArena (space : Space) (act : EStateM Fault Arena α) : HeapM α := fun h =>
  match act (h.arena space) with
  | .ok r a => .ok r (h.setArena space a)
  | .error e a => .error e (h.setArena space a)

/-- Takes a handle to use: the one that was given back last, or the next new one. -/
def newHandle : HeapM Handle := do
  let h ← get
  match h.freeHandles with
  | id :: rest =>
    set { h with freeHandles := rest }
    return id
  | [] =>
    set { h with handles := h.handles.push none }
    return ⟨h.handles.size⟩

/-- Lets a handle name the object at a location. -/
def bindHandle (id : Handle) (location : Location) : HeapM Unit :=
  modify fun h => { h with handles := h.handles.setIfInBounds id.index (some location) }

/-- Gives a handle back. -/
def releaseHandle (id : Handle) : HeapM Unit :=
  modify fun h =>
    { h with
      handles := h.handles.setIfInBounds id.index none
      freeHandles := id :: h.freeHandles }

/-- An allocation, described before the object is placed. -/
structure Request where
  kind : Kind
  size : Nat
  space : Space
deriving DecidableEq, Repr

/-- The request for an object. -/
def Request.of (object : Object) (space : Space) : Request :=
  ⟨object.kind, object.size, space⟩

/-- Builds an object and places it, unless a collection is needed to make room for it. -/
def allocate? (request : Request) (build : Unit → Object) : HeapM (Option Handle) := do
  if ((← get).arena request.space).hasRoom request.size then
    let id ← newHandle
    let slot ← onArena request.space (Arena.insert ⟨id, request.size, build ()⟩)
    bindHandle id ⟨request.space, slot⟩
    return some id
  else
    return none

/-- Changes the resident at a location in place. -/
def modifyResident (location : Location) (f : Resident → Resident) : HeapM Unit := do
  let resident ← read (·.residentAt location)
  modify fun h =>
    let a := h.arena location.space
    h.setArena location.space
      { a with slots := a.slots.setIfInBounds location.slot (some (f resident)) }

/-- Changes an object in place.  It stays accounted for its former size. -/
def modifyObject (id : Handle) (f : Object → Object) : HeapM Unit := do
  let location ← read (·.locate id)
  modifyResident location fun r => { r with object := f r.object }

/-- Measures an object again after it grew or shrank in place. -/
def reaccount (id : Handle) : HeapM Unit := do
  let location ← read (·.locate id)
  let resident ← read (·.residentAt location)
  let size := resident.object.size
  modifyResident location fun r => { r with size }
  let a := (← get).arena location.space
  if a.used < resident.size ∨ wordLimit ≤ a.used - resident.size + size then throw .wordOverflow
  modify (·.setArena location.space { a with used := a.used - resident.size + size })

/-- Lets the handle `into` name the object of the handle `source`, which is given back.
The former object of `into` is dropped first.  The moved object stays where it is. -/
def transplant (source into : Handle) : HeapM Unit := do
  let target ← read (·.locate into)
  let _ ← onArena target.space (Arena.take target.slot)
  let location ← read (·.locate source)
  modifyResident location fun r => { r with owner := into }
  bindHandle into location
  releaseHandle source

end HeapM

end ManagedHeap
