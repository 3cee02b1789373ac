import ManagedHeap.Builtin
import ManagedHeap.Config
import ManagedHeap.Heap.Collect
import ManagedHeap.InternTable

/-!
# The store

A store is a heap together with what its clients share: the objects that are kept
alive, the canonical strings, the caches and the builtins.  Operations on a store are
computations in `StoreM`.  When one of them fails, the store stays as the failure left
it and can be used further.
-/

namespace ManagedHeap

/-- The objects that every store owns.  They are always alive. -/
structure Canonical where
  emptyString : Handle
  emptyArray : Handle
  nan : Handle
  infinity : Handle
  undefinedString : Handle
  nanString : Handle
  infinityString : Handle
  constructorString : Handle
deriving DecidableEq, Repr

namespace Canonical

/-- A handle that names no object. -/
def noObject : Handle := ⟨UInt32.size - 1⟩

/-- The canonical objects before they are made. -/
def unset : Canonical :=
  ⟨noObject, noObject, noObject, noObject, noObject, noObject, noObject, noObject⟩

def toList (c : Canonical) : List Handle :=
  [c.emptyString, c.emptyArray, c.nan, c.infinity, c.undefinedString, c.nanString,
    c.infinityString, c.constructorString]

end Canonical

/-- The gate that allocations pass.  It is open while no region is entered in which
nothing may be allocated; these regions nest. -/
structure Gate where
  depth : Nat
deriving DecidableEq, Repr

namespace Gate

def initial : Gate := ⟨0⟩

def isOpen (g : Gate) : Bool :=
  g.depth == 0

/-- Enters a region without allocations. -/
def enter (g : Gate) : Gate :=
  ⟨g.depth + 1⟩

/-- Leaves the region entered last. -/
def leave (g : Gate) : Gate :=
  ⟨g.depth - 1⟩

end Gate

/-- What a heap with outages records. -/
inductive OutageEvent where
  | refused (request : HeapM.Request)
  | collected (space : Space)
deriving DecidableEq, Repr

/-- A plan by which attempts to allocate are refused, whatever room there is. -/
structure Outages where
  /-- Whether an attempt is refused, by its number. -/
  refuses : Nat → Bool
  /-- The number of attempts so far. -/
  attempts : Nat
  log : Array OutageEvent

/-- No outages so far, and none to come. -/
def Outages.none : Outages :=
  ⟨fun _ => false, 0, #[]⟩

/-- A plan by which the next attempts, `count` of them, are refused and no others. -/
def Outages.refuseNext (o : Outages) (count : Nat) : Outages :=
  { o with refuses := fun attempt => attempt < o.attempts + count }

structure Store where
  heap : Heap
  config : Config
  gate : Gate
  /-- The objects kept alive by the open scopes, the latest one last. -/
  scope : Array Handle
  /-- The objects kept alive until they are released, with the number of releases due. -/
  persistent : List (Handle × Nat)
  table : InternTable
  /-- The canonical strings of one narrow unit, by their unit. -/
  singles : Array (Option Handle)
  /-- The texts of numbers, by the bits of the number, since the last collection. -/
  numberTexts : List (Double × Handle)
  builtins : Builtins
  canonical : Canonical
  lastScriptId : Int32
  collections : Nat
  shapeHits : Nat
  shapeMisses : Nat
  outages : Option Outages

/-- Computations that change a store. -/
abbrev StoreM := EStateM Fault Store

namespace StoreM

/-- Reads the store. -/
def read (f : Store → Except Fault α) : StoreM α := do
  match f (← get) with
  | .ok a => return a
  | .error e => throw e

/-- Reads the heap of the store. -/
def inspect (f : Heap → Except Fault α) : StoreM α :=
  read fun s => f s.heap

/-- Changes the heap of the store. -/
def onHeap (act : HeapM α) : StoreM α := fun s =>
  match act s.heap with
  | .ok a h => .ok a { s with heap := h }
  | .error e h => .error e { s with heap := h }

/-- Refuses a count that does not fit 32 bits. -/
def checkCount (count : Nat) : StoreM Unit := do
  if UInt32.size ≤ count then throw .countOverflow

/-! ## The objects of a kind -/

def context (id : Handle) : StoreM Context := do
  match ← inspect (·.find id) with
  | .context c => return c
  | _ => throw (.notAContext id)

def closure (id : Handle) : StoreM Closure := do
  match ← inspect (·.find id) with
  | .closure c => return c
  | _ => throw (.notAClosure id)

def shape (id : Handle) : StoreM Shape := do
  match ← inspect (·.find id) with
  | .shape s => return s
  | _ => throw (.notAShape id)

def shapeCache (id : Handle) : StoreM ShapeCache := do
  match ← inspect (·.find id) with
  | .shapeCache c => return c
  | _ => throw (.notAShapeCache id)

def array (id : Handle) : StoreM (Array Value) := do
  match ← inspect (·.find id) with
  | .array items => return items
  | _ => throw (.notAnArray id)

def dictionary (id : Handle) : StoreM Dictionary := do
  match ← inspect (·.find id) with
  | .dictionary d => return d
  | _ => throw (.notADictionary id)

def text (id : Handle) : StoreM Text :=
  inspect (·.text id)

end StoreM

end ManagedHeap
