import ManagedHeap.Heap.Content

/-!
# The interning table

The table knows the canonical strings by the hash of their content.  It does not keep
them alive: entries whose strings died are dropped after each collection.  The hash
function is part of the table.  It sees the content only, so it is the same for both
encodings; nothing else is asked of it, and different contents may have one hash.
-/

namespace ManagedHeap

structure InternTable where
  hash : List UInt16 → UInt64
  /-- The canonical strings with the hashes of their content, the oldest first. -/
  entries : Array (UInt64 × Handle)
  hits : Nat
  misses : Nat

namespace InternTable

/-- A hash that mixes the units into a seed one after another. -/
def mixUnits (seed : UInt64) (units : List UInt16) : UInt64 :=
  units.foldl (fun h u => (h ^^^ u.toUInt64) * 0x100000001b3) (seed ^^^ 0xcbf29ce484222325)

def empty (hash : List UInt16 → UInt64) : InternTable :=
  ⟨hash, #[], 0, 0⟩

def size (t : InternTable) : Nat :=
  t.entries.size

def isEmpty (t : InternTable) : Bool :=
  t.size == 0

def hashUnits (t : InternTable) (units : Units) : UInt64 :=
  t.hash units.toList

/-- The hash of a string that has a buffer. -/
def hashOf (t : InternTable) (h : Heap) (id : Handle) : Except Fault UInt64 := do
  match (← h.text id).buffer? with
  | some units => return t.hashUnits units
  | none => throw (.hashWithoutBuffer id)

/-- The first live string of a list with some content. -/
def firstWith (h : Heap) (units : Units) : List Handle → Except Fault (Option Handle)
  | [] => return none
  | id :: rest => do
    if h.isLive id then
      match (← h.text id).buffer? with
      | some buffer => if buffer.sameContent units then return some id
      | none => pure ()
    firstWith h units rest

/-- The entries with a hash. -/
def bucket (t : InternTable) (hash : UInt64) : List Handle :=
  (t.entries.filter fun e => e.1 == hash).toList.map Prod.snd

/-- The canonical string with some content, found by its hash. -/
def find? (t : InternTable) (h : Heap) (hash : UInt64) (units : Units) :
    Except Fault (Option Handle) :=
  firstWith h units (t.bucket hash)

/-- The table after a search, which counts as a hit or as a miss. -/
def counted (t : InternTable) (found : Option Handle) : InternTable :=
  match found with
  | some _ => { t with hits := t.hits + 1 }
  | none => { t with misses := t.misses + 1 }

def insert (t : InternTable) (hash : UInt64) (id : Handle) : InternTable :=
  { t with entries := t.entries.push (hash, id) }

/-- Keeps the entries of some strings. -/
def retain (t : InternTable) (keep : Handle → Bool) : InternTable :=
  { t with entries := t.entries.filter fun e => keep e.2 }

end InternTable

end ManagedHeap
