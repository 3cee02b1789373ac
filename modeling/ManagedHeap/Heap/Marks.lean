import ManagedHeap.Handle

/-!
# Sets of marked handles

A collection marks what it reaches.  The marks are a packed set of bits, one for each
handle, which grows when a handle past its end is marked.
-/

namespace ManagedHeap

/-- A set of handles, 64 of them to a word. -/
structure Marks where
  words : Array UInt64
deriving DecidableEq, Repr, Inhabited

namespace Marks

def empty : Marks := ⟨#[]⟩

/-- Whether a handle is marked.  Past the end nothing is. -/
def contains (m : Marks) (id : Handle) : Bool :=
  match m.words[id.index / 64]? with
  | some word => word.toNat.testBit (id.index % 64)
  | none => false

/-- The same marks with room for a handle. -/
def reserve (m : Marks) (id : Handle) : Marks :=
  ⟨m.words ++ Array.replicate (id.index / 64 + 1 - m.words.size) 0⟩

/-- Marks a handle that has room. -/
def insert (m : Marks) (id : Handle) : Marks :=
  ⟨m.words.modify (id.index / 64) fun word => word ||| (1 <<< UInt64.ofNat (id.index % 64))⟩

/-- Marks a handle, and tells whether it was unmarked. -/
def set (m : Marks) (id : Handle) : Bool × Marks :=
  if m.contains id then (false, m) else (true, (m.reserve id).insert id)

end Marks

end ManagedHeap
