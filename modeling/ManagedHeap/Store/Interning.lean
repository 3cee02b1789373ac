import ManagedHeap.Store.Allocation

/-!
# Interning

An interned string is the one string of its content.  Interning some content finds
that string in the table or makes one, in the old space and as narrow as it can be.
A string of the old space with a buffer becomes the canonical one itself if its content
has none yet; other strings are copied.
-/

namespace ManagedHeap

namespace StoreM

/-- Replaces the layout of a composite by a flat copy of its content, under the same
handle.  Other strings are left as they are. -/
def flatten (id : Handle) : StoreM Handle := do
  match ← text id with
  | .composite node =>
    let units ← inspect (·.copyRange id 0 node.length node.encoding)
    let mark ← openScope
    let _ ← track id
    let flat ← allocateFlat units .young
    onHeap (HeapM.transplant flat id)
    closeScope mark
    return id
  | _ => return id

/-! ## Searching the table -/

/-- Searches the table and counts the search. -/
def search (hash : UInt64) (units : Units) : StoreM (Option Handle) := do
  let found ← read fun s => s.table.find? s.heap hash units
  modify fun s => { s with table := s.table.counted found }
  return found

/-- The canonical string of some content, if there is one. -/
def internedUnits? (units : Units) : StoreM (Option Handle) := do
  search ((← get).table.hashUnits units) units

/-- The canonical string with the content of a string, if there is one. -/
def interned? (id : Handle) : StoreM (Option Handle) := do
  if (← text id).isInterned then return some id
  let length := (← text id).length
  let units ← inspect (·.copyRange id 0 length .wide)
  internedUnits? units

/-! ## Interning content -/

/-- Refuses what cannot be canonical: anything but a string, and a string without a buffer. -/
def checkInternable (id : Handle) : StoreM Unit := do
  match ← inspect (·.find id) with
  | .string t => if t.buffer?.isNone then throw .internWithoutBuffer
  | _ => throw .unreachable

/-- Makes a string the canonical one of its content. -/
def markInterned (hash : UInt64) (id : Handle) : StoreM Unit := do
  checkInternable id
  onHeap (HeapM.modifyObject id fun
    | .string t => .string t.intern
    | object => object)
  modify fun s => { s with table := s.table.insert hash id }

/-- The canonical string of some content.  What is made for it is looked for once more
before it is entered, and the earlier entry wins. -/
def internUnits (units : Units) : StoreM Handle := do
  let hash := (← get).table.hashUnits units
  match ← search hash units with
  | some found => track found
  | none =>
    let id ← allocateFlat units.packed .old
    match ← read fun s => s.table.find? s.heap hash units with
    | some found => track found
    | none =>
      markInterned hash id
      return id

/-- The canonical string of a text. -/
def internText (content : String) : StoreM Handle :=
  internUnits (.ofText content)

/-- The canonical string with the content of a string. -/
def internString (id : Handle) : StoreM Handle := do
  if (← text id).isInterned then return id
  let id ← flatten id
  let space ← inspect (·.spaceOf id)
  let string ← text id
  if space = .old && string.buffer?.isSome then
    let hash ← read fun s => s.table.hashOf s.heap id
    let units ← inspect (·.content id)
    match ← search hash units with
    | some found => track found
    | none =>
      markInterned hash id
      return id
  else
    let units ← inspect (·.copyRange id 0 string.length string.encoding)
    internUnits units

/-- The canonical string of the `count` units of a string that begin at `start`. -/
def internRange (id : Handle) (start count : Nat) : StoreM Handle := do
  let encoding := (← text id).encoding
  if wordLimit ≤ start + count then throw .wordOverflow
  checkBuffer (count * encoding.width)
  let units ← inspect (·.copyRange id start (start + count) encoding)
  internUnits units

/-! ## Strings of one or two units -/

/-- The string of one unit.  Those of narrow units are canonical and kept for the life
of the store. -/
def singleUnit (unit : UInt16) : StoreM Handle := do
  if Units.isNarrowUnit unit then
    match (← get).singles[unit.toNat]?.join with
    | some id => track id
    | none =>
      let id ← internUnits (.ofByte unit.toUInt8)
      modify fun s => { s with singles := s.singles.setIfInBounds unit.toNat (some id) }
      return id
  else
    allocateFlat (.wide #[unit]) .young

/-- Whether a unit is a decimal digit. -/
def isDigitUnit (unit : UInt16) : Bool :=
  0x30 ≤ unit && unit ≤ 0x39

/-- A string of two units: the canonical one if there is one, otherwise a new flat one.
Two digits are not looked up. -/
def pairOfUnits (a b : UInt16) : StoreM Handle := do
  if isDigitUnit a && isDigitUnit b then
    allocateFlat (.pair a b) .young
  else
    match ← internedUnits? (.wide #[a, b]) with
    | some found => track found
    | none => allocateFlat (.pair a b) .young

end StoreM

end ManagedHeap
