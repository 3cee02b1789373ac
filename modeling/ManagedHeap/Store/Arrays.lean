import ManagedHeap.Store.Allocation

/-!
# Arrays and dictionaries

All arrays without elements are one shared array.  A dictionary is keyed by interned
strings or by array indices and keeps the order in which its keys were added.
-/

namespace ManagedHeap

namespace StoreM

/-! ## Arrays -/

/-- An array of some values. -/
def newArray (items : Array Value) (space : Space) : StoreM Handle := do
  if items.isEmpty then track (← get).canonical.emptyArray
  else allocate (.array items) space

/-- An array with the same element everywhere, in a buffer with some bytes for each
element. -/
def newUniform (kind : Kind) (width length : Nat) (space : Space) (build : Unit → Object) :
    StoreM Handle := do
  checkBuffer (width * length)
  fulfil ⟨kind, Object.baseSize + width * length, space⟩ [] build

/-- An array of undefined values. -/
def newArrayOfSize (length : Nat) (space : Space) : StoreM Handle := do
  if length = 0 then track (← get).canonical.emptyArray
  else newUniform .array 8 length space fun _ => .array (Array.replicate length .undefined)

/-- An array of holes. -/
def newArrayOfHoles (length : Nat) (space : Space) : StoreM Handle := do
  if length = 0 then track (← get).canonical.emptyArray
  else newUniform .array 8 length space fun _ => .array (Array.replicate length .hole)

/-- An array of zeros. -/
def newDoubles (length : Nat) (space : Space) : StoreM Handle :=
  newUniform .doubles 8 length space fun _ => .doubles (Array.replicate length .zero)

/-- An array of zero bytes. -/
def newBytes (length : Nat) (space : Space) : StoreM Handle :=
  newUniform .bytes 1 length space fun _ => .bytes (Array.replicate length 0)

def arrayLength (id : Handle) : StoreM Nat :=
  return (← array id).size

/-- The element of a list of values at an index. -/
def element (items : Array Value) (index : Nat) : StoreM Value :=
  match items[index]? with
  | some value => return value
  | none => throw (.indexOutOfBounds index)

def arrayGet (id : Handle) (index : Nat) : StoreM Value := do
  element (← array id) index

def arraySet (id : Handle) (index : Nat) (value : Value) : StoreM Unit := do
  let items ← array id
  if items.size ≤ index then throw (.indexOutOfBounds index)
  onHeap (HeapM.modifyObject id fun
    | .array items => .array (items.setIfInBounds index value)
    | object => object)

/-- A copy of an array. -/
def copyArray (id : Handle) : StoreM Handle := do
  newArray (← array id) .young

/-- A copy of an array, cut or filled up with undefined values to a length. -/
def copyArrayOfSize (id : Handle) (length : Nat) : StoreM Handle := do
  let items ← array id
  checkBuffer (8 * length)
  newArray (items.take length ++ Array.replicate (length - items.size) .undefined) .young

/-! ## Dictionaries -/

/-- An empty dictionary with room for some entries.  A table that cannot be made is
refused. -/
def newDictionary (kind : KeyKind) (capacity : Nat) : StoreM Handle :=
  match Dictionary.withCapacity? kind capacity with
  | some d => allocate (.dictionary d) .young
  | none => throw .bufferTooLarge

/-- Sets the value of a key in a dictionary of its kind. -/
def dictionaryPut (id : Handle) (kind : KeyKind) (key : Key) (value : Value) :
    StoreM Handle := do
  let d ← dictionary id
  if d.kind ≠ kind then throw .wrongKeyKind
  growObject id fun
    | .dictionary d => .dictionary (d.insert key value)
    | object => object
  return id

/-- Sets the value of an interned name. -/
def dictionaryPutName (id name : Handle) (value : Value) : StoreM Handle := do
  if !(← text name).isInterned then throw (.notInterned name)
  dictionaryPut id .name (.name name) value

/-- Sets the value of an array index. -/
def dictionaryPutIndex (id : Handle) (index : Nat) (value : Value) : StoreM Handle :=
  dictionaryPut id .number (.index index) value

def dictionaryGet (id : Handle) (key : Key) : StoreM (Option Value) :=
  return (← dictionary id).find? key

end StoreM

end ManagedHeap
