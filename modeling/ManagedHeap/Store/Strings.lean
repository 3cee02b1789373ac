import ManagedHeap.Store.Interning

/-!
# Strings

Making strings from texts and units, concatenation and slicing.  Long results share
the strings that they are made of: a concatenation is then a composite of its operands
and a slice a view of the string with the buffer.  Short results are copies.
-/

namespace ManagedHeap

namespace StoreM

/-- Refuses a string that would be too long. -/
def checkLength (length : Nat) : StoreM Unit := do
  let max := (← get).config.maxStringLength
  if max < length then throw (.stringTooLong length max)

/-! ## New strings -/

/-- A string with some units, in their encoding. -/
def newString (units : Units) (space : Space) : StoreM Handle := do
  checkLength units.size
  allocateFlat units space

/-- A string with the units of a text, narrow if they fit. -/
def newText (content : String) (space : Space) : StoreM Handle :=
  newString (.ofText content) space

/-- A string with some units, narrow if they fit. -/
def newPacked (units : Units) (space : Space) : StoreM Handle :=
  newString units.packed space

/-- A string whose buffer is kept by the host. -/
def newExternal (units : Units) : StoreM Handle := do
  checkLength units.size
  allocate (.string (.external units false)) .young

/-! ## Concatenation -/

/-- The buffers of two short operands, one after the other. -/
def joinBuffers (h : Heap) (encoding : Encoding) (left right : Handle) : Except Fault Units := do
  let operands ← [left, right].mapM fun id => do
    match (← h.text id).buffer? with
    | some units => return units
    | none => throw (.operandWithoutBuffer id)
  operands.foldlM (fun out units =>
    match out.append? units with
    | some out => .ok out
    | none => .error .unitTooWide) (.empty encoding)

/-- The concatenation of two strings.  With an empty operand it is the other one. -/
def concat (left right : Handle) : StoreM Handle := do
  let leftLength := (← text left).length
  if leftLength = 0 then return right
  let rightLength := (← text right).length
  if rightLength = 0 then return left
  let length := leftLength + rightLength
  if length = 2 then
    let a ← inspect (·.unitAt left 0)
    let b ← inspect (·.unitAt right 0)
    return ← pairOfUnits a b
  checkLength length
  let first ← text left
  let second ← text right
  let encoding := first.encoding.join second.encoding
  let narrowData := encoding = .wide && first.knownNarrow && second.knownNarrow
  if length < (← get).config.compositeMinLength then
    let units ← inspect fun h => joinBuffers h encoding left right
    allocateFlat units .young
  else
    allocate (.string (.composite ⟨left, right, length, encoding, narrowData⟩)) .young

/-- The concatenation of two strings in a buffer of its own. -/
def flatConcat (left right : Handle) : StoreM Handle := do
  let first ← text left
  let second ← text right
  checkLength (first.length + second.length)
  let units ← inspect fun h => do
    let out ← h.copyRange left 0 first.length (first.encoding.join second.encoding)
    h.appendRange out right 0 second.length
  allocateFlat units .young

/-! ## Slicing -/

/-- The part of a string that holds a whole range, and where in that part the range
begins: composites are left as long as one side holds the range. -/
def descend (h : Heap) (length : Nat) : Nat → Handle → Nat → Except Fault (Handle × Nat)
  | 0, _, _ => .error .endless
  | steps + 1, id, offset => do
    match ← h.text id with
    | .composite node =>
      let split ← h.textLength node.left
      if split ≤ offset then descend h length steps node.right (offset - split)
      else if offset + length ≤ split then descend h length steps node.left offset
      else return (id, offset)
    | _ => return (id, offset)

/-- The offset that a view records, in 32 bits. -/
def recordedOffset (offset : Nat) : Nat :=
  offset % UInt32.size

/-- A view of a range of a string.  Its parent is a string with a buffer: the parent of
a view is taken instead of the view, and a composite is flattened. -/
def newView (source : Handle) (start length : Nat) : StoreM Handle := do
  checkCount length
  let (part, offset) ← inspect fun h => descend h length (h.pathBound start) source start
  let (parent, offset) ← do
    match ← text part with
    | .view node => pure (node.parent, offset + node.offset)
    | _ => pure (← flatten part, offset)
  let encoding := (← text parent).encoding
  allocate (.string (.view ⟨parent, recordedOffset offset, length, encoding⟩)) .young

/-- A part of a string that is not the whole. -/
def properSlice (source : Handle) (start stop : Nat) : StoreM Handle := do
  match stop - start with
  | 0 => track (← get).canonical.emptyString
  | 1 => singleUnit (← inspect (·.unitAt source start))
  | 2 =>
    let a ← inspect (·.unitAt source start)
    let b ← inspect (·.unitAt source (start + 1))
    pairOfUnits a b
  | length =>
    let config := (← get).config
    if !config.stringSlices || length < config.viewMinLength then
      let encoding := (← text source).encoding
      let units ← inspect (·.copyRange source start stop encoding)
      allocateFlat units .young
    else
      newView source start length

/-- The units of a string from `start` up to `stop`.  The whole string is its own
slice. -/
def slice (source : Handle) (start stop : Nat) : StoreM Handle := do
  let length := (← text source).length
  if stop < start ∨ length < stop then throw (.sliceOutOfBounds start stop length)
  if start = 0 ∧ stop = length then return source
  properSlice source start stop

/-! ## Reading -/

/-- The unit of a string at a position. -/
def unitAt (id : Handle) (i : Nat) : StoreM UInt16 := do
  if (← text id).length ≤ i then throw .unitOutOfBounds
  inspect (·.unitAt id i)

/-- The text of a string. -/
def toText (id : Handle) : StoreM String :=
  return (← inspect (·.content id)).text

/-- Whether two strings have the same content. -/
def sameText (a b : Handle) : StoreM Bool :=
  inspect (·.sameText a b)

end StoreM

end ManagedHeap
