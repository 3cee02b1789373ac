import ManagedHeap.Heap

/-!
# Reading strings

The content of a string is spread over the buffers that its layout refers to.  Two
walks read it: `unitAt` follows one path down to a single unit, and `copyRange` visits
the buffers of a range from left to right with a list of the ranges still to copy.
Both are loops over one layout at a time, so the depth of a string does not matter.

Neither walk checks that the layouts fit together.  On a string whose parts do not
contain themselves it comes to an end well within its bound on the number of steps.
-/

namespace ManagedHeap

namespace Heap

/-- The recorded length of a string. -/
def textLength (h : Heap) (id : Handle) : Except Fault Nat :=
  return (← h.text id).length

/-- The recorded encoding of a string. -/
def textEncoding (h : Heap) (id : Handle) : Except Fault Encoding :=
  return (← h.text id).encoding

/-- A bound on the number of layouts on the way to a unit.  A view moves the position
by less than `UInt32.size`, and a part that is entered again has a smaller position. -/
def pathBound (h : Heap) (position : Nat) : Nat :=
  (h.handles.size + 1) * (position + UInt32.size)

/-! ## One unit -/

/-- The unit at a position, if it is found within a number of steps. -/
def unitWithin (h : Heap) : Nat → Handle → Nat → Except Fault UInt16
  | 0, _, _ => .error .endless
  | steps + 1, id, i => do
    match ← h.text id with
    | .flat units _ | .external units _ =>
      match units.get? i with
      | some u => return u
      | none => throw .outOfRange
    | .view node =>
      if wordLimit ≤ i + node.offset then throw .wordOverflow
      else h.unitWithin steps node.parent (i + node.offset)
    | .composite node =>
      let split ← h.textLength node.left
      if i < split then h.unitWithin steps node.left i
      else h.unitWithin steps node.right (i - split)

/-- The unit of a string at a position. -/
def unitAt (h : Heap) (id : Handle) (i : Nat) : Except Fault UInt16 :=
  h.unitWithin (h.pathBound i) id i

/-! ## A range of units -/

/-- A range of units of a string. -/
structure TextRange where
  id : Handle
  start : Nat
  stop : Nat
deriving DecidableEq, Repr

/-- Appends the ranges of a list, the first one first, within a number of steps. -/
def copyWithin (h : Heap) : Nat → List TextRange → Units → Except Fault Units
  | _, [], out => return out
  | 0, _ :: _, _ => .error .endless
  | steps + 1, ⟨id, start, stop⟩ :: rest, out => do
    if stop ≤ start then h.copyWithin steps rest out
    else match ← h.text id with
    | .flat units _ | .external units _ =>
      match units.slice? start stop with
      | none => throw .outOfRange
      | some part =>
        match out.append? part with
        | none => throw .unitTooWide
        | some out => h.copyWithin steps rest out
    | .view node =>
      if wordLimit ≤ stop + node.offset then throw .wordOverflow
      else h.copyWithin steps (⟨node.parent, start + node.offset, stop + node.offset⟩ :: rest) out
    | .composite node =>
      let split ← h.textLength node.left
      let after := if split < stop then [⟨node.right, start - split, stop - split⟩] else []
      let before := if start < split then [⟨node.left, start, min stop split⟩] else []
      h.copyWithin steps (before ++ after ++ rest) out

/-- Appends a range of units of a string to a buffer.  Every unit of the range is at
the end of one path, and the steps on all these paths are enough. -/
def appendRange (h : Heap) (out : Units) (id : Handle) (start stop : Nat) :
    Except Fault Units :=
  h.copyWithin (1 + (stop - start) * (h.pathBound stop + 1)) [⟨id, start, stop⟩] out

/-- A range of units of a string in a buffer of its own. -/
def copyRange (h : Heap) (id : Handle) (start stop : Nat) (encoding : Encoding) :
    Except Fault Units :=
  h.appendRange (.empty encoding) id start stop

/-- The whole content of a string in its own encoding.  A string with a buffer needs
no copy. -/
def content (h : Heap) (id : Handle) : Except Fault Units := do
  let text ← h.text id
  match text.buffer? with
  | some units => return units
  | none => h.copyRange id 0 text.length text.encoding

/-- Whether a string is known to hold narrow units only. -/
def knownNarrow (h : Heap) (id : Handle) : Except Fault Bool :=
  return (← h.text id).knownNarrow

/-- Whether two strings have the same content.  Two interned strings have the same
content only if they are one string. -/
def sameText (h : Heap) (a b : Handle) : Except Fault Bool := do
  if a = b then return true
  let first ← h.text a
  let second ← h.text b
  if first.length ≠ second.length then return false
  if first.isInterned && second.isInterned then return false
  match first.buffer?, second.buffer? with
  | some u, some v => return u.sameContent v
  | _, _ =>
    let u ← h.copyRange a 0 first.length .wide
    let v ← h.copyRange b 0 first.length .wide
    return u == v

end Heap

end ManagedHeap
