import ManagedHeap.Object.Kind
import ManagedHeap.Value

/-!
# Why an operation fails

Every way in which an operation on the heap can end without a result.  The checks of
the library come with a message.  The faults at the end of the list are limits of the
machine (an index past the end of a buffer, a unit that does not fit its encoding, a
buffer that cannot be made, a sum that does not fit a word, a count that does not fit 32
bits), which have none.
-/

namespace ManagedHeap

inductive Fault where
  /-- A new string would be longer than the configuration allows. -/
  | stringTooLong (length max : Nat)
  | deadObject
  | notAString (id : Handle)
  | notAnArray (id : Handle)
  | notADictionary (id : Handle)
  | notAContext (id : Handle)
  | notAClosure (id : Handle)
  | notAShape (id : Handle)
  | notAShapeCache (id : Handle)
  | notARecord (id : Handle) (found : Kind)
  | notANumber (value : Value)
  | notInterned (name : Handle)
  | wrongKeyKind
  /-- A range that is no range of the string. -/
  | sliceOutOfBounds (start stop length : Nat)
  /-- A position past the end of a string. -/
  | unitOutOfBounds
  | indexOutOfBounds (index : Nat)
  | contextTooSmall (length : Nat)
  | propertyCountMismatch
  /-- An allocation while the gate is closed. -/
  | allocationDisallowed
  | outOfMemory (size : Nat) (kind : Kind) (space : Space)
  /-- A short concatenation reads the buffers of its operands, and this one has none. -/
  | operandWithoutBuffer (id : Handle)
  /-- The hash of a string is computed from its buffer, and this one has none. -/
  | hashWithoutBuffer (id : Handle)
  /-- Only a string with a buffer can be the canonical one of its content. -/
  | internWithoutBuffer
  /-- What was made for some content is no string. -/
  | unreachable
  /-- An index or a range outside a buffer. -/
  | outOfRange
  /-- A unit that does not fit the narrow encoding. -/
  | unitTooWide
  /-- A buffer of more bytes than a buffer can have. -/
  | bufferTooLarge
  /-- A buffer for a text without the byte for its terminator. -/
  | bufferTooSmall
  /-- A sum or a difference that does not fit a machine word. -/
  | wordOverflow
  /-- A count that does not fit 32 bits. -/
  | countOverflow
  /-- A computation that would not come to an end. -/
  | endless
deriving DecidableEq, Repr

namespace Fault

/-- A message about one object. -/
def about (what : String) (id : Handle) : Option String :=
  some (what ++ ": " ++ id.text)

/-- The text of a fault.  Faults of the machine have none. -/
def message : Fault → Option String
  | .stringTooLong length max =>
    some ("Invalid string length: " ++ toString length ++ " exceeds the maximum of " ++ toString max)
  | .deadObject => some "Object was garbage collected"
  | .notAString id => about "Not a string" id
  | .notAnArray id => about "Not a fixed array" id
  | .notADictionary id => about "Not a dictionary" id
  | .notAContext id => about "Not a context" id
  | .notAClosure id => about "Not a closure" id
  | .notAShape id => about "Not a shape" id
  | .notAShapeCache id => about "Not a shape cache" id
  | .notARecord id found => some ("not a struct: " ++ id.text ++ " is " ++ found.name)
  | .notANumber value => some ("not a number: " ++ value.describe)
  | .notInterned name => about "Property name is not an internalized string" name
  | .wrongKeyKind => some "Dictionary key kind does not match the dictionary"
  | .sliceOutOfBounds start stop length =>
    some ("Slice bounds out of range: " ++ toString start ++ ".." ++ toString stop ++ " of "
      ++ toString length)
  | .unitOutOfBounds => some "Slice bounds out of range"
  | .indexOutOfBounds index => some ("Index out of bounds: " ++ toString index)
  | .contextTooSmall length =>
    some ("Function context is smaller than the fixed header: " ++ toString length)
  | .propertyCountMismatch => some "Property value count does not match the shape"
  | .allocationDisallowed => some "Allocation inside a no-allocation region"
  | .outOfMemory size kind space =>
    some ("fatal: out of memory: " ++ toString size ++ " bytes for " ++ kind.name ++ " in "
      ++ space.name ++ " space")
  | .operandWithoutBuffer id => about "short concat operand is not flat" id
  | .hashWithoutBuffer id => about "hashing a string without its own buffer" id
  | .internWithoutBuffer => some "only flat and external strings can be internalized"
  | .unreachable => some "internal error: entered unreachable code"
  | .outOfRange => none
  | .unitTooWide => none
  | .bufferTooLarge => none
  | .bufferTooSmall => none
  | .wordOverflow => none
  | .countOverflow => none
  | .endless => none

end Fault

end ManagedHeap
