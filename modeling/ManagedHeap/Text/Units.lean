import ManagedHeap.Capacity
import ManagedHeap.Text.Utf16

/-!
# Code units in two encodings

The content of a string is a sequence of 16-bit code units.  A buffer stores it
with one byte for each unit, if every unit fits, or with two.  `Units.toList` is the
content; everything that reads a buffer reads that, whatever the encoding.
-/

namespace ManagedHeap

/-- How a buffer stores its code units. -/
inductive Encoding where
  | narrow
  | wide
deriving DecidableEq, Repr, Inhabited

def Encoding.name : Encoding → String
  | .narrow => "narrow"
  | .wide => "wide"

def Encoding.all : List Encoding :=
  [.narrow, .wide]

/-- The bytes of a unit. -/
def Encoding.width : Encoding → Nat
  | .narrow => 1
  | .wide => 2

/-- The encoding that can hold what two encodings hold. -/
def Encoding.join : Encoding → Encoding → Encoding
  | .narrow, .narrow => .narrow
  | _, _ => .wide

/-- A buffer of code units. -/
inductive Units where
  | narrow (bytes : Array UInt8)
  | wide (units : Array UInt16)
deriving DecidableEq, Repr, Inhabited

namespace Units

/-- Whether a code unit fits the narrow encoding. -/
def isNarrowUnit (u : UInt16) : Bool :=
  u ≤ 0xff

/-- The content of a buffer. -/
def toList : Units → List UInt16
  | .narrow bytes => bytes.toList.map UInt8.toUInt16
  | .wide units => units.toList

def size : Units → Nat
  | .narrow bytes => bytes.size
  | .wide units => units.size

def isEmpty (u : Units) : Bool :=
  u.size == 0

def encoding : Units → Encoding
  | .narrow _ => .narrow
  | .wide _ => .wide

/-- The bytes that a buffer takes. -/
def byteSize : Units → Nat
  | .narrow bytes => bytes.size
  | .wide units => 2 * units.size

/-- The code unit at a position. -/
def get? (u : Units) (i : Nat) : Option UInt16 :=
  match u with
  | .narrow bytes => bytes[i]?.map UInt8.toUInt16
  | .wide units => units[i]?

/-- The units from one position up to another, if they are positions of the buffer
in this order. -/
def slice? (u : Units) (start stop : Nat) : Option Units :=
  if start ≤ stop ∧ stop ≤ u.size then
    match u with
    | .narrow bytes => some (.narrow (bytes.extract start stop))
    | .wide units => some (.wide (units.extract start stop))
  else none

/-- Whether every unit fits the narrow encoding. -/
def fitsNarrow : Units → Bool
  | .narrow _ => true
  | .wide units => units.all isNarrowUnit

/-- Whether two buffers hold the same content, in whatever encoding. -/
def sameContent : Units → Units → Bool
  | .narrow a, .narrow b => a == b
  | .wide a, .wide b => a == b
  | .narrow a, .wide b => a.map UInt8.toUInt16 == b
  | .wide a, .narrow b => a == b.map UInt8.toUInt16

/-! ## Building buffers -/

/-- A buffer without units. -/
def empty : Encoding → Units
  | .narrow => .narrow #[]
  | .wide => .wide #[]

/-- A buffer without units that has room for some, if there can be such a buffer. -/
def withCapacity? (encoding : Encoding) (capacity : Nat) : Option Units :=
  if capacity * encoding.width < bufferLimit then some (empty encoding) else none

/-- Appends units to a buffer in its own encoding.  There is no result if the buffer
is narrow and one of the units is not. -/
def append? (out : Units) (source : Units) : Option Units :=
  match out, source with
  | .narrow a, .narrow b => some (.narrow (a ++ b))
  | .narrow a, .wide b =>
    if b.all isNarrowUnit then some (.narrow (a ++ b.map UInt16.toUInt8)) else none
  | .wide a, .narrow b => some (.wide (a ++ b.map UInt8.toUInt16))
  | .wide a, .wide b => some (.wide (a ++ b))

/-- The same content, narrow if every unit fits. -/
def packed : Units → Units
  | .narrow bytes => .narrow bytes
  | .wide units =>
    if units.all isNarrowUnit then .narrow (units.map UInt16.toUInt8) else .wide units

/-- A buffer of one narrow unit. -/
def ofByte (b : UInt8) : Units :=
  .narrow #[b]

/-- A buffer of two units, narrow if both fit. -/
def pair (a b : UInt16) : Units :=
  packed (.wide #[a, b])

/-! ## Texts -/

/-- The code units of a text, two bytes each. -/
def ofTextWide (text : String) : Units :=
  .wide (Utf16.encode text).toArray

/-- The code units of a text, narrow if every character is at most `0xff`. -/
def ofText (text : String) : Units :=
  if text.toList.all (fun c => c.toNat ≤ 0xff) then
    .narrow (text.toList.map fun c => UInt8.ofNat c.toNat).toArray
  else ofTextWide text

/-- The text of a buffer.  Surrogates without a partner are replaced. -/
def text (u : Units) : String :=
  Utf16.decode u.toList

end Units

end ManagedHeap
