import ManagedHeap.Handle

/-!
# Tagged values

A value is a small integer, one of four constants, a truth value or a reference to
a heap object.  Each value fits one 64-bit word: the upper 16 bits hold its tag and
the lower 48 bits its payload.  Numbers that are not small integers live on the heap.
-/

namespace ManagedHeap

/-- What a variable, an array element or an object slot can hold. -/
inductive Value where
  | int (n : Int32)
  | undefined
  | null
  | bool (b : Bool)
  | hole
  | ref (id : Handle)
deriving DecidableEq, Repr, Inhabited

namespace Value

/-- The object a value refers to, if it is a reference. -/
def handle? : Value → Option Handle
  | .ref id => some id
  | _ => none

/-- The name of a value's type. -/
def typeName : Value → String
  | .int _ => "smi"
  | .undefined => "undefined"
  | .null => "null"
  | .bool _ => "bool"
  | .hole => "hole"
  | .ref _ => "object"

/-- The spelling of a truth value. -/
def boolName (b : Bool) : String :=
  if b then "true" else "false"

/-- A value as diagnostics show it, its type with its payload in parentheses. -/
def describe : Value → String
  | .int n => "Smi(" ++ toString n.toInt ++ ")"
  | .undefined => "Undefined"
  | .null => "Null"
  | .bool b => "Bool(" ++ boolName b ++ ")"
  | .hole => "Hole"
  | .ref id => "Object(" ++ id.text ++ ")"

/-! ## The word of a value -/

/-- The tag in the upper 16 bits of a value's word. -/
def tag : Value → UInt64
  | .int _ => 1
  | .undefined => 2
  | .null => 3
  | .bool _ => 4
  | .hole => 5
  | .ref _ => 6

/-- The payload in the lower 48 bits of a value's word, of which at most 32 are used. -/
def payload : Value → UInt64
  | .int n => n.toUInt32.toUInt64
  | .bool b => if b then 1 else 0
  | .ref id => (UInt32.ofNat id.index).toUInt64
  | _ => 0

/-- The word that stores a value. -/
def word (v : Value) : UInt64 :=
  (v.tag <<< 48) ||| v.payload

/-- The payload read as a small integer, whatever the tag. -/
def payloadInt (v : Value) : Int32 :=
  v.word.toUInt32.toInt32

/-- The payload read as a truth value, whatever the tag. -/
def payloadBool (v : Value) : Bool :=
  v.word &&& 1 != 0

/-- The payload read as a handle, whatever the tag. -/
def payloadHandle (v : Value) : Handle :=
  ⟨v.word.toUInt32.toNat⟩

end Value

end ManagedHeap
