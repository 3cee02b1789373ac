import ManagedHeap.Capacity
import ManagedHeap.Double
import ManagedHeap.Object.Kind
import ManagedHeap.Text.Units
import ManagedHeap.Value

/-!
# Heap objects

The layouts of everything that lives on the heap, what each object is accounted for
(`Object.size`) and which objects it refers to (`Object.children`).  The collector
sees objects only through these two functions.
-/

namespace ManagedHeap

/-! ## Strings -/

/-- A string that stands for its left part followed by its right part. -/
structure Composite where
  left : Handle
  right : Handle
  length : Nat
  encoding : Encoding
  /-- Whether a wide composite is known to hold narrow units only. -/
  narrowData : Bool
deriving DecidableEq, Repr

/-- A string that stands for a range of its parent. -/
structure View where
  parent : Handle
  offset : Nat
  length : Nat
  encoding : Encoding
deriving DecidableEq, Repr

/-- The layouts of strings.  Flat and external strings have a buffer of their own,
the one kept by the heap, the other by its host; only these can be interned. -/
inductive Text where
  | flat (units : Units) (interned : Bool)
  | external (units : Units) (interned : Bool)
  | composite (node : Composite)
  | view (node : View)
deriving DecidableEq, Repr

namespace Text

/-- The name of a layout. -/
def layoutName : Text → String
  | .flat _ _ => "flat"
  | .external _ _ => "external"
  | .composite _ => "composite"
  | .view _ => "view"

/-- The length a string records. -/
def length : Text → Nat
  | .flat units _ => units.size
  | .external units _ => units.size
  | .composite node => node.length
  | .view node => node.length

/-- The encoding a string records. -/
def encoding : Text → Encoding
  | .flat units _ => units.encoding
  | .external units _ => units.encoding
  | .composite node => node.encoding
  | .view node => node.encoding

/-- The buffer of a string that has one. -/
def buffer? : Text → Option Units
  | .flat units _ => some units
  | .external units _ => some units
  | _ => none

def isInterned : Text → Bool
  | .flat _ interned => interned
  | .external _ interned => interned
  | _ => false

/-- A string as the canonical one of its content.  Strings without a buffer are not
changed. -/
def intern : Text → Text
  | .flat units _ => .flat units true
  | .external units _ => .external units true
  | text => text

/-- A check for narrow content that reads no flat buffer: it goes by the encoding and
by what a composite or the host's buffer is known to hold. -/
def knownNarrow : Text → Bool
  | .flat units _ => units.encoding == .narrow
  | .external units _ => units.fitsNarrow
  | .composite node => node.encoding == .narrow || node.narrowData
  | .view node => node.encoding == .narrow

/-- What the units of a string take on the heap.  The host keeps external buffers;
only their record is accounted. -/
def byteSize : Text → Nat
  | .flat units _ => units.byteSize
  | .external _ _ => 32
  | _ => 0

def children : Text → List Handle
  | .composite node => [node.left, node.right]
  | .view node => [node.parent]
  | _ => []

end Text

/-! ## Records -/

/-- The key of a dictionary entry. -/
inductive Key where
  | name (id : Handle)
  | index (i : Nat)
deriving DecidableEq, Repr

def Key.handle? : Key → Option Handle
  | .name id => some id
  | .index _ => none

/-- A dictionary, with its entries in the order in which their keys were added. -/
structure Dictionary where
  kind : KeyKind
  entries : Array (Key × Value)
  capacity : Nat
deriving DecidableEq, Repr

namespace Dictionary

/-- An empty dictionary. -/
def empty (kind : KeyKind) (capacity : Nat) : Dictionary :=
  ⟨kind, #[], capacity⟩

/-- An empty dictionary, if its table can be made.  The table has the number of an entry
in each place. -/
def withCapacity? (kind : KeyKind) (capacity : Nat) : Option Dictionary :=
  if Capacity.canBeMade capacity 8 then some (empty kind capacity) else none

def find? (d : Dictionary) (key : Key) : Option Value :=
  (d.entries.find? fun e => e.1 == key).map Prod.snd

/-- Sets the value of a key.  A key that is there keeps its place; a new one goes to
the end, and a full dictionary grows for it. -/
def insert (d : Dictionary) (key : Key) (value : Value) : Dictionary :=
  match d.entries.findIdx? fun e => e.1 == key with
  | some i => { d with entries := d.entries.setIfInBounds i (key, value) }
  | none =>
    { d with
      entries := d.entries.push (key, value)
      capacity := Capacity.afterInsert d.capacity d.entries.size }

end Dictionary

/-- The variables of a scope, and the scopes around it. -/
structure Context where
  kind : ContextKind
  closure : Value
  previous : Option Handle
  extension : Value
  native : Option Handle
  /-- The slots after the header. -/
  slots : Array Value
  shapeCache : Option Handle
  /-- The shape that the layouts of plain objects are based on.  Only native contexts
  have one. -/
  objectTemplate : Option Handle
deriving DecidableEq, Repr

/-- The number of slots of a context, header included. -/
def Context.length (c : Context) : Nat :=
  contextHeaderSlots + c.slots.size

/-- A function with the context it was made in. -/
structure Closure where
  name : Handle
  context : Handle
  parameterCount : Nat
  prototype : Value
deriving DecidableEq, Repr

structure Record where
  kind : RecordKind
  fields : Array Value
deriving DecidableEq, Repr

structure Script where
  scriptId : Int32
  source : Handle
  name : Value
  lineOffset : Int32
  columnOffset : Int32
  contextData : Value
  kind : ScriptKind
  lineEnds : Value
deriving DecidableEq, Repr

/-- The layout of plain objects: an ordered set of property names. -/
structure Shape where
  base : Option Handle
  names : Array Handle
  capacity : Nat
deriving DecidableEq, Repr

namespace Shape

/-- A list of names without the later ones of each repeated name. -/
def distinct (names : Array Handle) : Array Handle :=
  names.foldl (fun seen name => if seen.contains name then seen else seen.push name) #[]

/-- The shape of a list of names; each name counts once, where it first occurs. -/
def ofNames (base : Option Handle) (names : Array Handle) (capacity : Nat) : Shape :=
  ⟨base, distinct names, capacity⟩

/-- The shape of a list of names, if its table can be made.  The table has the number of
a name in each place. -/
def withCapacity? (base : Option Handle) (names : Array Handle) (capacity : Nat) :
    Option Shape :=
  if Capacity.canBeMade capacity 8 then some (ofNames base names capacity) else none

def propertyCount (s : Shape) : Nat :=
  s.names.size

/-- The slot of a property. -/
def slotOf? (s : Shape) (name : Handle) : Option Nat :=
  s.names.findIdx? (· == name)

end Shape

/-- The shapes of a context by the list of their property names. -/
structure ShapeCache where
  entries : Array (Array Handle × Handle)
  capacity : Nat
deriving DecidableEq, Repr

namespace ShapeCache

/-- An empty cache made for a number of shapes. -/
def sized (count : Nat) : ShapeCache :=
  ⟨#[], Capacity.initial count⟩

/-- An empty cache made for a number of shapes, if its table can be made.  The table has
a list of names and a shape in each place. -/
def withCapacity? (count : Nat) : Option ShapeCache :=
  if Capacity.canBeMade count 56 then some (sized count) else none

def find? (c : ShapeCache) (names : Array Handle) : Option Handle :=
  (c.entries.find? fun e => e.1 == names).map Prod.snd

/-- Sets the shape for a list of names.  Room for one more entry is made first, also
when the list turns out to be there. -/
def insert (c : ShapeCache) (names : Array Handle) (shape : Handle) : ShapeCache :=
  let capacity := Capacity.afterInsert c.capacity c.entries.size
  match c.entries.findIdx? fun e => e.1 == names with
  | some i => ⟨c.entries.setIfInBounds i (names, shape), capacity⟩
  | none => ⟨c.entries.push (names, shape), capacity⟩

end ShapeCache

/-- An object with one slot for each property of its shape. -/
structure Plain where
  shape : Handle
  slots : Array Value
deriving DecidableEq, Repr

structure ErrorRecord where
  kind : ErrorKind
  message : Handle
  arguments : Option Handle
  /-- Whether the error was made without a builtin. -/
  degraded : Bool
deriving DecidableEq, Repr

/-! ## Objects -/

inductive Object where
  | number (value : Double)
  | string (text : Text)
  | array (items : Array Value)
  | doubles (items : Array Double)
  | bytes (items : Array UInt8)
  | dictionary (d : Dictionary)
  | context (c : Context)
  | closure (c : Closure)
  | record (r : Record)
  | script (s : Script)
  | shape (s : Shape)
  | shapeCache (c : ShapeCache)
  | plain (o : Plain)
  | error (e : ErrorRecord)
deriving DecidableEq, Repr

namespace Object

def kind : Object → Kind
  | .number _ => .number
  | .string _ => .string
  | .array _ => .array
  | .doubles _ => .doubles
  | .bytes _ => .bytes
  | .dictionary _ => .dictionary
  | .context _ => .context
  | .closure _ => .closure
  | .record _ => .record
  | .script _ => .script
  | .shape _ => .shape
  | .shapeCache _ => .shapeCache
  | .plain _ => .plain
  | .error _ => .error

/-- The bytes of every object, before what its kind adds. -/
def baseSize : Nat := 40

/-- The bytes an object is accounted for: a fixed part for its kind and a part for
each unit, element, slot or table place. -/
def size : Object → Nat
  | .number _ => baseSize
  | .string text => baseSize + text.byteSize
  | .array items => baseSize + 8 * items.size
  | .doubles items => baseSize + 8 * items.size
  | .bytes items => baseSize + items.size
  | .dictionary d => baseSize + 96 + 16 * d.capacity
  | .context c => baseSize + 72 + 8 * c.slots.size
  | .closure _ => baseSize + 24
  | .record r => baseSize + 24 + 8 * r.fields.size
  | .script _ => baseSize + 48
  | .shape s => baseSize + 96 + 4 * s.capacity
  | .shapeCache c => baseSize + 64 + 52 * c.capacity
  | .plain o => baseSize + 24 + 8 * o.slots.size
  | .error _ => baseSize + 16

/-- The objects that an array of values refers to. -/
def handlesOf (values : Array Value) : List Handle :=
  values.toList.filterMap Value.handle?

/-- The objects that an object refers to, in the order of its fields. -/
def children : Object → List Handle
  | .number _ => []
  | .string text => text.children
  | .array items => handlesOf items
  | .doubles _ => []
  | .bytes _ => []
  | .dictionary d =>
    d.entries.toList.flatMap fun e => e.1.handle?.toList ++ e.2.handle?.toList
  | .context c =>
    c.closure.handle?.toList ++ c.extension.handle?.toList ++ c.previous.toList
      ++ c.native.toList ++ c.shapeCache.toList ++ c.objectTemplate.toList
      ++ handlesOf c.slots
  | .closure c => [c.name, c.context] ++ c.prototype.handle?.toList
  | .record r => handlesOf r.fields
  | .script s =>
    [s.source] ++ s.name.handle?.toList ++ s.contextData.handle?.toList
      ++ s.lineEnds.handle?.toList
  | .shape s => s.base.toList ++ s.names.toList
  | .shapeCache c => c.entries.toList.flatMap fun e => e.1.toList ++ [e.2]
  | .plain o => [o.shape] ++ handlesOf o.slots
  | .error e => [e.message] ++ e.arguments.toList

end Object

end ManagedHeap
