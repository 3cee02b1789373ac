import ManagedHeap.Heap.Content

/-!
# Looking at objects

An object as a list of labelled fields, for reports that show the state of a heap.
Long arrays are shown by their length and their first elements.
-/

namespace ManagedHeap

/-- What a field shows. -/
inductive Shown where
  | absent
  | flag (b : Bool)
  | number (n : Int)
  | text (s : String)
  | value (v : Value)
  | double (x : Double)
  | units (u : Units)
  | list (items : List Shown)
deriving Repr

/-- Labelled fields. -/
abbrev Fields := List (String × Shown)

namespace Shown

/-- The number of elements that are shown of an array. -/
def elementLimit : Nat := 64

def handle (id : Handle) : Shown :=
  .value (.ref id)

def handle? : Option Handle → Shown
  | some id => handle id
  | none => .absent

def key : Key → Shown
  | .name id => handle id
  | .index i => .number i

def values (items : Array Value) : Shown :=
  .list (items.toList.map .value)

/-- The length of an array and its first elements. -/
def elements (label : String) (items : Array α) (shown : α → Shown) : Fields :=
  [("len", .number items.size), (label, .list ((items.take elementLimit).toList.map shown))]

/-- The entries of a shape cache, in the order of the names' handles. -/
def shapes (c : ShapeCache) : Shown :=
  let sorted := c.entries.toList.mergeSort fun a b =>
    compare (a.1.toList.map Handle.index) (b.1.toList.map Handle.index) != .gt
  .list (sorted.map fun e => .list [.list (e.1.toList.map handle), handle e.2])

end Shown

namespace Heap

/-- The fields of a string, with its content. -/
def textFields (h : Heap) (id : Handle) (text : Text) : Except Fault Fields := do
  let units ← h.copyRange id 0 text.length .wide
  let common : Fields :=
    [("shape", .text text.layoutName), ("enc", .text text.encoding.name),
      ("len", .number text.length), ("units", .units units), ("intern", .flag text.isInterned),
      ("narrow_only", .flag text.knownNarrow)]
  match text with
  | .composite node =>
    return common ++ [("left", .handle node.left), ("right", .handle node.right),
      ("narrow_data", .flag node.narrowData)]
  | .view node => return common ++ [("parent", .handle node.parent), ("offset", .number node.offset)]
  | _ => return common

/-- The fields of an object. -/
def objectFields (h : Heap) (id : Handle) : Object → Except Fault Fields
  | .number x => return [("bits", .double x)]
  | .string text => h.textFields id text
  | .array items => return Shown.elements "items" items .value
  | .doubles items => return Shown.elements "items" items .double
  | .bytes items => return Shown.elements "bytes" items fun b => .number b.toNat
  | .dictionary d =>
    return [("dict", .text d.kind.title),
      ("entries", .list (d.entries.toList.map fun e => .list [.key e.1, .value e.2]))]
  | .context c =>
    return [("context", .text c.kind.title), ("len", .number c.length),
      ("closure", .value c.closure), ("previous", .handle? c.previous),
      ("extension", .value c.extension), ("native", .handle? c.native),
      ("slots", .values c.slots), ("shape_cache", .handle? c.shapeCache),
      ("object_template", .handle? c.objectTemplate)]
  | .closure c =>
    return [("name", .handle c.name), ("context", .handle c.context),
      ("params", .number c.parameterCount), ("prototype", .value c.prototype)]
  | .record r => return [("struct", .text r.kind.title), ("fields", .values r.fields)]
  | .script s =>
    return [("script_id", .number s.scriptId.toInt), ("source", .handle s.source),
      ("name", .value s.name), ("line_offset", .number s.lineOffset.toInt),
      ("column_offset", .number s.columnOffset.toInt), ("context_data", .value s.contextData),
      ("script", .text s.kind.title), ("line_ends", .value s.lineEnds)]
  | .shape s =>
    return [("base", .handle? s.base), ("count", .number s.propertyCount),
      ("names", .list (s.names.toList.map .handle))]
  | .shapeCache c => return [("entries", .shapes c)]
  | .plain o => return [("shape", .handle o.shape), ("properties", .values o.slots)]
  | .error e =>
    return [("error_kind", .text e.kind.name), ("message", .handle e.message),
      ("arguments", .handle? e.arguments), ("degraded", .flag e.degraded)]

/-- An object with its kind, its space and its fields. -/
def inspect (h : Heap) (id : Handle) : Except Fault Fields := do
  let object ← h.find id
  let space ← h.spaceOf id
  let fields ← h.objectFields id object
  return ("kind", .text object.kind.name) :: ("space", .text space.name) :: fields

end Heap

end ManagedHeap
