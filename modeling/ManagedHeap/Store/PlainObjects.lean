import ManagedHeap.Store.Allocation

/-!
# Plain objects

A plain object has a shape, which assigns its property names to slots.  Each context
keeps the shapes of the object literals in its code, so that literals with the same
names in the same order share one shape.
-/

namespace ManagedHeap

namespace StoreM

/-- The native context that a context belongs to. -/
def nativeContextOf (id : Handle) : StoreM Handle :=
  return (← context id).native.getD id

/-! ## Shapes -/

/-- The shape cache of a context, which is made when it is first needed. -/
def shapeCacheOf (id : Handle) : StoreM Handle := do
  match (← context id).shapeCache with
  | some cache => return cache
  | none =>
    let cache ← allocate (.shapeCache (.sized shapeCacheEntries)) .old
    let _ ← context id
    onHeap (HeapM.modifyObject id fun
      | .context c => .context { c with shapeCache := some cache }
      | object => object)
    return cache

/-- Refuses names that are not interned strings. -/
def checkNames (names : Array Handle) : StoreM Unit :=
  names.forM fun name => do
    if !(← text name).isInterned then throw (.notInterned name)

/-- A new shape for a list of names, based on the object template of the native
context. -/
def newShape (id : Handle) (names : Array Handle) : StoreM Handle := do
  let native ← nativeContextOf id
  let base := (← context native).objectTemplate
  allocate (.shape (.ofNames base names names.size)) .old

/-- The shape of object literals with some names in a context.  Shapes are kept as
long as the context. -/
def shapeFor (id : Handle) (names : Array Handle) : StoreM Handle := do
  checkNames names
  let cache ← shapeCacheOf id
  match (← shapeCache cache).find? names with
  | some shape =>
    modify fun s => { s with shapeHits := s.shapeHits + 1 }
    track shape
  | none =>
    modify fun s => { s with shapeMisses := s.shapeMisses + 1 }
    let shape ← newShape id names
    let _ ← shapeCache cache
    growObject cache fun
      | .shapeCache c => .shapeCache (c.insert names shape)
      | object => object
    return shape

/-! ## Objects -/

/-- An object with one value for each property of a shape. -/
def newPlain (id : Handle) (values : Array Value) : StoreM Handle := do
  if (← shape id).propertyCount ≠ values.size then throw .propertyCountMismatch
  allocate (.plain ⟨id, values⟩) .young

/-- The slots of an object literal.  A repeated name has its first place and its last
value. -/
def literalSlots (layout : Shape) (names : Array Handle) (values : Array Value) : Array Value :=
  (names.zip values).foldl (fun slots (name, value) =>
    match layout.slotOf? name with
    | some slot => slots.setIfInBounds slot value
    | none => slots) (Array.replicate layout.propertyCount .undefined)

/-- The object of a literal with some names and values. -/
def newLiteral (id : Handle) (names : Array Handle) (values : Array Value) : StoreM Handle := do
  if names.size ≠ values.size then throw .propertyCountMismatch
  let found ← shapeFor id names
  let layout ← shape found
  newPlain found (literalSlots layout names values)

/-- The property of a plain object.  Other objects have none. -/
def property? (id name : Handle) : StoreM (Option Value) := do
  match ← inspect (·.find id) with
  | .plain o =>
    match (← shape o.shape).slotOf? name with
    | some slot => return o.slots[slot]?
    | none => return none
  | _ => return none

end StoreM

end ManagedHeap
