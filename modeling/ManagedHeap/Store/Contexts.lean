import ManagedHeap.Store.Arrays
import ManagedHeap.Store.PlainObjects

/-!
# Contexts and functions

A native context is the root of a chain of contexts and knows itself as its native
context.  Every other context has the native context of the one it is made in.
-/

namespace ManagedHeap

namespace StoreM

/-- Some slots without values.  More than a buffer can hold are refused. -/
def emptySlots (count : Nat) : StoreM (Array Value) := do
  checkBuffer (8 * count)
  return Array.replicate count .undefined

/-! ## Contexts -/

/-- A native context, with an object template that has no properties. -/
def newNativeContext : StoreM Handle := do
  let template ← allocate (.shape (.ofNames none #[] 0)) .old
  let id ← allocate (.context
    { kind := .native
      closure := .undefined
      previous := none
      extension := .undefined
      native := none
      slots := Array.replicate (nativeContextSlots - contextHeaderSlots) .undefined
      shapeCache := none
      objectTemplate := some template }) .old
  let _ ← context id
  onHeap (HeapM.modifyObject id fun
    | .context c => .context { c with native := some id }
    | object => object)
  return id

/-- A context inside another one, with the native context of that one. -/
def innerContext (kind : ContextKind) (closure : Value) (previous : Option Handle)
    (extension : Value) (native : Handle) (slots : Array Value) : Context where
  kind := kind
  closure := closure
  previous := previous
  extension := extension
  native := some native
  slots := slots
  shapeCache := none
  objectTemplate := none

def newGlobalContext (inside : Handle) (closure globalObject : Value) (slots : Nat) :
    StoreM Handle := do
  let native ← nativeContextOf inside
  let slots ← emptySlots slots
  allocate (.context
    (innerContext .global closure (some native) globalObject native slots)) .old

def newModuleContext (inside : Handle) (slots : Nat) : StoreM Handle := do
  let native ← nativeContextOf inside
  let slots ← emptySlots slots
  allocate (.context (innerContext .module .undefined none .undefined native slots)) .old

/-- The context of a call.  Its length counts the header. -/
def newFunctionContext (length : Nat) (function : Handle) : StoreM Handle := do
  if length < contextHeaderSlots then throw (.contextTooSmall length)
  let previous := (← closure function).context
  let native ← nativeContextOf previous
  let slots ← emptySlots (length - contextHeaderSlots)
  allocate (.context
    (innerContext .function (.ref function) (some previous) .undefined native slots)) .young

/-- The context that holds a caught value under a name. -/
def newCatchContext (closure : Value) (previous name : Handle) (thrown : Value) :
    StoreM Handle := do
  let native ← nativeContextOf previous
  allocate (.context
    (innerContext .catching closure (some previous) (.ref name) native #[thrown])) .young

/-- The context of a block in which the properties of an object are variables. -/
def newWithContext (closure : Value) (previous : Handle) (extension : Value) :
    StoreM Handle := do
  let native ← nativeContextOf previous
  allocate (.context
    (innerContext .withObject closure (some previous) extension native #[])) .young

def newBlockContext (closure : Value) (previous : Handle) (slots : Nat) : StoreM Handle := do
  let native ← nativeContextOf previous
  let slots ← emptySlots slots
  allocate (.context
    (innerContext .block closure (some previous) .undefined native slots)) .young

/-- The slot of a context at an index that counts the header.  The header itself
cannot be read by index. -/
def contextSlot (id : Handle) (index : Nat) : StoreM Value := do
  let c ← context id
  if index < contextHeaderSlots then throw (.indexOutOfBounds index)
  match c.slots[index - contextHeaderSlots]? with
  | some value => return value
  | none => throw (.indexOutOfBounds index)

/-! ## Functions -/

def newFunction (name context : Handle) : StoreM Handle :=
  allocate (.closure ⟨name, context, 0, .hole⟩) .old

/-- A function with a prototype whose `constructor` is the function. -/
def newFunctionWithPrototype (name context : Handle) : StoreM Handle := do
  let function ← newFunction name context
  let native ← nativeContextOf context
  let constructorName := (← get).canonical.constructorString
  let prototype ← newLiteral native #[constructorName] #[.ref function]
  let _ ← closure function
  onHeap (HeapM.modifyObject function fun
    | .closure c => .closure { c with prototype := .ref prototype }
    | object => object)
  return function

end StoreM

end ManagedHeap
