import ManagedHeap.Store.Arrays
import ManagedHeap.Store.Numbers
import ManagedHeap.Text.Utf8

/-!
# Errors

Errors are made by the builtin of their kind.  Without it the error is degraded: its
message is a text of limited size that shows the template and the arguments as they are.
-/

namespace ManagedHeap

namespace StoreM

def newErrorObject (kind : ErrorKind) (message : Handle) (arguments : Option Handle) :
    StoreM Handle :=
  allocate (.error ⟨kind, message, arguments, false⟩) .young

/-! ## Degraded errors -/

/-- Appends a space and the text of each value while the text is shorter than the
capacity, and cuts what does not fit. -/
def appendValues (h : Heap) (capacity : Nat) : List Value → String → Except Fault String
  | [], out => return out
  | value :: rest, out => do
    if capacity ≤ out.utf8ByteSize then return out
    let shown ← h.display value
    appendValues h capacity rest (← Utf8.appendWithin capacity (out.push ' ') shown)

/-- The message of a degraded error, in a buffer with one byte for the terminator. -/
def degradedText (message : String) (arguments : Array Value) : StoreM String := do
  let size := (← get).config.errorBufferSize
  if size = 0 then throw .bufferTooSmall
  let capacity := size - 1
  checkBuffer capacity
  inspect fun h => do
    appendValues h capacity arguments.toList (← Utf8.appendWithin capacity "" message)

/-- An error without its builtin.  A message past the length limit is left empty. -/
def newDegradedError (kind : ErrorKind) (content : String) : StoreM Handle := do
  let units := Units.ofText content
  let s ← get
  let message ←
    if units.size ≤ s.config.maxStringLength then allocateFlat units .old
    else pure s.canonical.emptyString
  allocate (.error ⟨kind, message, none, true⟩) .old

/-! ## Calling builtins -/

/-- Makes an error from a template that is filled with the arguments.  A message past
the length limit is left as the template. -/
def expandMessage (call : Invocation) : StoreM Handle := do
  let template ← toText call.message
  let arguments ← inspect (·.argumentValues call.arguments)
  let content ← inspect fun h => h.fillTemplate arguments template.toList ""
  let units := Units.ofText content
  if units.size ≤ (← get).config.maxStringLength then allocateFlat units .young
  else return call.message

/-- The value that a builtin finds in its call. -/
def sourceValue (call : Invocation) : Source → StoreM Value
  | .constant value => return value
  | .message => return .ref call.message
  | .arguments =>
    match call.arguments with
    | some id => return .ref id
    | none => return .undefined
  | .kindName => return .ref (← internText call.kind.name)

/-- An error with a message template and its arguments, where builtins are called by
`invoke`. -/
def raiseWith (invoke : Builtin → Invocation → StoreM Completion) (kind : ErrorKind)
    (message : String) (arguments : Array Value) : StoreM Completion := do
  match (← get).builtins.find? kind.makerName with
  | none =>
    let content ← degradedText message arguments
    return ⟨false, .ref (← newDegradedError kind content)⟩
  | some builtin =>
    let message ← internText message
    let arguments ← newArray arguments .young
    invoke builtin ⟨kind, message, some arguments⟩

/-- Calls a builtin that calls at most some others, one inside the other. -/
def invoke : Nat → Builtin → Invocation → StoreM Completion
  | 0, _, _ => throw .endless
  | depth + 1, builtin, call => do
    match builtin with
    | .expand =>
      let message ← expandMessage call
      return ⟨false, .ref (← newErrorObject call.kind message call.arguments)⟩
    | .construct =>
      return ⟨false, .ref (← newErrorObject call.kind call.message none)⟩
    | .answer throws source => return ⟨throws, ← sourceValue call source⟩
    | .nest kind template => raiseWith (invoke depth) kind template #[.ref call.message]
    | .delegate name passMessage fallback =>
      match (← get).builtins.find? name with
      | some builtin =>
        invoke depth builtin
          ⟨call.kind, call.message, if passMessage then some call.message else none⟩
      | none => return ⟨false, fallback⟩

/-- Calls a builtin.  Which builtin calls which does not change on the way, so a chain
of calls that is longer than the number of builtins would not end. -/
def call (builtin : Builtin) (invocation : Invocation) : StoreM Completion := do
  invoke ((← get).builtins.count + 1) builtin invocation

/-! ## Errors of a kind -/

/-- An error with a message template and its arguments. -/
def raise (kind : ErrorKind) (message : String) (arguments : Array Value) : StoreM Completion :=
  raiseWith call kind message arguments

/-- An error with a finished message. -/
def raiseMessage (kind : ErrorKind) (message : Handle) : StoreM Completion := do
  match (← get).builtins.find? kind.constructorName with
  | none =>
    let content ← degradedText (← toText message) #[]
    return ⟨false, .ref (← newDegradedError kind content)⟩
  | some builtin => call builtin ⟨kind, message, none⟩

end StoreM

end ManagedHeap
