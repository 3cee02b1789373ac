import ManagedHeap.Store.Arrays

/-!
# Records and scripts

Records with a fixed number of fields, and the scripts that a program was read from.
-/

namespace ManagedHeap

namespace StoreM

def newRecord (kind : RecordKind) (fields : Array Value) : StoreM Handle :=
  allocate (.record ⟨kind, fields⟩) .young

/-- A record with undefined fields. -/
def newBlankRecord (kind : RecordKind) : StoreM Handle :=
  newRecord kind (Array.replicate kind.fieldCount .undefined)

def newBox (value : Value) : StoreM Handle :=
  newRecord .box #[value]

/-- A pair of a getter and a setter, both absent. -/
def newAccessorPair : StoreM Handle :=
  newRecord .accessorPair #[.hole, .hole]

def newAliasedArgumentsEntry (contextSlot : Int32) : StoreM Handle :=
  newRecord .aliasedArgumentsEntry #[.int contextSlot]

/-- Type feedback without any counts. -/
def newTypeFeedbackInfo : StoreM Handle :=
  newRecord .typeFeedbackInfo #[.int 0, .int 0, .int 0]

def recordField (id : Handle) (index : Nat) : StoreM Value := do
  match ← inspect (·.find id) with
  | .record r => element r.fields index
  | object => throw (.notARecord id object.kind)

/-- The number after a script number.  After the largest one they begin at 1 again. -/
def nextScriptId (last : Int32) : Int32 :=
  if last = Int32.maxValue then 1 else last + 1

/-- A script with the next number. -/
def newScript (source : Handle) : StoreM Handle := do
  let scriptId := nextScriptId (← get).lastScriptId
  modify fun s => { s with lastScriptId := scriptId }
  allocate (.script
    { scriptId
      source
      name := .undefined
      lineOffset := 0
      columnOffset := 0
      contextData := .undefined
      kind := .normal
      lineEnds := .undefined }) .old

end StoreM

end ManagedHeap
