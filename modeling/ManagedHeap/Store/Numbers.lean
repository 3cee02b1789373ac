import ManagedHeap.Heap.Display
import ManagedHeap.Store.Strings

/-!
# Numbers

A number is a small integer where it can be one and a heap number otherwise.  The
texts of numbers are kept until the next collection, for a limited number of numbers.
-/

namespace ManagedHeap

namespace StoreM

def newHeapNumber (value : Double) (space : Space) : StoreM Handle :=
  allocate (.number value) space

/-- The value of a number. -/
def newNumber (value : Double) (space : Space) : StoreM Value := do
  match value.smallInt? with
  | some n => return .int n
  | none => return .ref (← newHeapNumber value space)

/-- The value of an unsigned number. -/
def newUnsigned (value : UInt32) : StoreM Value :=
  newNumber (.ofInt value.toNat) .young

/-- The texts of numbers that are kept at a time. -/
def numberTextLimit : Nat := 256

/-- The text of a number. -/
def numberText (value : Value) : StoreM Handle := do
  match ← inspect (·.number? value) with
  | none => throw (.notANumber value)
  | some number =>
    match (← get).numberTexts.lookup number with
    | some id => track id
    | none =>
      let id ← allocateFlat (.ofText number.text) .young
      modify fun s =>
        let kept := if numberTextLimit ≤ s.numberTexts.length then [] else s.numberTexts
        { s with numberTexts := (number, id) :: kept }
      return id

/-- The text of an unsigned number. -/
def unsignedText (value : UInt32) : StoreM Handle := do
  numberText (← newUnsigned value)

/-- The value of the constants `undefined`, `NaN` and `Infinity`. -/
def globalConstant? (name : Handle) : StoreM (Option Value) := do
  let names := (← get).canonical
  if ← sameText name names.undefinedString then return some .undefined
  if ← sameText name names.nanString then return some (.ref names.nan)
  if ← sameText name names.infinityString then return some (.ref names.infinity)
  return none

end StoreM

end ManagedHeap
