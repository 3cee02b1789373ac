import ManagedHeap.Store.Contexts
import ManagedHeap.Store.Errors
import ManagedHeap.Store.Records
import ManagedHeap.Store.Setup

/-!
# The operations of a store

`Operation` lists what clients can ask of a store, apart from scopes, which enclose
other operations, and from questions that neither change the store nor give out an
object.  A history of a store is a list of operations.
-/

namespace ManagedHeap

inductive Operation where
  -- Strings
  | newText (content : String) (space : Space)
  | newString (units : Units) (space : Space)
  | newPacked (units : Units) (space : Space)
  | newExternal (units : Units)
  | concat (left right : Handle)
  | flatConcat (left right : Handle)
  | slice (source : Handle) (start stop : Nat)
  | flatten (id : Handle)
  | singleUnit (unit : UInt16)
  -- Interning
  | internText (content : String)
  | internUnits (units : Units)
  | internString (id : Handle)
  | internRange (id : Handle) (start count : Nat)
  | interned (id : Handle)
  -- Numbers
  | newNumber (value : Double) (space : Space)
  | newUnsigned (value : UInt32)
  | newHeapNumber (value : Double) (space : Space)
  | numberText (value : Value)
  | unsignedText (value : UInt32)
  | globalConstant (name : Handle)
  -- Arrays and dictionaries
  | newArray (items : Array Value) (space : Space)
  | newArrayOfSize (length : Nat) (space : Space)
  | newArrayOfHoles (length : Nat) (space : Space)
  | newDoubles (length : Nat) (space : Space)
  | newBytes (length : Nat) (space : Space)
  | copyArray (id : Handle)
  | copyArrayOfSize (id : Handle) (length : Nat)
  | arrayGet (id : Handle) (index : Nat)
  | arraySet (id : Handle) (index : Nat) (value : Value)
  | newDictionary (kind : KeyKind) (capacity : Nat)
  | dictionaryPutName (id name : Handle) (value : Value)
  | dictionaryPutIndex (id : Handle) (index : Nat) (value : Value)
  | dictionaryGet (id : Handle) (key : Key)
  -- Contexts and functions
  | newNativeContext
  | newGlobalContext (inside : Handle) (closure globalObject : Value) (slots : Nat)
  | newModuleContext (inside : Handle) (slots : Nat)
  | newFunctionContext (length : Nat) (function : Handle)
  | newCatchContext (closure : Value) (previous name : Handle) (thrown : Value)
  | newWithContext (closure : Value) (previous : Handle) (extension : Value)
  | newBlockContext (closure : Value) (previous : Handle) (slots : Nat)
  | nativeContextOf (id : Handle)
  | contextSlot (id : Handle) (index : Nat)
  | newFunction (name context : Handle)
  | newFunctionWithPrototype (name context : Handle)
  | prototype (id : Handle)
  -- Records and scripts
  | newBlankRecord (kind : RecordKind)
  | newBox (value : Value)
  | newAccessorPair
  | newAliasedArgumentsEntry (contextSlot : Int32)
  | newTypeFeedbackInfo
  | recordField (id : Handle) (index : Nat)
  | newScript (source : Handle)
  | setLastScriptId (scriptId : Int32)
  -- Plain objects
  | shapeFor (context : Handle) (names : Array Handle)
  | newPlain (shape : Handle) (values : Array Value)
  | newLiteral (context : Handle) (names : Array Handle) (values : Array Value)
  | property (id name : Handle)
  -- Errors and builtins
  | newErrorObject (kind : ErrorKind) (message : Handle) (arguments : Option Handle)
  | raise (kind : ErrorKind) (message : String) (arguments : Array Value)
  | raiseMessage (kind : ErrorKind) (message : Handle)
  | installStandard
  | register (name : String) (builtin : Builtin)
  | removeBuiltin (name : String)
  -- Objects as they are, and what keeps them alive
  | allocate (object : Object) (space : Space)
  | collectGarbage (space : Space)
  | persist (id : Handle)
  | unpersist (id : Handle)
deriving DecidableEq, Repr

/-- What an operation gives out. -/
inductive Outcome where
  | done
  | value (v : Value)
  | option (v : Option Value)
  | completion (c : Completion)
deriving DecidableEq, Repr

namespace Outcome

def handle (id : Handle) : Outcome :=
  .value (.ref id)

/-- The value that an operation gives out, if there is one. -/
def value? : Outcome → Option Value
  | .done => none
  | .value v => some v
  | .option v => v
  | .completion c => some c.value

end Outcome

namespace Operation

/-- Carries out an operation. -/
def run : Operation → StoreM Outcome
  | .newText content space => return .handle (← StoreM.newText content space)
  | .newString units space => return .handle (← StoreM.newString units space)
  | .newPacked units space => return .handle (← StoreM.newPacked units space)
  | .newExternal units => return .handle (← StoreM.newExternal units)
  | .concat left right => return .handle (← StoreM.concat left right)
  | .flatConcat left right => return .handle (← StoreM.flatConcat left right)
  | .slice source start stop => return .handle (← StoreM.slice source start stop)
  | .flatten id => return .handle (← StoreM.flatten id)
  | .singleUnit unit => return .handle (← StoreM.singleUnit unit)
  | .internText content => return .handle (← StoreM.internText content)
  | .internUnits units => return .handle (← StoreM.internUnits units)
  | .internString id => return .handle (← StoreM.internString id)
  | .internRange id start count => return .handle (← StoreM.internRange id start count)
  | .interned id => return .option ((← StoreM.interned? id).map .ref)
  | .newNumber value space => return .value (← StoreM.newNumber value space)
  | .newUnsigned value => return .value (← StoreM.newUnsigned value)
  | .newHeapNumber value space => return .handle (← StoreM.newHeapNumber value space)
  | .numberText value => return .handle (← StoreM.numberText value)
  | .unsignedText value => return .handle (← StoreM.unsignedText value)
  | .globalConstant name => return .option (← StoreM.globalConstant? name)
  | .newArray items space => return .handle (← StoreM.newArray items space)
  | .newArrayOfSize length space => return .handle (← StoreM.newArrayOfSize length space)
  | .newArrayOfHoles length space => return .handle (← StoreM.newArrayOfHoles length space)
  | .newDoubles length space => return .handle (← StoreM.newDoubles length space)
  | .newBytes length space => return .handle (← StoreM.newBytes length space)
  | .copyArray id => return .handle (← StoreM.copyArray id)
  | .copyArrayOfSize id length => return .handle (← StoreM.copyArrayOfSize id length)
  | .arrayGet id index => return .value (← StoreM.arrayGet id index)
  | .arraySet id index value => do
    StoreM.arraySet id index value
    return .done
  | .newDictionary kind capacity => return .handle (← StoreM.newDictionary kind capacity)
  | .dictionaryPutName id name value =>
    return .handle (← StoreM.dictionaryPutName id name value)
  | .dictionaryPutIndex id index value =>
    return .handle (← StoreM.dictionaryPutIndex id index value)
  | .dictionaryGet id key => return .option (← StoreM.dictionaryGet id key)
  | .newNativeContext => return .handle (← StoreM.newNativeContext)
  | .newGlobalContext inside closure globalObject slots =>
    return .handle (← StoreM.newGlobalContext inside closure globalObject slots)
  | .newModuleContext inside slots => return .handle (← StoreM.newModuleContext inside slots)
  | .newFunctionContext length function =>
    return .handle (← StoreM.newFunctionContext length function)
  | .newCatchContext closure previous name thrown =>
    return .handle (← StoreM.newCatchContext closure previous name thrown)
  | .newWithContext closure previous extension =>
    return .handle (← StoreM.newWithContext closure previous extension)
  | .newBlockContext closure previous slots =>
    return .handle (← StoreM.newBlockContext closure previous slots)
  | .nativeContextOf id => return .handle (← StoreM.nativeContextOf id)
  | .contextSlot id index => return .value (← StoreM.contextSlot id index)
  | .newFunction name context => return .handle (← StoreM.newFunction name context)
  | .newFunctionWithPrototype name context =>
    return .handle (← StoreM.newFunctionWithPrototype name context)
  | .prototype id => return .value (← StoreM.closure id).prototype
  | .newBlankRecord kind => return .handle (← StoreM.newBlankRecord kind)
  | .newBox value => return .handle (← StoreM.newBox value)
  | .newAccessorPair => return .handle (← StoreM.newAccessorPair)
  | .newAliasedArgumentsEntry slot => return .handle (← StoreM.newAliasedArgumentsEntry slot)
  | .newTypeFeedbackInfo => return .handle (← StoreM.newTypeFeedbackInfo)
  | .recordField id index => return .value (← StoreM.recordField id index)
  | .newScript source => return .handle (← StoreM.newScript source)
  | .setLastScriptId scriptId => do
    modify fun s => { s with lastScriptId := scriptId }
    return .done
  | .shapeFor context names => return .handle (← StoreM.shapeFor context names)
  | .newPlain shape values => return .handle (← StoreM.newPlain shape values)
  | .newLiteral context names values =>
    return .handle (← StoreM.newLiteral context names values)
  | .property id name => return .option (← StoreM.property? id name)
  | .newErrorObject kind message arguments =>
    return .handle (← StoreM.newErrorObject kind message arguments)
  | .raise kind message arguments => return .completion (← StoreM.raise kind message arguments)
  | .raiseMessage kind message => return .completion (← StoreM.raiseMessage kind message)
  | .installStandard => do
    modify fun s => { s with builtins := s.builtins.installStandard }
    return .done
  | .register name builtin => do
    modify fun s => { s with builtins := s.builtins.register name builtin }
    return .done
  | .removeBuiltin name => do
    modify fun s => { s with builtins := s.builtins.erase name }
    return .done
  | .allocate object space => return .handle (← StoreM.allocate object space)
  | .collectGarbage space => do
    let _ ← StoreM.collectGarbage space
    return .done
  | .persist id => do
    StoreM.persist id
    return .done
  | .unpersist id => do
    StoreM.unpersist id
    return .done

end Operation

end ManagedHeap
