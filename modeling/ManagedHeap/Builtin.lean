import ManagedHeap.Object.Kind
import ManagedHeap.Value

/-!
# Builtins that make errors

A program can install builtins under names, and errors are made by the builtin of
their kind if there is one.  A builtin is described by what it does, so that a store
that holds builtins is plain data.
-/

namespace ManagedHeap

/-- A value that a builtin finds in its call. -/
inductive Source where
  | constant (value : Value)
  | message
  /-- The array of arguments, or undefined without one. -/
  | arguments
  /-- The interned name of the error kind. -/
  | kindName
deriving DecidableEq, Repr

inductive Builtin where
  /-- Makes an error from the message template and its arguments. -/
  | expand
  /-- Makes an error from the message as it is. -/
  | construct
  /-- Returns or throws a value. -/
  | answer (throws : Bool) (source : Source)
  /-- Makes an error of another kind, with the message as the only argument of a
  template. -/
  | nest (kind : ErrorKind) (template : String)
  /-- Calls the builtin of a name, with the message as the arguments or with none.
  Without that builtin the answer is a fixed value. -/
  | delegate (name : String) (passMessage : Bool) (fallback : Value)
deriving DecidableEq, Repr

/-- What a builtin is called with. -/
structure Invocation where
  kind : ErrorKind
  /-- The template of the message, or the message itself. -/
  message : Handle
  /-- The array of arguments for the template. -/
  arguments : Option Handle
deriving DecidableEq, Repr

/-- How a call ended: with a value that it returned or threw. -/
structure Completion where
  throws : Bool
  value : Value
deriving DecidableEq, Repr

/-! ## Names of builtins -/

/-- The installed builtins, one for each name. -/
structure Builtins where
  entries : List (String × Builtin)
deriving DecidableEq, Repr

namespace Builtins

def empty : Builtins := ⟨[]⟩

def find? (b : Builtins) (name : String) : Option Builtin :=
  b.entries.lookup name

def contains (b : Builtins) (name : String) : Bool :=
  (b.find? name).isSome

/-- The builtins without the one of a name. -/
def erase (b : Builtins) (name : String) : Builtins :=
  ⟨b.entries.filter fun e => e.1 != name⟩

/-- Installs a builtin in the place of the former one of its name. -/
def register (b : Builtins) (name : String) (builtin : Builtin) : Builtins :=
  ⟨(b.erase name).entries ++ [(name, builtin)]⟩

def count (b : Builtins) : Nat :=
  b.entries.length

/-- The names, in alphabetical order. -/
def names (b : Builtins) : List String :=
  (b.entries.map Prod.fst).mergeSort fun a b => a ≤ b

/-- Installs the two standard builtins of every error kind. -/
def installStandard (b : Builtins) : Builtins :=
  ErrorKind.all.foldl
    (fun b kind => (b.register kind.makerName .expand).register kind.constructorName .construct) b

end Builtins

end ManagedHeap
