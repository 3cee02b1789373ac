/-!
# The kinds of heap objects

Names that reports and messages use, and the constants of the record layouts.
-/

namespace ManagedHeap

/-- The kind of a heap object. -/
inductive Kind where
  | number
  | string
  | array
  | doubles
  | bytes
  | dictionary
  | context
  | closure
  | record
  | script
  | shape
  | shapeCache
  | plain
  | error
deriving DecidableEq, Repr, Inhabited

/-- The name of a kind in reports and messages. -/
def Kind.name : Kind → String
  | .number => "heap_number"
  | .string => "string"
  | .array => "fixed_array"
  | .doubles => "fixed_double_array"
  | .bytes => "byte_array"
  | .dictionary => "dictionary"
  | .context => "context"
  | .closure => "closure"
  | .record => "struct"
  | .script => "script"
  | .shape => "shape"
  | .shapeCache => "shape_cache"
  | .plain => "object"
  | .error => "error"

def Kind.all : List Kind :=
  [.number, .string, .array, .doubles, .bytes, .dictionary, .context, .closure, .record,
    .script, .shape, .shapeCache, .plain, .error]

/-- What the keys of a dictionary are: interned strings or array indices. -/
inductive KeyKind where
  | name
  | number
deriving DecidableEq, Repr, Inhabited

/-- The title of a kind of dictionaries. -/
def KeyKind.title : KeyKind → String
  | .name => "Name"
  | .number => "Number"

def KeyKind.all : List KeyKind :=
  [.name, .number]

/-- The scope that a context stands for. -/
inductive ContextKind where
  | native
  | global
  | module
  | function
  | catching
  | withObject
  | block
deriving DecidableEq, Repr, Inhabited

/-- The title of a kind of contexts. -/
def ContextKind.title : ContextKind → String
  | .native => "Native"
  | .global => "Global"
  | .module => "Module"
  | .function => "Function"
  | .catching => "Catch"
  | .withObject => "With"
  | .block => "Block"

def ContextKind.all : List ContextKind :=
  [.native, .global, .module, .function, .catching, .withObject, .block]

/-- A record of fixed fields. -/
inductive RecordKind where
  | box
  | accessorPair
  | aliasedArgumentsEntry
  | typeFeedbackInfo
deriving DecidableEq, Repr, Inhabited

/-- The number of fields of a record. -/
def RecordKind.fieldCount : RecordKind → Nat
  | .box => 1
  | .accessorPair => 2
  | .aliasedArgumentsEntry => 1
  | .typeFeedbackInfo => 3

/-- The title of a kind of records. -/
def RecordKind.title : RecordKind → String
  | .box => "Box"
  | .accessorPair => "AccessorPair"
  | .aliasedArgumentsEntry => "AliasedArgumentsEntry"
  | .typeFeedbackInfo => "TypeFeedbackInfo"

def RecordKind.all : List RecordKind :=
  [.box, .accessorPair, .aliasedArgumentsEntry, .typeFeedbackInfo]

/-- Where a script comes from. -/
inductive ScriptKind where
  | normal
  | native
  | extension
deriving DecidableEq, Repr, Inhabited

/-- The title of a kind of scripts. -/
def ScriptKind.title : ScriptKind → String
  | .normal => "Normal"
  | .native => "Native"
  | .extension => "Extension"

def ScriptKind.all : List ScriptKind :=
  [.normal, .native, .extension]

/-- The kinds of errors a program can raise. -/
inductive ErrorKind where
  | error
  | type
  | range
  | syntactic
  | reference
  | eval
deriving DecidableEq, Repr, Inhabited

namespace ErrorKind

def all : List ErrorKind :=
  [.error, .type, .range, .syntactic, .reference, .eval]

/-- What is wrong in errors of a kind.  The general kind has no title of its own. -/
def title : ErrorKind → String
  | .error => ""
  | .type => "Type"
  | .range => "Range"
  | .syntactic => "Syntax"
  | .reference => "Reference"
  | .eval => "Eval"

/-- The name of the errors of a kind. -/
def name (kind : ErrorKind) : String :=
  kind.title ++ "Error"

/-- The builtin that makes errors of a kind from a message template. -/
def makerName (kind : ErrorKind) : String :=
  "Make" ++ kind.name

/-- The builtin that makes errors of a kind from a finished message. -/
def constructorName (kind : ErrorKind) : String :=
  "$" ++ kind.name

end ErrorKind

/-- The slots that every context begins with: closure, previous context, extension
and native context. -/
def contextHeaderSlots : Nat := 4

/-- All slots of a native context. -/
def nativeContextSlots : Nat := 16

/-- The number of shapes that a new shape cache is made for. -/
def shapeCacheEntries : Nat := 24

end ManagedHeap
