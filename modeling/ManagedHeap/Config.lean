/-!
# Configuration

The limits and thresholds of a store, and which of them belong together.
-/

namespace ManagedHeap

/-- The longest string that can be represented. -/
def longestString : Nat := 0x10000000 - 16

structure Config where
  /-- The bytes of young objects before a collection is needed. -/
  youngBytes : Nat := 8 * 1024 * 1024
  /-- The bytes of old objects before a full collection is needed. -/
  oldBytes : Nat := 256 * 1024 * 1024
  maxStringLength : Nat := longestString
  /-- Concatenations shorter than this are copied. -/
  compositeMinLength : Nat := 13
  /-- Slices shorter than this are copied. -/
  viewMinLength : Nat := 13
  /-- Whether slices may be views. -/
  stringSlices : Bool := true
  /-- The seed of the content hash, if it is not left to the store. -/
  hashSeed : Option UInt64 := none
  /-- The bytes of a degraded error message, with one for its terminator. -/
  errorBufferSize : Nat := 1000
deriving DecidableEq, Repr

/-- Why a configuration is refused. -/
inductive ConfigError where
  | compositeTooShort
  | compositeAboveView
  | stringLengthTooLarge
  | errorBufferTooSmall
deriving DecidableEq, Repr

/-- What is wrong, as a sentence on the option. -/
def ConfigError.reason : ConfigError → String
  | .compositeTooShort => "composite_min_length must be at least 3"
  | .compositeAboveView => "composite_min_length must not exceed view_min_length"
  | .stringLengthTooLarge => "max_string_length exceeds the representable maximum"
  | .errorBufferTooSmall => "error_buffer_size must hold at least one unit and a terminator"

def ConfigError.message (e : ConfigError) : String :=
  "Invalid factory configuration: " ++ e.reason

/-- The first thing that is wrong with a configuration.  Strings of two units have a
path of their own, so composites begin at three units; and a short concatenation reads
the buffers of its operands, so none of them may be a view. -/
def Config.error? (c : Config) : Option ConfigError :=
  if c.compositeMinLength < 3 then some .compositeTooShort
  else if c.viewMinLength < c.compositeMinLength then some .compositeAboveView
  else if longestString < c.maxStringLength then some .stringLengthTooLarge
  else if c.errorBufferSize < 2 then some .errorBufferTooSmall
  else none

end ManagedHeap
