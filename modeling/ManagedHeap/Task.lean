import ManagedHeap.Text.Quoted
import ManagedHeap.Text.Utf8

/-!
# Maintenance tasks

The maintenance tool of a workspace runs one task.  This module reads the arguments of
the tool, says what is wrong with them, and reports on what a command of a task printed.
-/

namespace ManagedHeap

inductive Task where
  | verify
  | checkFormat
  | lint
  | lintStrict
  | test
  /-- The property tests, with a number of cases for each property. -/
  | stress (cases : Nat)
deriving DecidableEq, Repr

namespace Task

/-! ## Arguments -/

/-- Why a text is no count. -/
inductive CountError where
  | empty
  | invalidDigit
  | tooLarge
deriving DecidableEq, Repr

def CountError.message : CountError → String
  | .empty => "cannot parse integer from empty string"
  | .invalidDigit => "invalid digit found in string"
  | .tooLarge => "number too large to fit in target type"

/-- Reads digits after the count read so far.  A count fits 32 bits; of a wrong digit
and a count that grows too large, the one met first is the error. -/
def readDigits (count : Nat) : List Char → Except CountError Nat
  | [] => return count
  | c :: rest =>
    if !c.isDigit then throw .invalidDigit
    else
      let count := 10 * count + (c.toNat - '0'.toNat)
      if UInt32.size ≤ count then throw .tooLarge else readDigits count rest

/-- Reads a count, which may have a plus sign. -/
def readCount (text : String) : Except CountError Nat :=
  match text.toList with
  | [] => throw .empty
  | ['+'] => throw .invalidDigit
  | '+' :: digits => readDigits 0 digits
  | digits => readDigits 0 digits

/-- Why arguments are refused. -/
inductive Refusal where
  | unknownCommand (name : String)
  | invalidCount (text : String) (error : CountError)
deriving DecidableEq, Repr

def Refusal.message : Refusal → String
  | .unknownCommand name =>
    "Unknown command: " ++ name
      ++ "\nUsage: cargo run -p xtask -- <verify|fmt|clippy|lint|test|stress [cases]>"
  | .invalidCount text error =>
    "Invalid case count " ++ Quoted.quote text ++ ": " ++ error.message

/-- The number of cases of a stress test for which no number is given. -/
def defaultCases : Nat := 2048

/-- The task that arguments ask for.  Arguments that a task does not need are
ignored. -/
def ofArguments : List String → Except Refusal Task
  | [] => return .verify
  | "verify" :: _ => return .verify
  | "fmt" :: _ => return .checkFormat
  | "clippy" :: _ => return .lint
  | "lint" :: _ => return .lintStrict
  | "test" :: _ => return .test
  | ["stress"] => return .stress defaultCases
  | "stress" :: text :: _ =>
    match readCount text with
    | .ok cases => return .stress cases
    | .error e => throw (.invalidCount text e)
  | name :: _ => throw (.unknownCommand name)

/-! ## Reports -/

/-- What a command left behind. -/
structure Output where
  succeeded : Bool
  standardOutput : List UInt8
  standardError : List UInt8
deriving DecidableEq, Repr

/-- One stream of an output under its title, ended by a line break. -/
def streamReport (title : String) (bytes : List UInt8) : String :=
  if bytes.isEmpty then ""
  else
    let text := Utf8.decode bytes
    title ++ ":\n" ++ text ++ if text.endsWith "\n" then "" else "\n"

/-- What a command printed. -/
def Output.report (o : Output) : String :=
  let text := streamReport "stdout" o.standardOutput ++ streamReport "stderr" o.standardError
  if text.isEmpty then "(no output)\n" else text

/-- The message on a command that failed. -/
def Output.failure? (o : Output) (name : String) : Option String :=
  if o.succeeded then none else some (name ++ " failed:\n" ++ o.report)

end Task

end ManagedHeap
