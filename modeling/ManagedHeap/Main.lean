import ManagedHeap.Task

/-!
# The maintenance tool

Checks the arguments of a task.  The commands of the task are run by the caller, if the
tool ends without an error.
-/

open ManagedHeap

def main (arguments : List String) : IO UInt32 := do
  match Task.ofArguments arguments with
  | .ok _ => return 0
  | .error refusal =>
    IO.eprintln refusal.message
    return 1
