/-!
# Handles and spaces

Objects are named by handles.  A handle is an index into the heap's handle table
and not an address: the collector may move an object and keep its handle.
-/

namespace ManagedHeap

/-- The name of a heap object, which stays the same when the object is moved. -/
structure Handle where
  index : Nat
deriving DecidableEq, Repr, Inhabited

/-- The written form of a handle, its index after a number sign. -/
def Handle.text (id : Handle) : String :=
  "#" ++ toString id.index

/-- The two regions of the heap.  Short-lived objects start in `young`, and the
objects that survive a collection are moved to `old`. -/
inductive Space where
  | young
  | old
deriving DecidableEq, Repr, Inhabited

/-- The name of a space in reports. -/
def Space.name : Space → String
  | .young => "new"
  | .old => "old"

def Space.all : List Space :=
  [.young, .old]

end ManagedHeap
