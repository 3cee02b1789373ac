import ManagedHeap.Heap

/-!
# Heap statistics

The numbers of objects and bytes in each space, and a report that lists them by kind.
-/

namespace ManagedHeap

namespace Heap

structure Stats where
  youngObjects : Nat
  youngBytes : Nat
  oldObjects : Nat
  oldBytes : Nat
  scavenges : Nat
  fullCollections : Nat
deriving DecidableEq, Repr

def stats (h : Heap) : Stats where
  youngObjects := h.young.objectCount
  youngBytes := h.young.used
  oldObjects := h.old.objectCount
  oldBytes := h.old.used
  scavenges := h.scavenges
  fullCollections := h.fullCollections

/-- The objects of one kind and the bytes they are accounted for. -/
structure KindUsage where
  kind : Kind
  objects : Nat
  bytes : Nat
deriving DecidableEq, Repr

/-- Counts a resident in the row of its kind; a kind that is new gets the last row. -/
def addUsage : List KindUsage → Resident → List KindUsage
  | [], r => [⟨r.object.kind, 1, r.size⟩]
  | row :: rows, r =>
    if row.kind = r.object.kind then
      { row with objects := row.objects + 1, bytes := row.bytes + r.size } :: rows
    else row :: addUsage rows r

/-- The usage by kind, most bytes first.  Kinds with as many bytes keep the order in
which they are met, the young space before the old one.  Each space counts its bytes in
a machine word, but a kind may take more than that in the two together. -/
def usage (h : Heap) : Except Fault (List KindUsage) :=
  let rows := (h.young.residents ++ h.old.residents).foldl addUsage []
  if rows.all fun row => row.bytes < wordLimit then
    .ok (rows.mergeSort fun a b => b.bytes ≤ a.bytes)
  else .error .wordOverflow

def KindUsage.line (row : KindUsage) : String :=
  "  " ++ row.kind.name ++ ": " ++ toString row.objects ++ " objects, " ++ toString row.bytes
    ++ " bytes\n"

/-- The numbers of one space. -/
def spaceLine (name : String) (objects bytes limit : Nat) : String :=
  name ++ " " ++ toString objects ++ " objects / " ++ toString bytes ++ " bytes (limit "
    ++ toString limit ++ ")"

/-- The report on a heap: a line on its spaces and collections, then one for each kind. -/
def report (h : Heap) : Except Fault String := do
  let rows ← h.usage
  let s := h.stats
  return "Heap: " ++ spaceLine "new" s.youngObjects s.youngBytes h.young.limit ++ ", "
    ++ spaceLine "old" s.oldObjects s.oldBytes h.old.limit ++ ", "
    ++ toString s.scavenges ++ " scavenges, "
    ++ toString s.fullCollections ++ " full collections\n"
    ++ String.join (rows.map KindUsage.line)

end Heap

end ManagedHeap
