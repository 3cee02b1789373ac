import ManagedHeap.Store.Rooting

/-!
# Allocation

Every object is placed by `fulfil`.  If the first attempt fails, the space is collected
once and the object is tried once more; a second failure is final.  The object that
waits for its place is no root, but what it refers to is held.  It is built when there
is room for it, so a large one that finds none takes no time.

The caches that name objects without keeping them alive follow each collection: the
texts of numbers are dropped before it, the dead entries of the interning table after.
-/

namespace ManagedHeap

namespace StoreM

/-! ## The gate -/

/-- Enters a region without allocations.  The regions are counted in 32 bits. -/
def enterGate : StoreM Unit := do
  checkCount ((← get).gate.depth + 1)
  modify fun s => { s with gate := s.gate.enter }

/-- Leaves the region entered last. -/
def leaveGate : StoreM Unit :=
  modify fun s => { s with gate := s.gate.leave }

/-! ## Collections -/

/-- Notes an event, if the store has outages. -/
def noteOutage (event : OutageEvent) : StoreM Unit :=
  modify fun s => { s with outages := s.outages.map fun o => { o with log := o.log.push event } }

/-- Collects a space.  The roots and the objects in `held` stay alive. -/
def collect (space : Space) (held : List Handle) : StoreM HeapM.Collected := do
  modify fun s => { s with numberTexts := [] }
  noteOutage (.collected space)
  let roots := (← get).roots held
  let collected ← onHeap (HeapM.collect space roots)
  modify fun s =>
    { s with
      table := s.table.retain s.heap.isLive
      collections := s.collections + 1 }
  return collected

/-- Collects the young space, or both spaces. -/
def collectGarbage (space : Space) : StoreM HeapM.Collected :=
  collect space []

/-! ## Placing objects -/

/-- Whether the next attempt to allocate is refused by an outage.  The attempt counts. -/
def nextRefused : StoreM Bool := do
  match (← get).outages with
  | none => return false
  | some o =>
    modify fun s => { s with outages := some { o with attempts := o.attempts + 1 } }
    return o.refuses o.attempts

/-- One attempt to build an object and place it. -/
def attempt (request : HeapM.Request) (build : Unit → Object) : StoreM (Option Handle) := do
  if ← nextRefused then
    noteOutage (.refused request)
    return none
  else
    onHeap (HeapM.allocate? request build)

/-- Builds the object of a request, which refers to the objects in `held`, and keeps it
alive in the current scope. -/
def fulfil (request : HeapM.Request) (held : List Handle) (build : Unit → Object) :
    StoreM Handle := do
  if !(← get).gate.isOpen then throw .allocationDisallowed
  match ← attempt request build with
  | some id => track id
  | none =>
    let _ ← collect request.space held
    match ← attempt request build with
    | some id => track id
    | none => throw (.outOfMemory request.size request.kind request.space)

/-- Places an object and keeps it alive in the current scope. -/
def allocate (object : Object) (space : Space) : StoreM Handle :=
  fulfil (.of object space) object.children fun _ => object

/-- Refuses a buffer of more bytes than a buffer can have. -/
def checkBuffer (bytes : Nat) : StoreM Unit := do
  if bufferLimit ≤ bytes then throw .bufferTooLarge

/-- Places a flat string. -/
def allocateFlat (units : Units) (space : Space) : StoreM Handle :=
  allocate (.string (.flat units false)) space

/-- Changes an object in place and measures it again. -/
def growObject (id : Handle) (f : Object → Object) : StoreM Unit :=
  onHeap do
    HeapM.modifyObject id f
    HeapM.reaccount id

end StoreM

end ManagedHeap
