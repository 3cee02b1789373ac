import ManagedHeap.Store

/-!
# Roots and scopes

An object stays alive as long as it can be reached from a root: an object of an open
scope, a persistent object, a cached string of one unit or a canonical object.  Scopes
are positions in one stack of roots; closing a scope drops what was put on the stack
since it was opened.
-/

namespace ManagedHeap

/-- The roots of a store, after some more that an operation under way holds. -/
def Store.roots (s : Store) (held : List Handle) : List Handle :=
  held ++ s.scope.toList ++ s.persistent.map Prod.fst ++ s.singles.toList.filterMap id
    ++ s.canonical.toList

namespace StoreM

/-! ## Scopes -/

/-- Keeps an object alive in the current scope. -/
def track (id : Handle) : StoreM Handle := do
  modify fun s => { s with scope := s.scope.push id }
  return id

/-- A position in the stack of roots. -/
structure ScopeMark where
  depth : Nat
deriving DecidableEq, Repr

def openScope : StoreM ScopeMark :=
  return ⟨(← get).scope.size⟩

/-- Drops every root put on the stack since a scope was opened. -/
def closeScope (mark : ScopeMark) : StoreM Unit :=
  modify fun s => { s with scope := s.scope.take mark.depth }

/-- Runs a computation in a scope of its own. -/
def handleScope (body : StoreM α) : StoreM α := do
  let mark ← openScope
  let result ← body
  closeScope mark
  return result

/-- Runs a computation in a scope of its own and keeps its result in the outer one. -/
def escapableScope (body : StoreM Handle) : StoreM Handle := do
  let mark ← openScope
  let result ← body
  closeScope mark
  track result

/-! ## Persistent objects -/

/-- The number of releases that are due for an object. -/
def releasesDue (id : Handle) : List (Handle × Nat) → Nat
  | [] => 0
  | (other, count) :: rest => (if other = id then count else 0) + releasesDue id rest

/-- One more release due for an object. -/
def addRelease (id : Handle) : List (Handle × Nat) → List (Handle × Nat)
  | [] => [(id, 1)]
  | (other, count) :: rest =>
    if other = id then (id, count + 1) :: rest else (other, count) :: addRelease id rest

/-- One release less due for an object; without any left it is dropped. -/
def dropRelease (id : Handle) : List (Handle × Nat) → List (Handle × Nat)
  | [] => []
  | (other, count) :: rest =>
    if other = id then if count ≤ 1 then rest else (id, count - 1) :: rest
    else (other, count) :: dropRelease id rest

/-- Keeps an object alive until it is released as often as it was kept.  The releases due are
counted in 32 bits. -/
def persist (id : Handle) : StoreM Unit := do
  checkCount (releasesDue id (← get).persistent + 1)
  modify fun s => { s with persistent := addRelease id s.persistent }

def unpersist (id : Handle) : StoreM Unit :=
  modify fun s => { s with persistent := dropRelease id s.persistent }

end StoreM

end ManagedHeap
