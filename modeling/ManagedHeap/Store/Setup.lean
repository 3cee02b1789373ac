import ManagedHeap.Store.Arrays
import ManagedHeap.Store.Numbers

/-!
# New stores

A new store makes its canonical objects in the old space, in a fixed order.  They are
made in a scope of their own and are kept alive as canonical objects afterwards.
-/

namespace ManagedHeap

/-- A store before its canonical objects are made. -/
def Store.blank (config : Config) (outages : Option Outages) : Store where
  heap := .empty config.youngBytes config.oldBytes
  config := config
  gate := .initial
  scope := #[]
  persistent := []
  table := .empty (InternTable.mixUnits (config.hashSeed.getD 0))
  singles := Array.replicate 256 none
  numberTexts := []
  builtins := .empty
  canonical := .unset
  lastScriptId := 0
  collections := 0
  shapeHits := 0
  shapeMisses := 0
  outages := outages

namespace StoreM

/-- Records a canonical object that was just made. -/
def own (record : Canonical → Canonical) : StoreM Unit :=
  modify fun s => { s with canonical := record s.canonical }

/-- Makes the canonical objects. -/
def makeCanonical : StoreM Unit := do
  let emptyString ← internUnits (.narrow #[])
  own ({ · with emptyString })
  let emptyArray ← allocate (.array #[]) .old
  own ({ · with emptyArray })
  let nan ← newHeapNumber .nan .old
  own ({ · with nan })
  let infinity ← newHeapNumber .infinity .old
  own ({ · with infinity })
  let undefinedString ← internText "undefined"
  own ({ · with undefinedString })
  let nanString ← internText "NaN"
  own ({ · with nanString })
  let infinityString ← internText "Infinity"
  own ({ · with infinityString })
  let constructorString ← internText "constructor"
  own ({ · with constructorString })

end StoreM

/-- Why a store cannot be made. -/
inductive SetupError where
  | config (error : ConfigError)
  /-- The spaces are too small for the canonical objects. -/
  | fault (fault : Fault)
deriving DecidableEq, Repr

/-- A new store with a configuration and a plan of outages, if it has one. -/
def Store.create (config : Config) (outages : Option Outages) : Except SetupError Store :=
  match config.error? with
  | some e => .error (.config e)
  | none =>
    match StoreM.handleScope StoreM.makeCanonical (.blank config outages) with
    | .ok _ s => .ok s
    | .error e _ => .error (.fault e)

end ManagedHeap
