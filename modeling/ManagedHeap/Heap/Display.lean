import ManagedHeap.Decimal.Shortest
import ManagedHeap.Heap.Content

/-!
# Values as texts

The number that a value is, the short text by which messages show a value, and message
templates that are filled with such texts.
-/

namespace ManagedHeap

namespace Heap

/-- The number that a value is, if it is one. -/
def number? (h : Heap) (value : Value) : Except Fault (Option Double) := do
  match value with
  | .int n => return some (.ofInt n.toInt)
  | .ref id =>
    match ← h.find id with
    | .number x => return some x
    | _ => return none
  | _ => return none

/-- The short text of a value: strings and numbers as they are, other objects by their
kind. -/
def display (h : Heap) (value : Value) : Except Fault String := do
  match value with
  | .int n => return toString n.toInt
  | .bool b => return Value.boolName b
  | .ref id =>
    match ← h.find id with
    | .string _ => return (← h.content id).text
    | .number x => return x.text
    | object => return "[object " ++ object.kind.name ++ "]"
  | _ => return value.typeName

/-- Fills a template from left to right.  A percent sign followed by a digit stands for
the argument of that number, or for `undefined` if there are not as many. -/
def fillTemplate (h : Heap) (arguments : Array Value) : List Char → String → Except Fault String
  | [], out => return out
  | [c], out => return out.push c
  | c :: d :: rest, out => do
    if c = '%' && d.isDigit then
      match arguments[d.toNat - '0'.toNat]? with
      | some value => h.fillTemplate arguments rest (out ++ (← h.display value))
      | none => h.fillTemplate arguments rest (out ++ "undefined")
    else
      h.fillTemplate arguments (d :: rest) (out.push c)

/-- The values of an array of arguments.  Anything but an array has none. -/
def argumentValues (h : Heap) (arguments : Option Handle) : Except Fault (Array Value) := do
  match arguments with
  | none => return #[]
  | some id =>
    match ← h.find id with
    | .array items => return items
    | _ => return #[]

end Heap

end ManagedHeap
