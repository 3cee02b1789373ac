/-!
# The capacities of buffers and tables

A buffer takes less than half of what a machine word can count in bytes.  A table has
room for 3 entries, for 7, or for a power of two times 7.  A full table that takes one
more entry grows to the next of these capacities.  The places of a table are a buffer
too, so a capacity can be too large to be made.
-/

namespace ManagedHeap

/-! ## Buffers -/

/-- The first number of bytes that no buffer can have. -/
def bufferLimit : Nat := UInt64.size / 2

/-! ## Tables -/

/-- The smallest capacity of a table that has room for `count` entries. -/
def Capacity.fitting (count : Nat) : Nat :=
  if count ≤ 3 then 3 else 7 * ((count + 6) / 7).nextPowerOfTwo

/-- The capacity of a table that is made for `count` entries; one that is made for
none takes no room. -/
def Capacity.initial (count : Nat) : Nat :=
  if count = 0 then 0 else Capacity.fitting count

/-- The capacity after an entry is added to a table that holds `count` of them. -/
def Capacity.afterInsert (capacity count : Nat) : Nat :=
  if count < capacity then capacity else Capacity.fitting (count + 1)

/-- Whether a table can be made for `count` entries, if a place takes `width` bytes.  Of
8 places 7 are used, and each has one byte more that says whether it is. -/
def Capacity.canBeMade (count width : Nat) : Bool :=
  Capacity.fitting count / 7 * (8 * (width + 1)) < bufferLimit

end ManagedHeap
