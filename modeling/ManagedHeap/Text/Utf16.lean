/-!
# Texts as sixteen-bit code units

A character below `0x10000` is one code unit; the others are a pair of surrogates.
Decoding accepts every sequence of units: a surrogate without its partner is read
as the replacement character.
-/

namespace ManagedHeap

namespace Utf16

/-- The character that stands for input without a meaning. -/
def replacement : Char := '\ufffd'

/-- The first half of a pair. -/
def isHigh (u : UInt16) : Bool :=
  0xd800 ≤ u && u < 0xdc00

/-- The second half of a pair. -/
def isLow (u : UInt16) : Bool :=
  0xdc00 ≤ u && u < 0xe000

/-- The character that a pair of surrogates stands for. -/
def joined (high low : UInt16) : Char :=
  Char.ofNat (0x10000 + (high.toNat - 0xd800) * 0x400 + (low.toNat - 0xdc00))

/-- The code units of one character. -/
def unitsOf (c : Char) : List UInt16 :=
  let n := c.toNat
  if n < 0x10000 then [UInt16.ofNat n]
  else [UInt16.ofNat (0xd800 + (n - 0x10000) / 0x400), UInt16.ofNat (0xdc00 + (n - 0x10000) % 0x400)]

/-- The code units of a text. -/
def encode (text : String) : List UInt16 :=
  text.toList.flatMap unitsOf

/-- Reads code units after a text that is already read. -/
def decodeAfter (out : String) : List UInt16 → String
  | [] => out
  | [u] => out.push (if isHigh u || isLow u then replacement else Char.ofNat u.toNat)
  | u :: v :: rest =>
    if isHigh u && isLow v then decodeAfter (out.push (joined u v)) rest
    else
      decodeAfter (out.push (if isHigh u || isLow u then replacement else Char.ofNat u.toNat))
        (v :: rest)

/-- The text of a sequence of code units. -/
def decode (units : List UInt16) : String :=
  decodeAfter "" units

end Utf16

end ManagedHeap
