import ManagedHeap.Fault
import ManagedHeap.Text.Utf16

/-!
# Texts as bytes

Decoding accepts every sequence of bytes.  Where the bytes are no character, the
longest beginning of one is read as a single replacement character.  A text can
also be cut to a number of bytes without splitting a character.
-/

namespace ManagedHeap

namespace Utf8

/-- The range of the second byte of a character and the number of bytes after the
first, by the first byte.  The narrower ranges leave out surrogates, overlong forms
and numbers above the last character. -/
def lead? (b : UInt8) : Option (UInt8 × UInt8 × Nat) :=
  if 0xc2 ≤ b && b ≤ 0xdf then some (0x80, 0xbf, 1)
  else if b == 0xe0 then some (0xa0, 0xbf, 2)
  else if b == 0xed then some (0x80, 0x9f, 2)
  else if 0xe1 ≤ b && b ≤ 0xef then some (0x80, 0xbf, 2)
  else if b == 0xf0 then some (0x90, 0xbf, 3)
  else if 0xf1 ≤ b && b ≤ 0xf3 then some (0x80, 0xbf, 3)
  else if b == 0xf4 then some (0x80, 0x8f, 3)
  else none

/-- What the bytes after a first byte still have to be: the range of the next byte
and the number of bytes missing. -/
structure Pending where
  value : Nat
  low : UInt8
  high : UInt8
  missing : Nat
deriving DecidableEq, Repr

/-- The first bytes of a character under way, and the text read so far. -/
structure Reader where
  out : String
  pending : Option Pending

/-- Reads a byte that begins a character. -/
def Reader.start (out : String) (b : UInt8) : Reader :=
  if b < 0x80 then ⟨out.push (Char.ofNat b.toNat), none⟩
  else match lead? b with
    | some (low, high, missing) =>
      ⟨out, some ⟨b.toNat % (64 >>> missing), low, high, missing⟩⟩
    | none => ⟨out.push Utf16.replacement, none⟩

/-- Reads one more byte. -/
def Reader.step (r : Reader) (b : UInt8) : Reader :=
  match r.pending with
  | none => Reader.start r.out b
  | some p =>
    if p.low ≤ b && b ≤ p.high then
      let value := p.value * 64 + b.toNat % 64
      if p.missing ≤ 1 then ⟨r.out.push (Char.ofNat value), none⟩
      else ⟨r.out, some ⟨value, 0x80, 0xbf, p.missing - 1⟩⟩
    else Reader.start (r.out.push Utf16.replacement) b

/-- The text that is read when the input ends here. -/
def Reader.finish (r : Reader) : String :=
  match r.pending with
  | none => r.out
  | some _ => r.out.push Utf16.replacement

/-- The text of a sequence of bytes. -/
def decode (bytes : List UInt8) : String :=
  (bytes.foldl Reader.step ⟨"", none⟩).finish

/-! ## Cutting at a number of bytes -/

/-- Whether a text can be cut after a number of bytes: at its ends, or where a character
begins. -/
def isBoundary (text : String) (bytes : Nat) : Bool :=
  (⟨bytes⟩ : String.Pos.Raw).isValid text

/-- The last place at or before a number of bytes where a text can be cut. -/
def lastBoundary (text : String) (bytes : Nat) : Except Fault Nat :=
  if isBoundary text bytes then return bytes
  else match bytes with
    | 0 => throw .wordOverflow
    | bytes + 1 => lastBoundary text bytes

/-- The text of the first bytes, if it can be cut after them. -/
def firstBytes (text : String) (bytes : Nat) : Except Fault String :=
  if h : isBoundary text bytes then
    return .fromUTF8 (text.toUTF8.extract 0 bytes)
      (String.Pos.Raw.isValid_eq_true_iff.mp h).isValidUTF8_extract_zero
  else throw .outOfRange

/-- Appends as much of a text as leaves the result within `capacity` bytes. -/
def appendWithin (capacity : Nat) (out text : String) : Except Fault String := do
  let room := capacity - out.utf8ByteSize
  if text.utf8ByteSize ≤ room then return out ++ text
  let kept ← firstBytes text (← lastBoundary text room)
  return out ++ kept

end Utf8

end ManagedHeap
