import ManagedHeap.Text.Invisible

/-!
# Quoted texts

A text between quotation marks, in which marks, backslashes and characters that could
not be seen are escaped.
-/

namespace ManagedHeap

namespace Quoted

/-- The number of a character in hexadecimal, between braces. -/
def escapeNumber (c : Char) : String :=
  "\\u\x7b" ++ String.ofList (Nat.toDigits 16 c.toNat) ++ "\x7d"

/-- A character as it stands in a quoted text. -/
def escape (c : Char) : String :=
  match c with
  | '\x00' => "\\0"
  | '\t' => "\\t"
  | '\r' => "\\r"
  | '\n' => "\\n"
  | '"' => "\\\""
  | '\\' => "\\\\"
  | c => if isInvisible c then escapeNumber c else String.singleton c

/-- A text in quotation marks. -/
def quote (text : String) : String :=
  "\"" ++ String.join (text.toList.map escape) ++ "\""

end Quoted

end ManagedHeap
