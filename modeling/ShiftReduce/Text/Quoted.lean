set_option autoImplicit false

/-! # Quoted text

A quoted text stands between double quotes, with the quote, the backslash and every character that
would not show on its own written as an escape. -/

namespace ShiftReduce.Quoted

/-- Whether the character is written by its code: the controls, and the accents that would
    combine with the character before them. -/
def isHidden (c : Char) : Bool :=
  c.toNat < 0x20 || (0x7f ≤ c.toNat && c.toNat < 0xa0) || (0x300 ≤ c.toNat && c.toNat < 0x370)

/-- The code of a character in lowercase hexadecimal digits, between braces. -/
def codeEscape (c : Char) : String :=
  "\\u\x7b" ++ String.ofList (Nat.toDigits 16 c.toNat) ++ "\x7d"

def escape (c : Char) : String :=
  match c with
  | '"' => "\\\""
  | '\\' => "\\\\"
  | '\n' => "\\n"
  | '\r' => "\\r"
  | '\t' => "\\t"
  | '\x00' => "\\0"
  | c => if isHidden c then codeEscape c else c.toString

def encode (text : String) : String :=
  "\"" ++ String.join (text.toList.map escape) ++ "\""

end ShiftReduce.Quoted
