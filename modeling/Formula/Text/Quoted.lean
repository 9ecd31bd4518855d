import Formula.Text.Hidden

/-!
Quoted text. A quoted text stands between double quotes; quotes, backslashes and a few common
controls are escaped by a letter, every other hidden character by its code point.
-/
namespace Formula
namespace Text

/-- The code point of a character between braces, in lower case hexadecimal. -/
def codePoint (c : Char) : String :=
  "\\u\x7b" ++ String.ofList (Nat.toDigits 16 c.toNat) ++ "\x7d"

def escape (c : Char) : String :=
  match c with
  | '\x00' => "\\0"
  | '\t' => "\\t"
  | '\r' => "\\r"
  | '\n' => "\\n"
  | '\\' => "\\\\"
  | '"' => "\\\""
  | c => if hidden c then codePoint c else c.toString

def quoted (s : String) : String :=
  "\"" ++ String.join (s.toList.map escape) ++ "\""

end Text

end Formula
