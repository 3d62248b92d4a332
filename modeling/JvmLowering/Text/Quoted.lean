import JvmLowering.Text.Hidden

/-!
# Quoted text

A text between quotation marks as messages show it. The quotation mark and the backslash get a
backslash in front, the common control characters have short forms, and a character without a glyph
is given by its code point.
-/

namespace JvmLowering.Text

/-- The code point in hexadecimal digits. -/
def codePoint (c : Char) : String := "\\u\x7b" ++ String.ofList (Nat.toDigits 16 c.toNat) ++ "\x7d"

def quoteChar (c : Char) : String :=
  match c with
  | '\x00' => "\\0"
  | '\t' => "\\t"
  | '\r' => "\\r"
  | '\n' => "\\n"
  | '\\' => "\\\\"
  | '"' => "\\\""
  | c => if isHidden c then codePoint c else c.toString

def quote (text : String) : String := "\"" ++ String.join (text.toList.map quoteChar) ++ "\""

end JvmLowering.Text
