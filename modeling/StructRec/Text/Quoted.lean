import StructRec.Text.Printable

/-!
# StructRec — quoted text

Text between double quotes, in which every character that does not show by itself is written as an
escape.
-/

namespace StructRec.Text

/-- A code point in lower-case hexadecimal without padding, as `\u` and braces. -/
def codeEscape (c : Char) : String :=
  "\\u\x7b" ++ String.ofList (Nat.toDigits 16 c.toNat) ++ "\x7d"

/-- How a character is written between double quotes. -/
def quotedChar (c : Char) : String :=
  match c with
  | '\x00' => "\\0"
  | '\t' => "\\t"
  | '\r' => "\\r"
  | '\n' => "\\n"
  | '\\' => "\\\\"
  | '"' => "\\\""
  | c => if standsAlone c then c.toString else codeEscape c

/-- A text between double quotes. -/
def quoted (s : String) : String := "\"" ++ String.join (s.toList.map quotedChar) ++ "\""

end StructRec.Text
