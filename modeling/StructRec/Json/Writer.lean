import StructRec.Json.Value

/-!
# StructRec — written JSON

The compact form stands on one line without blanks. The pretty form indents by two blanks and puts
every member of a container on a line of its own.
-/

namespace StructRec

namespace Json

/-- How a character is written in a string. -/
def escapedChar (c : Char) : String :=
  match c with
  | '"' => "\\\""
  | '\\' => "\\\\"
  | '\n' => "\\n"
  | '\r' => "\\r"
  | '\t' => "\\t"
  | '\x08' => "\\b"
  | '\x0c' => "\\f"
  | c =>
    if c.toNat < 0x20 then
      let digits := Nat.toDigits 16 c.toNat
      "\\u" ++ String.ofList (List.replicate (4 - digits.length) '0' ++ digits)
    else c.toString

def quotedString (s : String) : String := "\"" ++ String.join (s.toList.map escapedChar) ++ "\""

/-- How the members of a container are laid out. -/
structure Layout where
  /-- What stands before a member, given how deep it is nested. -/
  lineBreak : Nat → String
  /-- What stands between a key and its value. -/
  colon : String

def Layout.compact : Layout where
  lineBreak _ := ""
  colon := ":"

def Layout.pretty : Layout where
  lineBreak depth := "\n" ++ String.join (List.replicate depth "  ")
  colon := ": "

/-- Members between brackets; nothing between them if there are none. -/
def Layout.enclose (layout : Layout) (depth : Nat) (left right : String) (members : List String) :
    String :=
  if members.isEmpty then left ++ right
  else
    left ++ ",".intercalate (members.map (layout.lineBreak (depth + 1) ++ ·)) ++
      layout.lineBreak depth ++ right

mutual

def write (layout : Layout) (depth : Nat) : Json → String
  | null | unreadable => "null"
  | bool value => if value then "true" else "false"
  | int value => toString value
  | str text => quotedString text
  | arr items => layout.enclose depth "[" "]" (writeItems layout (depth + 1) items)
  | obj fields => layout.enclose depth "\x7b" "\x7d" (writeFields layout (depth + 1) fields)

def writeItems (layout : Layout) (depth : Nat) : List Json → List String
  | [] => []
  | item :: rest => item.write layout depth :: writeItems layout depth rest

def writeFields (layout : Layout) (depth : Nat) : List (String × Json) → List String
  | [] => []
  | (key, value) :: rest =>
    (quotedString key ++ layout.colon ++ value.write layout depth) :: writeFields layout depth rest

end

/-- A value on one line. -/
def compact (j : Json) : String := j.write .compact 0

/-- A value on indented lines. -/
def pretty (j : Json) : String := j.write .pretty 0

end Json

end StructRec
