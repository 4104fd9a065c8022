import StructRec.Json.Value

/-!
# StructRec — JSON text

Reading is strict: no byte order mark, no comments, no trailing commas, no control characters in
strings, no leading zeros. A text is cut into tokens by a machine over its characters, and the
tokens are put together with a stack of open containers, so that neither step depends on how deep a
text is nested.
-/

namespace StructRec

namespace Json

/-! ## Strings -/

/-- The text that a sequence of code points and surrogates stands for. A high surrogate and the low
one after it are one character; any other surrogate is unpaired. -/
def textOfCodes : List Nat → Option (List Char)
  | [] => some []
  | high :: low :: rest =>
    if 0xd800 ≤ high && high < 0xdc00 && 0xdc00 ≤ low && low < 0xe000 then
      (textOfCodes rest).map (Char.ofNat (0x10000 + (high - 0xd800) * 0x400 + (low - 0xdc00)) :: ·)
    else if 0xd800 ≤ high && high < 0xe000 then none
    else (textOfCodes (low :: rest)).map (Char.ofNat high :: ·)
  | [code] => if 0xd800 ≤ code && code < 0xe000 then none else some [Char.ofNat code]

/-- The code that a one-letter escape stands for. -/
def escapeCode? : Char → Option Nat
  | '"' => some 0x22
  | '\\' => some 0x5c
  | '/' => some 0x2f
  | 'b' => some 0x08
  | 'f' => some 0x0c
  | 'n' => some 0x0a
  | 'r' => some 0x0d
  | 't' => some 0x09
  | _ => none

def hexDigit? (c : Char) : Option Nat :=
  if '0' ≤ c && c ≤ '9' then some (c.toNat - '0'.toNat)
  else if 'a' ≤ c && c ≤ 'f' then some (c.toNat - 'a'.toNat + 10)
  else if 'A' ≤ c && c ≤ 'F' then some (c.toNat - 'A'.toNat + 10)
  else none

/-! ## Numbers -/

/-- Split off the digits at the front. -/
def spanDigits (cs : List Char) : List Char × List Char := cs.span Char.isDigit

def digitsValue (cs : List Char) : Nat := cs.foldl (fun n c => n * 10 + (c.toNat - '0'.toNat)) 0

/-- Whether the rest of a number is a fraction and an exponent, each of which may be absent. -/
def isFractionExponent (cs : List Char) : Bool :=
  let afterFraction := match cs with
    | '.' :: rest =>
      let (digits, rest) := spanDigits rest
      if digits.isEmpty then none else some rest
    | rest => some rest
  match afterFraction with
  | none => false
  | some [] => true
  | some (e :: rest) =>
    let digits := match rest with
      | '+' :: digits | '-' :: digits => digits
      | digits => digits
    (e = 'e' || e = 'E') && !digits.isEmpty && digits.all Char.isDigit

/-- A number from all of its characters. Negative zero is not an integer. -/
def number? (cs : List Char) : Option Json :=
  let (negative, cs) := match cs with
    | '-' :: rest => (true, rest)
    | rest => (false, rest)
  let (digits, rest) := spanDigits cs
  let isPlain := match digits with
    | [] => false
    | ['0'] => true
    | first :: _ => first ≠ '0'
  if !isPlain || !isFractionExponent rest then none
  else if !rest.isEmpty then some unreadable
  else
    let value := digitsValue digits
    if !negative then some (int value)
    else if value = 0 then some unreadable
    else some (int (-value))

/-! ## Tokens -/

inductive Token where
  | beginArray
  | endArray
  | beginObject
  | endObject
  | comma
  | colon
  /-- A string, or none if a surrogate in it is unpaired. -/
  | text (content : Option String)
  /-- A value that is neither a string nor a container. -/
  | scalar (value : Json)

/-- Where the character machine stands; what it has gathered is listed backwards. -/
inductive LexState where
  | blank
  | inString (codes : List Nat)
  | inEscape (codes : List Nat)
  | inCode (codes : List Nat) (digits : Nat) (value : Nat)
  | inNumber (chars : List Char)
  | inWord (chars : List Char)

def isNumberChar (c : Char) : Bool := c.isDigit || c ∈ ['-', '+', '.', 'e', 'E']

/-- The value that a word stands for. -/
def word? (chars : List Char) : Option Json :=
  match String.ofList chars with
  | "null" => some null
  | "true" => some (bool true)
  | "false" => some (bool false)
  | _ => none

/-- The tokens that the end of what was gathered gives. -/
def flush? : LexState → Option (List Token)
  | .blank => some []
  | .inNumber chars => (number? chars.reverse).map ([.scalar ·])
  | .inWord chars => (word? chars.reverse).map ([.scalar ·])
  | .inString _ | .inEscape _ | .inCode .. => none

/-- A character outside of strings, after what was gathered has been flushed. -/
def start? (c : Char) : Option (List Token × LexState) :=
  match c with
  | '[' => some ([.beginArray], .blank)
  | ']' => some ([.endArray], .blank)
  | '\x7b' => some ([.beginObject], .blank)
  | '\x7d' => some ([.endObject], .blank)
  | ',' => some ([.comma], .blank)
  | ':' => some ([.colon], .blank)
  | '"' => some ([], .inString [])
  | ' ' | '\t' | '\n' | '\r' => some ([], .blank)
  | c =>
    if c = '-' || c.isDigit then some ([], .inNumber [c])
    else if c.isLower then some ([], .inWord [c])
    else none

/-- One step of the character machine: the tokens that are complete, and where it stands then. -/
def lexStep (state : LexState) (c : Char) : Option (List Token × LexState) :=
  match state with
  | .inString codes =>
    if c = '"' then some ([.text ((textOfCodes codes.reverse).map String.ofList)], .blank)
    else if c = '\\' then some ([], .inEscape codes)
    else if c.toNat < 0x20 then none
    else some ([], .inString (c.toNat :: codes))
  | .inEscape codes =>
    if c = 'u' then some ([], .inCode codes 0 0)
    else (escapeCode? c).map fun code => ([], .inString (code :: codes))
  | .inCode codes digits value =>
    (hexDigit? c).map fun d =>
      let value := value * 16 + d
      if digits < 3 then ([], .inCode codes (digits + 1) value)
        else ([], .inString (value :: codes))
  | .inNumber chars =>
    if isNumberChar c then some ([], .inNumber (c :: chars)) else
      match flush? state, start? c with
      | some done, some (tokens, next) => some (done ++ tokens, next)
      | _, _ => none
  | .inWord chars =>
    if c.isAlpha then some ([], .inWord (c :: chars)) else
      match flush? state, start? c with
      | some done, some (tokens, next) => some (done ++ tokens, next)
      | _, _ => none
  | .blank => start? c

/-- The tokens of a text. The tokens found so far are listed backwards. -/
def lexFrom : LexState → List Token → List Char → Option (List Token)
  | state, tokens, [] => (flush? state).map fun last => tokens.reverse ++ last
  | state, tokens, c :: rest =>
    match lexStep state c with
    | some (new, next) => lexFrom next (new.reverse ++ tokens) rest
    | none => none

/-! ## Containers -/

/-- An open container; its members so far are listed backwards. -/
inductive Frame where
  | items (done : List Json)
  | fields (done : List (Option String × Json)) (key : Option String)

/-- What may come next. -/
inductive Expected where
  | value
  /-- A value, or the end of an array that has just been opened. -/
  | firstItem
  /-- A key, or the end of an object that has just been opened. -/
  | firstKey
  | key
  | colon
  /-- A comma or the end of the innermost container. -/
  | next
  | nothing

structure Builder where
  frames : List Frame := []
  expected : Expected := .value
  result : Json := null

namespace Builder

/-- Put a value in its place. -/
def deliver (b : Builder) (value : Json) : Builder :=
  match b.frames with
  | [] => { b with expected := .nothing, result := value }
  | .items done :: rest => { b with frames := .items (value :: done) :: rest, expected := .next }
  | .fields done key :: rest =>
    { b with frames := .fields ((key, value) :: done) none :: rest, expected := .next }

/-- The fields of an object, if all of its keys can be read. -/
def fields? (done : List (Option String × Json)) : Option (List (String × Json)) :=
  done.reverse.mapM fun (key, value) => key.map (·, value)

/-- Close the innermost container. One that is nested too deep cannot be read. -/
def close? (limit : Option Nat) (b : Builder) : Option Builder :=
  let tooDeep := limit.any (· < b.frames.length)
  match b.frames with
  | [] => none
  | .items done :: rest =>
    some <| { b with frames := rest }.deliver (if tooDeep then unreadable else arr done.reverse)
  | .fields done _ :: rest =>
    some <| { b with frames := rest }.deliver <|
      match tooDeep, fields? done with
      | false, some fields => obj fields
      | _, _ => unreadable

/-- Whether the innermost container is an object. -/
def inObject (b : Builder) : Bool :=
  match b.frames with
  | .fields .. :: _ => true
  | _ => false

def step (limit : Option Nat) (b : Builder) (token : Token) : Option Builder :=
  match b.expected, token with
  | .value, .scalar value | .firstItem, .scalar value => some (b.deliver value)
  | .value, .text content | .firstItem, .text content =>
    some (b.deliver ((content.map str).getD unreadable))
  | .value, .beginArray | .firstItem, .beginArray =>
    some { b with frames := .items [] :: b.frames, expected := .firstItem }
  | .value, .beginObject | .firstItem, .beginObject =>
    some { b with frames := .fields [] none :: b.frames, expected := .firstKey }
  | .firstItem, .endArray => b.close? limit
  | .firstKey, .endObject => b.close? limit
  | .firstKey, .text content | .key, .text content =>
    match b.frames with
    | .fields done _ :: rest =>
        some { b with frames := .fields done content :: rest, expected := .colon }
    | _ => none
  | .colon, .colon => some { b with expected := .value }
  | .next, .comma => some { b with expected := if b.inObject then .key else .value }
  | .next, .endArray => if b.inObject then none else b.close? limit
  | .next, .endObject => if b.inObject then b.close? limit else none
  | _, _ => none

end Builder

/-- Read a text. Containers nested deeper than the limit cannot be read. -/
def read? (limit : Option Nat) (text : String) : Option Json := do
  let tokens ← lexFrom .blank [] text.toList
  let b ← tokens.foldlM (Builder.step limit) {}
  match b.expected with
  | .nothing => some b.result
  | _ => none

end Json

end StructRec
