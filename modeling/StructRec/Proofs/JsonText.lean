import Mathlib.Data.List.TakeDrop
import Mathlib.Data.List.TakeWhile
import StructRec.Json.Writer
import StructRec.Proofs.Cutting

/-!
# StructRec — JSON text that is read back

What is written for a JSON value is read as the value, whatever the layout, as long as the layout
adds nothing but blanks and the nesting stays within the limit of the reader. The two steps of the
reader have one lemma each: a written text is cut into the tokens of its value, and the tokens of a
value are put together to the value wherever it stands.
-/

namespace StructRec

namespace Json

variable {items : List Json} {fields : List (String × Json)} {n : Nat}

/-! ## Tokens of values -/

mutual

/-- Nothing in a value is beyond what text can say. -/
def Readable : Json → Prop
  | null | bool _ | int _ | str _ => True
  | arr items => ItemsReadable items
  | obj fields => FieldsReadable fields
  | unreadable => False

def ItemsReadable : List Json → Prop
  | [] => True
  | item :: rest => item.Readable ∧ ItemsReadable rest

def FieldsReadable : List (String × Json) → Prop
  | [] => True
  | (_, value) :: rest => value.Readable ∧ FieldsReadable rest

end

mutual

def tokens : Json → List Token
  | null | unreadable => [.scalar null]
  | bool value => [.scalar (bool value)]
  | int value => [.scalar (int value)]
  | str text => [.text (some text)]
  | arr items => [.beginArray] ++ [.comma].intercalate (itemsTokens items) ++ [.endArray]
  | obj fields => [.beginObject] ++ [.comma].intercalate (fieldsTokens fields) ++ [.endObject]

def itemsTokens : List Json → List (List Token)
  | [] => []
  | item :: rest => item.tokens :: itemsTokens rest

def fieldsTokens : List (String × Json) → List (List Token)
  | [] => []
  | (key, value) :: rest => ([.text (some key)] ++ [.colon] ++ value.tokens) :: fieldsTokens rest

end

theorem itemsTokens_eq_map (items : List Json) : itemsTokens items = items.map tokens := by
  induction items with
  | nil => rfl
  | cons item rest ih => rw [itemsTokens, ih, List.map_cons]

def fieldTokens (field : String × Json) : List Token :=
  [.text (some field.1)] ++ [.colon] ++ field.2.tokens

theorem fieldsTokens_eq_map (fields : List (String × Json)) :
    fieldsTokens fields = fields.map fieldTokens := by
  induction fields with
  | nil => rfl
  | cons field rest ih => rw [fieldsTokens, ih, List.map_cons, fieldTokens]

/-! ## Blanks -/

/-- The characters between tokens. -/
def IsBlank (c : Char) : Prop := c = ' ' ∨ c = '\n' ∨ c = '\t' ∨ c = '\r'

/-- A layout that adds nothing but blanks. -/
structure Layout.Blank (layout : Layout) : Prop where
  lineBreak : ∀ depth, ∀ c ∈ (layout.lineBreak depth).toList, IsBlank c
  colon : ∃ blanks, layout.colon = ":" ++ blanks ∧ ∀ c ∈ blanks.toList, IsBlank c

/-- Lines and indentation are blanks. -/
theorem Layout.blank_pretty : Layout.pretty.Blank where
  lineBreak depth c hc := by
    simp only [pretty, String.toList_append, String.toList_join, List.mem_append, List.mem_flatMap,
      List.mem_replicate] at hc
    rcases hc with hbreak | ⟨text, ⟨-, rfl⟩, hc⟩
    · simp at hbreak
      exact .inr (.inl hbreak)
    · simp at hc
      exact .inl hc
  colon := ⟨" ", rfl, by simp [IsBlank]⟩

/-- What may follow a number or a word. -/
def Stops : List Char → Prop
  | [] => True
  | c :: _ => IsBlank c ∨ c = ',' ∨ c = ']' ∨ c = '\x7d'

/-- A written text that is cut into these tokens. -/
abbrev Writes : (List Char → Prop) → String → List Token → Prop := Cuts (lexFrom .blank)

/-- One character. -/
theorem lexFrom_cons {state next : LexState} {before new : List Token} {c : Char} {rest : List Char}
    (h : lexStep state c = some (new, next)) :
    lexFrom state before (c :: rest) = lexFrom next (new.reverse ++ before) rest := by
  rw [lexFrom, h]

theorem lexFrom_start {before new : List Token} {next : LexState} {c : Char} {rest : List Char}
    (h : start? c = some (new, next)) :
    lexFrom .blank before (c :: rest) = lexFrom next (new.reverse ++ before) rest := lexFrom_cons h

theorem start?_blank {c : Char} (h : IsBlank c) : start? c = some ([], .blank) := by
  rcases h with rfl | rfl | rfl | rfl <;> rfl

/-- Blanks have no tokens, whatever follows. -/
theorem writes_blanks {blanks : String} (h : ∀ c ∈ blanks.toList, IsBlank c) :
    Writes Anything blanks [] := by
  intro before rest _
  generalize blanks.toList = cs at h
  induction cs with
  | nil => rfl
  | cons c cs ih =>
    obtain ⟨hc, hcs⟩ := List.forall_mem_cons.mp h
    exact (lexFrom_start (start?_blank hc)).trans (ih hcs)

/-- What ends a word or a number may have blanks in front. -/
theorem stops_blanks {blanks rest : List Char} (h : ∀ c ∈ blanks, IsBlank c) (hrest : Stops rest) :
    Stops (blanks ++ rest) := by
  cases blanks with
  | nil => exact hrest
  | cons c cs => exact .inl (h c List.mem_cons_self)

/-! ## Words and numbers -/

/-- What stops a number or a word starts something else. -/
theorem exists_start_of_stops {c : Char} {rest : List Char} (h : Stops (c :: rest)) :
    ∃ tokens, start? c = some (tokens, .blank) ∧ isNumberChar c = false ∧ c.isAlpha = false := by
  rcases h with (rfl | rfl | rfl | rfl) | rfl | rfl | rfl
  all_goals exact ⟨_, rfl, by decide, by decide⟩

section strands

variable {before : List Token} {chars rest : List Char} {value : Json}

/-- What was gathered is complete before what stops it. -/
theorem lexFrom_stops {state : LexState} (hflush : flush? state = some [.scalar value])
    (hstep : ∀ c tokens, isNumberChar c = false → c.isAlpha = false →
      start? c = some (tokens, .blank) →
      lexStep state c = some (.scalar value :: tokens, .blank))
    (h : Stops rest) : lexFrom state before rest =
    lexFrom .blank (.scalar value :: before) rest := by
  cases rest with
  | nil =>
    rw [lexFrom, hflush, lexFrom, flush?, Option.map_some, Option.map_some, List.append_nil,
      List.reverse_cons]
  | cons c rest =>
    obtain ⟨tokens, hstart, hnumber, halpha⟩ := exists_start_of_stops h
    rw [lexFrom_cons (hstep c tokens hnumber halpha hstart), lexFrom_start hstart,
      List.reverse_cons, List.append_assoc, List.singleton_append]

/-- A word ends where something else begins. -/
theorem lexFrom_word (hvalue : word? chars.reverse = some value) (h : Stops rest) :
    lexFrom (.inWord chars) before rest = lexFrom .blank (.scalar value :: before) rest := by
  have hflush : flush? (.inWord chars) = some [.scalar value] := by
    rw [flush?, hvalue, Option.map_some]
  refine lexFrom_stops hflush (fun c tokens _ halpha hstart => ?_) h
  rw [lexStep, if_neg (ne_true_of_eq_false halpha), hflush, hstart]
  rfl

/-- A number goes on for as long as its characters do, and ends where it stops. -/
theorem lexFrom_number {more : List Char} (hmore : ∀ c ∈ more, isNumberChar c = true)
    (hvalue : number? (chars.reverse ++ more) = some value) (h : Stops rest) :
    lexFrom (.inNumber chars) before (more ++ rest) =
      lexFrom .blank (.scalar value :: before) rest := by
  induction more generalizing chars with
  -- the number ends here, with the text or with what begins next
  | nil =>
    rw [List.append_nil] at hvalue
    have hflush : flush? (.inNumber chars) = some [.scalar value] := by
      rw [flush?, hvalue, Option.map_some]
    refine lexFrom_stops hflush (fun c tokens hnumber _ hstart => ?_) h
    rw [lexStep, if_neg (ne_true_of_eq_false hnumber), hflush, hstart]
    rfl
  -- one more character of the number
  | cons c more ih =>
    obtain ⟨hc, hmore⟩ := List.forall_mem_cons.mp hmore
    have hstep : lexStep (.inNumber chars) c = some ([], .inNumber (c :: chars)) := if_pos hc
    refine (lexFrom_cons hstep).trans (ih hmore ?_)
    rw [List.reverse_cons, List.append_assoc]
    exact hvalue

end strands

theorem writes_null : Writes Stops "null" [.scalar null] := fun _ _ h => lexFrom_word rfl h

theorem writes_bool (value : Bool) :
    Writes Stops (if value then "true" else "false") [.scalar (bool value)] := by
  cases value with
  | true => exact fun _ _ h => lexFrom_word rfl h
  | false => exact fun _ _ h => lexFrom_word rfl h

/-- How an integer is spelled. -/
theorem toList_toString (value : Int) :
    (toString value).toList =
      if 0 ≤ value then value.toNat.repr.toList else '-' :: (-value).toNat.repr.toList := by
  rw [Int.toString_eq_repr, Int.repr_eq_if]
  split
  · rfl
  · rw [String.toList_append]
    rfl

/-- A number greater than zero has no leading zero. -/
theorem leading_ne_zero {c : Char} {more : List Char} (h : n.repr.toList = c :: more) (hn : 0 < n) :
    c ≠ '0' := by
  rw [Nat.toList_repr] at h
  induction n using Nat.strongRecOn generalizing more with
  | ind n ih =>
    rcases Nat.lt_or_ge n 10 with hlt | hge
    · rw [Nat.toDigits_of_lt_base hlt] at h
      rintro rfl
      have hzero := Nat.digitChar_eq_zero.mp (List.cons.inj h).1
      omega
    · -- the first digit is that of the quotient
      obtain ⟨d, digits, hdigits⟩ :=
        List.exists_cons_of_ne_nil (Nat.toDigits_ne_nil (n := n / 10) (b := 10))
      rw [Nat.toDigits_of_base_le (by decide) hge, hdigits, List.cons_append] at h
      obtain ⟨rfl, -⟩ := List.cons.inj h
      exact ih (n / 10) (by omega) hdigits (by omega)

/-- The digits of a number have its value. -/
theorem digitsValue_toDigits (n : Nat) : digitsValue (Nat.toDigits 10 n) = n := by
  have hfold : digitsValue (Nat.toDigits 10 n) = Nat.ofDigitChars 10 (Nat.toDigits 10 n) 0 := by
    rw [digitsValue, Nat.ofDigitChars_eq_foldl]
    congr 1
    funext sum c
    rw [Nat.mul_comm]
  rw [hfold, Nat.ofDigitChars_ten_toDigits]

theorem spanDigits_self {digits : List Char} (h : ∀ c ∈ digits, c.isDigit = true) :
    spanDigits digits = (digits, []) := by
  rw [spanDigits, List.span_eq_takeWhile_dropWhile, List.takeWhile_eq_self_iff.mpr h,
    List.dropWhile_eq_nil_iff.mpr h]

section numbers

variable {c : Char} {more : List Char}

/-- A number without leading zero is the value of its digits. -/
theorem number?_digits (hdigits : ∀ d ∈ c :: more, d.isDigit = true) (hzero : c ≠ '0') :
    number? (c :: more) = some (int (digitsValue (c :: more))) := by
  have hminus : c ≠ '-' := by
    rintro rfl
    exact absurd (hdigits _ List.mem_cons_self) (by decide)
  simp [number?, spanDigits_self hdigits, hzero, hminus, isFractionExponent]

theorem number?_minus (hdigits : ∀ d ∈ c :: more, d.isDigit = true) (hzero : c ≠ '0')
    (hvalue : digitsValue (c :: more) ≠ 0) :
    number? ('-' :: c :: more) = some (int (-digitsValue (c :: more))) := by
  simp [number?, spanDigits_self hdigits, hzero, hvalue, isFractionExponent]

end numbers

/-- **An integer** is read back from its decimal text. -/
theorem number?_toString (value : Int) : number? (toString value).toList = some (int value) := by
  rw [toList_toString]
  -- zero is the only number that starts with a zero
  rcases Int.lt_trichotomy value 0 with hneg | rfl | hpos
  · obtain ⟨c, more, hlist, hdigits⟩ := exists_digits (-value).toNat
    have hvalue : digitsValue (c :: more) = (-value).toNat := by
      rw [← hlist, Nat.toList_repr, digitsValue_toDigits]
    rw [if_neg (by omega), hlist,
      number?_minus hdigits (leading_ne_zero hlist (by omega)) (by omega), hvalue,
      Int.toNat_of_nonneg (by omega), Int.neg_neg]
  · rfl
  · obtain ⟨c, more, hlist, hdigits⟩ := exists_digits value.toNat
    have hvalue : digitsValue (c :: more) = value.toNat := by
      rw [← hlist, Nat.toList_repr, digitsValue_toDigits]
    rw [if_pos (by omega), hlist, number?_digits hdigits (leading_ne_zero hlist (by omega)), hvalue,
      Int.toNat_of_nonneg (by omega)]

theorem start?_digit {c : Char} (h : c.isDigit = true) : start? c = some ([], .inNumber [c]) := by
  have hne : ∀ d : Char, d.isDigit = false → c ≠ d := by
    rintro d hd rfl
    rw [hd] at h
    cases h
  unfold start?
  split
  case h_12 => rw [h, Bool.or_true, if_pos rfl]
  all_goals exact absurd rfl (hne _ (by decide))

theorem isNumberChar_of_isDigit {c : Char} (h : c.isDigit = true) : isNumberChar c = true := by
  rw [isNumberChar, h, Bool.true_or]

/-- **An integer** is one token. -/
theorem writes_int (value : Int) : Writes Stops (toString value) [.scalar (int value)] := by
  have hvalue := number?_toString value
  -- the first character begins a number, and the others continue it
  obtain ⟨c, more, hlist, hstart, hmore⟩ : ∃ c more, (toString value).toList = c :: more ∧
      start? c = some ([], .inNumber [c]) ∧ ∀ d ∈ more, isNumberChar d = true := by
    rw [toList_toString]
    split
    · obtain ⟨c, more, hlist, hdigits⟩ := exists_digits value.toNat
      exact ⟨c, more, hlist, start?_digit (hdigits c List.mem_cons_self), fun d hd =>
        isNumberChar_of_isDigit (hdigits d (List.mem_cons_of_mem c hd))⟩
    · obtain ⟨c, more, hlist, hdigits⟩ := exists_digits (-value).toNat
      exact ⟨'-', c :: more, by rw [hlist], rfl, fun d hd => isNumberChar_of_isDigit (hdigits d hd)⟩
  intro before rest hrest
  rw [hlist] at hvalue ⊢
  have hvalue' : number? ([c].reverse ++ more) = some (int value) := hvalue
  exact (lexFrom_start hstart).trans (lexFrom_number hmore hvalue' hrest)

/-! ## Strings -/

/-- A character is not a surrogate, so the codes of a text never pair up. -/
theorem toNat_not_surrogate (c : Char) : ¬ (0xd800 ≤ c.toNat ∧ c.toNat < 0xe000) := by
  have hvalid : c.toNat < 0xd800 ∨ (0xdfff < c.toNat ∧ c.toNat < 0x110000) := c.valid
  omega

/-- Characters are never surrogates, so each stands for itself. -/
theorem textOfCodes_toNat (chars : List Char) :
    textOfCodes (chars.map Char.toNat) = some chars := by
  induction chars with
  | nil => rfl
  | cons c chars ih =>
    have hc := toNat_not_surrogate c
    cases chars with
    | nil =>
      rw [List.map_cons, List.map_nil, textOfCodes, if_neg (by simpa using hc), Char.ofNat_toNat]
    | cons d chars =>
      rw [List.map_cons] at ih
      rw [List.map_cons, List.map_cons, textOfCodes, if_neg (by simp; omega),
        if_neg (by simpa using hc), ih, Char.ofNat_toNat, Option.map_some]

section strings

variable {before : List Token} {codes : List Nat} {rest : List Char}

/-- The four digits of a control character. -/
theorem padded_digits (h : n < 32) :
    List.replicate (4 - (Nat.toDigits 16 n).length) '0' ++ Nat.toDigits 16 n
      = ['0', '0', (n / 16).digitChar, (n % 16).digitChar] := by
  have hall : ∀ n : Fin 32,
      List.replicate (4 - (Nat.toDigits 16 n.val).length) '0' ++ Nat.toDigits 16 n.val
      = ['0', '0', (n.val / 16).digitChar, (n.val % 16).digitChar] := by decide
  exact hall ⟨n, h⟩

/-- A control character is written as an escape of four digits. -/
theorem lexFrom_code (h : n < 32) :
    lexFrom (.inCode codes 0 0) before (['0', '0', (n / 16).digitChar, (n % 16).digitChar] ++ rest)
      = lexFrom (.inString (n :: codes)) before rest := by
  have hhigh := hexDigit?_digitChar (d := n / 16) (by omega)
  have hlow := hexDigit?_digitChar (d := n % 16) (by omega)
  have hzero : hexDigit? '0' = some 0 := rfl
  have hvalue : (n / 16) * 16 + n % 16 = n := by omega
  simp [lexFrom, lexStep, hhigh, hlow, hzero, hvalue]

/-- A character is read back, escaped or as it is. -/
theorem lexFrom_escapedChar (c : Char) :
    lexFrom (.inString codes) before ((escapedChar c).toList ++ rest) =
      lexFrom (.inString (c.toNat :: codes)) before rest := by
  unfold escapedChar
  split
  -- a character without an escape of its own: a control character has its code written out
  case h_8 hquote hslash _ _ _ _ _ =>
    split
    · next hcontrol =>
      dsimp only
      rw [padded_digits hcontrol, String.toList_append, List.append_assoc,
        String.toList_ofList (l := [_, _, _, _])]
      exact lexFrom_code hcontrol
    · next hcontrol =>
      have hstep : lexStep (.inString codes) c = some ([], .inString (c.toNat :: codes)) := by
        rw [lexStep, if_neg hquote, if_neg hslash, if_neg hcontrol]
      rw [Char.toString_eq_singleton, String.toList_singleton]
      exact lexFrom_cons hstep
  all_goals rfl

/-- A text within quotes, character by character. -/
theorem lexFrom_escaped (chars : List Char) :
    lexFrom (.inString codes) before ((String.join (chars.map escapedChar)).toList ++ rest)
      = lexFrom (.inString ((chars.map Char.toNat).reverse ++ codes)) before rest := by
  induction chars generalizing codes with
  | nil => rfl
  | cons c chars ih =>
    rw [List.map_cons, String.join_cons, String.toList_append, List.append_assoc,
      lexFrom_escapedChar, ih, List.map_cons,
      List.reverse_cons, List.append_assoc, List.singleton_append]

end strings

/-- **A string** is one token. -/
theorem writes_quotedString (content : String) :
    Writes Anything (quotedString content) [.text (some content)] := by
  intro before rest _
  have htext : textOfCodes (content.toList.map Char.toNat).reverse.reverse =
      some content.toList := by
    rw [List.reverse_reverse, textOfCodes_toNat]
  have hquote : "\"".toList = ['"'] := rfl
  have hopen : start? '"' = some ([], .inString []) := rfl
  have hclose : lexStep (.inString (content.toList.map Char.toNat).reverse) '"' =
      some ([.text (some content)], .blank) := by
    rw [lexStep, if_pos rfl, htext, Option.map_some, String.ofList_toList]
  rw [quotedString, String.toList_append, String.toList_append, hquote, List.append_assoc,
    List.append_assoc,
    List.singleton_append, lexFrom_start hopen, lexFrom_escaped, List.append_nil,
      List.singleton_append, lexFrom_cons hclose]
  rfl

/-! ## Containers -/

theorem writes_comma : Writes Anything "," [.comma] := fun _ _ _ => lexFrom_start rfl

section containers

variable {layout : Layout} (hlayout : layout.Blank)

include hlayout

theorem writes_colon : Writes Anything layout.colon [.colon] := by
  obtain ⟨blanks, hcolon, hblanks⟩ := hlayout.colon
  have hmark : Writes Anything ":" [.colon] := fun _ _ _ => lexFrom_start rfl
  rw [hcolon]
  exact hmark.before (writes_blanks hblanks)

/-- **A container** writes its brackets and, indented between them, its members. -/
theorem writes_enclose {left right : String} {first last : Token}
    (hleft : Writes Anything left [first]) (hright : Writes Anything right [last])
    (hstops : ∀ rest, Stops (right.toList ++ rest)) (depth : Nat) {members : List String}
    {phrases : List (List Token)} (h : List.Forall₂ (Writes Stops) members phrases) :
    Writes Anything (layout.enclose depth left right members)
      ([first] ++ [.comma].intercalate phrases ++ [last]) := by
  have hlines : List.Forall₂ (Writes Stops)
      (members.map (layout.lineBreak (depth + 1) ++ ·)) phrases := by
    refine List.forall₂_map_left_iff.mpr (h.imp fun text tokens htext => ?_)
    exact (writes_blanks (hlayout.lineBreak (depth + 1))).before htext
  have hseparated := Cuts.intercalate writes_comma (fun rest => .inr (.inl rfl)) hlines
  -- the last member is followed by blanks and the bracket, or by the bracket alone
  have hend : ∀ rest, Stops rest → Stops ((layout.lineBreak depth).toList ++ rest) :=
    fun rest => stops_blanks (hlayout.lineBreak depth)
  rw [Layout.enclose]
  cases h with
  | nil => exact hleft.before hright
  | cons hfirst hrest =>
    have htexts :=
      ((hleft.before hseparated).append (writes_blanks (hlayout.lineBreak depth)).weaken
        hend).append hright
      fun rest _ => hstops rest
    rw [List.append_nil] at htexts
    exact htexts

/-- An array, given the tokens of its items. -/
theorem writes_arr (depth : Nat)
    (h : List.Forall₂ (Writes Stops) (writeItems layout (depth + 1) items) (itemsTokens items)) :
    Writes Anything ((arr items).write layout depth) (arr items).tokens := by
  have hleft : Writes Anything "[" [.beginArray] := fun _ _ _ => lexFrom_start rfl
  have hright : Writes Anything "]" [.endArray] := fun _ _ _ => lexFrom_start rfl
  exact writes_enclose hlayout hleft hright (fun _ => .inr (.inr (.inl rfl))) depth h

/-- An object, given the tokens of its fields. -/
theorem writes_obj (depth : Nat)
    (h : List.Forall₂ (Writes Stops) (writeFields layout (depth + 1) fields)
      (fieldsTokens fields)) :
    Writes Anything ((obj fields).write layout depth) (obj fields).tokens := by
  have hleft : Writes Anything "\x7b" [.beginObject] := fun _ _ _ => lexFrom_start rfl
  have hright : Writes Anything "\x7d" [.endObject] := fun _ _ _ => lexFrom_start rfl
  exact writes_enclose hlayout hleft hright (fun _ => .inr (.inr (.inr rfl))) depth h

end containers

mutual

/-- **A written value is cut into its tokens**, whatever blanks the layout puts between them. -/
theorem writes_write {layout : Layout} (hlayout : layout.Blank) (depth : Nat) :
    (j : Json) → Writes Stops (j.write layout depth) j.tokens
  | null | unreadable => writes_null
  | bool value => writes_bool value
  | int value => writes_int value
  | str text => (writes_quotedString text).weaken
  | arr items => (writes_arr hlayout depth (writes_items hlayout (depth + 1) items)).weaken
  | obj fields => (writes_obj hlayout depth (writes_fields hlayout (depth + 1) fields)).weaken

theorem writes_items {layout : Layout} (hlayout : layout.Blank) (depth : Nat) :
    (items : List Json) → List.Forall₂ (Writes Stops) (writeItems layout depth items)
      (itemsTokens items)
  | [] => .nil
  | item :: rest => .cons (writes_write hlayout depth item) (writes_items hlayout depth rest)

theorem writes_fields {layout : Layout} (hlayout : layout.Blank) (depth : Nat) :
    (fields : List (String × Json)) →
      List.Forall₂ (Writes Stops) (writeFields layout depth fields) (fieldsTokens fields)
  | [] => .nil
  | (key, value) :: rest =>
    .cons
      (((writes_quotedString key).before (writes_colon hlayout)).before
        (writes_write hlayout depth value))
      (writes_fields hlayout depth rest)

end

/-- The whole text of a value. -/
theorem lexFrom_write {layout : Layout} (hlayout : layout.Blank) (depth : Nat) (j : Json) :
    lexFrom .blank [] (j.write layout depth).toList = some j.tokens := by
  have hwrite := writes_write hlayout depth j [] [] trivial
  rw [List.append_nil, List.append_nil] at hwrite
  rw [hwrite, lexFrom, flush?, Option.map_some, List.append_nil, List.reverse_reverse]

/-! ## Values from tokens -/

namespace Builder

/-- Where a value may begin. -/
def StartsValue (expected : Expected) : Prop := expected = .firstItem ∨ expected = .value

/-- The tokens of a value put it in its place, as long as there is room for what is nested in it. -/
def Builds (limit : Option Nat) (j : Json) : Prop :=
  ∀ frames expected result, StartsValue expected → (∀ l ∈ limit, frames.length + j.depth ≤ l) →
    j.tokens.foldlM (step limit) ⟨frames, expected, result⟩ =
      some (deliver ⟨frames, expected, result⟩ j)

variable {limit : Option Nat}

section runs

variable {start next : Builder} {phrase rest : List Token}

/-- The tokens of a phrase, then the rest. -/
theorem foldlM_phrase (h : phrase.foldlM (step limit) start = some next) :
    (phrase ++ rest).foldlM (step limit) start = rest.foldlM (step limit) next := by
  rw [List.foldlM_append, h]
  rfl

theorem foldlM_token {token : Token} (h : step limit start token = some next) :
    ([token] ++ rest).foldlM (step limit) start = rest.foldlM (step limit) next := by
  rw [List.singleton_append, List.foldlM_cons, h]
  rfl

theorem foldlM_last {token : Token} (h : step limit start token = some next) :
    [token].foldlM (step limit) start = some next := by
  rw [List.foldlM_cons, h]
  rfl

end runs

section members

/-! `state` is an open container after its members so far, which are listed backwards. -/

variable {α : Type} {phrase : α → List Token} (state : List α → Expected → Builder)
  (first : Expected) {again : Expected} {members : List α}
  (hcomma : ∀ done, step limit (state done .next) .comma = some (state done again))
  (hmember : ∀ m ∈ members, ∀ done expected, expected = first ∨ expected = again →
    (phrase m).foldlM (step limit) (state done expected) = some (state (m :: done) .next))

include hcomma hmember

/-- **The members of a container**, with commas between them, pile up in reverse. -/
theorem foldlM_members (hne : members ≠ []) (done : List α) {expected : Expected}
    (h : expected = first ∨ expected = again) :
    ([.comma].intercalate (members.map phrase)).foldlM (step limit) (state done expected)
      = some (state (members.reverse ++ done) .next) := by
  induction members generalizing done expected with
  | nil => exact absurd rfl hne
  | cons m rest ih =>
    have hm := hmember m List.mem_cons_self done expected h
    cases rest with
    | nil =>
      rw [List.map_singleton, List.intercalate_singleton]
      exact hm
    | cons next more =>
      -- the next member comes after a comma, wherever the first one stood
      have hrest :=
        ih (fun m hm => hmember m (List.mem_cons_of_mem _ hm)) (List.cons_ne_nil _ _)
          (m :: done) (.inr rfl)
      rw [List.map_cons] at hrest
      rw [List.map_cons, List.map_cons, List.intercalate_cons_cons, List.append_assoc,
        foldlM_phrase hm,
        foldlM_token (hcomma _), hrest, List.reverse_cons (a := m), List.append_assoc,
          List.singleton_append]

/-- **A container** opens, gets its members and closes; it may be empty. -/
theorem foldlM_container {start done : Builder} {opening closing : Token}
    (hopen : step limit start opening = some (state [] first))
    (hclose : ∀ expected, expected = first ∨ expected = .next →
      step limit (state members.reverse expected) closing = some done) :
    ([opening] ++ [.comma].intercalate (members.map phrase) ++ [closing]).foldlM (step limit)
    start = some done := by
  rw [List.append_assoc, foldlM_token hopen]
  by_cases hne : members = []
  · subst hne
    exact foldlM_last (hclose first (.inl rfl))
  · rw [foldlM_phrase (foldlM_members state first hcomma hmember hne [] (.inl rfl)),
      List.append_nil]
    exact foldlM_last (hclose .next (.inr rfl))

end members

theorem builds_scalar {j value : Json} (htokens : j.tokens = [.scalar value]) (h : value = j) :
    Builds limit j := by
  rintro frames expected result (rfl | rfl) _
  all_goals rw [htokens, h]; rfl

theorem builds_str (text : String) : Builds limit (str text) := by
  rintro frames expected result (rfl | rfl) _
  all_goals rfl

/-- A field as an open object holds it. -/
def readField (field : String × Json) : Option String × Json := (some field.1, field.2)

/-- Fields whose keys have been read, last one first. -/
theorem fields?_readField (fields : List (String × Json)) :
    fields? (fields.reverse.map readField) = some fields := by
  rw [fields?, ← List.map_reverse, List.reverse_reverse]
  induction fields with
  | nil => rfl
  | cons field rest ih =>
    rw [List.map_cons, List.mapM_cons, ih]
    rfl

section containers

variable {frames : List Frame} {expected expected' : Expected} {result : Json} {nested : Nat}

theorem deliver_eq_deliver (value : Json) :
    deliver ⟨frames, expected, result⟩ value = deliver ⟨frames, expected', result⟩ value := by
  rcases frames with _ | ⟨⟨done⟩ | ⟨done, key⟩, rest⟩ <;> rfl

variable (hroom : ∀ l ∈ limit, frames.length + (nested + 1) ≤ l)

include hroom

/-- The limit leaves room for one more container. -/
theorem not_tooDeep (frame : Frame) : limit.any (· < (frame :: frames).length) = false := by
  cases limit with
  | none => rfl
  | some l =>
    have hl := hroom l rfl
    rw [Option.any_some, List.length_cons, decide_eq_false_iff_not]
    omega

/-- Closing an array delivers its items in order. -/
theorem close?_items (items : List Json) :
    close? limit ⟨.items items.reverse :: frames, expected, result⟩ =
      some (deliver ⟨frames, expected', result⟩ (arr items)) := by
  rw [close?]
  dsimp only
  rw [not_tooDeep hroom, List.reverse_reverse]
  exact congrArg some (deliver_eq_deliver _)

/-- Closing an object delivers its fields in order. -/
theorem close?_fields (fields : List (String × Json)) (key : Option String) :
    close? limit ⟨.fields (fields.reverse.map readField) key :: frames, expected, result⟩
      = some (deliver ⟨frames, expected', result⟩ (obj fields)) := by
  rw [close?]
  dsimp only
  rw [not_tooDeep hroom, fields?_readField]
  exact congrArg some (deliver_eq_deliver _)

/-- There is room for a member of an open container. -/
theorem room_member (frame : Frame) {depth : Nat} (h : depth ≤ nested) :
    ∀ l ∈ limit, (frame :: frames).length + depth ≤ l := by
  intro l hl
  have hl := hroom l hl
  rw [List.length_cons]
  omega

/-- A field is its key, a colon and its value. -/
theorem Builds.field {field : String × Json} (h : Builds limit field.2)
    (hdepth : field.2.depth ≤ nested) (done : List (String × Json))
    (hexpected : expected = .firstKey ∨ expected = .key) :
    (fieldTokens field).foldlM (step limit)
      ⟨.fields (done.map readField) none :: frames, expected, result⟩
      = some ⟨.fields ((field :: done).map readField) none :: frames, .next, result⟩ := by
  have hkey : step limit ⟨.fields (done.map readField) none :: frames, expected, result⟩
      (.text (some field.1))
      = some ⟨.fields (done.map readField) (some field.1) :: frames, .colon, result⟩ := by
    rcases hexpected with rfl | rfl <;> rfl
  have hcolon : step limit
      ⟨.fields (done.map readField) (some field.1) :: frames, .colon, result⟩ .colon
      = some ⟨.fields (done.map readField) (some field.1) :: frames, .value, result⟩ := rfl
  rw [fieldTokens, List.append_assoc, foldlM_token hkey, foldlM_token hcolon]
  exact h _ _ _ (.inr rfl) (room_member hroom _ hdepth)

end containers

/-- An array is put together if its items are. -/
theorem builds_arr (h : ∀ item ∈ items, Builds limit item) : Builds limit (arr items) := by
  intro frames expected result hexpected hroom
  rw [tokens, itemsTokens_eq_map]
  refine foldlM_container (fun done expected => ⟨.items done :: frames, expected, result⟩)
    .firstItem (fun _ => rfl) (fun item hmem done expected hexpected => ?_) ?_ ?_
  · exact h item hmem _ _ _ hexpected (room_member hroom _ (depth_le_depthOfItems hmem))
  · rcases hexpected with rfl | rfl <;> rfl
  · rintro expected (rfl | rfl)
    all_goals exact close?_items hroom items

/-- An object is put together if the values of its fields are. -/
theorem builds_obj (h : ∀ field ∈ fields, Builds limit field.2) : Builds limit (obj fields) := by
  intro frames expected result hexpected hroom
  rw [tokens, fieldsTokens_eq_map]
  refine foldlM_container
    (fun done expected => ⟨.fields (done.map readField) none :: frames, expected, result⟩) .firstKey
    (fun _ => rfl) (fun field hmem done expected hexpected => ?_) ?_ ?_
  · exact (h field hmem).field hroom (depth_le_depthOfFields hmem) done hexpected
  · rcases hexpected with rfl | rfl <;> rfl
  · rintro expected (rfl | rfl)
    all_goals exact close?_fields hroom fields none

mutual

/-- **Values are put together** from their tokens wherever they stand. -/
theorem builds : (j : Json) → j.Readable → Builds limit j
  | null, _ => builds_scalar rfl rfl
  | bool _, _ => builds_scalar rfl rfl
  | int _, _ => builds_scalar rfl rfl
  | str text, _ => builds_str text
  | arr items, h => builds_arr (builds_items items h)
  | obj fields, h => builds_obj (builds_fields fields h)

theorem builds_items : (items : List Json) → ItemsReadable items → ∀ item ∈ items, Builds limit item
  | [], _ => List.forall_mem_nil _
  | item :: rest, h => List.forall_mem_cons.mpr ⟨builds item h.1, builds_items rest h.2⟩

theorem builds_fields : (fields : List (String × Json)) → FieldsReadable fields → ∀ field ∈ fields,
    Builds limit field.2
  | [], _ => List.forall_mem_nil _
  | (_, value) :: rest, h => List.forall_mem_cons.mpr ⟨builds value h.1, builds_fields rest h.2⟩

end

end Builder

/-- What is written for a value is read as the value. -/
theorem read?_write {layout : Layout} (hlayout : layout.Blank) {j : Json} (hj : j.Readable)
    {limit : Option Nat} (hlimit : ∀ l ∈ limit, j.depth ≤ l) :
    read? limit (j.write layout 0) = some j := by
  have hbuild := Builder.builds j hj [] .value null (.inr rfl) fun l hl => by
    rw [List.length_nil, Nat.zero_add]
    exact hlimit l hl
  rw [read?, lexFrom_write hlayout, Option.bind_eq_bind, Option.bind_some, hbuild]
  rfl

end Json

end StructRec
