import StructRec.Printer.Expr
import StructRec.Proofs.Cutting

/-!
# StructRec — lexemes of printed text

A printed phrase is cut into lexemes by a machine over its characters. A word or a symbol goes on
for as long as there are characters for it, so a phrase that ends in one has to be followed by
something else (`Stops`). `Spells` says that a text is cut into given lexemes.
-/

namespace StructRec

variable {c : Char}

/-! ## Names -/

/-- The words that are not names. -/
inductive Keyword where
  | cond
  | thenBranch
  | elseBranch
  | case
  | alts
  | letRec
  | body
  | undefined
  | error
deriving DecidableEq

namespace Keyword

def text : Keyword → String
  | cond => "if"
  | thenBranch => "then"
  | elseBranch => "else"
  | case => "case"
  | alts => "of"
  | letRec => "let"
  | body => "in"
  | undefined => "undefined"
  | error => "error"

def all : List Keyword := [cond, thenBranch, elseBranch, case, alts, letRec, body, undefined, error]

end Keyword

/-- The characters that a word goes on with. -/
def isWordChar (c : Char) : Bool := c.isAlphanum || c = '_' || c = '@'

def symbolChars : List Char :=
  ['!', '#', '$', '%', '&', '*', '+', '.', '/', '<', '=', '>', '?', '^', '~', '-']

namespace Name

/-- A word that starts in this way and is not a keyword. -/
def isWord (starts : Char → Bool) (n : Name) : Bool :=
  match n.toList with
  | [] => false
  | c :: cs => starts c && cs.all isWordChar && Keyword.all.all (·.text ≠ n)

/-- The names of variables and type variables. -/
def isLowerWord : Name → Bool := isWord Char.isLower

/-- The names of constructors and type constructors. -/
def isUpperWord : Name → Bool := isWord Char.isUpper

/-- The operators. -/
def isSymbol (n : Name) : Bool := n ≠ "" && n.toList.all (· ∈ symbolChars) && n ≠ "->" && n ≠ "="

end Name

/-! ## Lexemes -/

inductive Lexeme where
  | keyword (k : Keyword)
  | lower (n : Name)
  | upper (n : Name)
  | operator (n : Name)
  | number (n : Nat)
  | text (content : String)
  | arrow
  | equals
  | hasType
  | leftParen
  | rightParen
  | leftBrace
  | rightBrace
  | semicolon
  | lambda
  | typeMark
  | wildcard
deriving DecidableEq

namespace Lexeme

def ofWord (chars : List Char) : Lexeme :=
  if chars.head?.any Char.isDigit then number (Nat.ofDigitChars 10 chars 0)
  else
    match Keyword.all.find? (·.text = String.ofList chars) with
    | some k => keyword k
    | none =>
        if chars.head?.any Char.isUpper then upper (String.ofList chars)
          else lower (String.ofList chars)

def ofSymbol (chars : List Char) : Lexeme :=
  if chars = ['-', '>'] then arrow
  else if chars = ['='] then equals
  else if chars = [':', ':'] then hasType
  else operator (String.ofList chars)

/-- A character that is a lexeme by itself, where no word is going on. -/
def ofMark? : Char → Option Lexeme
  | '(' => some leftParen
  | ')' => some rightParen
  | '\x7b' => some leftBrace
  | '\x7d' => some rightBrace
  | ';' => some semicolon
  | '\\' => some lambda
  | '@' => some typeMark
  | '_' => some wildcard
  | _ => none

end Lexeme

/-! ## The machine -/

def isSymbolChar (c : Char) : Bool := c ∈ symbolChars || c = ':'

/-- What goes on for as long as there are characters for it. -/
inductive Strand where
  | word
  | symbol

namespace Strand

def continues : Strand → Char → Bool
  | word => isWordChar
  | symbol => isSymbolChar

def lexeme : Strand → List Char → Lexeme
  | word => .ofWord
  | symbol => .ofSymbol

end Strand

/-- Where the machine stands; what it has gathered is listed backwards. -/
inductive Scanner where
  | blank
  | inStrand (strand : Strand) (chars : List Char)
  | inText (chars : List Char)
  | inEscape (chars : List Char)
  /-- After the letter of an escape by code. -/
  | beforeCode (chars : List Char)
  | inCode (chars : List Char) (code : Nat)

namespace Scanner

/-- The character that a one-letter escape stands for. -/
def escaped? : Char → Option Char
  | '0' => some '\x00'
  | 't' => some '\t'
  | 'r' => some '\r'
  | 'n' => some '\n'
  | '\\' => some '\\'
  | '"' => some '"'
  | _ => none

/-- A character that starts something new. -/
def start (before : List Lexeme) (c : Char) : Option (Scanner × List Lexeme) :=
  if c = ' ' then some (blank, before)
  else if c = '"' then some (inText [], before)
  else
    match Lexeme.ofMark? c with
    | some lexeme => some (blank, lexeme :: before)
    | none =>
      if isWordChar c then some (inStrand .word [c], before)
      else if isSymbolChar c then some (inStrand .symbol [c], before)
      else none

/-- One step: where the machine stands after a character, and all lexemes that are complete then,
the last one first. -/
def step : Scanner → List Lexeme → Char → Option (Scanner × List Lexeme)
  | blank, before, c => start before c
  | inStrand strand chars, before, c =>
    if strand.continues c then some (inStrand strand (c :: chars), before)
    else start (strand.lexeme chars.reverse :: before) c
  | inText chars, before, c =>
    if c = '"' then some (blank, .text (String.ofList chars.reverse) :: before)
    else if c = '\\' then some (inEscape chars, before)
    else some (inText (c :: chars), before)
  | inEscape chars, before, c =>
    if c = 'u' then some (beforeCode chars, before) else (escaped? c).map fun d =>
      (inText (d :: chars), before)
  | beforeCode chars, before, c => if c = '\x7b' then some (inCode chars 0, before) else none
  | inCode chars code, before, c =>
    if c = '\x7d' then some (inText (.ofNat code :: chars), before)
    else (Json.hexDigit? c).map fun digit => (inCode chars (code * 16 + digit), before)

/-- The lexemes at the end of the text, the last one first. -/
def finish? : Scanner → List Lexeme → Option (List Lexeme)
  | blank, before => some before
  | inStrand strand chars, before => some (strand.lexeme chars.reverse :: before)
  | inText _, _ | inEscape _, _ | beforeCode _, _ | inCode _ _, _ => none

def run (state : Scanner) (before : List Lexeme) : List Char → Option (List Lexeme)
  | [] => (state.finish? before).map List.reverse
  | c :: rest => (state.step before c).bind fun next => next.1.run next.2 rest

end Scanner

/-- The lexemes of a text. -/
def scan (text : String) : Option (List Lexeme) := Scanner.blank.run [] text.toList

/-! ## Spelling -/

/-- What may follow a word or a symbol. -/
def Stops : List Char → Prop
  | [] => True
  | c :: _ => c = ' ' ∨ c = ')' ∨ c = ';'

/-- A printed text that is cut into these lexemes. -/
abbrev Spells : (List Char → Prop) → String → List Lexeme → Prop := Cuts Scanner.blank.run

/-- What spells lexemes is scanned as these. -/
theorem scan_of_spells {text : String} {lexemes : List Lexeme} (h : Spells Stops text lexemes) :
    scan text = some lexemes := by
  have hrun := h [] [] trivial
  rw [List.append_nil, List.append_nil] at hrun
  rw [scan, hrun, Scanner.run, Scanner.finish?, Option.map_some, List.reverse_reverse]

/-! ## Words and symbols -/

/-- What does not continue a strand. -/
def Strand.Ends (strand : Strand) : List Char → Prop
  | [] => True
  | c :: _ => strand.continues c = false

theorem Strand.ends_of_stops {strand : Strand} {rest : List Char} (h : Stops rest) :
    strand.Ends rest := by
  cases rest with
  | nil => exact trivial
  | cons c rest => cases strand <;> rcases h with rfl | rfl | rfl <;> rfl

namespace Scanner

variable {before : List Lexeme}

/-- Characters that continue a strand are taken in. -/
theorem run_strand {strand : Strand} {chars more rest : List Char}
    (h : ∀ c ∈ more, strand.continues c = true) :
    (inStrand strand chars).run before (more ++ rest) =
      (inStrand strand (more.reverse ++ chars)).run before rest := by
  induction more generalizing chars with
  | nil => rfl
  | cons c more ih =>
    obtain ⟨hc, hmore⟩ := List.forall_mem_cons.mp h
    rw [List.cons_append, run, step, if_pos hc, Option.bind_some, ih hmore, List.reverse_cons,
      List.append_assoc]
    rfl

/-- A strand is complete before what does not continue it. -/
theorem run_ends {strand : Strand} {chars rest : List Char} (h : strand.Ends rest) :
    (inStrand strand chars).run before rest =
      blank.run (strand.lexeme chars.reverse :: before) rest := by
  cases rest with
  | nil => rfl
  | cons c rest =>
    have hc : ¬ strand.continues c = true := ne_true_of_eq_false h
    rw [run, step, if_neg hc]
    rfl

/-- No mark is a letter or a digit. -/
theorem start_alphanum (h : c.isAlphanum = true) :
    start before c = some (inStrand .word [c], before) := by
  have hne : ∀ d : Char, d.isAlphanum = false → c ≠ d := by
    rintro d hd rfl
    rw [hd] at h
    cases h
  have hmark : Lexeme.ofMark? c = none := by
    unfold Lexeme.ofMark?
    split
    all_goals first | rfl | exact absurd rfl (hne _ (by decide))
  have hword : isWordChar c = true := by rw [isWordChar, h, Bool.true_or, Bool.true_or]
  rw [start, if_neg (hne _ (by decide)), if_neg (hne _ (by decide)), hmark]
  exact if_pos hword

theorem start_symbol (h : c ∈ symbolChars) :
    start before c = some (inStrand .symbol [c], before) := by
  have hsymbols : symbolChars.all
      (fun c => c ≠ ' ' ∧ c ≠ '"' ∧ Lexeme.ofMark? c = none ∧ isWordChar c = false) = true := by
    decide
  obtain ⟨hspace, hquote, hmark, hword⟩ := decide_eq_true_eq.mp (List.all_eq_true.mp hsymbols c h)
  have hsymbol : isSymbolChar c = true := by rw [isSymbolChar, decide_eq_true h, Bool.true_or]
  rw [start, if_neg hspace, if_neg hquote, hmark]
  dsimp only
  rw [if_neg (ne_true_of_eq_false hword), if_pos hsymbol]

end Scanner

/-- **A strand** up to a character that does not continue it. -/
theorem spells_strand {strand : Strand} {text : String} {more : List Char}
    (htext : text.toList = c :: more)
    (hstart : ∀ before, Scanner.start before c = some (.inStrand strand [c], before))
    (hmore : ∀ d ∈ more, strand.continues d = true) :
    Spells strand.Ends text [strand.lexeme (c :: more)] := by
  intro before rest hrest
  rw [htext, List.cons_append, Scanner.run, Scanner.step, hstart, Option.bind_some,
    Scanner.run_strand hmore, Scanner.run_ends hrest, List.reverse_append, List.reverse_reverse]
  rfl

namespace Name

variable {n : Name}
variable {starts : Char → Bool}

/-- A word has a first character and others that continue it. -/
theorem exists_of_isWord (h : isWord starts n = true) :
    ∃ c more, n = String.ofList (c :: more) ∧ starts c = true ∧ (∀ d ∈ more, isWordChar d = true) ∧
      Keyword.all.find? (·.text = String.ofList (c :: more)) = none := by
  unfold isWord at h
  cases hchars : n.toList with
  | nil =>
    rw [hchars] at h
    cases h
  | cons c more =>
    rw [hchars] at h
    simp only [Bool.and_eq_true, List.all_eq_true, decide_eq_true_eq] at h
    obtain ⟨⟨hc, hmore⟩, hkeyword⟩ := h
    have hname : n = String.ofList (c :: more) := by rw [← hchars, String.ofList_toList]
    refine ⟨c, more, hname, hc, hmore, List.find?_eq_none.mpr fun k hk => ?_⟩
    rw [← hname, decide_eq_true_eq]
    exact hkeyword k hk

theorem spells_isWord (h : isWord starts n = true)
    (hstarts : ∀ c, starts c = true → c.isAlphanum = true ∧ c.isDigit = false) :
    ∃ c, starts c = true ∧ Spells Stops n [if c.isUpper then .upper n else .lower n] := by
  obtain ⟨c, more, rfl, hc, hmore, hkeyword⟩ := exists_of_isWord h
  obtain ⟨halphanum, hdigit⟩ := hstarts c hc
  have hlexeme : Lexeme.ofWord (c :: more)
      = if c.isUpper then .upper (String.ofList (c :: more))
        else .lower (String.ofList (c :: more)) := by
    rw [Lexeme.ofWord, hkeyword, List.head?_cons, Option.any_some, Option.any_some, hdigit]
    rfl
  have hspells :=
    spells_strand String.toList_ofList (fun _ => Scanner.start_alphanum halphanum) hmore
  exact ⟨c, hc, hlexeme ▸ hspells.mono fun _ => Strand.ends_of_stops⟩

/-- The classes of letters and digits do not overlap. -/
theorem letter_classes (c : Char) :
    (c.isLower = true → (c.isAlphanum = true ∧ c.isDigit = false) ∧ c.isUpper = false) ∧
      (c.isUpper = true → c.isAlphanum = true ∧ c.isDigit = false) := by
  delta Char.isAlphanum Char.isAlpha Char.isLower Char.isUpper Char.isDigit
  simp only [Bool.or_eq_true, Bool.and_eq_true, decide_eq_true_eq, Bool.and_eq_false_iff,
    decide_eq_false_iff_not, UInt32.le_iff_toNat_le, ge_iff_le]
  have hbounds : 'a'.val.toNat = 97 ∧ 'z'.val.toNat = 122 ∧ 'A'.val.toNat = 65 ∧
      'Z'.val.toNat = 90 ∧ '0'.val.toNat = 48 ∧ '9'.val.toNat = 57 := by decide
  omega

theorem spells_lower (h : isLowerWord n = true) : Spells Stops n [.lower n] := by
  obtain ⟨c, hc, hspells⟩ := spells_isWord h fun c hc => ((letter_classes c).1 hc).1
  rwa [((letter_classes c).1 hc).2] at hspells

theorem spells_upper (h : isUpperWord n = true) : Spells Stops n [.upper n] := by
  obtain ⟨c, hc, hspells⟩ := spells_isWord h fun c => (letter_classes c).2
  rwa [hc] at hspells

/-- **A symbol** that is not reserved is an operator. -/
theorem spells_symbol (h : isSymbol n = true) : Spells Stops n [.operator n] := by
  simp only [isSymbol, Bool.and_eq_true, decide_eq_true_eq, List.all_eq_true] at h
  obtain ⟨⟨⟨hne, hchars⟩, harrow⟩, hequals⟩ := h
  obtain ⟨c, more, hlist⟩ := List.exists_cons_of_ne_nil (String.toList_eq_nil_iff.not.mpr hne)
  obtain rfl : n = String.ofList (c :: more) := by rw [← hlist, String.ofList_toList]
  rw [String.toList_ofList, List.forall_mem_cons] at hchars
  have hlexeme : Lexeme.ofSymbol (c :: more) = .operator (String.ofList (c :: more)) := by
    -- two colons are no operator, since a colon is not a character of operators
    have hcolon : c :: more ≠ [':', ':'] := by
      rintro heq
      obtain ⟨rfl, -⟩ := List.cons.inj heq
      exact absurd hchars.1 (by decide)
    have harrow' : c :: more ≠ ['-', '>'] := fun heq => harrow (congrArg String.ofList heq)
    have hequals' : c :: more ≠ ['='] := fun heq => hequals (congrArg String.ofList heq)
    rw [Lexeme.ofSymbol, if_neg harrow', if_neg hequals', if_neg hcolon]
  have hmore : ∀ d ∈ more, Strand.symbol.continues d = true := fun d hd => by
    rw [Strand.continues, isSymbolChar, decide_eq_true (hchars.2 d hd), Bool.true_or]
  have hspells := spells_strand hlist (fun _ => Scanner.start_symbol hchars.1) hmore
  exact hlexeme ▸ hspells.mono fun _ => Strand.ends_of_stops

theorem isOperator_of_isWord (h : isWord starts n = true)
    (hstarts : ∀ c, starts c = true → c.isAlphanum = true) : isOperator n = false := by
  obtain ⟨c, more, rfl, hc, _⟩ := exists_of_isWord h
  rw [isOperator, String.toList_ofList]
  dsimp only
  rw [Text.isAlphanumeric, hstarts c hc]
  rfl

theorem isOperator_of_isSymbol (h : isSymbol n = true) : isOperator n = true := by
  have hsymbols : symbolChars.all (fun c => !Text.isAlphanumeric c && c ≠ '_') = true := by
    decide +kernel
  simp only [isSymbol, Bool.and_eq_true, decide_eq_true_eq, List.all_eq_true] at h
  obtain ⟨⟨⟨hne, hchars⟩, -⟩, -⟩ := h
  obtain ⟨c, more, hlist⟩ := List.exists_cons_of_ne_nil (String.toList_eq_nil_iff.not.mpr hne)
  rw [hlist] at hchars
  rw [isOperator, hlist]
  exact List.all_eq_true.mp hsymbols c (hchars c List.mem_cons_self)

end Name

/-! ## Numbers -/

/-- **A number** in decimal. -/
theorem spells_number (n : Nat) : Spells Stops n.repr [.number n] := by
  obtain ⟨c, more, hlist, hdigits⟩ := exists_digits n
  have halphanum : ∀ d ∈ c :: more, d.isAlphanum = true := fun d hd => by
    rw [Char.isAlphanum, hdigits d hd, Bool.or_true]
  have hlexeme : Lexeme.ofWord (c :: more) = .number n := by
    rw [Lexeme.ofWord, List.head?_cons, Option.any_some, if_pos (hdigits c List.mem_cons_self),
      ← hlist, Nat.toList_repr, Nat.ofDigitChars_ten_toDigits]
  have hmore : ∀ d ∈ more, Strand.word.continues d = true := fun d hd => by
    rw [Strand.continues, isWordChar, halphanum d (List.mem_cons_of_mem c hd),
      Bool.true_or, Bool.true_or]
  have hspells :=
    spells_strand hlist (fun _ => Scanner.start_alphanum (halphanum c List.mem_cons_self)) hmore
  exact hlexeme ▸ hspells.mono fun _ => Strand.ends_of_stops

/-- The lexemes of an integer. The sign of a negative one is a symbol of its own. -/
def Lexeme.ofInt (value : Int) : List Lexeme :=
  if 0 ≤ value then [number value.toNat] else [operator "-", number (-value).toNat]

theorem isSymbolChar_of_isDigit (h : c.isDigit = true) : isSymbolChar c = false := by
  have hsymbols : (':' :: symbolChars).all (fun d => !d.isDigit) = true := by decide
  have hc : c ∉ ':' :: symbolChars := fun hmem => by
    have hdigit := List.all_eq_true.mp hsymbols c hmem
    rw [h] at hdigit
    cases hdigit
  simpa [isSymbolChar, and_comm] using hc

/-- **An integer**, with its sign as a lexeme of its own. -/
theorem spells_int (value : Int) : Spells Stops (toString value) (Lexeme.ofInt value) := by
  rw [Int.toString_eq_repr, Int.repr_eq_if, Lexeme.ofInt]
  split
  · exact spells_number _
  · have hstart : ∀ before, Scanner.start before '-' =
      some (.inStrand .symbol ['-'], before) := fun _ => rfl
    have hminus : Spells Strand.symbol.Ends "-" [.operator "-"] :=
      spells_strand rfl hstart (List.forall_mem_nil _)
    obtain ⟨c, more, hlist, hdigits⟩ := exists_digits (-value).toNat
    refine hminus.append (spells_number _) fun rest _ => ?_
    rw [hlist]
    exact isSymbolChar_of_isDigit (hdigits c List.mem_cons_self)

/-! ## Quoted text -/

namespace Scanner

variable {chars rest : List Char} {before : List Lexeme}

/-- One digit of a code. -/
theorem run_digit {code d : Nat} (h : d < 16) :
    (inCode chars code).run before (d.digitChar :: rest) =
      (inCode chars (code * 16 + d)).run before rest := by
  have hdigit := hexDigit?_digitChar h
  have hbrace : d.digitChar ≠ '\x7d' := fun heq => by
    have hnone : Json.hexDigit? '\x7d' = none := rfl
    rw [heq, hnone] at hdigit
    cases hdigit
  rw [run, step, if_neg hbrace, hdigit]
  rfl

/-- A code is read back from its hexadecimal digits. -/
theorem run_code (n : Nat) :
    (inCode chars 0).run before (Nat.toDigits 16 n ++ rest) = (inCode chars n).run before rest := by
  -- the digits are those of the quotient and then the remainder
  induction n using Nat.strongRecOn generalizing rest with
  | ind n ih =>
    rcases Nat.lt_or_ge n 16 with hlt | hge
    · rw [Nat.toDigits_of_lt_base hlt, List.singleton_append, run_digit hlt,
        Nat.zero_mul, Nat.zero_add]
    · rw [Nat.toDigits_of_base_le (by decide) hge, List.append_assoc, List.singleton_append,
        ih (n / 16) (by omega), run_digit (Nat.mod_lt n (by decide)), Nat.div_add_mod']

/-- **A quoted character** is read back, as itself or escaped. -/
theorem run_quotedChar (c : Char) :
    (inText chars).run before ((Text.quotedChar c).toList ++ rest) =
      (inText (c :: chars)).run before rest := by
  unfold Text.quotedChar
  split
  -- all but the last case are escapes of one letter
  case h_7 _ _ _ _ _ hbackslash hquote =>
    split
    · rw [Char.toString_eq_singleton, String.toList_singleton, List.singleton_append, run, step,
        if_neg hquote, if_neg hbackslash]
      rfl
    · have hcode : (Text.codeEscape c).toList ++ rest =
          '\\' :: 'u' :: '\x7b' :: (Nat.toDigits 16 c.toNat ++ '\x7d' :: rest) := by
        simp [Text.codeEscape]
      rw [hcode]
      have hopen : (inText chars).run before
          ('\\' :: 'u' :: '\x7b' :: (Nat.toDigits 16 c.toNat ++ '\x7d' :: rest))
          = (inCode chars 0).run before (Nat.toDigits 16 c.toNat ++ '\x7d' :: rest) := rfl
      have hclose : (inCode chars c.toNat).run before ('\x7d' :: rest)
          = (inText (.ofNat c.toNat :: chars)).run before rest := rfl
      rw [hopen, run_code, hclose, Char.ofNat_toNat]
  all_goals rfl

theorem run_text (content : List Char) :
    (inText chars).run before (content.flatMap (fun c => (Text.quotedChar c).toList) ++ rest)
      = (inText (content.reverse ++ chars)).run before rest := by
  induction content generalizing chars with
  | nil => rfl
  | cons c content ih =>
    rw [List.flatMap_cons, List.append_assoc, run_quotedChar, ih, List.reverse_cons,
      List.append_assoc]
    rfl

end Scanner

/-- **A quoted text** is one lexeme with that content, whatever follows. -/
theorem spells_quoted (content : String) :
    Spells Anything (Text.quoted content) [.text content] := by
  intro before rest _
  have htext : (Text.quoted content).toList ++ rest
      = '"' :: (content.toList.flatMap (fun c => (Text.quotedChar c).toList) ++ '"' :: rest) := by
    simp [Text.quoted, String.toList_join, List.flatMap_map]
  have hopen : ∀ cs, Scanner.blank.run before ('"' :: cs) =
    (Scanner.inText []).run before cs := fun _ => rfl
  have hclose : ∀ chars, (Scanner.inText chars).run before ('"' :: rest)
      = Scanner.blank.run (.text (String.ofList chars.reverse) :: before) rest := fun _ => rfl
  rw [htext, hopen, Scanner.run_text, hclose, List.append_nil, List.reverse_reverse,
    String.ofList_toList]
  rfl

end StructRec
