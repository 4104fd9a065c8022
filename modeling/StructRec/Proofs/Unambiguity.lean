import StructRec.Proofs.PrintedLexemes

/-!
# StructRec — printed expressions are unambiguous

A reader for printed expressions, which shows that a printed text has one reading: it puts the
lexemes of a printed expression together to the expression again, as far as the text tells
(`Expr.plain`). The reader goes down with a bound on how deep it goes and how often it repeats;
`Enough` says that something holds for all bounds that are large enough.

Types and expressions have the same layers (`Grammar`). An atom can stand everywhere. The head of an
application is read together with all that follows it, an operand up to what is not an argument, and
a phrase at the top up to what joins no operands.
-/

namespace StructRec

variable {fuel : Nat}

/-! ## Expressions as far as their text tells -/

def Binder.plain (b : Binder) : Binder := { name := b.name, ty := b.ty }

def Pattern.plain : Pattern → Pattern
  | con name vars => con name (vars.map Binder.plain)
  | lit value => lit value
  | var binder => var binder.plain
  | wildcard => wildcard

namespace Expr

mutual

/-- An expression without spans and without the types of its nodes. The types of binders and type
arguments remain. -/
def plain : Expr → Expr
  | var _ name => var {} name
  | con _ name => con {} name
  | app _ fn arg => app {} fn.plain arg.plain
  | typeApp _ fn ty => typeApp {} fn.plain ty
  | cond _ test thenBranch elseBranch => cond {} test.plain thenBranch.plain elseBranch.plain
  | case _ scrutinee alts => case {} scrutinee.plain (plainAlts alts)
  | lam _ params body => lam {} (params.map Binder.plain) body.plain
  | letRec _ binds body => letRec {} (plainBinds binds) body.plain
  | intLit _ value => intLit {} value
  | undefined _ => undefined {}
  | error _ message => error {} message

def plainAlts : Alts → Alts
  | [] => []
  | (pattern, rhs) :: rest => (pattern.plain, rhs.plain) :: plainAlts rest

def plainBinds : Binds → Binds
  | [] => []
  | (binder, rhs) :: rest => (binder.plain, rhs.plain) :: plainBinds rest

end

end Expr

/-! ## The reader -/

section reader

variable {α β : Type}

/-- Go on after this lexeme. -/
def expect (lexeme : Lexeme) : List Lexeme → Option (List Lexeme)
  | [] => none
  | next :: rest => if next = lexeme then some rest else none

@[simp]
theorem expect_self (lexeme : Lexeme) (rest : List Lexeme) :
    expect lexeme (lexeme :: rest) = some rest := if_pos rfl

/-- Read on for as long as there is something to read. -/
def parseWhile (extend : α → List Lexeme → Option (α × List Lexeme)) :
    Nat → α → List Lexeme → Option (α × List Lexeme)
  | 0, _, _ => none
  | count + 1, a, lexemes =>
    match extend a lexemes with
    | some (b, rest) => parseWhile extend count b rest
    | none => some (a, lexemes)

/-- Read one more item of a list. -/
def parseItem (item : List Lexeme → Option (α × List Lexeme)) (items : List α)
    (lexemes : List Lexeme) : Option (List α × List Lexeme) :=
  (item lexemes).map fun found => (items ++ [found.1], found.2)

/-- Read what stands in parentheses. -/
def parseParens (inner : List Lexeme → Option (α × List Lexeme)) (lexemes : List Lexeme) :
    Option (α × List Lexeme) := do
  let (a, rest) ← inner lexemes
  return (a, ← expect .rightParen rest)

/-- Read an application: its head and then all arguments. -/
def parseApplication (atom : List Lexeme → Option (α × List Lexeme))
    (extend : α → List Lexeme → Option (α × List Lexeme)) (count : Nat) (lexemes : List Lexeme) :
    Option (α × List Lexeme) := do
  let (head, rest) ← atom lexemes
  parseWhile extend count head rest

/-- Read an alternative or a binding, and the semicolon before the next one. -/
def parseEntry (left : List Lexeme → Option (α × List Lexeme)) (mark : Lexeme)
    (right : List Lexeme → Option (β × List Lexeme)) (lexemes : List Lexeme) :
    Option ((α × β) × List Lexeme) := do
  let (a, rest) ← left lexemes
  let (b, rest) ← right (← expect mark rest)
  return ((a, b), (expect .semicolon rest).getD rest)

end reader

namespace Ty

def parseAtom (inner : List Lexeme → Option (Ty × List Lexeme)) :
    List Lexeme → Option (Ty × List Lexeme)
  | .lower name :: rest => some (var name, rest)
  | .upper name :: rest => some (con name, rest)
  | .leftParen :: rest => parseParens inner rest
  | _ => none

def parseArg (inner : List Lexeme → Option (Ty × List Lexeme)) (fn : Ty) (lexemes : List Lexeme) :
    Option (Ty × List Lexeme) :=
  (parseAtom inner lexemes).map fun found => (app fn found.1, found.2)

def parse : Nat → List Lexeme → Option (Ty × List Lexeme)
  | 0, _ => none
  | fuel + 1, lexemes => do
    let (left, rest) ← parseApplication (parseAtom (parse fuel))
      (parseArg (parse fuel)) fuel lexemes
    match rest with
    | .arrow :: rest =>
      let (right, rest) ← parse fuel rest
      return (func left right, rest)
    | rest => return (left, rest)

end Ty

def Binder.parse (fuel : Nat) : List Lexeme → Option (Binder × List Lexeme)
  | .lower name :: rest => some ({ name := name }, rest)
  | .leftParen :: .lower name :: .hasType :: rest =>
    (parseParens (Ty.parse fuel) rest).map fun found =>
      ({ name := name, ty := some found.1 }, found.2)
  | _ => none

def Binder.parseAll (fuel : Nat) (lexemes : List Lexeme) : Option (List Binder × List Lexeme) :=
  parseWhile (parseItem (Binder.parse fuel)) fuel [] lexemes

def Pattern.parse (fuel : Nat) : List Lexeme → Option (Pattern × List Lexeme)
  | .upper name :: rest => (Binder.parseAll fuel rest).map fun found => (con name found.1, found.2)
  | .number n :: rest => some (lit (.ofInt n), rest)
  | .operator _ :: .number n :: rest => some (lit (.ofInt (-n)), rest)
  | .wildcard :: rest => some (wildcard, rest)
  | lexemes => (Binder.parse fuel lexemes).map fun found => (var found.1, found.2)

namespace Expr

def parseAtom (inner : List Lexeme → Option (Expr × List Lexeme)) :
    List Lexeme → Option (Expr × List Lexeme)
  | .lower name :: rest => some (var {} name, rest)
  | .upper name :: rest => some (con {} name, rest)
  | .number n :: rest => some (intLit {} (.ofInt n), rest)
  | .keyword .undefined :: rest => some (undefined {}, rest)
  | .keyword .error :: .text message :: rest => some (error {} message, rest)
  | .leftParen :: rest => parseParens inner rest
  | _ => none

def parseArg (fuel : Nat) (inner : List Lexeme → Option (Expr × List Lexeme)) (fn : Expr) :
    List Lexeme → Option (Expr × List Lexeme)
  | .typeMark :: rest => (Ty.parseAtom (Ty.parse fuel) rest).map fun found =>
      (typeApp {} fn found.1, found.2)
  | lexemes => (parseAtom inner lexemes).map fun found => (app {} fn found.1, found.2)

/-- Read an operand, or two and the operator between them. -/
def parseOperation (operand : List Lexeme → Option (Expr × List Lexeme)) (lexemes : List Lexeme) :
    Option (Expr × List Lexeme) := do
  let (left, rest) ← operand lexemes
  match rest with
  | .operator op :: rest =>
    let (right, rest) ← operand rest
    return (app {} (app {} (var {} op) left) right, rest)
  | rest => return (left, rest)

/-- Read an expression at the top. An operator at the front is the sign of a number, or it stands
for itself. -/
def parse : Nat → List Lexeme → Option (Expr × List Lexeme)
  | 0, _ => none
  | fuel + 1, lexemes =>
    match lexemes with
    | .keyword .cond :: rest => do
      let (test, rest) ← parse fuel rest
      let (thenBranch, rest) ← parse fuel (← expect (.keyword .thenBranch) rest)
      let (elseBranch, rest) ← parse fuel (← expect (.keyword .elseBranch) rest)
      return (cond {} test thenBranch elseBranch, rest)
    | .keyword .case :: rest => do
      let (scrutinee, rest) ← parse fuel rest
      let rest ← expect .leftBrace (← expect (.keyword .alts) rest)
      let (alts, rest) ← parseWhile
        (parseItem (parseEntry (Pattern.parse fuel) .arrow (parse fuel))) fuel [] rest
      return (case {} scrutinee alts, ← expect .rightBrace rest)
    | .lambda :: rest => do
      let (params, rest) ← Binder.parseAll fuel rest
      let (body, rest) ← parse fuel (← expect .arrow rest)
      return (lam {} params body, rest)
    | .keyword .letRec :: rest => do
      let rest ← expect .leftBrace rest
      let (binds, rest) ← parseWhile
        (parseItem (parseEntry (Binder.parse fuel) .equals (parse fuel))) fuel [] rest
      let (body, rest) ← parse fuel (← expect (.keyword .body) (← expect .rightBrace rest))
      return (letRec {} binds body, rest)
    | .operator _ :: .number n :: rest => some (intLit {} (.ofInt (-n)), rest)
    | .operator op :: rest => some (var {} op, rest)
    | lexemes =>
        parseOperation
          (parseApplication (parseAtom (parse fuel)) (parseArg fuel (parse fuel)) fuel) lexemes

end Expr

/-! ## Sufficient bounds -/

/-- Something holds for all depths and repetitions from some number on. -/
def Enough (p : Nat → Nat → Prop) : Prop :=
  ∃ least, ∀ fuel count, least ≤ fuel → least ≤ count → p fuel count

namespace Enough

variable {p q : Nat → Nat → Prop}

theorem of_forall (h : ∀ fuel count, p fuel count) : Enough p :=
  ⟨0, fun fuel count _ _ => h fuel count⟩

/-- Two readers that need enough fuel, with enough for both. -/
theorem and (hp : Enough p) (hq : Enough q) :
    Enough fun fuel count => p fuel count ∧ q fuel count := by
  obtain ⟨m, hm⟩ := hp
  obtain ⟨n, hn⟩ := hq
  exact ⟨max m n, fun fuel count hfuel hcount =>
    ⟨hm fuel count (by omega) (by omega), hn fuel count (by omega) (by omega)⟩⟩

theorem mono (hp : Enough p) (h : ∀ fuel count, p fuel count → q fuel count) : Enough q := by
  obtain ⟨m, hm⟩ := hp
  exact ⟨m, fun fuel count hfuel hcount => h fuel count (hm fuel count hfuel hcount)⟩

/-- One more repetition. -/
theorem repeated (hp : Enough p) (h : ∀ fuel count, p fuel count → q fuel (count + 1)) :
    Enough q := by
  obtain ⟨m, hm⟩ := hp
  refine ⟨m + 1, fun fuel count hfuel hcount => ?_⟩
  obtain ⟨n, rfl⟩ : ∃ n, count = n + 1 := ⟨count - 1, by omega⟩
  exact h fuel n (hm fuel n (by omega) (by omega))

/-- One level deeper. What is read there is repeated as often as the level allows. -/
theorem deeper {q : Nat → Prop} (hp : Enough p) (h : ∀ fuel, p fuel fuel → q (fuel + 1)) :
    Enough fun fuel _ => q fuel := by
  obtain ⟨m, hm⟩ := hp
  refine ⟨m + 1, fun fuel _ hfuel _ => ?_⟩
  obtain ⟨n, rfl⟩ : ∃ n, fuel = n + 1 := ⟨fuel - 1, by omega⟩
  exact h n (hm n n (by omega) (by omega))

end Enough

/-! ## Layers -/

/-- A language of phrases with applications. -/
structure Grammar (α : Type) where
  parse : Nat → List Lexeme → Option (α × List Lexeme)
  atom : Nat → List Lexeme → Option (α × List Lexeme)
  extend : Nat → α → List Lexeme → Option (α × List Lexeme)
  /-- Whether there is an operand after this lexeme. -/
  joins : Lexeme → Bool
  atom_leftParen : ∀ fuel lexemes,
    atom fuel (.leftParen :: lexemes) = parseParens (parse fuel) lexemes
  extend_rightParen : ∀ fuel a rest, extend fuel a (.rightParen :: rest) = none
  joins_rightParen : joins .rightParen = false
  /-- An application that nothing joins is a phrase. -/
  parse_application : ∀ {fuel lexemes a rest},
    parseApplication (atom fuel) (extend fuel) fuel lexemes = some (a, rest) →
    (∀ lexeme ∈ rest.head?, joins lexeme = false) → parse (fuel + 1) lexemes = some (a, rest)

def Ty.grammar : Grammar Ty where
  parse := parse
  atom fuel := parseAtom (parse fuel)
  extend fuel := parseArg (parse fuel)
  joins lexeme := lexeme = .arrow
  atom_leftParen _ _ := rfl
  extend_rightParen _ _ _ := rfl
  joins_rightParen := rfl
  parse_application {fuel lexemes a rest} h hjoins := by
    simp only [parse, h, Option.bind_eq_bind, Option.bind_some]
    split
    · cases hjoins _ rfl
    · rfl

/-- Nothing that starts an application starts another phrase. -/
theorem Expr.parse_of_application {lexemes : List Lexeme} {found : Expr × List Lexeme}
    (h : parseApplication (parseAtom (parse fuel)) (parseArg fuel (parse fuel)) fuel
      lexemes = some found) :
    parse (fuel + 1) lexemes
      = parseOperation
        (parseApplication (parseAtom (parse fuel)) (parseArg fuel (parse fuel)) fuel) lexemes := by
  conv_lhs => unfold parse
  dsimp only
  split
  case h_7 => rfl
  all_goals exact absurd h (by simp [parseApplication, parseAtom])

def Expr.grammar : Grammar Expr where
  parse := parse
  atom fuel := parseAtom (parse fuel)
  extend fuel := parseArg fuel (parse fuel)
  joins lexeme := lexeme matches .operator _
  atom_leftParen _ _ := rfl
  extend_rightParen _ _ _ := rfl
  joins_rightParen := rfl
  parse_application {fuel lexemes a rest} h hjoins := by
    rw [parse_of_application h, parseOperation, h]
    simp only [Option.bind_eq_bind, Option.bind_some]
    split
    · cases hjoins _ rfl
    · rfl

/-! ## Reading, place by place -/

section repetition

variable {α : Type} {lexemes rest : List Lexeme}

/-- One more round of a repetition. -/
theorem parseWhile_step {extend : Nat → α → List Lexeme → Option (α × List Lexeme)} {a b : α}
    {outcome : Option (α × List Lexeme)}
    (hstep : Enough fun fuel _ => extend fuel a lexemes = some (b, rest))
    (hrest : Enough fun fuel count => parseWhile (extend fuel) count b rest = outcome) :
    Enough fun fuel count => parseWhile (extend fuel) count a lexemes = outcome := by
  refine (hstep.and hrest).repeated ?_
  rintro fuel count ⟨hb, houtcome⟩
  rw [parseWhile, hb]
  exact houtcome

/-- A repetition ends where nothing more is read. -/
theorem parseWhile_stop {extend : Nat → α → List Lexeme → Option (α × List Lexeme)} {a : α}
    (h : ∀ fuel, extend fuel a lexemes = none) :
    Enough fun fuel count => parseWhile (extend fuel) count a lexemes = some (a, lexemes) := by
  refine (Enough.of_forall fun fuel _ => h fuel).repeated ?_
  intro fuel count hstop
  rw [parseWhile, hstop]

/-- Items that are read one after the other, up to what is no item. -/
inductive ReadsItems (item : Nat → List Lexeme → Option (α × List Lexeme)) (rest : List Lexeme) :
    List Lexeme → List α → Prop
  | nil (h : ∀ fuel, item fuel rest = none) : ReadsItems item rest rest []
  | cons {lexemes middle : List Lexeme} {x : α} {xs : List α}
      (hfirst : Enough fun fuel _ => item fuel lexemes = some (x, middle))
      (hmore : ReadsItems item rest middle xs) :
      ReadsItems item rest lexemes (x :: xs)

/-- Items are read one after the other, behind those found before. -/
theorem ReadsItems.repeated {item : Nat → List Lexeme → Option (α × List Lexeme)} {xs : List α}
    (h : ReadsItems item rest lexemes xs) (found : List α) :
    Enough fun fuel count =>
      parseWhile (parseItem (item fuel)) count found lexemes = some (found ++ xs, rest) := by
  induction h generalizing found with
  | nil hstop =>
    have hitem : ∀ fuel, parseItem (item fuel) found rest = none := fun fuel => by
      rw [parseItem, hstop, Option.map_none]
    rw [List.append_nil]
    exact parseWhile_stop hitem
  | @cons lexemes middle x xs hfirst _ ih =>
    have hitem : Enough fun fuel _ =>
        parseItem (item fuel) found lexemes = some (found ++ [x], middle) :=
      hfirst.mono fun fuel _ hx => by rw [parseItem, hx, Option.map_some]
    have hmore := ih (found ++ [x])
    rw [List.append_assoc, List.singleton_append] at hmore
    exact parseWhile_step hitem hmore

theorem ReadsItems.all {item : Nat → List Lexeme → Option (α × List Lexeme)} {xs : List α}
    (h : ReadsItems item rest lexemes xs) :
    Enough fun fuel _ => parseWhile (parseItem (item fuel)) fuel [] lexemes = some (xs, rest) := by
  obtain ⟨least, hleast⟩ := h.repeated []
  exact ⟨least, fun fuel _ hfuel _ => hleast fuel fuel hfuel hfuel⟩

end repetition

namespace Grammar

variable {α : Type} (g : Grammar α)

/-- What is no further argument. -/
def EndsOperand (rest : List Lexeme) : Prop := ∀ fuel a, g.extend fuel a rest = none

/-- What neither is an argument nor joins an operand. -/
def Ends (rest : List Lexeme) : Prop :=
  g.EndsOperand rest ∧ ∀ lexeme ∈ rest.head?, g.joins lexeme = false

def application (fuel count : Nat) : List Lexeme → Option (α × List Lexeme) :=
  parseApplication (g.atom fuel) (g.extend fuel) count

def ReadsAtom (phrase : List Lexeme) (a : α) : Prop :=
  ∀ rest, Enough fun fuel _ => g.atom fuel (phrase ++ rest) = some (a, rest)

/-- The head of an application, whatever the arguments lead to. -/
def ReadsHead (phrase : List Lexeme) (a : α) : Prop :=
  ∀ rest outcome, (Enough fun fuel count => parseWhile (g.extend fuel) count a rest = outcome) →
    Enough fun fuel count => g.application fuel count (phrase ++ rest) = outcome

def ReadsOperand (phrase : List Lexeme) (a : α) : Prop :=
  ∀ rest, g.EndsOperand rest → Enough fun fuel count =>
    g.application fuel count (phrase ++ rest) = some (a, rest)

def ReadsTop (phrase : List Lexeme) (a : α) : Prop :=
  ∀ rest, g.Ends rest → Enough fun fuel _ => g.parse fuel (phrase ++ rest) = some (a, rest)

def ReadsAt : Place → List Lexeme → α → Prop
  | .top => g.ReadsTop
  | .operand => g.ReadsOperand
  | .head => g.ReadsHead
  | .argument => g.ReadsAtom

variable {g} {phrase arg : List Lexeme} {a b : α}

theorem ReadsAtom.head (h : g.ReadsAtom phrase a) : g.ReadsHead phrase a := by
  intro rest outcome houtcome
  refine ((h rest).and houtcome).mono ?_
  rintro fuel count ⟨hatom, hargs⟩
  rw [application, parseApplication, hatom]
  exact hargs

theorem ReadsHead.operand (h : g.ReadsHead phrase a) : g.ReadsOperand phrase a := fun rest hends =>
  h rest _ (parseWhile_stop fun fuel => hends fuel a)

theorem ReadsOperand.top (h : g.ReadsOperand phrase a) : g.ReadsTop phrase a := fun rest hends =>
  (h rest hends.1).deeper fun _ happlication => g.parse_application happlication hends.2

/-- In parentheses, a phrase can stand anywhere. -/
theorem ReadsTop.parens (h : g.ReadsTop phrase a) :
    g.ReadsAtom ([.leftParen] ++ phrase ++ [.rightParen]) a := by
  intro rest
  have hends : g.Ends (.rightParen :: rest) := by
    refine ⟨fun fuel a => g.extend_rightParen fuel a rest, ?_⟩
    rintro lexeme ⟨⟩
    exact g.joins_rightParen
  refine (h (.rightParen :: rest) hends).mono fun fuel _ hphrase => ?_
  rw [List.append_assoc, List.append_assoc, List.singleton_append, List.singleton_append,
    g.atom_leftParen, parseParens, hphrase]
  rfl

/-- One more argument. -/
theorem ReadsHead.extend (h : g.ReadsHead phrase a)
    (harg : ∀ rest, Enough fun fuel _ => g.extend fuel a (arg ++ rest) = some (b, rest)) :
    g.ReadsHead (phrase ++ arg) b := by
  intro rest outcome houtcome
  rw [List.append_assoc]
  exact h (arg ++ rest) outcome (parseWhile_step (harg rest) houtcome)

theorem ReadsAtom.readsAt (h : g.ReadsAtom phrase a) (place : Place) :
    g.ReadsAt place phrase a := by
  cases place with
  | top => exact h.head.operand.top
  | operand => exact h.head.operand
  | head => exact h.head
  | argument => exact h

/-- What can be applied is put in parentheses as an argument only. -/
theorem ReadsHead.readsAt (h : g.ReadsHead phrase a) (place : Place) :
    g.ReadsAt place (parenthesizedIf (place = .argument) phrase) a := by
  cases place with
  | top => exact h.operand.top
  | operand => exact h.operand
  | head => exact h
  | argument => exact h.operand.top.parens

/-- What can be an operand is put in parentheses where it would be applied or an argument. -/
theorem ReadsOperand.readsAt (h : g.ReadsOperand phrase a) (place : Place) :
    g.ReadsAt place (parenthesizedIf (place = .head || place = .argument) phrase) a := by
  cases place with
  | top => exact h.top
  | operand => exact h
  | head => exact h.top.parens.head
  | argument => exact h.top.parens

/-- What stands at the top is put in parentheses anywhere else. -/
theorem ReadsTop.readsAt (h : g.ReadsTop phrase a) (place : Place) :
    g.ReadsAt place (parenthesizedIf (place ≠ .top) phrase) a := by
  cases place with
  | top => exact h
  | operand => exact h.parens.head.operand
  | head => exact h.parens.head
  | argument => exact h.parens

end Grammar

theorem Ty.parse_func {lexemes middle rest : List Lexeme} {dom cod : Ty}
    (hdom : grammar.application fuel fuel lexemes = some (dom, .arrow :: middle))
    (hcod : parse fuel middle = some (cod, rest)) :
    parse (fuel + 1) lexemes = some (func dom cod, rest) := by
  have hleft : parseApplication (parseAtom (parse fuel)) (parseArg (parse fuel)) fuel lexemes
      = some (dom, .arrow :: middle) := hdom
  simp only [parse, hleft, hcod, Option.bind_eq_bind, Option.bind_some, pure]

/-- **Types are read back** at every place. -/
theorem Ty.reads (t : Ty) (place : Place) : grammar.ReadsAt place (t.lexemesAt place) t := by
  induction t generalizing place with
  | var name =>
    have hatom : grammar.ReadsAtom [.lower name] (var name) := fun _ => .of_forall fun _ _ => rfl
    exact hatom.readsAt place
  | con name =>
    have hatom : grammar.ReadsAtom [.upper name] (con name) := fun _ => .of_forall fun _ _ => rfl
    exact hatom.readsAt place
  | app fn arg ihfn iharg =>
    have hhead : grammar.ReadsHead (fn.lexemesAt .head ++ arg.lexemesAt .argument) (app fn arg) :=
      (ihfn .head).extend fun rest => (iharg .argument rest).mono fun fuel _ harg =>
        congrArg (Option.map fun found : Ty × List Lexeme => (app fn found.1, found.2)) harg
    exact hhead.readsAt place
  -- the arrow ends the domain and is itself read at the top
  | func dom cod ihdom ihcod =>
    have htop : grammar.ReadsTop (dom.lexemesAt .operand ++ [.arrow] ++ cod.lexemesAt .top)
        (func dom cod) := by
      intro rest hends
      have hdom := ihdom .operand (.arrow :: (cod.lexemesAt .top ++ rest)) fun _ _ => rfl
      refine (hdom.and (ihcod .top rest hends)).deeper ?_
      rintro fuel ⟨hleft, hright⟩
      rw [List.append_assoc, List.append_assoc, List.singleton_append]
      exact parse_func hleft hright
    exact htop.readsAt place

/-! ## Binders and patterns -/

/-- A binder, with or without annotation. -/
theorem Binder.reads (b : Binder) (rest : List Lexeme) :
    Enough fun fuel _ => Binder.parse fuel (b.lexemes ++ rest) = some (b.plain, rest) := by
  obtain ⟨name, ty, span⟩ := b
  cases ty with
  | none => exact .of_forall fun _ _ => rfl
  | some ty =>
    have htop : Ty.grammar.ReadsTop (ty.lexemesAt .top) ty := ty.reads .top
    refine (htop.parens rest).mono fun fuel _ hty => ?_
    have hparens : parseParens (Ty.parse fuel) (ty.lexemesAt .top ++ [.rightParen] ++ rest) =
      some (ty, rest) := hty
    simp only [Binder.lexemes, List.append_assoc, List.cons_append, List.nil_append] at hparens ⊢
    rw [Binder.parse, hparens]
    rfl

theorem Binder.reads_all (binders : List Binder) {rest : List Lexeme}
    (hrest : ∀ fuel, Binder.parse fuel rest = none) :
    Enough fun fuel _ => Binder.parseAll fuel (binders.flatMap Binder.lexemes ++ rest)
      = some (binders.map Binder.plain, rest) := by
  have hitems : ReadsItems Binder.parse rest (binders.flatMap Binder.lexemes ++ rest)
      (binders.map Binder.plain) := by
    induction binders with
    | nil => exact .nil hrest
    | cons b binders ih =>
      rw [List.flatMap_cons, List.append_assoc]
      exact .cons (b.reads _) ih
  exact hitems.all

theorem ofInt_of_nonneg {value : Int64} (h : 0 ≤ value.toInt) :
    Int64.ofInt value.toInt.toNat = value := by
  rw [Int.toNat_of_nonneg h, Int64.ofInt_toInt]

theorem ofInt_of_neg {value : Int64} (h : ¬ 0 ≤ value.toInt) :
    Int64.ofInt (-(-value.toInt).toNat) = value := by
  rw [Int.toNat_of_nonneg (by omega), Int.neg_neg, Int64.ofInt_toInt]

/-- Nothing that starts a binder starts another pattern. -/
theorem Pattern.parse_of_binder {lexemes rest : List Lexeme} {b : Binder}
    (h : Binder.parse fuel lexemes = some (b, rest)) :
    Pattern.parse fuel lexemes = some (var b, rest) := by
  unfold Pattern.parse
  split
  case h_5 => rw [h, Option.map_some]
  all_goals exact absurd h (by simp [Binder.parse])

/-- A pattern ends at the arrow. -/
theorem Pattern.reads (p : Pattern) (rest : List Lexeme) :
    Enough fun fuel _ =>
      Pattern.parse fuel (p.lexemes ++ .arrow :: rest) = some (p.plain, .arrow :: rest) := by
  cases p with
  | con name vars =>
    have harrow : ∀ fuel, Binder.parse fuel (.arrow :: rest) = none := fun _ => rfl
    refine (Binder.reads_all vars harrow).mono fun fuel _ hvars => ?_
    exact congrArg (Option.map fun found : List Binder × List Lexeme => (con name found.1, found.2))
      hvars
  | lit value =>
    refine .of_forall fun _ _ => ?_
    rw [lexemes, Lexeme.ofInt]
    split
    · next h => exact congrArg (fun v => some (lit v, .arrow :: rest)) (ofInt_of_nonneg h)
    · next h => exact congrArg (fun v => some (lit v, .arrow :: rest)) (ofInt_of_neg h)
  | var binder =>
    exact (binder.reads (.arrow :: rest)).mono fun fuel _ hbinder => parse_of_binder hbinder
  | wildcard => exact .of_forall fun _ _ => rfl

/-! ## Expressions -/

namespace Expr

/-- An argument is read as an atom. -/
theorem parseArg_of_atom {inner : List Lexeme → Option (Expr × List Lexeme)}
    {lexemes rest : List Lexeme} {arg : Expr} (h : parseAtom inner lexemes = some (arg, rest))
    (fn : Expr) : parseArg fuel inner fn lexemes = some (app {} fn arg, rest) := by
  unfold parseArg
  split
  · cases h
  · rw [h, Option.map_some]

/-- What comes after an expression inside of another one. -/
theorem ends_of_closing (lexeme : Lexeme)
    (h : lexeme ∈
      [.keyword .thenBranch, .keyword .elseBranch, .keyword .alts, .rightBrace, .semicolon])
    (rest : List Lexeme) : grammar.Ends (lexeme :: rest) := by
  simp only [List.mem_cons, List.not_mem_nil, or_false] at h
  rcases h with rfl | rfl | rfl | rfl | rfl
  all_goals
    refine ⟨fun _ _ => rfl, ?_⟩
    rintro lexeme ⟨⟩
    rfl

section phrases

variable {l₁ l₂ l₃ : List Lexeme}

/-- An operator between operands. -/
theorem reads_operation {op : Name} {left right : Expr} (hleft : grammar.ReadsOperand l₁ left)
    (hright : grammar.ReadsOperand l₂ right) :
    grammar.ReadsTop (l₁ ++ [.operator op] ++ l₂) (app {} (app {} (var {} op) left) right) := by
  intro rest hends
  have hleft := hleft (.operator op :: (l₂ ++ rest)) fun _ _ => rfl
  refine (hleft.and (hright rest hends.1)).deeper ?_
  rintro fuel ⟨hleft, hright⟩
  have hleft' : parseApplication (parseAtom (parse fuel)) (parseArg fuel (parse fuel)) fuel
      (l₁ ++ .operator op :: (l₂ ++ rest)) = some (left, .operator op :: (l₂ ++ rest)) := hleft
  have hright' : parseApplication (parseAtom (parse fuel)) (parseArg fuel (parse fuel))
      fuel (l₂ ++ rest) = some (right, rest) := hright
  have hparse : parse (fuel + 1) (l₁ ++ .operator op :: (l₂ ++ rest)) =
      some (app {} (app {} (var {} op) left) right, rest) := by
    simp only [parse_of_application hleft', parseOperation, hleft', hright', Option.bind_eq_bind,
      Option.bind_some, pure]
  rw [List.append_assoc, List.append_assoc, List.singleton_append]
  exact hparse

theorem reads_cond {test thenBranch elseBranch : Expr} (htest : grammar.ReadsTop l₁ test)
    (hthen : grammar.ReadsTop l₂ thenBranch) (helse : grammar.ReadsTop l₃ elseBranch) :
    grammar.ReadsTop
      ([.keyword .cond] ++ l₁ ++ [.keyword .thenBranch] ++ l₂ ++ [.keyword .elseBranch] ++ l₃)
      (cond {} test thenBranch elseBranch) := by
  intro rest hends
  have htest :=
    htest _
      (ends_of_closing (.keyword .thenBranch) (by decide)
        (l₂ ++ .keyword .elseBranch :: (l₃ ++ rest)))
  have hthen := hthen _ (ends_of_closing (.keyword .elseBranch) (by decide) (l₃ ++ rest))
  refine ((htest.and hthen).and (helse rest hends)).deeper ?_
  rintro fuel ⟨⟨htest, hthen⟩, helse⟩
  simp only [grammar, List.append_assoc, List.cons_append, List.nil_append] at htest hthen helse ⊢
  simp only [parse, htest, hthen, helse, expect_self, Option.bind_eq_bind, Option.bind_some, pure]

theorem reads_case {scrutinee : Expr} {alts : Alts} (hscrutinee : grammar.ReadsTop l₁ scrutinee)
    (halts : ∀ rest, ReadsItems (fun fuel => parseEntry (Pattern.parse fuel) .arrow (parse fuel))
      (.rightBrace :: rest)
      (l₂ ++ .rightBrace :: rest) alts) :
    grammar.ReadsTop ([.keyword .case] ++ l₁ ++ [.keyword .alts, .leftBrace] ++ l₂ ++ [.rightBrace])
      (case {} scrutinee alts) := by
  intro rest _
  have hscrutinee :=
    hscrutinee _
      (ends_of_closing (.keyword .alts) (by decide) (.leftBrace :: (l₂ ++ .rightBrace :: rest)))
  refine (hscrutinee.and (halts rest).all).deeper ?_
  rintro fuel ⟨hscrutinee, halts⟩
  simp only [grammar, List.append_assoc, List.cons_append, List.nil_append] at hscrutinee ⊢
  simp only [parse, hscrutinee, halts, expect_self, Option.bind_eq_bind, Option.bind_some, pure]

theorem reads_lam (params : List Binder) {body : Expr} (hbody : grammar.ReadsTop l₁ body) :
    grammar.ReadsTop ([.lambda] ++ params.flatMap Binder.lexemes ++ [.arrow] ++ l₁)
      (lam {} (params.map Binder.plain) body) := by
  intro rest hends
  have harrow : ∀ fuel, Binder.parse fuel (.arrow :: (l₁ ++ rest)) = none := fun _ => rfl
  refine ((Binder.reads_all params harrow).and (hbody rest hends)).deeper ?_
  rintro fuel ⟨hparams, hbody⟩
  simp only [grammar, List.append_assoc, List.cons_append, List.nil_append] at hbody ⊢
  simp only [parse, hparams, hbody, expect_self, Option.bind_eq_bind, Option.bind_some, pure]

theorem reads_letRec {binds : Binds} {body : Expr}
    (hbinds : ∀ rest, ReadsItems (fun fuel => parseEntry (Binder.parse fuel) .equals (parse fuel))
      (.rightBrace :: rest)
      (l₁ ++ .rightBrace :: rest) binds)
    (hbody : grammar.ReadsTop l₂ body) :
    grammar.ReadsTop ([.keyword .letRec, .leftBrace] ++ l₁ ++ [.rightBrace, .keyword .body] ++ l₂)
      (letRec {} binds body) := by
  intro rest hends
  refine ((hbinds (.keyword .body :: (l₂ ++ rest))).all.and (hbody rest hends)).deeper ?_
  rintro fuel ⟨hbinds, hbody⟩
  simp only [grammar, List.append_assoc, List.cons_append, List.nil_append] at hbody ⊢
  simp only [parse, hbinds, hbody, expect_self, Option.bind_eq_bind, Option.bind_some, pure]

end phrases

/-- A variable that is an operator is put in parentheses. -/
theorem reads_occurrence (name : Name) :
    grammar.ReadsAtom
      (if Name.isOperator name then [.leftParen, .operator name, .rightParen] else [.lower name])
      (var {} name) := by
  split
  · intro rest
    have hinner : Enough fun fuel _ => parse fuel (.operator name :: .rightParen :: rest)
        = some (var {} name, .rightParen :: rest) :=
          (Enough.of_forall fun _ _ => trivial).deeper fun _ _ => rfl
    refine hinner.mono fun fuel _ hname => ?_
    have hparens : parseParens (parse fuel) (.operator name :: .rightParen :: rest) =
        some (var {} name, rest) := by
      rw [parseParens, hname]
      rfl
    exact hparens
  · exact fun _ => .of_forall fun _ _ => rfl

/-- A negative number is put in parentheses but at the top. -/
theorem reads_literal (value : Int64) (place : Place) :
    grammar.ReadsAt place (parenthesizedIf (value < 0 && place ≠ .top) (Lexeme.ofInt value.toInt))
      (intLit {} value) := by
  rw [Lexeme.ofInt]
  split
  · next h =>
    have hsign : decide (value < 0) = false :=
      decide_eq_false (by rw [Int64.lt_iff_toInt_lt, Int64.toInt_zero]; omega)
    have hatom : grammar.ReadsAtom [.number value.toInt.toNat] (intLit {} value) :=
      fun rest => .of_forall fun _ _ =>
      congrArg (fun v => some (intLit {} v, rest)) (ofInt_of_nonneg h)
    rw [hsign]
    exact hatom.readsAt place
  · -- a sign is read at the top only
    next h =>
    have hsign : decide (value < 0) = true :=
      decide_eq_true (by rw [Int64.lt_iff_toInt_lt, Int64.toInt_zero]; omega)
    have htop : grammar.ReadsTop [.operator "-", .number (-value.toInt).toNat]
        (intLit {} value) := fun rest _ =>
      (Enough.of_forall fun _ _ => trivial).deeper fun _ _ =>
        congrArg (fun v => some (intLit {} v, rest)) (ofInt_of_neg h)
    rw [hsign]
    exact htop.readsAt place

/-- An alternative or a binding before others and the closing brace. -/
theorem readsItems_entry {α : Type} {left : Nat → List Lexeme → Option (α × List Lexeme)}
    {mark : Lexeme}
    {l r rest : List Lexeme} {a : α} {b : Expr} {more : List (List Lexeme)}
    {entries : List (α × Expr)}
    (hleft : ∀ rest, Enough fun fuel _ => left fuel (l ++ mark :: rest) = some (a, mark :: rest))
    (hright : grammar.ReadsTop r b)
    (hmore : ReadsItems (fun fuel => parseEntry (left fuel) mark (parse fuel)) (.rightBrace :: rest)
      ([.semicolon].intercalate more ++ .rightBrace :: rest) entries) :
    ReadsItems (fun fuel => parseEntry (left fuel) mark (parse fuel)) (.rightBrace :: rest)
      ([.semicolon].intercalate ((l ++ [mark] ++ r) :: more) ++ .rightBrace :: rest)
      ((a, b) :: entries) := by
  -- the entry ends at a semicolon, or at the brace if it is the last one
  obtain ⟨after, hlexemes, hends, hskip⟩ : ∃ after,
      [.semicolon].intercalate ((l ++ [mark] ++ r) :: more) ++ .rightBrace :: rest =
        l ++ mark :: (r ++ after) ∧ grammar.Ends after ∧
        (expect .semicolon after).getD after =
          [.semicolon].intercalate more ++ .rightBrace :: rest := by
    cases more with
    | nil => exact ⟨.rightBrace :: rest, by simp, ends_of_closing _ (by decide) rest, rfl⟩
    | cons next more =>
      refine ⟨.semicolon :: ([.semicolon].intercalate (next :: more) ++ .rightBrace :: rest), ?_,
        ends_of_closing _ (by decide) _, by rw [expect_self, Option.getD_some]⟩
      rw [List.intercalate_cons_cons]
      simp
  rw [hlexemes]
  refine .cons (((hleft (r ++ after)).and (hright after hends)).mono ?_) (hskip ▸ hmore)
  rintro fuel _ ⟨ha, hb⟩
  have hb' : parse fuel (r ++ after) = some (b, after) := hb
  simp only [parseEntry, ha, hb', expect_self, Option.bind_eq_bind, Option.bind_some, pure]

mutual

/-- **Every expression is read in every place.** -/
theorem reads : (e : Expr) → (place : Place) → grammar.ReadsAt place (e.lexemesAt place) e.plain
  | var _ name, place => (reads_occurrence name).readsAt place
  | con _ name, place => by
    have hatom : grammar.ReadsAtom [.upper name] (con {} name) := fun _ => .of_forall fun _ _ => rfl
    exact hatom.readsAt place
  | intLit _ value, place => reads_literal value place
  | undefined _, place => by
    have hatom : grammar.ReadsAtom [.keyword .undefined] (undefined {}) :=
      fun _ => .of_forall fun _ _ => rfl
    exact hatom.readsAt place
  | error _ message, place => by
    have hatom : grammar.ReadsAtom [.keyword .error, .text message] (error {} message) :=
      fun _ => .of_forall fun _ _ => rfl
    exact hatom.head.operand.readsAt place
  | app _ fn arg, place => by
    -- an operator between operands is read at the top, any other application from its head on
    by_cases hop : fn.isOperation = true ∧ place ≠ .head
    · cases fn with
      | app _ f left =>
        cases f with
        | var _ op =>
          have htop : grammar.ReadsTop
              (left.lexemesAt .operand ++ [.operator op] ++ arg.lexemesAt .operand)
              (app {} (app {} (var {} op) left.plain) arg.plain) :=
                reads_operation (left.reads .operand) (arg.reads .operand)
          rw [lexemesAt_operation hop.1 hop.2]
          exact htop.readsAt place
        | _ => exact absurd hop.1 Bool.false_ne_true
      | _ => exact absurd hop.1 Bool.false_ne_true
    · have hfn : grammar.ReadsHead (fn.lexemesAt .head) fn.plain := fn.reads .head
      have hhead : grammar.ReadsHead (fn.lexemesAt .head ++ arg.lexemesAt .argument)
          (app {} fn.plain arg.plain) :=
        hfn.extend fun rest => (arg.reads .argument rest).mono fun fuel _ harg =>
          parseArg_of_atom harg fn.plain
      rw [lexemesAt_application hop]
      exact hhead.readsAt place
  -- a type argument is marked, and extends the head as a value does
  | typeApp _ fn ty, place => by
    have hfn : grammar.ReadsHead (fn.lexemesAt .head) fn.plain := fn.reads .head
    have hhead : grammar.ReadsHead (fn.lexemesAt .head ++ ([.typeMark] ++ ty.lexemesAt .argument))
        (typeApp {} fn.plain ty) :=
      hfn.extend fun rest => (ty.reads .argument rest).mono fun fuel _ hty =>
        congrArg (Option.map fun found : Ty × List Lexeme => (typeApp {} fn.plain found.1, found.2))
          hty
    rw [← List.append_assoc] at hhead
    exact hhead.readsAt place
  | cond _ test thenBranch elseBranch, place =>
    (reads_cond (test.reads .top) (thenBranch.reads .top) (elseBranch.reads .top)).readsAt place
  | case _ scrutinee alts, place =>
      (reads_case (scrutinee.reads .top) (readsAlts alts)).readsAt place
  | lam _ params body, place => (reads_lam params (body.reads .top)).readsAt place
  | letRec _ binds body, place => (reads_letRec (readsBinds binds) (body.reads .top)).readsAt place

/-- The alternatives of a `case`, up to the brace. -/
theorem readsAlts : (alts : Alts) → (rest : List Lexeme) →
    ReadsItems (fun fuel => parseEntry (Pattern.parse fuel) .arrow (parse fuel))
      (.rightBrace :: rest)
      ([.semicolon].intercalate (altsLexemes alts) ++ .rightBrace :: rest) (plainAlts alts)
  | [], _ => .nil fun _ => rfl
  | (pattern, rhs) :: alts, rest =>
      readsItems_entry pattern.reads (rhs.reads .top) (readsAlts alts rest)

theorem readsBinds : (binds : Binds) → (rest : List Lexeme) →
    ReadsItems (fun fuel => parseEntry (Binder.parse fuel) .equals (parse fuel))
      (.rightBrace :: rest)
      ([.semicolon].intercalate (bindsLexemes binds) ++ .rightBrace :: rest) (plainBinds binds)
  | [], _ => .nil fun _ => rfl
  | (binder, rhs) :: binds, rest =>
    readsItems_entry (fun rest => binder.reads (.equals :: rest)) (rhs.reads .top)
      (readsBinds binds rest)

end

/-- **Expressions with the same lexemes are alike**, but for annotations and places. -/
theorem lexemesAt_injective {e₁ e₂ : Expr} (h : e₁.lexemesAt .top = e₂.lexemesAt .top) :
    e₁.plain = e₂.plain := by
  have hends : grammar.Ends [] := ⟨fun _ _ => rfl, by rintro _ ⟨⟩⟩
  have hread₁ : Enough fun fuel _ =>
    grammar.parse fuel (e₁.lexemesAt .top ++ []) = some (e₁.plain, []) := e₁.reads .top [] hends
  have hread₂ : Enough fun fuel _ =>
    grammar.parse fuel (e₂.lexemesAt .top ++ []) = some (e₂.plain, []) := e₂.reads .top [] hends
  -- from some bound on, both are read
  obtain ⟨least, hleast⟩ := hread₁.and hread₂
  obtain ⟨hparse₁, hparse₂⟩ := hleast least least (Nat.le_refl _) (Nat.le_refl _)
  rw [h, hparse₂] at hparse₁
  exact (Prod.mk.inj (Option.some.inj hparse₁)).1.symm

/-- **Printed expressions are unambiguous.** Expressions whose names are words and symbols are the
same if they are printed alike, except for their spans and the types of their nodes. -/
theorem render_unambiguous {e₁ e₂ : Expr} (h₁ : e₁.Lexical) (h₂ : e₂.Lexical)
    (h : e₁.render .source = e₂.render .source) : e₁.plain = e₂.plain := by
  have hscan₁ : scan (e₁.render .source) = some (e₁.lexemesAt .top) :=
    scan_of_spells (e₁.spells_renderAt h₁ .top)
  have hscan₂ : scan (e₂.render .source) = some (e₂.lexemesAt .top) :=
    scan_of_spells (e₂.spells_renderAt h₂ .top)
  rw [h, hscan₂] at hscan₁
  exact lexemesAt_injective (Option.some.inj hscan₁).symm

/-- Spans and types of applications are not printed. -/
theorem render_unambiguous_decrement :
    (lam { span := ⟨1, 1, 1, 23⟩ } [{ name := "x", ty := some (.con "Int"), span := ⟨1, 3, 1, 4⟩ }]
        (app { ty := some (.con "Int") } (app {} (var {} "+") (var {} "x"))
          (intLit {} (-1)))).render .source
      = "\\(x :: Int) -> x + (-1)" ∧
    (lam { span := ⟨1, 1, 1, 23⟩ } [{ name := "x", ty := some (.con "Int"), span := ⟨1, 3, 1, 4⟩ }]
        (app { ty := some (.con "Int") } (app {} (var {} "+") (var {} "x")) (intLit {} (-1)))).plain
      = (lam {} [{ name := "x", ty := some (.con "Int") }]
        (app {} (app {} (var {} "+") (var {} "x")) (intLit {} (-1)))).plain := by
  have hlexical : ∀ note note' span,
      (lam note [{ name := "x", ty := some (.con "Int"), span := span }]
      (app note' (app {} (var {} "+") (var {} "x")) (intLit {} (-1)))).Lexical := by
    intro note note' span
    have hx : Name.isLowerWord "x" = true := by decide
    have hint : Name.isUpperWord "Int" = true := by decide
    have hplus : Name.isSymbol "+" = true := by decide
    refine ⟨List.forall_mem_singleton.mpr ⟨hx, ?_⟩, ⟨⟨.inr hplus, .inl hx⟩, trivial⟩⟩
    rintro ty ⟨⟩
    exact hint
  exact ⟨by decide +kernel, render_unambiguous (hlexical _ _ _) (hlexical _ _ _) rfl⟩

end Expr

end StructRec
