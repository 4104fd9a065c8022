import StructRec.Proofs.Lexemes

/-!
# StructRec — lexemes of printed expressions

What the printer writes, as lexemes. Every printed phrase is cut into the lexemes of its parts, if
the names in it are words and symbols (`Lexical`); only the parentheses depend on the place of the
phrase.
-/

namespace StructRec

/-! ## Names that can be told apart -/

def Ty.Lexical : Ty → Prop
  | var name => name.isLowerWord = true
  | con name => name.isUpperWord = true
  | app l r | func l r => l.Lexical ∧ r.Lexical

def Binder.Lexical (b : Binder) : Prop := b.name.isLowerWord = true ∧ ∀ ty ∈ b.ty, ty.Lexical

def Pattern.Lexical : Pattern → Prop
  | con name vars => name.isUpperWord = true ∧ ∀ b ∈ vars, b.Lexical
  | var binder => binder.Lexical
  | lit _ | wildcard => True

namespace Expr

mutual

/-- The names in an expression are words, and variables that are not bound here may be symbols. -/
def Lexical : Expr → Prop
  | var _ name => name.isLowerWord = true ∨ name.isSymbol = true
  | con _ name => name.isUpperWord = true
  | app _ fn arg => fn.Lexical ∧ arg.Lexical
  | typeApp _ fn arg => fn.Lexical ∧ arg.Lexical
  | cond _ test thenBranch elseBranch => test.Lexical ∧ thenBranch.Lexical ∧ elseBranch.Lexical
  | case _ scrutinee alts => scrutinee.Lexical ∧ AltsLexical alts
  | lam _ params body => (∀ b ∈ params, b.Lexical) ∧ body.Lexical
  | letRec _ binds body => BindsLexical binds ∧ body.Lexical
  | intLit _ _ | undefined _ | error _ _ => True

def AltsLexical : Alts → Prop
  | [] => True
  | (pattern, rhs) :: rest => pattern.Lexical ∧ rhs.Lexical ∧ AltsLexical rest

def BindsLexical : Binds → Prop
  | [] => True
  | (binder, rhs) :: rest => binder.Lexical ∧ rhs.Lexical ∧ BindsLexical rest

end

end Expr

/-! ## Lexemes of phrases -/

/-- A phrase in parentheses, where its place asks for them. -/
def parenthesizedIf (needed : Bool) (phrase : List Lexeme) : List Lexeme :=
  if needed then [.leftParen] ++ phrase ++ [.rightParen] else phrase

def Ty.lexemesAt : Ty → Place → List Lexeme
  | var name, _ => [.lower name]
  | con name, _ => [.upper name]
  | app fn arg, place =>
      parenthesizedIf (place = .argument) (fn.lexemesAt .head ++ arg.lexemesAt .argument)
  | func dom cod, place =>
    parenthesizedIf (place ≠ .top) (dom.lexemesAt .operand ++ [.arrow] ++ cod.lexemesAt .top)

def Binder.lexemes (b : Binder) : List Lexeme :=
  match b.ty with
  | some ty => [.leftParen] ++ [.lower b.name] ++ [.hasType] ++ ty.lexemesAt .top ++ [.rightParen]
  | none => [.lower b.name]

def Pattern.lexemes : Pattern → List Lexeme
  | con name vars => [.upper name] ++ vars.flatMap Binder.lexemes
  | lit value => Lexeme.ofInt value.toInt
  | var binder => binder.lexemes
  | wildcard => [.wildcard]

namespace Expr

mutual

def lexemesAt : Expr → Place → List Lexeme
  | var _ name, _ =>
      if Name.isOperator name then [.leftParen, .operator name, .rightParen] else [.lower name]
  | con _ name, _ => [.upper name]
  | intLit _ value, place => parenthesizedIf (value < 0 && place ≠ .top) (Lexeme.ofInt value.toInt)
  | undefined _, _ => [.keyword .undefined]
  | error _ message, place =>
    parenthesizedIf (place = .head || place = .argument) ([.keyword .error] ++ [.text message])
  | app _ fn arg, place =>
    let plain := fun _ : Unit =>
      parenthesizedIf (place = .argument) (fn.lexemesAt .head ++ arg.lexemesAt .argument)
    match fn with
    | app _ (var _ op) left =>
      if Name.isOperator op && place ≠ .head then
        parenthesizedIf (place ≠ .top)
          (left.lexemesAt .operand ++ [.operator op] ++ arg.lexemesAt .operand)
      else plain ()
    | _ => plain ()
  | typeApp _ fn ty, place =>
    parenthesizedIf (place = .argument)
      (fn.lexemesAt .head ++ [.typeMark] ++ ty.lexemesAt .argument)
  | cond _ test thenBranch elseBranch, place =>
    parenthesizedIf (place ≠ .top)
      ([.keyword .cond] ++ test.lexemesAt .top ++ [.keyword .thenBranch] ++
        thenBranch.lexemesAt .top ++ [.keyword .elseBranch] ++ elseBranch.lexemesAt .top)
  | case _ scrutinee alts, place =>
    parenthesizedIf (place ≠ .top)
      ([.keyword .case] ++ scrutinee.lexemesAt .top ++ [.keyword .alts, .leftBrace]
        ++ [.semicolon].intercalate (altsLexemes alts) ++ [.rightBrace])
  | lam _ params body, place =>
    parenthesizedIf (place ≠ .top)
      ([.lambda] ++ params.flatMap Binder.lexemes ++ [.arrow] ++ body.lexemesAt .top)
  | letRec _ binds body, place =>
    parenthesizedIf (place ≠ .top)
      ([.keyword .letRec, .leftBrace] ++ [.semicolon].intercalate (bindsLexemes binds) ++
        [.rightBrace, .keyword .body] ++ body.lexemesAt .top)

def altsLexemes : Alts → List (List Lexeme)
  | [] => []
  | (pattern, rhs) :: rest =>
      (pattern.lexemes ++ [.arrow] ++ rhs.lexemesAt .top) :: altsLexemes rest

def bindsLexemes : Binds → List (List Lexeme)
  | [] => []
  | (binder, rhs) :: rest =>
      (binder.lexemes ++ [.equals] ++ rhs.lexemesAt .top) :: bindsLexemes rest

end

end Expr

/-! ## Texts of phrases -/

/-- Parentheses stand around the lexemes if they stand around the text. -/
theorem Cuts.parensIf {text : String} {lexemes : List Lexeme} (h : Spells Stops text lexemes)
    (needed : Bool) : Spells Stops (parensIf needed text) (parenthesizedIf needed lexemes) := by
  cases needed with
  | false => exact h
  | true =>
    have hleft : Spells Anything "(" [.leftParen] := fun _ _ _ => rfl
    have hright : Spells Anything ")" [.rightParen] := fun _ _ _ => rfl
    exact ((hleft.before h).append hright fun _ _ => .inr (.inl rfl)).weaken

theorem spells_space : Spells Anything " " [] := fun _ _ _ => rfl

theorem spells_arrow : Spells Anything " -> " [.arrow] := fun _ _ _ => rfl

theorem spells_semicolon : Spells Anything "; " [.semicolon] := fun _ _ _ => rfl

/-- Phrases with a space after each but the last. -/
theorem Cuts.spaced {texts : List String} {phrases : List (List Lexeme)}
    (h : List.Forall₂ (Spells Stops) texts phrases) :
    Spells Stops (" ".intercalate texts) phrases.flatten := by
  have hspaced := Cuts.intercalate spells_space (fun _ => .inl rfl) h
  have hflatten : ([] : List Lexeme).intercalate phrases = phrases.flatten := by
    clear h hspaced
    induction phrases with
    | nil => rfl
    | cons phrase phrases ih =>
      cases phrases with
      | nil => simp
      | cons next more =>
        rw [List.intercalate_cons_cons, ih, List.append_nil]
        rfl
  rwa [hflatten] at hspaced

/-- **A printed type** is cut into its lexemes. -/
theorem Ty.spells_renderAt (t : Ty) (h : t.Lexical) (place : Place) :
    Spells Stops (t.renderAt place) (t.lexemesAt place) := by
  induction t generalizing place with
  | var name => exact name.spells_lower h
  | con name => exact name.spells_upper h
  | app fn arg ihfn iharg =>
    have happ :=
      (((ihfn h.1 .head).append spells_space fun _ _ => .inl rfl).before
        (iharg h.2 .argument)).parensIf
      (place = .argument)
    rwa [List.append_nil] at happ
  | func dom cod ihdom ihcod =>
    exact (((ihdom h.1 .operand).append spells_arrow fun _ _ => .inl rfl).before
      (ihcod h.2 .top)).parensIf _

/-- A binder, with its type and strictness if it has them. -/
theorem Binder.spells_render {b : Binder} (h : b.Lexical) :
    Spells Stops (b.render .source) b.lexemes := by
  obtain ⟨name, ty, span⟩ := b
  obtain ⟨hname, hty⟩ := h
  have hspells := Name.spells_lower hname
  cases ty with
  | none => exact hspells
  | some ty =>
    have hleft : Spells Anything "(" [.leftParen] := fun _ _ _ => rfl
    have hcolons : Spells Anything " :: " [.hasType] := fun _ _ _ => rfl
    have hright : Spells Anything ")" [.rightParen] := fun _ _ _ => rfl
    have htyped :=
      ((hleft.before hspells).append hcolons fun _ _ => .inl rfl).before
        (ty.spells_renderAt (hty ty rfl) .top)
    exact (htyped.append hright fun _ _ => .inr (.inl rfl)).weaken

theorem Binder.spells_renders {binders : List Binder} (h : ∀ b ∈ binders, b.Lexical) :
    List.Forall₂ (Spells Stops) (binders.map (Binder.render .source))
      (binders.map Binder.lexemes) := by
  rw [List.forall₂_map_left_iff, List.forall₂_map_right_iff, List.forall₂_same]
  exact fun b hb => Binder.spells_render (h b hb)

theorem Pattern.spells_render {p : Pattern} (h : p.Lexical) :
    Spells Stops (p.render .source) p.lexemes := by
  cases p with
  | con name vars => exact .spaced (.cons (Name.spells_upper h.1) (Binder.spells_renders h.2))
  | lit value => exact spells_int value.toInt
  | var binder => exact Binder.spells_render h
  | wildcard => exact Cuts.weaken fun _ _ _ => rfl

namespace Expr

/-- An operator with its left operand. -/
def isOperation : Expr → Bool
  | app _ (var _ op) _ => Name.isOperator op
  | _ => false

section applications

variable {fn arg left right : Expr} {op : Name} {place : Place} {note note' note'' : Note}

theorem renderAt_operation (hop : Name.isOperator op = true) (hplace : place ≠ .head) :
    (app note (app note' (var note'' op) left) right).renderAt .source place
      = parensIf (place ≠ .top)
        (left.renderAt .source .operand ++ " " ++ op ++ " " ++
          right.renderAt .source .operand) := by
  rw [renderAt, hop, decide_eq_true hplace]
  rfl

theorem lexemesAt_operation (hop : Name.isOperator op = true) (hplace : place ≠ .head) :
    (app note (app note' (var note'' op) left) right).lexemesAt place
      = parenthesizedIf (place ≠ .top)
        (left.lexemesAt .operand ++ [.operator op] ++ right.lexemesAt .operand) := by
  rw [lexemesAt, hop, decide_eq_true hplace]
  rfl

theorem renderAt_application (h : ¬ (fn.isOperation = true ∧ place ≠ .head)) :
    (app note fn arg).renderAt .source place
      = parensIf (place = .argument)
        (fn.renderAt .source .head ++ " " ++ arg.renderAt .source .argument) := by
  cases fn with
  | app note' f left =>
    cases f with
    | var note'' op =>
      rw [renderAt]
      exact if_neg (by simpa [isOperation] using h)
    | _ => rfl
  | _ => rfl

theorem lexemesAt_application (h : ¬ (fn.isOperation = true ∧ place ≠ .head)) :
    (app note fn arg).lexemesAt place
      = parenthesizedIf (place = .argument) (fn.lexemesAt .head ++ arg.lexemesAt .argument) := by
  cases fn with
  | app note' f left =>
    cases f with
    | var note'' op =>
      rw [lexemesAt]
      exact if_neg (by simpa [isOperation] using h)
    | _ => rfl
  | _ => rfl

end applications

theorem spells_operator {op : Name} (h : op.isLowerWord = true ∨ op.isSymbol = true)
    (hop : Name.isOperator op = true) : Spells Stops op [.operator op] := by
  rcases h with hlower | hsymbol
  · rw [Name.isOperator_of_isWord hlower fun c hc => ((Name.letter_classes c).1 hc).1.1] at hop
    cases hop
  · exact Name.spells_symbol hsymbol

/-- An operator stands in parentheses outside of operations. -/
theorem spells_occurrence {name : Name} (h : name.isLowerWord = true ∨ name.isSymbol = true) :
    Spells Stops (Spelling.source.occurrence name)
      (if Name.isOperator name then [.leftParen, .operator name, .rightParen]
        else [.lower name]) := by
  rw [Spelling.occurrence]
  rcases h with hlower | hsymbol
  · rw [Name.isOperator_of_isWord hlower fun c hc => ((Name.letter_classes c).1 hc).1.1]
    exact Name.spells_lower hlower
  · rw [Name.isOperator_of_isSymbol hsymbol]
    exact (Name.spells_symbol hsymbol).parensIf true

mutual

/-- **A printed expression** is cut into its lexemes, wherever it stands. -/
theorem spells_renderAt : (e : Expr) → e.Lexical → (place : Place) →
    Spells Stops (e.renderAt .source place) (e.lexemesAt place)
  | var _ name, h, _ => spells_occurrence h
  | con _ name, h, _ => by
    rw [renderAt, Spelling.occurrence,
      Name.isOperator_of_isWord h fun c hc => ((Name.letter_classes c).2 hc).1]
    exact Name.spells_upper h
  | intLit _ value, _, place => (spells_int value.toInt).parensIf _
  | undefined _, _, _ => by
    -- a keyword without a blank after it ends where a name would
    have hmore : ∀ c ∈ "ndefined".toList, Strand.word.continues c = true :=
      List.all_eq_true.mp (by decide)
    have hword : Spells Strand.word.Ends "undefined"
        [Strand.word.lexeme ('u' :: "ndefined".toList)] :=
      spells_strand rfl (fun _ => Scanner.start_alphanum rfl) hmore
    exact hword.mono fun _ => Strand.ends_of_stops
  | error _ message, _, place => by
    have herror : Spells Anything "error " [.keyword .error] := fun _ _ _ => rfl
    exact (herror.before (spells_quoted message)).weaken.parensIf _
  | app _ fn arg, h, place => by
    -- an operator stands between its operands, except at the head of a longer application
    by_cases hop : fn.isOperation = true ∧ place ≠ .head
    · cases fn with
      | app _ f left =>
        cases f with
        | var _ op =>
          rw [renderAt_operation hop.1 hop.2, lexemesAt_operation hop.1 hop.2]
          have hleft :=
            (spells_renderAt left h.1.2 .operand).append spells_space fun _ _ => .inl rfl
          have hsymbol :=
            (hleft.before (spells_operator h.1.1 hop.1)).append spells_space fun _ _ => .inl rfl
          rw [List.append_nil, List.append_nil] at hsymbol
          exact (hsymbol.before (spells_renderAt arg h.2 .operand)).parensIf _
        | _ => exact absurd hop.1 Bool.false_ne_true
      | _ => exact absurd hop.1 Bool.false_ne_true
    · rw [renderAt_application hop, lexemesAt_application hop]
      have happ := ((spells_renderAt fn h.1 .head).append spells_space fun _ _ => .inl rfl).before
        (spells_renderAt arg h.2 .argument)
      rw [List.append_nil] at happ
      exact happ.parensIf _
  | typeApp _ fn ty, h, place => by
    have hmark : Spells Anything " @" [.typeMark] := fun _ _ _ => rfl
    exact (((spells_renderAt fn h.1 .head).append hmark fun _ _ => .inl rfl).before
      (ty.spells_renderAt h.2 .argument)).parensIf _
  | cond _ test thenBranch elseBranch, h, place => by
    have hif : Spells Anything "if " [.keyword .cond] := fun _ _ _ => rfl
    have hthen : Spells Anything " then " [.keyword .thenBranch] := fun _ _ _ => rfl
    have helse : Spells Anything " else " [.keyword .elseBranch] := fun _ _ _ => rfl
    have htest := (hif.before (spells_renderAt test h.1 .top)).append hthen fun _ _ => .inl rfl
    have hbranches :=
      (htest.before (spells_renderAt thenBranch h.2.1 .top)).append helse fun _ _ => .inl rfl
    exact (hbranches.before (spells_renderAt elseBranch h.2.2 .top)).parensIf _
  | case _ scrutinee alts, h, place => by
    have hcase : Spells Anything "case " [.keyword .case] := fun _ _ _ => rfl
    have hof : Spells Anything " of \x7b " [.keyword .alts, .leftBrace] := fun _ _ _ => rfl
    have hend : Spells Anything " \x7d" [.rightBrace] := fun _ _ _ => rfl
    have hscrutinee :=
      (hcase.before (spells_renderAt scrutinee h.1 .top)).append hof fun _ _ => .inl rfl
    have halts :=
      hscrutinee.before
        (.intercalate spells_semicolon (fun _ => .inr (.inr rfl)) (spells_renderAlts alts h.2))
    exact (halts.append hend fun _ _ => .inl rfl).weaken.parensIf _
  | lam _ params body, h, place => by
    have hlambda : Spells Anything "\\" [.lambda] := fun _ _ _ => rfl
    have hparams :=
      (hlambda.before (.spaced (Binder.spells_renders h.1))).append spells_arrow fun _ _ => .inl rfl
    exact (hparams.before (spells_renderAt body h.2 .top)).parensIf _
  | letRec _ binds body, h, place => by
    have hlet : Spells Anything "let \x7b " [.keyword .letRec, .leftBrace] := fun _ _ _ => rfl
    have hin : Spells Anything " \x7d in " [.rightBrace, .keyword .body] := fun _ _ _ => rfl
    have hbinds :=
      hlet.before
        (.intercalate spells_semicolon (fun _ => .inr (.inr rfl)) (spells_renderBinds binds h.1))
    exact ((hbinds.append hin fun _ _ => .inl rfl).before (spells_renderAt body h.2 .top)).parensIf
      _

theorem spells_renderAlts : (alts : Alts) → AltsLexical alts →
    List.Forall₂ (Spells Stops) (renderAlts .source alts) (altsLexemes alts)
  | [], _ => .nil
  | (_, rhs) :: rest, h =>
    .cons
      (((Pattern.spells_render h.1).append spells_arrow fun _ _ => .inl rfl).before
        (spells_renderAt rhs h.2.1 .top))
      (spells_renderAlts rest h.2.2)

theorem spells_renderBinds : (binds : Binds) → BindsLexical binds →
    List.Forall₂ (Spells Stops) (renderBinds .source binds) (bindsLexemes binds)
  | [], _ => .nil
  | (binder, rhs) :: rest, h => by
    have hequals : Spells Anything " = " [.equals] := fun _ _ _ => rfl
    exact .cons
      (((Binder.spells_render h.1).append hequals fun _ _ => .inl rfl).before
        (spells_renderAt rhs h.2.1 .top))
      (spells_renderBinds rest h.2.2)

end

end Expr

end StructRec
