import StructRec.Expr.Basic
import StructRec.Printer.Ty
import StructRec.Text.Alphanumeric
import StructRec.Text.Quoted

/-!
# StructRec — printed expressions

Expressions on one line, in the syntax of the source. A name that does not start with a letter, a
number or an underscore is an operator: it is printed between its operands when it is applied to
exactly two values, and in parentheses everywhere else.
-/

namespace StructRec

/-- Whether a name is an operator symbol. -/
def Name.isOperator (n : Name) : Bool :=
  match n.toList with
  | [] => false
  | c :: _ => !Text.isAlphanumeric c && c ≠ '_'

/-- A variable or constructor where it is used. -/
def Spelling.occurrence (spelling : Spelling) (n : Name) : String :=
  parensIf (Name.isOperator n) (spelling.of n)

def Binder.render (spelling : Spelling) (b : Binder) : String :=
  match b.ty with
  | some ty => "(" ++ spelling.of b.name ++ " :: " ++ ty.render ++ ")"
  | none => spelling.of b.name

def Pattern.render (spelling : Spelling) : Pattern → String
  | con name vars => " ".intercalate (spelling.of name :: vars.map (Binder.render spelling))
  | lit value => toString value.toInt
  | var binder => binder.render spelling
  | wildcard => "_"

namespace Expr

mutual

def renderAt (spelling : Spelling) : Expr → Place → String
  | var _ name, _ => spelling.occurrence name
  | con _ name, _ => spelling.occurrence name
  | intLit _ value, place => parensIf (value < 0 && place ≠ .top) (toString value.toInt)
  | undefined _, _ => "undefined"
  | error _ message, place =>
    parensIf (place = .head || place = .argument) ("error " ++ Text.quoted message)
  | app _ fn arg, place =>
    let plain := fun _ : Unit =>
      parensIf (place = .argument)
        (fn.renderAt spelling .head ++ " " ++ arg.renderAt spelling .argument)
    match fn with
    | app _ (var _ op) left =>
      if Name.isOperator op && place ≠ .head then
        parensIf (place ≠ .top)
          (left.renderAt spelling .operand ++ " " ++ spelling.of op ++ " " ++
            arg.renderAt spelling .operand)
      else plain ()
    | _ => plain ()
  | typeApp _ fn ty, place =>
    parensIf (place = .argument) (fn.renderAt spelling .head ++ " @" ++ ty.renderAt .argument)
  | cond _ test thenBranch elseBranch, place =>
    parensIf (place ≠ .top)
      ("if " ++ test.renderAt spelling .top ++ " then " ++ thenBranch.renderAt spelling .top
        ++ " else " ++ elseBranch.renderAt spelling .top)
  | case _ scrutinee alts, place =>
    parensIf (place ≠ .top)
      ("case " ++ scrutinee.renderAt spelling .top ++ " of \x7b "
        ++ "; ".intercalate (renderAlts spelling alts) ++ " \x7d")
  | lam _ params body, place =>
    parensIf (place ≠ .top)
      ("\\" ++ " ".intercalate (params.map (Binder.render spelling)) ++ " -> "
        ++ body.renderAt spelling .top)
  | letRec _ binds body, place =>
    parensIf (place ≠ .top)
      ("let \x7b " ++ "; ".intercalate (renderBinds spelling binds) ++ " \x7d in "
        ++ body.renderAt spelling .top)

def renderAlts (spelling : Spelling) : Alts → List String
  | [] => []
  | (pattern, rhs) :: rest =>
    (pattern.render spelling ++ " -> " ++ rhs.renderAt spelling .top) :: renderAlts spelling rest

def renderBinds (spelling : Spelling) : Binds → List String
  | [] => []
  | (binder, rhs) :: rest =>
    (binder.render spelling ++ " = " ++ rhs.renderAt spelling .top) :: renderBinds spelling rest

end

def render (spelling : Spelling) (e : Expr) : String := e.renderAt spelling .top

end Expr

end StructRec
