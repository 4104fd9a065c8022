import StructRec.Ty

/-!
# StructRec — printed types

Application binds tighter than the arrow, and the arrow associates to the right. Type names are
printed as they are, whatever the spelling of other names.
-/

namespace StructRec

/-- The place a printed phrase stands in. -/
inductive Place where
  /-- Nothing around it can be misread. -/
  | top
  /-- Beside an infix operator or left of an arrow. -/
  | operand
  /-- The applied part of an application. -/
  | head
  /-- An argument of an application. -/
  | argument
deriving DecidableEq

/-- Put a phrase in parentheses where its place asks for them. -/
def parensIf (needed : Bool) (text : String) : String :=
  if needed then "(" ++ text ++ ")" else text

namespace Ty

def renderAt : Ty → Place → String
  | var name, _ => name
  | con name, _ => name
  | app fn arg, place =>
    parensIf (place = .argument) (fn.renderAt .head ++ " " ++ arg.renderAt .argument)
  | func dom cod, place =>
    parensIf (place ≠ .top) (dom.renderAt .operand ++ " -> " ++ cod.renderAt .top)

def render (t : Ty) : String := t.renderAt .top

end Ty

end StructRec
