import StructRec.Call.Site

/-!
# StructRec — constant parameters

A parameter position is constant in a recursive group if every function has a parameter of one and
the same name there, and every call in the group passes exactly that parameter on.
-/

namespace StructRec

/-- Whether all functions have a parameter of the same name at a position. -/
def shareParam (decls : List FuncDecl) (position : Nat) : Bool :=
  match decls with
  | [] => false
  | first :: _ =>
    match first.paramNames[position]? with
    | none => false
    | some name => decls.all fun d => d.paramNames[position]? = some name

/-- The constant positions of a group, ascending. -/
def constantPositions (decls : List FuncDecl) : List Nat :=
  let calls := groupCalls decls
  (List.range ((decls.map FuncDecl.arity).foldl max 0)).filter fun position =>
    shareParam decls position && calls.all (·.passesUnchanged position)

end StructRec
