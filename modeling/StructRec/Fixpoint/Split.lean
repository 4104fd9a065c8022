import StructRec.Inline
import StructRec.Scope
import StructRec.Sentence

/-!
# StructRec — splitting recursive functions

Every outermost `case` on the decreasing parameter of a recursive function is lifted into a helper,
whose parameters are the variables that the `case` uses from the scopes around it. What remains is
the main function, which calls its helpers. A function without such a `case` becomes a helper as a
whole.

The helpers of a group still call the main functions. Inlining the main functions into the helpers
makes the helpers recurse on each other directly, and leaves main functions that are not recursive.
-/

namespace StructRec

namespace Split

/-- A helper and the position of its decreasing parameter. -/
structure Helper where
  decl : FuncDecl
  decreasing : Nat

/-- The variables that an expression uses from the scopes around it, in binding order, with their
types. -/
def captured (scope : ScopeStack (Option Ty)) (e : Expr) : List (Name × Option Ty) :=
  let used := e.freeVars
  scope.visible.filter (·.1 ∈ used)

/-- Make and register the helper of a function for a part of its body. The result includes the
expression that calls the helper in the place of that part. -/
def makeHelper (d : FuncDecl) (param : Name) (returnTy : Option Ty) (vars : List (Name × Option Ty))
    (body : Expr) : Naming (Helper × Expr) := do
  let name ← freshName (d.name.root ++ "_helper")
  let params := vars.map fun (x, ty) => { name := x, ty, span := body.span : Binder }
  let helper : FuncDecl :=
    { name, span := d.span, typeParams := d.typeParams, params, returnTy, rhs := body }
  let position := helper.paramNames.idxOf param
  Session.modifyEnv fun env =>
    let entry := { FuncEntry.ofDecl helper with
      needsFreeArgs := env.needsFreeArgs d.name, isPartial := env.isPartial d.name }
    (env.addFunc entry).setDecreasing name { index := position, name := param }
  let call := ((Expr.var {} name).applyTypes (d.typeParams.map TypeParam.toTy)).apply
    (params.map Binder.toExpr)
  return ({ decl := helper, decreasing := position }, call.withNote body.note)

/-- Whether a `case` on this expression is one on the decreasing parameter. -/
def isDecreasingCase (param : Name) (scope : ScopeStack (Option Ty)) (scrutinee : Expr) : Bool :=
  scrutinee.asVar? = some param && scope.refersToBottom param

/-- Under binders. -/
def enter (scope : ScopeStack (Option Ty)) (binders : List Binder) : ScopeStack (Option Ty) :=
  scope.enter (binders.map fun b => (b.name, b.ty))

mutual

/-- Lift the outermost cases on the decreasing parameter out of an expression. The return type is
that of a helper for the whole expression, where it is known better than from the expression. -/
def extract (d : FuncDecl) (param : Name) (scope : ScopeStack (Option Ty))
    (returnTy : Option (Option Ty)) : Expr → Naming (List Helper × Expr)
  | .case note scrutinee alts =>
    if isDecreasingCase param scope scrutinee then do
      let whole := Expr.case note scrutinee alts
      let (helper, call) ← makeHelper d param (returnTy.getD note.ty) (captured scope whole) whole
      return ([helper], call)
    else do
      let (helpers, scrutinee) ← extract d param scope none scrutinee
      let (helpers', alts) ← extractAlts d param scope alts
      return (helpers ++ helpers', .case note scrutinee alts)
  | .app note fn arg => do
    let (helpers, fn) ← extract d param scope none fn
    let (helpers', arg) ← extract d param scope none arg
    return (helpers ++ helpers', .app note fn arg)
  | .typeApp note fn ty => do
    let (helpers, fn) ← extract d param scope none fn
    return (helpers, .typeApp note fn ty)
  | .cond note test thenBranch elseBranch => do
    let (helpers, test) ← extract d param scope none test
    let (helpers', thenBranch) ← extract d param scope none thenBranch
    let (helpers'', elseBranch) ← extract d param scope none elseBranch
    return (helpers ++ helpers' ++ helpers'', .cond note test thenBranch elseBranch)
  | .lam note params body => do
    let (helpers, body) ← extract d param (enter scope params) none body
    return (helpers, .lam note params body)
  | .letRec note binds body => do
    let inner := enter scope (Binds.binders binds)
    let (helpers, binds) ← extractBinds d param inner binds
    let (helpers', body) ← extract d param inner none body
    return (helpers ++ helpers', .letRec note binds body)
  | e => return ([], e)

def extractAlts (d : FuncDecl) (param : Name) (scope : ScopeStack (Option Ty)) :
    Alts → Naming (List Helper × Alts)
  | [] => return ([], [])
  | (pattern, rhs) :: rest => do
    let (helpers, rhs) ← extract d param (enter scope pattern.binders) none rhs
    let (helpers', rest) ← extractAlts d param scope rest
    return (helpers ++ helpers', (pattern, rhs) :: rest)

def extractBinds (d : FuncDecl) (param : Name) (scope : ScopeStack (Option Ty)) :
    Binds → Naming (List Helper × Binds)
  | [] => return ([], [])
  | (binder, rhs) :: rest => do
    let (helpers, rhs) ← extract d param scope none rhs
    let (helpers', rest) ← extractBinds d param scope rest
    return (helpers ++ helpers', (binder, rhs) :: rest)

end

/-- The parameters of a function as the bottom scope. -/
def paramScope (d : FuncDecl) : ScopeStack (Option Ty) :=
  ScopeStack.bindAll {} (d.params.map fun b => (b.name, b.ty))

/-- Split a function at the cases on one of its parameters, or as a whole if there are none. -/
def splitAt (d : FuncDecl) (param : Name) : Naming (List Helper × FuncDecl) := do
  let (helpers, rhs) ← extract d param (paramScope d) (some d.returnTy) d.rhs
  if helpers.isEmpty then
    let vars := d.params.map fun b => (b.name, b.ty)
    let (helper, call) ← makeHelper d param d.returnTy vars d.rhs
    return ([helper], { d with rhs := call })
  else
    return (helpers, { d with rhs })

end Split

/-- Split a recursive function on the parameter at a position into helpers, which are registered,
and a main function. The helpers still call the function by its name. -/
def FuncDecl.split (d : FuncDecl) (position : Nat) : Compile (List Split.Helper × FuncDecl) := do
  match d.params[position]? with
  | none => throw (.bug (.decreasingOutOfRange d.name position))
  | some param =>
    let (helpers, main) ← Split.splitAt d param.name
    if helpers.any fun h => h.decl.arity ≤ h.decreasing
      then throw (.bug (.decreasingNotCaptured d.name))
    return (helpers, main)

namespace Split

/-- Split functions in order. The result lists the helpers of all functions, then the main
functions. -/
def splitAll : List (FuncDecl × Nat) → Compile (List Helper × List FuncDecl)
  | [] => return ([], [])
  | (d, position) :: rest => do
    let (helpers, main) ← d.split position
    let (helpers', mains) ← splitAll rest
    return (helpers ++ helpers', main :: mains)

/-- The fixpoint body of a helper whose calls have been inlined. It decreases on the parameter at
the registered position; inlining may have renamed the parameters. -/
def toBody (helper : FuncDecl) : Compile FixpointBody := do
  let registered ← Compile.expect (.decreasingUnregistered helper.name)
    ((← Session.getEnv).decreasing.get? helper.name)
  let param ← Compile.expect (.decreasingOutOfRange helper.name registered.index)
    helper.params[registered.index]?
  return { decl := helper, decreasing := { index := registered.index, name := param.name } }

/-- Turn a group with known decreasing positions into a fixpoint of its helpers and a definition for
every main function. -/
def toSentences (decls : List FuncDecl) (positions : List Nat) : Compile (List Sentence) := do
  let (helpers, mains) ← splitAll (decls.zip positions)
  let inlined ← Compile.isolated (helpers.mapM fun h => inlineDecl mains h.decl)
  let bodies ← inlined.mapM toBody
  bodies.forM fun body => Session.modifyEnv (·.setDecreasing body.decl.name body.decreasing)
  mains.forM fun main => Session.modifyEnv (·.eraseDecreasing main.name)
  return .fixpoint bodies :: mains.map .definition

end Split

end StructRec
