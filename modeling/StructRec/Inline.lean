import StructRec.Subst

/-!
# StructRec — inlining of function declarations

Every reference to one of the given declarations is replaced by its right-hand side, unless a local
binder hides it. The parameters are renamed to fresh names first; then enclosing applications put in
their arguments one by one. Parameters still without argument where the expression is used as a
value become a lambda. Local binders that would capture a free variable of an inlined right-hand
side are renamed on the way.

A declaration is not unfolded inside its own unfolding, so unfoldings nest at most as deep as there
are declarations, and `Inline.Context.bound` bounds the depth of the whole descent.
-/

namespace StructRec

namespace Inline

/-- An inlined function that waits for arguments. -/
structure Pending where
  typeParams : List Name := []
  params : List Binder := []
  body : Expr

/-- Use as a value: the parameters that are left become a lambda, but a type argument must not be
missing. -/
def Pending.close (p : Pending) : Compile Expr :=
  match p.typeParams with
  | typeVar :: _ => Compile.fail (.missingTypeArgument typeVar)
  | [] => return Expr.lambda p.params p.body

/-- Put in a value for the first parameter, or apply if there is none. The note is that of the
application. -/
def Pending.applyValue (p : Pending) (note : Note) (arg : Expr) : Compile Pending :=
  match p.typeParams, p.params with
  | typeVar :: _, _ => Compile.fail (.valueBeforeType typeVar)
  | [], [] => return { body := .app note p.body arg }
  | [], param :: params => do
    let body ← (Subst.single param.name arg).apply p.body
    return { params, body }

/-- Put in a type for the first type parameter, or apply if there is no parameter at all. -/
def Pending.applyType (p : Pending) (note : Note) (ty : Ty) : Compile Pending :=
  match p.typeParams, p.params with
  | [], [] => return { body := .typeApp note p.body ty }
  | [], _ :: _ => Compile.fail .noTypeParameters
  | typeVar :: typeParams, params => do
    let subst := Subst.singleType typeVar ty
    let body ← subst.apply p.body
    let params := params.map fun b => { b with ty := b.ty.map subst.applyTy }
    return { typeParams, params, body }

/-- The sizes of all right-hand sides, each with the reference that it takes the place of. -/
def rhsSizes : List FuncDecl → Nat
  | [] => 0
  | d :: rest => d.rhs.size + 1 + rhsSizes rest

/-- What inlining knows on its way down. -/
structure Context where
  decls : Table FuncDecl
  /-- The free variables of the inlined right-hand sides, which no local binder may capture. -/
  globals : List Name
  /-- Names bound locally. -/
  shadowed : List Name := []
  /-- Declarations inside whose unfolding we are. -/
  active : List Name := []

namespace Context

def ofDecls (decls : List FuncDecl) : Context :=
  { decls := Table.ofList (decls.map fun d => (d.name, d))
    globals := decls.flatMap fun d => d.rhs.freeVars.filter (· ∉ d.paramNames) }

/-- Under binders, references to their names are not inlined. -/
def shadow (ctx : Context) (binders : List Binder) : Context :=
  { ctx with shadowed := binderNames binders ++ ctx.shadowed }

/-- The declaration that a reference stands for. -/
def decl? (ctx : Context) (name : Name) : Option FuncDecl :=
  if name ∈ ctx.shadowed then none else ctx.decls.get? name

/-- Rename the binders that would capture a free variable of an inlined right-hand side. The result
includes the renaming for their scope. -/
def avoidCapture (ctx : Context) (binders : List Binder) : Naming (Subst × List Binder) :=
  Subst.enterBinders ctx.globals {} binders

/-- A bound on the depth of the descent into an expression: its own size and that of all right-hand
sides. -/
def bound (ctx : Context) (e : Expr) : Nat := e.size + rhsSizes ctx.decls.values

end Context

/-- Fresh names for type parameters, and the substitution that puts them in. -/
def freshTypeParams (s : Subst) : List TypeParam → Naming (Subst × List Name)
  | [] => return (s, [])
  | p :: rest => do
    let fresh ← freshName p.name
    let (s, rest) ← freshTypeParams (s.insertType p.name (.var fresh)) rest
    return (s, fresh :: rest)

/-- A declaration with fresh parameters; its body is not inlined into yet. -/
def instantiate (d : FuncDecl) : Naming Pending := do
  let (renames, typeParams) ← freshTypeParams {} d.typeParams
  let (renames, params) ← Subst.enterBinders d.paramNames renames d.params
  let body ← renames.apply d.rhs
  return { typeParams, params, body }

/-- Inline into an expression, at most `depth` levels down. -/
def descend : Nat → Context → Expr → Compile Pending
  | 0, _, _ => throw (.bug .inliningTooDeep)
  | depth + 1, ctx, e => do
    let value := fun (ctx : Context) (e : Expr) => do (← descend depth ctx e).close
    match e with
    | .var note name =>
      match ctx.decl? name with
      | none => return { body := .var note name }
      | some d =>
        if name ∈ ctx.active then Compile.fail (.selfInlining name)
        let unfolded ← instantiate d
        let body ← value
          { ctx.shadow unfolded.params with active := name :: ctx.active } unfolded.body
        return { unfolded with body }
    | .con .. | .intLit .. | .undefined .. | .error .. => return { body := e }
    | .app note fn arg =>
      let fn ← descend depth ctx fn
      let arg ← value ctx arg
      fn.applyValue note arg
    | .typeApp note fn ty =>
      let fn ← descend depth ctx fn
      fn.applyType note ty
    | .cond note test thenBranch elseBranch =>
      let test ← value ctx test
      let thenBranch ← value ctx thenBranch
      let elseBranch ← value ctx elseBranch
      return { body := .cond note test thenBranch elseBranch }
    | .case note scrutinee alts =>
      let scrutinee ← value ctx scrutinee
      let alts ← alts.mapM fun (pattern, rhs) => do
        let (renames, binders) ← ctx.avoidCapture pattern.binders
        let rhs ← renames.apply rhs
        let rhs ← value (ctx.shadow binders) rhs
        return (pattern.withBinders binders, rhs)
      return { body := .case note scrutinee alts }
    | .lam note params body =>
      let (renames, params) ← ctx.avoidCapture params
      let body ← renames.apply body
      let body ← value (ctx.shadow params) body
      return { body := .lam note params body }
    | .letRec note binds body =>
      let (renames, binders) ← ctx.avoidCapture (Binds.binders binds)
      let rhss ← renames.applyAll (Binds.rhss binds)
      let body ← renames.apply body
      let rhss ← rhss.mapM (value (ctx.shadow binders))
      let body ← value (ctx.shadow binders) body
      return { body := .letRec note (binders.zip rhss) body }

/-- Inline into an expression that is used as a value. -/
def Context.inline (ctx : Context) (e : Expr) : Compile Expr := do
  (← descend (ctx.bound e) ctx e).close

end Inline

/-- Inline declarations into an expression. -/
def inlineExpr (decls : List FuncDecl) (e : Expr) : Compile Expr :=
  (Inline.Context.ofDecls decls).inline e

/-- Inline declarations into the right-hand side of another. -/
def inlineDecl (decls : List FuncDecl) (d : FuncDecl) : Compile FuncDecl := do
  let ctx := Inline.Context.ofDecls decls
  let (renames, params) ← ctx.avoidCapture d.params
  let rhs ← renames.apply d.rhs
  let rhs ← (ctx.shadow params).inline rhs
  return { d with params, rhs }

end StructRec
