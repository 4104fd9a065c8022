import StructRec.Call.Decreasing
import StructRec.Fixpoint.Split

/-!
# StructRec — hoisting constant parameters

Parameters that every call of a recursive group passes on unchanged become variables of a section.
Inside it stands the group without them, under fresh names, made structurally recursive; after it
one definition per function passes the parameters to the inner function. Type parameters that occur
in the types of the section's variables become type variables of the section.
-/

namespace StructRec

namespace Hoist

/-- Drop the elements at the given positions. -/
def dropAt {α : Type} (positions : List Nat) (xs : List α) : List α :=
  (xs.zipIdx.filter fun (_, i) => i ∉ positions).map Prod.fst

/-- The section around a group: what it shares, and how calls inside it change. -/
structure Plan where
  /-- The constant positions, ascending. -/
  positions : List Nat
  vars : List Binder
  typeVars : List Name
  /-- The inner function of every function of the group. -/
  innerNames : Table Name
  /-- For every function, the positions of its type parameters that the section takes over. -/
  hoistedTypes : Table (List Nat)

/-- The first annotation of the parameter at a position. The functions up to the one that gives it
must have such a parameter; those after it are not looked at. -/
def annotationAt? (position : Nat) : List FuncDecl → Option (Option Ty)
  | [] => some none
  | d :: rest =>
    match d.params[position]? with
    | none => none
    | some { ty := some ty, .. } => some (some ty)
    | some { ty := none, .. } => annotationAt? position rest

/-- The constant parameters, as the first function names them. Each takes its type from the first
function that annotates it. -/
def sectionVariables? (decls : List FuncDecl) (positions : List Nat) : Option (List Binder) :=
  positions.mapM fun p => do
    let first ← decls.head?
    let b ← first.params[p]?
    let ty ← annotationAt? p decls
    return { b with ty }

def typeVarsOf (vars : List Binder) : List Name :=
  (vars.flatMap fun b => Expr.annotationOccs b.ty).eraseDups

/-- The type parameters that the section does not take over. -/
def keptTypeParams (typeVars : List Name) (d : FuncDecl) : List TypeParam :=
  d.typeParams.filter (·.name ∉ typeVars)

/-- The positions of the type parameters that the section takes over. -/
def hoistedTypePositions (typeVars : List Name) (d : FuncDecl) : List Nat :=
  (d.typeParams.zipIdx.filter fun (p, _) => p.name ∈ typeVars).map Prod.snd

namespace Plan

/-- The inner function that a reference stands for, unless a local binder hides the name. -/
def inner? (plan : Plan) (bound : List Name) (name : Name) : Option Name :=
  if name ∈ bound then none else plan.innerNames.get? name

/-- The arguments of a call that the inner function still takes, from counts of types and values
on. -/
def keptArgs (hoistedTypes positions : List Nat) : Nat → Nat → List Arg → List Arg
  | _, _, [] => []
  | types, values, .type ty :: rest =>
    let rest := keptArgs hoistedTypes positions (types + 1) values rest
    if types ∈ hoistedTypes then rest else .type ty :: rest
  | types, values, .value e :: rest =>
    let rest := keptArgs hoistedTypes positions types (values + 1) rest
    if values ∈ positions then rest else .value e :: rest

/-- A call of a function of the group as a call of its inner function. -/
def innerCall (plan : Plan) (callee inner : Name) (span : Span) (args : List Arg) : Expr :=
  let hoisted := (plan.hoistedTypes.get? callee).getD []
  (Expr.var { span } inner).applyArgs (keptArgs hoisted plan.positions 0 0 args)

/-- Put an application back together, each step under its note. -/
def reapply (head : Expr) (args : List (Note × Arg)) : Expr :=
  args.foldl (fun fn (note, arg) =>
    match arg with
    | .type ty => .typeApp note fn ty
    | .value e => .app note fn e) head

mutual

/-- Redirect the calls in an expression that is applied to redirected arguments, each with the note
of its application. The names bound around it are given. -/
def redirectOnto (plan : Plan) (bound : List Name) : Expr → List (Note × Arg) → Expr
  | .var note name, args =>
    match plan.inner? bound name with
    | some inner =>
      let outermost := (args.getLast?.map Prod.fst).getD note
      (plan.innerCall name inner note.span (args.map Prod.snd)).withTy outermost.ty
    | none => reapply (.var note name) args
  | .app note fn arg, args =>
    plan.redirectOnto bound fn ((note, .value (plan.redirectOnto bound arg [])) :: args)
  | .typeApp note fn ty, args => plan.redirectOnto bound fn ((note, .type ty) :: args)
  | .cond note test thenBranch elseBranch, args =>
    reapply (.cond note (plan.redirectOnto bound test []) (plan.redirectOnto bound thenBranch [])
      (plan.redirectOnto bound elseBranch [])) args
  | .case note scrutinee alts, args =>
    reapply (.case note (plan.redirectOnto bound scrutinee []) (plan.redirectAlts bound alts)) args
  | .lam note params body, args =>
    reapply (.lam note params (plan.redirectOnto (binderNames params ++ bound) body [])) args
  | .letRec note binds body, args =>
    let bound := Binds.names binds ++ bound
    reapply (.letRec note (plan.redirectBinds bound binds) (plan.redirectOnto bound body [])) args
  | e, args => reapply e args

def redirectAlts (plan : Plan) (bound : List Name) : Alts → Alts
  | [] => []
  | (pattern, rhs) :: rest =>
    (pattern, plan.redirectOnto (pattern.names ++ bound) rhs []) :: plan.redirectAlts bound rest

def redirectBinds (plan : Plan) (bound : List Name) : Binds → Binds
  | [] => []
  | (binder, rhs) :: rest =>
      (binder, plan.redirectOnto bound rhs []) :: plan.redirectBinds bound rest

end

/-- The inner function of a function: without what the section shares. -/
def reduce (plan : Plan) (d : FuncDecl) : FuncDecl :=
  { d with
    name := (plan.innerNames.get? d.name).getD d.name
    typeParams := keptTypeParams plan.typeVars d
    params := dropAt plan.positions d.params
    rhs := plan.redirectOnto d.paramNames d.rhs [] }

/-- The definition that passes the parameters of a function to its inner function: first those of
the section, then the remaining ones. The function must have a parameter at every position of the
section. -/
def wrapper? (plan : Plan) (d : FuncDecl) : Option FuncDecl := do
  let shared ← plan.positions.mapM fun p => d.params[p]?
  let inner := (plan.innerNames.get? d.name).getD d.name
  let args := plan.typeVars.map (Arg.type <| .var ·)
    ++ shared.map (.value ·.toExpr)
    ++ (keptTypeParams plan.typeVars d).map (.type ·.toTy)
    ++ (dropAt plan.positions d.params).map (.value ·.toExpr)
  return { d with rhs := ((Expr.var {} inner).applyArgs args).withSpan d.rhs.span }

end Plan

/-- Fresh names for the inner functions, in order. -/
def freshInnerNames : List FuncDecl → Naming (List (Name × Name))
  | [] => return []
  | d :: rest => do
    let inner ← freshName d.name
    return (d.name, inner) :: (← freshInnerNames rest)

/-- The pragma of a function as one for its inner function. -/
def innerPragma (env : Environment) (positions : List Nat) (d : FuncDecl) :
    Except Diagnostic (Option PragmaEntry) :=
  match env.pragmas.get? d.name with
  | none => .ok none
  | some { param, span } =>
    let position := match param with
      | .index i => some i
      | .name x => d.paramPosition? x
    match position.bind fun i => (d.params[i]?).map (i, ·) with
    | none => .error (.ofCauseAt span (.unresolvedParameter d.name param))
    | some (i, b) =>
      if i ∈ positions then .error (.ofCauseAt span (.constantParameter d.name b.name))
      else .ok (some { param := .index (i - (positions.filter (· < i)).length), span })

/-- Register the inner function of a function, with its pragma. -/
def registerInner (positions : List Nat) (d inner : FuncDecl) : Compile Unit := do
  Session.modifyEnv fun env =>
    env.addFunc { FuncEntry.ofDecl inner with
      needsFreeArgs := env.needsFreeArgs d.name, isPartial := env.isPartial d.name }
  match innerPragma (← Session.getEnv) positions d with
  | .error diagnostic => throw (.error diagnostic)
  | .ok none => return
  | .ok (some pragma) => Session.modifyEnv (·.addPragma inner.name pragma)

/-- Outside of the section a function takes the section's type variables and variables too. -/
def closeOver (typeVars : List Name) (vars : List Binder) (function : Name) (env : Environment) :
    Environment :=
  let env := env.updateFunc function fun entry =>
    { entry with typeParams := typeVars ++ entry.typeParams
                 paramTys := vars.map Binder.ty ++ entry.paramTys }
  match env.decreasing.get? function with
  | some param => env.setDecreasing function { param with index := param.index + vars.length }
  | none => env

/-- Register the variables of a section. The result lists what stood under their names before. -/
def openSection : List Binder → Naming (List (Name × Option ValueEntry))
  | [] => return []
  | b :: rest => do
    let previous := (← Session.getEnv).values.get? b.name
    Session.modifyEnv (·.addValue (.var { name := b.name, span := b.span, ty := b.ty }))
    return (b.name, previous) :: (← openSection rest)

/-- Turn a group into a section over the parameters at the given positions, and definitions that
pass those parameters to the functions of the section. That a function lacks one of the parameters
shows where the parameter is needed: for the section's variables, or at the end for the definition
of the function. -/
def toSentences (decls : List FuncDecl) (positions : List Nat) : Compile (List Sentence) := do
  let outOfRange := Bug.sharedOutOfRange positions
  let vars ← Compile.expect outOfRange (sectionVariables? decls positions)
  let typeVars := typeVarsOf vars
  let innerNames ← freshInnerNames decls
  let first ← Compile.expect outOfRange decls.head?
  let sectionName ← freshName (first.name.root ++ "_section")
  let plan : Plan :=
    { positions, vars, typeVars, innerNames := Table.ofList innerNames
      hoistedTypes := Table.ofList (decls.map fun d => (d.name, hoistedTypePositions typeVars d)) }
  let reduced := decls.map plan.reduce
  let previous ← openSection vars
  (decls.zip reduced).forM fun (d, inner) => registerInner positions d inner
  let chosen ← match Decreasing.choose (← Session.getEnv) reduced with
    | .ok chosen => pure chosen
    | .error diagnostic => throw (.error diagnostic)
  let sentences ← Split.toSentences reduced chosen
  previous.forM fun (name, entry) => Session.modifyEnv (·.unshadow name entry)
  (Sentence.funcDeclsOfAll sentences).forM fun d =>
    Session.modifyEnv (closeOver typeVars vars d.name)
  let wrappers ← Compile.expect outOfRange (decls.mapM plan.wrapper?)
  return .shared sectionName (typeVars.map ({ name := · })) vars sentences ::
    wrappers.map .definition

end Hoist

end StructRec
