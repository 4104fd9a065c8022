import StructRec.Session

/-!
# StructRec — capture-avoiding substitution

A `Subst` maps variables to expressions and type variables to types. All replacements happen at
once: an expression that was put in is not substituted into again. On the way under binders the
substitution forgets the bound names and what the scope does not use; a binder whose name is free in
a replacement that is still needed gets a fresh name.
-/

namespace StructRec

structure Subst where
  exprs : Table Expr := {}
  types : Table Ty := {}

namespace Subst

/-- `[name := expr]` -/
def single (name : Name) (expr : Expr) : Subst := { exprs := Table.ofList [(name, expr)] }

/-- `[name := ty]` for a type variable. -/
def singleType (name : Name) (ty : Ty) : Subst := { types := Table.ofList [(name, ty)] }

/-- `[old := new]` for each pair. -/
def ofRenames (pairs : List (Name × Name)) : Subst :=
  { exprs := Table.ofList (pairs.map fun (old, new) => (old, .var {} new)) }

def ofTypes (types : Table Ty) : Subst := { types }

def insert (s : Subst) (name : Name) (expr : Expr) : Subst :=
  { s with exprs := s.exprs.insert name expr }

def insertType (s : Subst) (name : Name) (ty : Ty) : Subst :=
  { s with types := s.types.insert name ty }

def isEmpty (s : Subst) : Bool := s.exprs.isEmpty && s.types.isEmpty

def applyTy (s : Subst) (ty : Ty) : Ty := ty.subst s.types

def applyNote (s : Subst) (note : Note) : Note := { note with ty := note.ty.map s.applyTy }

/-- Only the replacements of variables that occur free in one of the expressions. -/
def restrictTo (s : Subst) (scope : List Expr) : Subst :=
  { s with exprs := s.exprs.filterKeys fun name => scope.any (·.occursFree name) }

/-- Without the replacements of these names. -/
def without (s : Subst) (names : List Name) : Subst :=
  { s with exprs := s.exprs.filterKeys (· ∉ names) }

/-- The free variables of the replacements. -/
def replacementVars (s : Subst) : List Name := Expr.freeVarsOfAll s.exprs.values

/-- A binder in the scope of a substitution, under a new name if the old one is captured. -/
def enterBinder (captured : List Name) (s : Subst) (b : Binder) : Naming (Subst × Binder) := do
  let b := { b with ty := b.ty.map s.applyTy }
  if b.name ∈ captured then
    let b' := { b with name := ← freshName b.name }
    return (s.insert b.name b'.toExpr, b')
  else
    return (s, b)

def enterBinders (captured : List Name) (s : Subst) : List Binder → Naming (Subst × List Binder)
  | [] => return (s, [])
  | b :: rest => do
    let (s, b) ← enterBinder captured s b
    let (s, rest) ← enterBinders captured s rest
    return (s, b :: rest)

/-- The substitution for the scope of some binders, and the binders themselves. -/
def enter (s : Subst) (binders : List Binder) (scope : List Expr) : Naming (Subst × List Binder) :=
  let inner := (s.without (binderNames binders)).restrictTo scope
  enterBinders inner.replacementVars inner binders

mutual

/-- Substitute everywhere, whether something is to replace or not. -/
def onExpr (s : Subst) : Expr → Naming Expr
  | .var note name =>
    return match s.exprs.get? name with
      | some replacement => replacement
      | none => .var (s.applyNote note) name
  | .con note name => return .con (s.applyNote note) name
  | .intLit note value => return .intLit (s.applyNote note) value
  | .undefined note => return .undefined (s.applyNote note)
  | .error note message => return .error (s.applyNote note) message
  | .app note fn arg => do
    let fn ← s.onExpr fn
    let arg ← s.onExpr arg
    return .app (s.applyNote note) fn arg
  | .typeApp note fn ty => do
    let fn ← s.onExpr fn
    return .typeApp (s.applyNote note) fn (s.applyTy ty)
  | .cond note test thenBranch elseBranch => do
    let test ← s.onExpr test
    let thenBranch ← s.onExpr thenBranch
    let elseBranch ← s.onExpr elseBranch
    return .cond (s.applyNote note) test thenBranch elseBranch
  | .case note scrutinee alts => do
    let scrutinee ← s.onExpr scrutinee
    let alts ← s.onAlts alts
    return .case (s.applyNote note) scrutinee alts
  | .lam note params body => do
    let (inner, params) ← s.enter params [body]
    let body ← inner.onExpr body
    return .lam (s.applyNote note) params body
  | .letRec note binds body => do
    let (inner, binders) ← s.enter (Binds.binders binds) (Binds.rhss binds ++ [body])
    let rhss ← inner.onRhss binds
    let body ← inner.onExpr body
    return .letRec (s.applyNote note) (binders.zip rhss) body

def onAlts (s : Subst) : Alts → Naming Alts
  | [] => return []
  | (pattern, rhs) :: rest => do
    let (inner, binders) ← s.enter pattern.binders [rhs]
    let rhs ← inner.onExpr rhs
    let rest ← s.onAlts rest
    return (pattern.withBinders binders, rhs) :: rest

def onRhss (s : Subst) : Binds → Naming (List Expr)
  | [] => return []
  | (_, rhs) :: rest => do
    let rhs ← s.onExpr rhs
    let rest ← s.onRhss rest
    return rhs :: rest

end

/-- Apply a substitution. Where nothing is to replace, the expression stays as it is. -/
def apply (s : Subst) (e : Expr) : Naming Expr :=
  let relevant := s.restrictTo [e]
  let touchesTypes := s.types.keys.any (· ∈ e.freeTypeVars)
  if relevant.exprs.isEmpty && !touchesTypes then return e else relevant.onExpr e

/-- Apply a substitution to several expressions in order. -/
def applyAll (s : Subst) : List Expr → Naming (List Expr)
  | [] => return []
  | e :: rest => do
    let e ← s.apply e
    let rest ← s.applyAll rest
    return e :: rest

/-- The substitution that does the work of `s` and then of `t`. -/
def compose (s t : Subst) : Naming Subst := do
  let replacements ← t.applyAll s.exprs.values
  return { exprs := (s.exprs.withValues replacements).union t.exprs
           types := (s.types.mapValues t.applyTy).union t.types }

end Subst

end StructRec
