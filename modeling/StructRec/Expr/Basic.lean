import StructRec.Span
import StructRec.Ty

/-!
# StructRec — expressions

Expressions are curried: `f x y` is two applications. A visible type application `f @a` is a node of
its own, so that the type arguments of polymorphic functions are passed on explicitly. Patterns are
flat: a constructor pattern binds variables only. `let` is recursive, its binders scope over all
right-hand sides and the body. Every node carries a `Note`, its span and its type as far as known.

`Expr.spine` reads an application as a head and mixed type and value arguments, `Expr.applyArgs`
builds such applications.
-/

namespace StructRec

/-- A variable where it is bound, with its annotated type. -/
structure Binder where
  name : Name
  ty : Option Ty := none
  span : Span := Span.generated
deriving DecidableEq

inductive Pattern where
  | con (name : Name) (vars : List Binder)
  | lit (value : Int64)
  | var (binder : Binder)
  | wildcard
deriving DecidableEq

/-- What is known of a node: the text it came from and its type. -/
structure Note where
  span : Span := Span.generated
  ty : Option Ty := none
deriving DecidableEq

inductive Expr where
  | var (note : Note) (name : Name)
  | con (note : Note) (name : Name)
  | app (note : Note) (fn arg : Expr)
  | typeApp (note : Note) (fn : Expr) (arg : Ty)
  | cond (note : Note) (test thenBranch elseBranch : Expr)
  | case (note : Note) (scrutinee : Expr) (alts : List (Pattern × Expr))
  | lam (note : Note) (params : List Binder) (body : Expr)
  | letRec (note : Note) (binds : List (Binder × Expr)) (body : Expr)
  | intLit (note : Note) (value : Int64)
  | undefined (note : Note)
  | error (note : Note) (message : String)

/-- An argument of an application. -/
inductive Arg where
  | type (ty : Ty)
  | value (expr : Expr)

/-- The alternatives of a case: a pattern and what to do where it matches. -/
abbrev Alts := List (Pattern × Expr)

/-- The bindings of a `let`. -/
abbrev Binds := List (Binder × Expr)

/-- The expression an argument passes, if it is a value. -/
def Arg.value? : Arg → Option Expr
  | type _ => none
  | value expr => some expr

/-- The variables a pattern binds. -/
def Pattern.binders : Pattern → List Binder
  | con _ vars => vars
  | var binder => [binder]
  | lit _ | wildcard => []

/-- Put other variables in the place of the bound ones, in order. -/
def Pattern.withBinders : Pattern → List Binder → Pattern
  | con name _, binders => con name binders
  | var _, binder :: _ => var binder
  | pattern, _ => pattern

/-- The names of some binders. -/
def binderNames (binders : List Binder) : List Name := binders.map Binder.name

def Pattern.names (pattern : Pattern) : List Name := binderNames pattern.binders

/-- The binders of a `let`. -/
def Binds.binders (binds : Binds) : List Binder := binds.map Prod.fst

/-- The right-hand sides of a `let`. -/
def Binds.rhss (binds : Binds) : List Expr := binds.map Prod.snd

def Binds.names (binds : Binds) : List Name := binderNames binds.binders

/-- The occurrence of a variable that its binder describes. -/
def Binder.toExpr (b : Binder) : Expr := .var { span := b.span, ty := b.ty } b.name

namespace Expr

def note : Expr → Note
  | var note _ | con note _ | app note _ _ | typeApp note _ _ | cond note _ _ _ | case note _ _
  | lam note _ _ | letRec note _ _ | intLit note _ | undefined note | error note _ => note

def withNote (note : Note) : Expr → Expr
  | var _ name => var note name
  | con _ name => con note name
  | app _ fn arg => app note fn arg
  | typeApp _ fn arg => typeApp note fn arg
  | cond _ test thenBranch elseBranch => cond note test thenBranch elseBranch
  | case _ scrutinee alts => case note scrutinee alts
  | lam _ params body => lam note params body
  | letRec _ binds body => letRec note binds body
  | intLit _ value => intLit note value
  | undefined _ => undefined note
  | error _ message => error note message

def span (e : Expr) : Span := e.note.span

def ty (e : Expr) : Option Ty := e.note.ty

def withSpan (span : Span) (e : Expr) : Expr := e.withNote { e.note with span }

def withTy (ty : Option Ty) (e : Expr) : Expr := e.withNote { e.note with ty }

/-- Apply to one value; the result covers both texts. -/
def applyValue (fn arg : Expr) : Expr := app { span := fn.span.merge arg.span } fn arg

/-- Apply to one type; the result keeps the text of what is applied. -/
def applyType (fn : Expr) (ty : Ty) : Expr := typeApp { span := fn.span } fn ty

/-- Apply to values in order. -/
def apply (fn : Expr) (args : List Expr) : Expr := args.foldl applyValue fn

/-- Apply to types in order. -/
def applyTypes (fn : Expr) (types : List Ty) : Expr := types.foldl applyType fn

def applyArg (fn : Expr) : Arg → Expr
  | .type ty => fn.applyType ty
  | .value arg => fn.applyValue arg

/-- Apply to types and values in order. -/
def applyArgs (fn : Expr) (args : List Arg) : Expr := args.foldl applyArg fn

/-- A function of these parameters; with none it is the body itself. -/
def lambda (params : List Binder) (body : Expr) : Expr :=
  if params.isEmpty then body else lam { span := body.span } params body

/-- The name of a variable occurrence. -/
def asVar? : Expr → Option Name
  | var _ name => some name
  | _ => none

def spineOnto : Expr → List Arg → Expr × List Arg
  | app _ fn arg, args => fn.spineOnto (.value arg :: args)
  | typeApp _ fn ty, args => fn.spineOnto (.type ty :: args)
  | head, args => (head, args)

/-- The head of an application and its arguments in order. -/
def spine (e : Expr) : Expr × List Arg := e.spineOnto []

/-- The head of an application and its value arguments in order. -/
def valueSpine (e : Expr) : Expr × List Expr := (e.spine.1, e.spine.2.filterMap Arg.value?)

mutual

/-- The number of nodes. -/
def size : Expr → Nat
  | var _ _ | con _ _ | intLit _ _ | undefined _ | error _ _ => 1
  | app _ fn arg => fn.size + arg.size + 1
  | typeApp _ fn _ => fn.size + 1
  | cond _ test thenBranch elseBranch => test.size + thenBranch.size + elseBranch.size + 1
  | case _ scrutinee alts => scrutinee.size + sizeAlts alts + 1
  | lam _ _ body => body.size + 1
  | letRec _ binds body => sizeBinds binds + body.size + 1

def sizeAlts : Alts → Nat
  | [] => 0
  | (_, rhs) :: rest => rhs.size + sizeAlts rest

def sizeBinds : Binds → Nat
  | [] => 0
  | (_, rhs) :: rest => rhs.size + sizeBinds rest

end

end Expr

end StructRec
