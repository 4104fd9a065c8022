import StructRec.Expr.FreeVars

/-!
# StructRec — declarations and modules

Data types, type synonyms, functions and the pragmas that name a function's decreasing parameter.
Every declaration knows the names it refers to (`TypeDecl.references`, `FuncDecl.references`); the
markers `undefined` and `error` count as references under their own names.
-/

namespace StructRec

/-- A type parameter of a declaration. -/
structure TypeParam where
  name : Name
  span : Span := Span.generated
deriving DecidableEq

def TypeParam.toTy (p : TypeParam) : Ty := .var p.name

/-- A data constructor with the types of its fields. -/
structure Constructor where
  name : Name
  fields : List Ty
  span : Span := Span.generated
deriving DecidableEq

structure DataDecl where
  name : Name
  typeParams : List TypeParam
  constructors : List Constructor
  span : Span := Span.generated
deriving DecidableEq

structure SynonymDecl where
  name : Name
  typeParams : List TypeParam
  rhs : Ty
  span : Span := Span.generated
deriving DecidableEq

inductive TypeDecl where
  | data (decl : DataDecl)
  | synonym (decl : SynonymDecl)
deriving DecidableEq

namespace TypeDecl

def name : TypeDecl → Name
  | data decl => decl.name
  | synonym decl => decl.name

def span : TypeDecl → Span
  | data decl => decl.span
  | synonym decl => decl.span

/-- The type constructors that the declaration mentions, in order of first occurrence. -/
def references : TypeDecl → List Name
  | data decl => (decl.constructors.flatMap fun c => c.fields.flatMap Ty.conOccs).eraseDups
  | synonym decl => decl.rhs.cons

end TypeDecl

structure FuncDecl where
  name : Name
  span : Span := Span.generated
  typeParams : List TypeParam := []
  params : List Binder
  returnTy : Option Ty := none
  rhs : Expr

namespace FuncDecl

def arity (d : FuncDecl) : Nat := d.params.length

def paramNames (d : FuncDecl) : List Name := binderNames d.params

def typeParamNames (d : FuncDecl) : List Name := d.typeParams.map TypeParam.name

/-- The types of the parameters as far as they are annotated. -/
def paramTys (d : FuncDecl) : List (Option Ty) := d.params.map Binder.ty

/-- The free variables of the right-hand side that are not parameters, then the markers it uses. The
function's own name stays, so direct recursion shows. -/
def references (d : FuncDecl) : List Name :=
  (d.rhs.freeVars.filter (· ∉ d.paramNames) ++ d.rhs.markers).eraseDups

end FuncDecl

/-- How a pragma points at a parameter. -/
inductive ParamRef where
  | index (index : Nat)
  | name (name : Name)
deriving DecidableEq

/-- A function's decreasing parameter as its author states it. -/
structure Pragma where
  function : Name
  param : ParamRef
  span : Span := Span.generated
deriving DecidableEq

/-- A source module. -/
structure Module where
  name : Name
  typeDecls : List TypeDecl := []
  funcDecls : List FuncDecl := []
  pragmas : List Pragma := []

/-- The parameter a recursive function decreases on, by position and by name. -/
structure DecreasingParam where
  index : Nat
  name : Name
deriving DecidableEq

end StructRec
