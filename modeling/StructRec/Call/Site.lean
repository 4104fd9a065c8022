import StructRec.Decl
import StructRec.Scope

/-!
# StructRec — calls inside a recursive group

For every call from one function of a group to another we record what each value argument is known
to be: a parameter of the caller, or a strict part of one. A variable is a strict part of a
parameter if a constructor pattern bound it in a `case` on that parameter, or on a part of it.
-/

namespace StructRec

/-- What a local variable is known to be, relative to the parameters of the function around it. -/
inductive Origin where
  | unknown
  /-- It has the value of the parameter at this position. -/
  | equal (param : Nat)
  /-- It is a strict part of the value of the parameter at this position. -/
  | smaller (param : Nat)
deriving DecidableEq

/-- What the fields of a value are known to be. -/
def Origin.field : Origin → Origin
  | unknown => unknown
  | equal param | smaller param => smaller param

/-- The parameter that a value is a strict part of. -/
def Origin.smaller? : Origin → Option Nat
  | smaller param => some param
  | _ => none

/-- What is known of a value argument of a call. -/
structure CallArg where
  /-- The parameter of the caller that it is a strict part of. -/
  smallerThan : Option Nat
  /-- The parameter of the caller that it is, by an occurrence that no local binder hides. -/
  param : Option Nat
deriving DecidableEq

/-- A call from one function of a group to another; a bare reference is a call without arguments. -/
structure CallSite where
  caller : Name
  callee : Name
  args : List CallArg
deriving DecidableEq

namespace CallSite

/-- Whether the argument at a position is a strict part of a parameter of the caller. -/
def decreases (c : CallSite) (position param : Nat) : Bool :=
  c.args[position]?.any (·.smallerThan = some param)

/-- Whether the argument at a position is the caller's own parameter at this position. -/
def passesUnchanged (c : CallSite) (position : Nat) : Bool :=
  c.args[position]?.any (·.param = some position)

end CallSite

/-- Variables in scope and what they are known to be. -/
abbrev Origins := ScopeStack Origin

namespace Origins

/-- The parameters of a function; of two with one name the later counts. -/
def ofParams (params : List Binder) : Origins :=
  ScopeStack.bindAll {} (params.zipIdx.map fun (b, i) => (b.name, .equal i))

/-- What an expression is known to be. -/
def of (origins : Origins) (e : Expr) : Origin :=
  match e with
  | .var _ name => (origins.lookup name).getD .unknown
  | _ => .unknown

/-- Under a pattern, given what the scrutinee is known to be. -/
def enterPattern (origins : Origins) (scrutinee : Origin) : Pattern → Origins
  | .con _ vars => origins.enter (vars.map fun b => (b.name, scrutinee.field))
  | .var b => origins.enter [(b.name, scrutinee)]
  | .lit _ | .wildcard => origins.push

/-- Under binders of which nothing is known. -/
def enterBinders (origins : Origins) (binders : List Binder) : Origins :=
  origins.enter (binders.map fun b => (b.name, .unknown))

end Origins

namespace FuncDecl

/-- The position of the first parameter with a name. -/
def paramPosition? (d : FuncDecl) (name : Name) : Option Nat := d.paramNames.idxOf? name

/-- What is known of an argument of a call in this function. -/
def callArg (d : FuncDecl) (origins : Origins) (arg : Expr) : CallArg where
  smallerThan := (origins.of arg).smaller?
  param := match arg with
    | .var _ name => if origins.refersToBottom name then d.paramPosition? name else none
    | _ => none

mutual

/-- The calls to a group in an expression that is applied to values. -/
def callsIn (d : FuncDecl) (group : List Name) (origins : Origins) :
    Expr → List Expr → List CallSite
  | .var _ name, args =>
    if name ∈ group && !origins.isDefined name then
      [{ caller := d.name, callee := name, args := args.map (d.callArg origins) }]
    else []
  | .con .., _ | .intLit .., _ | .undefined .., _ | .error .., _ => []
  | .app _ fn arg, args =>
      d.callsIn group origins fn (arg :: args) ++ d.callsIn group origins arg []
  | .typeApp _ fn _, args => d.callsIn group origins fn args
  | .cond _ test thenBranch elseBranch, _ =>
    d.callsIn group origins test [] ++ d.callsIn group origins thenBranch []
      ++ d.callsIn group origins elseBranch []
  | .case _ scrutinee alts, _ =>
    d.callsIn group origins scrutinee [] ++ d.callsInAlts group origins (origins.of scrutinee) alts
  | .lam _ params body, _ => d.callsIn group (origins.enterBinders params) body []
  | .letRec _ binds body, _ =>
    let inner := origins.enterBinders (Binds.binders binds)
    d.callsInRhss group inner binds ++ d.callsIn group inner body []

def callsInAlts (d : FuncDecl) (group : List Name) (origins : Origins) (scrutinee : Origin) :
    Alts → List CallSite
  | [] => []
  | (pattern, rhs) :: rest =>
    d.callsIn group (origins.enterPattern scrutinee pattern) rhs []
      ++ d.callsInAlts group origins scrutinee rest

def callsInRhss (d : FuncDecl) (group : List Name) (origins : Origins) : Binds → List CallSite
  | [] => []
  | (_, rhs) :: rest => d.callsIn group origins rhs [] ++ d.callsInRhss group origins rest

end

/-- The calls from a function to the functions of a group, in reading order. -/
def calls (d : FuncDecl) (group : List Name) : List CallSite :=
  d.callsIn group (Origins.ofParams d.params) d.rhs []

end FuncDecl

/-- The calls among the functions of a group. -/
def groupCalls (decls : List FuncDecl) : List CallSite :=
  decls.flatMap (·.calls (decls.map FuncDecl.name))

end StructRec
