import StructRec.Call.Site
import StructRec.Diagnostic
import StructRec.Environment.Basic

/-!
# StructRec — decreasing parameters

A choice of one parameter per function of a recursive group is valid if every call in the group
passes a strict part of the caller's chosen parameter at the callee's chosen position. A group is
accepted if exactly one choice is valid. Pragmas fix the choice for the functions they name; where
all functions have one, the pragmas are taken at their word.
-/

namespace StructRec

namespace FuncDecl

/-- The positions that decrease at every call of the function to itself. -/
def decreasingCandidates (d : FuncDecl) : List Nat :=
  let calls := d.calls [d.name]
  (List.range d.arity).filter fun k => calls.all (·.decreases k k)

/-- The only candidate, if there is exactly one. -/
def decreasingParam? (d : FuncDecl) : Option Nat :=
  match d.decreasingCandidates with
  | [k] => some k
  | _ => none

end FuncDecl

namespace Decreasing

/-- The position that a function's pragma points at. -/
def ofPragma (env : Environment) (d : FuncDecl) : Except Diagnostic (Option Nat) :=
  match env.pragmas.get? d.name with
  | none => .ok none
  | some { param := .index i, span } =>
    if i < d.arity then .ok (some i)
    else .error (.ofCauseAt span (.noSuchPosition d.name d.arity i))
  | some { param := .name x, span } =>
    match d.paramPosition? x with
    | some i => .ok (some i)
    | none => .error (.ofCauseAt span (.noSuchParameter d.name x))

/-- All ways to take one element of each list. -/
def choices : List (List Nat) → List (List Nat)
  | [] => [[]]
  | options :: rest => options.flatMap fun k => (choices rest).map (k :: ·)

/-- Whether every call passes a strict part of the caller's chosen parameter at the callee's chosen
position. -/
def isValid (names : List Name) (calls : List CallSite) (choice : List Nat) : Bool :=
  let chosen := fun name => (names.zip choice).lookup name
  calls.all fun call =>
    match chosen call.caller, chosen call.callee with
    | some h, some g => call.decreases g h
    | _, _ => true

/-- The decreasing position of every function of a group. -/
def choose (env : Environment) (decls : List FuncDecl) : Except Diagnostic (List Nat) := do
  let pragmas ← decls.mapM (ofPragma env)
  match pragmas.mapM id with
  | some fixed => return fixed
  | none =>
    let options := (decls.zip pragmas).map fun (d, pragma) =>
      match pragma with
      | some k => [k]
      | none => d.decreasingCandidates
    let names := decls.map FuncDecl.name
    match (choices options).filter (isValid names (groupCalls decls)) with
    | [choice] => return choice
    | valid =>
      let span := (decls.head?.map FuncDecl.span).getD Span.generated
      throw (.ofCauseAt span (.decreasingUndetermined names !valid.isEmpty))

end Decreasing

end StructRec
