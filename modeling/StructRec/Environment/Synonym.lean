import StructRec.Environment.Basic

/-!
# StructRec — expansion of type synonyms

A synonym applied to as many arguments as it has parameters stands for its right-hand side with the
arguments put in; an application to fewer is left alone. What comes out is expanded again, but no
synonym is unfolded inside the expansion of its own right-hand side. So an expansion nests at most
as deep as there are synonyms, also where synonyms refer to themselves.
-/

namespace StructRec

namespace SynonymEntry

/-- The right-hand side for given arguments. -/
def unfold (syn : SynonymEntry) (args : List Ty) : Ty :=
  syn.rhs.subst (Table.ofList (syn.typeParams.zip args))

end SynonymEntry

namespace Ty

/-- Expand the synonyms that may still be unfolded in a type applied to expanded arguments.
`unfolded` expands what an unfolded synonym stands for. -/
def expandOnto (available : List SynonymEntry) (unfolded : SynonymEntry → List Ty → Ty) :
    Ty → List Ty → Ty
  | var name, args => apply (var name) args
  | con name, args =>
    match available.find? (·.name = name) with
    | some syn =>
      if syn.typeParams.length ≤ args.length then
        apply (unfolded syn (args.take syn.typeParams.length)) (args.drop syn.typeParams.length)
      else apply (con name) args
    | none => apply (con name) args
  | app fn arg, args =>
    fn.expandOnto available unfolded (arg.expandOnto available unfolded [] :: args)
  | func dom cod, args =>
    apply (func (dom.expandOnto available unfolded []) (cod.expandOnto available unfolded [])) args

/-- Expand synonyms, nested at most `depth` deep. -/
def expandWithin : Nat → List SynonymEntry → Ty → Ty
  | 0, _, t => t
  | depth + 1, available, t =>
    t.expandOnto available (fun syn args =>
      expandWithin depth (available.filter (·.name ≠ syn.name)) (syn.unfold args)) []

/-- Expand synonyms. Each nested expansion has one synonym less to unfold. -/
def expand (available : List SynonymEntry) (t : Ty) : Ty :=
  t.expandWithin available.length available

end Ty

namespace Environment

/-- The registered synonyms. -/
def synonyms (env : Environment) : List SynonymEntry := env.types.entries.filterMap fun
  | (_, .synonym entry) => some entry
  | _ => none

/-- Expand the registered synonyms that a filter accepts. -/
def expandWhere (env : Environment) (accepts : Name → Bool) (t : Ty) : Ty :=
  t.expand (env.synonyms.filter (accepts ·.name))

/-- Expand all registered synonyms. -/
def expand (env : Environment) (t : Ty) : Ty := env.expandWhere (fun _ => true) t

end Environment

end StructRec
