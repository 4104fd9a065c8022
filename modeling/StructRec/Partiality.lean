import StructRec.Dependency.Component

/-!
# StructRec — partiality

A function is partial if evaluating it can meet one of the markers `undefined` and `error`: it
refers to a marker itself or to a partial function. The functions of a component share the answer.
-/

namespace StructRec

namespace Partiality

/-- Whether one of these functions refers to a marker, or to a function outside of them known as
partial. -/
def isPartialGroup (env : Environment) (decls : List FuncDecl) : Bool :=
  let own := decls.map FuncDecl.name
  decls.any fun d => d.references.any fun name =>
    name = Expr.undefinedKey || name = Expr.errorKey || (name ∉ own && env.isPartial name)

/-- Classify the functions of a component and record the answer. -/
def classify (env : Environment) (component : Component FuncDecl) : Environment :=
  let isPartial := isPartialGroup env component.decls
  component.names.foldl (fun env name => env.setPartial name isPartial) env

/-- Classify the functions of all components, which are in dependency order. -/
def classifyAll (env : Environment) (components : List (Component FuncDecl)) : Environment :=
  components.foldl classify env

end Partiality

end StructRec
