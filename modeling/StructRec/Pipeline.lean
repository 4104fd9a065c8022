import StructRec.Fixpoint.Group
import StructRec.Partiality
import StructRec.TypeGroup

/-!
# StructRec — conversion of modules

A module is converted in four stages: its declarations are ordered into components, functions and
pragmas are registered, functions are classified as partial or total, and the components are
converted in order, types first. Each component is a transaction: if it fails, the environment is as
before it. In strict mode the first failure ends the conversion; otherwise the component is skipped
with a warning.
-/

namespace StructRec

/-- What a conversion yields: sentences, and the errors of the components that were skipped. -/
structure Conversion where
  sentences : List Sentence := []
  errors : List Diagnostic := []

def Conversion.isOk (c : Conversion) : Bool := c.errors.isEmpty

/-- A module whose declarations are ordered by their dependencies. -/
structure OrderedModule where
  source : Module
  typeComponents : List (Component TypeDecl)
  funcComponents : List (Component FuncDecl)

/-- Order the declarations of a module. -/
def Module.order (m : Module) : Naming OrderedModule := do
  let typeComponents ← Dependency.arrangeDecls m.typeDecls
  let funcComponents ← Dependency.arrangeDecls m.funcDecls
  return { source := m, typeComponents, funcComponents }

/-- Register a pragma, which must be for a function of the module. -/
def Module.registerPragma (m : Module) (p : Pragma) : Compile Unit := do
  if m.funcDecls.all (·.name ≠ p.function) then
    Compile.failAt p.span (.noSuchFunction p.function m.name)
  if (← Session.getEnv).pragmas.contains p.function then
    Session.warn (.duplicatePragma p.function)
  Session.modifyEnv (·.addPragma p.function { param := p.param, span := p.span })

/-- Convert a component of function declarations. -/
def Component.funcsToSentences : Component FuncDecl → Compile (List Sentence)
  | .single d => return [.definition d]
  | .recursive decls =>
    Compile.locate ((decls.head?.map FuncDecl.span).getD Span.generated) (groupToSentences decls)

/-- Run a computation and hand out its error. -/
def Compile.attempt {α : Type} (x : Compile α) : Compile (Except Diagnostic α) := fun s =>
  match x s with
  | .ok a s' => .ok (.ok a) s'
  | .error (.error d) s' => .ok (.error d) s'
  | .error (.bug b) s' => .error (.bug b) s'

/-- Convert components in order, each as a transaction. -/
def convertComponents {α : Type} [Declaration α] (keepGoing : Bool)
    (convert : Component α → Compile (List Sentence)) : List (Component α) → Compile Conversion
  | [] => return {}
  | component :: rest => do
    match ← Compile.attempt (Compile.transaction (convert component)) with
    | .ok sentences =>
      let later ← convertComponents keepGoing convert rest
      return { later with sentences := sentences ++ later.sentences }
    | .error diagnostic =>
      if !keepGoing then throw (.error diagnostic)
      Session.warn (.skipped component.names diagnostic)
      let later ← convertComponents keepGoing convert rest
      return { later with errors := diagnostic :: later.errors }

namespace OrderedModule

/-- Register the functions and the pragmas of a module. -/
def register (o : OrderedModule) : Compile Unit := do
  Session.modifyEnv fun env => o.source.funcDecls.foldl (fun env d => env.addFunc (.ofDecl d)) env
  o.source.pragmas.forM o.source.registerPragma

/-- Classify the functions of a module as partial or total. -/
def classify (o : OrderedModule) : Naming Unit :=
  Session.modifyEnv (Partiality.classifyAll · o.funcComponents)

/-- Convert the components of a module. -/
def convert (o : OrderedModule) (keepGoing : Bool) : Compile Conversion := do
  let types ← convertComponents keepGoing TypeGroup.toSentences o.typeComponents
  let funcs ← convertComponents keepGoing Component.funcsToSentences o.funcComponents
  return { sentences := types.sentences ++ funcs.sentences, errors := types.errors ++ funcs.errors }

end OrderedModule

/-- Convert a module. -/
def convertModule (keepGoing : Bool) (m : Module) : Compile Conversion := do
  let ordered ← m.order
  ordered.register
  ordered.classify
  ordered.convert keepGoing

end StructRec
