import StructRec.Dependency.Component
import StructRec.Environment.Synonym
import StructRec.Sentence

/-!
# StructRec — type declarations

A type that does not refer to itself is defined as it stands. In a recursive component the synonyms
cannot be defined before the data types that use them, so they are expanded there and defined
afterwards. Synonyms that depend on each other without a data type in between have no meaning.
-/

namespace StructRec

namespace TypeGroup

def dataDecls (decls : List TypeDecl) : List DataDecl := decls.filterMap fun
  | .data d => some d
  | .synonym _ => none

def synonymDecls (decls : List TypeDecl) : List SynonymDecl := decls.filterMap fun
  | .data _ => none
  | .synonym d => some d

/-- Expand synonyms in the fields of a data type. -/
def expandFields (expand : Ty → Ty) (d : DataDecl) : DataDecl :=
  { d with constructors := d.constructors.map fun c => { c with fields := c.fields.map expand } }

/-- Fail for a cycle of synonyms, at its first declaration. -/
def failCycle (decls : List TypeDecl) : Compile Unit :=
  Compile.failAt ((decls.head?.map TypeDecl.span).getD Span.generated)
    (.synonymCycle (decls.map TypeDecl.name))

/-- Convert and register types that depend on each other. -/
def recursiveToSentences (decls : List TypeDecl) : Compile (List Sentence) := do
  if decls.isEmpty then throw (.bug .emptyComponent)
  let datas := dataDecls decls
  let synonyms := synonymDecls decls
  if datas.isEmpty then failCycle decls
  let amongSynonyms ← Dependency.arrangeDecls (synonyms.map TypeDecl.synonym)
  if let some cycle := amongSynonyms.find? Component.isRecursive then failCycle cycle.decls
  let isLocal := fun name => synonyms.any (·.name = name)
  Session.modifyEnv fun env => synonyms.foldl Environment.addSynonym env
  let env ← Session.getEnv
  let expanded := datas.map (expandFields (env.expandWhere isLocal))
  Session.modifyEnv fun env => expanded.foldl Environment.addData env
  return .dataTypes expanded :: synonyms.map .synonym

/-- Convert and register a component of type declarations. -/
def toSentences : Component TypeDecl → Compile (List Sentence)
  | .single (.data d) => do
    Session.modifyEnv (·.addData d)
    return [.dataTypes [d]]
  | .single (.synonym d) => do
    Session.modifyEnv (·.addSynonym d)
    return [.synonym d]
  | .recursive decls => recursiveToSentences decls

end TypeGroup

end StructRec
