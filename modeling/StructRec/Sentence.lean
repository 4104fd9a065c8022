import StructRec.Decl

/-!
# StructRec — sentences

The output of a conversion is a list of sentences in dependency order. A section shares type
variables and variables among the sentences inside it.
-/

namespace StructRec

/-- A structurally recursive function. -/
structure FixpointBody where
  decl : FuncDecl
  decreasing : DecreasingParam

inductive Sentence where
  /-- Data types, mutually recursive if there are several. -/
  | dataTypes (decls : List DataDecl)
  | synonym (decl : SynonymDecl)
  /-- A function that does not refer to itself. -/
  | definition (decl : FuncDecl)
  /-- Functions defined together by structural recursion. -/
  | fixpoint (bodies : List FixpointBody)
  /-- Sentences over shared type variables and variables. -/
  | shared (name : Name) (typeVars : List TypeParam) (vars : List Binder)
      (sentences : List Sentence)

namespace Sentence

mutual

/-- The types and functions a sentence defines, also inside a section. -/
def definedNames : Sentence → List Name
  | dataTypes decls => decls.map DataDecl.name
  | synonym decl => [decl.name]
  | definition decl => [decl.name]
  | fixpoint bodies => bodies.map (·.decl.name)
  | shared _ _ _ sentences => definedNamesOfAll sentences

def definedNamesOfAll : List Sentence → List Name
  | [] => []
  | s :: rest => s.definedNames ++ definedNamesOfAll rest

end

mutual

/-- The functions a sentence defines, also inside a section. -/
def funcDecls : Sentence → List FuncDecl
  | dataTypes _ | synonym _ => []
  | definition decl => [decl]
  | fixpoint bodies => bodies.map FixpointBody.decl
  | shared _ _ _ sentences => funcDeclsOfAll sentences

def funcDeclsOfAll : List Sentence → List FuncDecl
  | [] => []
  | s :: rest => s.funcDecls ++ funcDeclsOfAll rest

end

end Sentence

end StructRec
