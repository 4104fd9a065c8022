import StructRec.Interchange.Record
import StructRec.Sentence

/-!
# StructRec — modules and sentences as JSON

All fields are written, in the order of their declaration; an unknown type is `null`, and a variant
that carries nothing is its tag as a string.
-/

namespace StructRec

open Json

def Span.toJson (s : Span) : Json :=
  obj [("start_line", nat s.startLine.toNat), ("start_col", nat s.startCol.toNat),
    ("end_line", nat s.endLine.toNat), ("end_col", nat s.endCol.toNat)]

def Ty.toJson : Ty → Json
  | var name => obj [("Var", str name)]
  | con name => obj [("Con", str name)]
  | app fn arg => obj [("App", arr [fn.toJson, arg.toJson])]
  | func dom cod => obj [("Func", arr [dom.toJson, cod.toJson])]

def Binder.toJson (b : Binder) : Json :=
  obj [("name", str b.name), ("ty", nullable Ty.toJson b.ty), ("span", b.span.toJson)]

def Pattern.toJson : Pattern → Json
  | con name vars => obj [("Con", obj [("name", str name), ("vars", list Binder.toJson vars)])]
  | lit value => obj [("Lit", int value.toInt)]
  | var binder => obj [("Var", binder.toJson)]
  | wildcard => str "Wildcard"

namespace Expr

/-- A node from what kind of node it is and its note. -/
def nodeJson (kind : Json) (note : Note) : Json :=
  obj [("kind", kind), ("span", note.span.toJson), ("ty", nullable Ty.toJson note.ty)]

mutual

def toJson : Expr → Json
  | var note name => nodeJson (obj [("Var", str name)]) note
  | con note name => nodeJson (obj [("Con", str name)]) note
  | app note fn arg => nodeJson (obj [("App", obj [("func", fn.toJson), ("arg", arg.toJson)])]) note
  | typeApp note fn arg =>
    nodeJson (obj [("TypeApp", obj [("expr", fn.toJson), ("ty", arg.toJson)])]) note
  | cond note test thenBranch elseBranch =>
    nodeJson (obj [("If", obj [("cond", test.toJson), ("then_branch", thenBranch.toJson),
      ("else_branch", elseBranch.toJson)])]) note
  | case note scrutinee alts =>
    nodeJson
      (obj [("Case", obj [("scrutinee", scrutinee.toJson), ("alts", arr (altsToJson alts))])]) note
  | lam note params body =>
    nodeJson
      (obj [("Lambda", obj [("params", list Binder.toJson params), ("body", body.toJson)])]) note
  | letRec note binds body =>
    nodeJson (obj [("Let", obj [("binds", arr (bindsToJson binds)), ("body", body.toJson)])]) note
  | intLit note value => nodeJson (obj [("IntLit", int value.toInt)]) note
  | undefined note => nodeJson (str "Undefined") note
  | error note message => nodeJson (obj [("Error", str message)]) note

def altsToJson : Alts → List Json
  | [] => []
  | (pattern, rhs) :: rest =>
      obj [("pattern", pattern.toJson), ("rhs", rhs.toJson)] :: altsToJson rest

def bindsToJson : Binds → List Json
  | [] => []
  | (binder, rhs) :: rest => obj [("var", binder.toJson), ("rhs", rhs.toJson)] :: bindsToJson rest

end

end Expr

def TypeParam.toJson (p : TypeParam) : Json := obj [("name", str p.name), ("span", p.span.toJson)]

def Constructor.toJson (c : Constructor) : Json :=
  obj [("name", str c.name), ("fields", list Ty.toJson c.fields), ("span", c.span.toJson)]

def DataDecl.toJson (d : DataDecl) : Json :=
  obj [("name", str d.name), ("type_args", list TypeParam.toJson d.typeParams),
    ("constructors", list Constructor.toJson d.constructors), ("span", d.span.toJson)]

def SynonymDecl.toJson (d : SynonymDecl) : Json :=
  obj
    [("name", str d.name), ("type_args", list TypeParam.toJson d.typeParams), ("rhs", d.rhs.toJson),
    ("span", d.span.toJson)]

def TypeDecl.toJson : TypeDecl → Json
  | data decl => obj [("Data", decl.toJson)]
  | synonym decl => obj [("Synonym", decl.toJson)]

def FuncDecl.toJson (d : FuncDecl) : Json :=
  obj
    [("name", str d.name), ("span", d.span.toJson),
      ("type_args", list TypeParam.toJson d.typeParams),
    ("args", list Binder.toJson d.params), ("return_type", nullable Ty.toJson d.returnTy),
    ("rhs", d.rhs.toJson)]

def ParamRef.toJson : ParamRef → Json
  | index i => obj [("Index", nat i)]
  | name n => obj [("Name", str n)]

def Pragma.toJson (p : Pragma) : Json :=
  obj
    [("DecArg",
      obj [("function", str p.function), ("arg", p.param.toJson), ("span", p.span.toJson)])]

def Module.toJson (m : Module) : Json :=
  obj [("name", str m.name), ("type_decls", list TypeDecl.toJson m.typeDecls),
    ("func_decls", list FuncDecl.toJson m.funcDecls), ("pragmas", list Pragma.toJson m.pragmas)]

def DecreasingParam.toJson (p : DecreasingParam) : Json :=
  obj [("index", nat p.index), ("name", str p.name)]

def FixpointBody.toJson (b : FixpointBody) : Json :=
  obj [("decl", b.decl.toJson), ("decreasing_arg", b.decreasing.toJson)]

namespace Sentence

mutual

def toJson : Sentence → Json
  | dataTypes decls => obj [("Inductive", list DataDecl.toJson decls)]
  | synonym decl => obj [("TypeSynonym", decl.toJson)]
  | definition decl => obj [("Definition", decl.toJson)]
  | fixpoint bodies => obj [("Fixpoint", list FixpointBody.toJson bodies)]
  | shared name typeVars vars sentences =>
    obj [("Section", obj [("name", str name), ("type_vars", list TypeParam.toJson typeVars),
      ("variables", list Binder.toJson vars), ("sentences", arr (allToJson sentences))])]

def allToJson : List Sentence → List Json
  | [] => []
  | s :: rest => s.toJson :: allToJson rest

end

end Sentence

end StructRec
