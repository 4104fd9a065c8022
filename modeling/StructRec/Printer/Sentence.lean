import StructRec.Printer.Expr
import StructRec.Sentence

/-!
# StructRec — printed declarations and sentences

One line per declaration. Declarations that belong together start with the sentence's keyword and
then with `with`; the sentences of a section are indented by two more blanks. Type variables are
printed as they are, whatever the spelling of other names.
-/

namespace StructRec

/-- `name @a (x :: T) y :: R = rhs` -/
def FuncDecl.render (spelling : Spelling) (d : FuncDecl) : String :=
  let typeParams := d.typeParams.map (" @" ++ ·.name)
  let params := d.params.map (" " ++ ·.render spelling)
  let returnTy := match d.returnTy with
    | some ty => " :: " ++ ty.render
    | none => ""
  spelling.of d.name ++ String.join typeParams ++ String.join params ++ returnTy ++ " = "
    ++ d.rhs.render spelling

def Constructor.render (spelling : Spelling) (c : Constructor) : String :=
  " ".intercalate (spelling.of c.name :: c.fields.map (·.renderAt .argument))

/-- A declared type with its parameters: `Name a b`. -/
def renderTypeHead (spelling : Spelling) (name : Name) (typeParams : List TypeParam) : String :=
  spelling.of name ++ String.join (typeParams.map (" " ++ ·.name))

/-- `Name a b = C₁ t₁ t₂ | C₂`, without the equals sign if there is no constructor. -/
def DataDecl.render (spelling : Spelling) (d : DataDecl) : String :=
  let head := renderTypeHead spelling d.name d.typeParams
  if d.constructors.isEmpty then head
  else head ++ " = " ++ " | ".intercalate (d.constructors.map (Constructor.render spelling))

/-- `Name a b = rhs` -/
def SynonymDecl.render (spelling : Spelling) (d : SynonymDecl) : String :=
  renderTypeHead spelling d.name d.typeParams ++ " = " ++ d.rhs.render

def TypeDecl.render (spelling : Spelling) : TypeDecl → String
  | data decl => decl.render spelling
  | synonym decl => decl.render spelling

def FixpointBody.render (spelling : Spelling) (b : FixpointBody) : String :=
  b.decl.render spelling ++ " \x7bstruct " ++ spelling.of b.decreasing.name ++ "\x7d"

namespace Sentence

/-- Lines that start with a keyword, from the second one on with `with`. -/
def keywordLines (keyword : String) : List String → List String
  | [] => []
  | first :: rest => (keyword ++ " " ++ first) :: rest.map ("with " ++ ·)

mutual

def lines (spelling : Spelling) : Sentence → List String
  | dataTypes decls => keywordLines "data" (decls.map (DataDecl.render spelling))
  | synonym decl => ["type " ++ decl.render spelling]
  | definition decl => ["definition " ++ decl.render spelling]
  | fixpoint bodies => keywordLines "fixpoint" (bodies.map (FixpointBody.render spelling))
  | shared name typeVars vars sentences =>
    let inner := typeVars.map ("variable @" ++ ·.name)
      ++ vars.map ("variable " ++ ·.render spelling)
      ++ linesOfAll spelling sentences
    ["section " ++ spelling.of name] ++ inner.map ("  " ++ ·) ++ ["end " ++ spelling.of name]

def linesOfAll (spelling : Spelling) : List Sentence → List String
  | [] => []
  | s :: rest => s.lines spelling ++ linesOfAll spelling rest

end

/-- The lines of a sentence, each ended by a line feed. -/
def render (spelling : Spelling) (s : Sentence) : String :=
  String.join ((s.lines spelling).map (· ++ "\n"))

/-- The lines of all sentences in order. -/
def renderAll (spelling : Spelling) (sentences : List Sentence) : String :=
  String.join (sentences.map (render spelling))

end Sentence

end StructRec
