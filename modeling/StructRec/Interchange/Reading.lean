import StructRec.Interchange.Record
import StructRec.Sentence

/-!
# StructRec — modules and sentences from JSON

The readers accept what `Interchange.Writing` writes, and records with fewer fields: a missing span
is that of generated nodes, a missing type unknown, a missing list empty. Expressions and sentences
are nested, and so are the values that stand for them; a reader goes down at most as deep as the
value it reads.
-/

namespace StructRec

open Json

def Span.ofJson? (j : Json) : Option Span := do
  let [some startLine, some startCol, some endLine, some endCol] ←
    j.record? ["start_line", "start_col", "end_line", "end_col"] | none
  return { startLine := ← startLine.uint64?, startCol := ← startCol.uint64?
           endLine := ← endLine.uint64?, endCol := ← endCol.uint64? }

/-- A span that may be missing. -/
def Span.ofField? : Option Json → Option Span := orDefault generated ofJson?

def Ty.ofJson? : Json → Option Ty
  | obj [(tag, str name)] =>
    match tag with
    | "Var" => some (var name)
    | "Con" => some (con name)
    | _ => none
  | obj [(tag, arr [left, right])] => do
    let left ← ofJson? left
    let right ← ofJson? right
    match tag with
    | "App" => some (app left right)
    | "Func" => some (func left right)
    | _ => none
  | _ => none

/-- A type that may be missing or `null`. -/
def Ty.ofField? : Option Json → Option (Option Ty) := orDefault none (nullable? ofJson?)

def Binder.ofJson? (j : Json) : Option Binder := do
  let [some name, ty, span] ← j.record? ["name", "ty", "span"] | none
  return { name := ← name.str?, ty := ← Ty.ofField? ty, span := ← Span.ofField? span }

def Pattern.ofJson? (form : VariantFields) (j : Json) : Option Pattern := do
  let (tag, payload) ← j.variant?
  match tag, payload with
  | "Con", some payload =>
    let [some name, some vars] ← form.read? ["name", "vars"] payload | none
    return con (← name.str?) (← vars.list? Binder.ofJson?)
  | "Lit", some payload => return lit (← payload.int64?)
  | "Var", some payload => return var (← Binder.ofJson? payload)
  | "Wildcard", payload => if isUnit payload then return wildcard else none
  | _, _ => none

namespace Expr

/-! What a variant carries is read given how to read the expressions in it. -/

section variants

variable (form : VariantFields) (read : Json → Option Expr)

def readAlt (j : Json) : Option (Pattern × Expr) := do
  let [some pattern, some rhs] ← j.record? ["pattern", "rhs"] | none
  return (← Pattern.ofJson? form pattern, ← read rhs)

def readBind (j : Json) : Option (Binder × Expr) := do
  let [some binder, some rhs] ← j.record? ["var", "rhs"] | none
  return (← Binder.ofJson? binder, ← read rhs)

def readApp (note : Note) (payload : Json) : Option Expr := do
  let [some fn, some arg] ← form.read? ["func", "arg"] payload | none
  return app note (← read fn) (← read arg)

def readTypeApp (note : Note) (payload : Json) : Option Expr := do
  let [some fn, some ty] ← form.read? ["expr", "ty"] payload | none
  return typeApp note (← read fn) (← Ty.ofJson? ty)

def readCond (note : Note) (payload : Json) : Option Expr := do
  let [some test, some thenBranch, some elseBranch] ←
    form.read? ["cond", "then_branch", "else_branch"] payload | none
  return cond note (← read test) (← read thenBranch) (← read elseBranch)

def readCase (note : Note) (payload : Json) : Option Expr := do
  let [some scrutinee, some alts] ← form.read? ["scrutinee", "alts"] payload | none
  let alts ← alts.list? (readAlt form read)
  return case note (← read scrutinee) alts

def readLam (note : Note) (payload : Json) : Option Expr := do
  let [some params, some body] ← form.read? ["params", "body"] payload | none
  return lam note (← params.list? Binder.ofJson?) (← read body)

def readLet (note : Note) (payload : Json) : Option Expr := do
  let [some binds, some body] ← form.read? ["binds", "body"] payload | none
  let binds ← binds.list? (readBind read)
  return letRec note binds (← read body)

def readKind (note : Note) : String → Option Json → Option Expr
  | "Undefined", payload => if isUnit payload then some (undefined note) else none
  | _, none => none
  | "Var", some payload => payload.str?.map (var note)
  | "Con", some payload => payload.str?.map (con note)
  | "IntLit", some payload => payload.int64?.map (intLit note)
  | "Error", some payload => payload.str?.map (error note)
  | "App", some payload => readApp form read note payload
  | "TypeApp", some payload => readTypeApp form read note payload
  | "If", some payload => readCond form read note payload
  | "Case", some payload => readCase form read note payload
  | "Lambda", some payload => readLam form read note payload
  | "Let", some payload => readLet form read note payload
  | _, _ => none

end variants

/-- Read an expression, at most `depth` levels down. -/
def readWithin (form : VariantFields) : Nat → Json → Option Expr
  | 0, _ => none
  | depth + 1, j => do
    let [some kind, span, ty] ← j.record? ["kind", "span", "ty"] | none
    let note := { span := ← Span.ofField? span, ty := ← Ty.ofField? ty : Note }
    let (tag, payload) ← kind.variant?
    readKind form (readWithin form depth) note tag payload

def ofJson? (form : VariantFields) (j : Json) : Option Expr := readWithin form j.depth j

end Expr

def TypeParam.ofJson? (j : Json) : Option TypeParam := do
  let [some name, span] ← j.record? ["name", "span"] | none
  return { name := ← name.str?, span := ← Span.ofField? span }

def Constructor.ofJson? (j : Json) : Option Constructor := do
  let [some name, some fields, span] ← j.record? ["name", "fields", "span"] | none
  return { name := ← name.str?, fields := ← fields.list? Ty.ofJson?, span := ← Span.ofField? span }

def DataDecl.ofJson? (j : Json) : Option DataDecl := do
  let [some name, some typeParams, some constructors, span] ←
    j.record? ["name", "type_args", "constructors", "span"] | none
  return { name := ← name.str?, typeParams := ← typeParams.list? TypeParam.ofJson?
           constructors := ← constructors.list? Constructor.ofJson?, span := ← Span.ofField? span }

def SynonymDecl.ofJson? (j : Json) : Option SynonymDecl := do
  let [some name, some typeParams, some rhs, span] ← j.record?
    ["name", "type_args", "rhs", "span"] | none
  return { name := ← name.str?, typeParams := ← typeParams.list? TypeParam.ofJson?
           rhs := ← Ty.ofJson? rhs, span := ← Span.ofField? span }

def TypeDecl.ofJson? (j : Json) : Option TypeDecl := do
  match ← j.variant? with
  | ("Data", some payload) => return data (← DataDecl.ofJson? payload)
  | ("Synonym", some payload) => return synonym (← SynonymDecl.ofJson? payload)
  | _ => none

def FuncDecl.ofJson? (form : VariantFields) (j : Json) : Option FuncDecl := do
  let [some name, span, typeParams, some params, returnTy, some rhs] ←
    j.record? ["name", "span", "type_args", "args", "return_type", "rhs"] | none
  return { name := ← name.str?, span := ← Span.ofField? span
           typeParams := ← orDefault [] (list? TypeParam.ofJson?) typeParams
           params := ← params.list? Binder.ofJson?
           returnTy := ← Ty.ofField? returnTy, rhs := ← Expr.ofJson? form rhs }

def ParamRef.ofJson? (j : Json) : Option ParamRef := do
  match ← j.variant? with
  | ("Index", some payload) => return index (← payload.index?)
  | ("Name", some payload) => return name (← payload.str?)
  | _ => none

def Pragma.ofJson? (form : VariantFields) (j : Json) : Option Pragma := do
  match ← j.variant? with
  | ("DecArg", some payload) =>
    let [some function, some param, span] ← form.read? ["function", "arg", "span"] payload | none
    return { function := ← function.str?, param := ← ParamRef.ofJson? param
             span := ← Span.ofField? span }
  | _ => none

def Module.ofJson? (form : VariantFields) (j : Json) : Option Module := do
  let [some name, typeDecls, funcDecls, pragmas] ←
    j.record? ["name", "type_decls", "func_decls", "pragmas"] | none
  return { name := ← name.str?
           typeDecls := ← orDefault [] (list? TypeDecl.ofJson?) typeDecls
           funcDecls := ← orDefault [] (list? (FuncDecl.ofJson? form)) funcDecls
           pragmas := ← orDefault [] (list? (Pragma.ofJson? form)) pragmas }

def DecreasingParam.ofJson? (j : Json) : Option DecreasingParam := do
  let [some index, some name] ← j.record? ["index", "name"] | none
  return { index := ← index.index?, name := ← name.str? }

def FixpointBody.ofJson? (form : VariantFields) (j : Json) : Option FixpointBody := do
  let [some decl, some decreasing] ← j.record? ["decl", "decreasing_arg"] | none
  return { decl := ← FuncDecl.ofJson? form decl,
           decreasing := ← DecreasingParam.ofJson? decreasing }

namespace Sentence

/-- Read a sentence, at most `depth` levels down. -/
def readWithin (form : VariantFields) : Nat → Json → Option Sentence
  | 0, _ => none
  | depth + 1, j => do
    match ← j.variant? with
    | ("Inductive", some payload) => return dataTypes (← payload.list? DataDecl.ofJson?)
    | ("TypeSynonym", some payload) => return synonym (← SynonymDecl.ofJson? payload)
    | ("Definition", some payload) => return definition (← FuncDecl.ofJson? form payload)
    | ("Fixpoint", some payload) => return fixpoint (← payload.list? (FixpointBody.ofJson? form))
    | ("Section", some payload) =>
      let [some name, some typeVars, some vars, some sentences] ←
        payload.record? ["name", "type_vars", "variables", "sentences"] | none
      return shared (← name.str?) (← typeVars.list? TypeParam.ofJson?) (← vars.list? Binder.ofJson?)
        (← sentences.list? (readWithin form depth))
    | _ => none

def ofJson? (form : VariantFields) (j : Json) : Option Sentence := readWithin form j.depth j

end Sentence

end StructRec
