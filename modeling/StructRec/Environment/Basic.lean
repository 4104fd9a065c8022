import StructRec.Decl

/-!
# StructRec — the environment

What is registered while a module is converted: types, values (constructors, functions, variables of
an open section), the decreasing parameters of recursive functions and the pragmas. All four are
tables, so entries keep the order of registration.
-/

namespace StructRec

structure DataEntry where
  name : Name
  span : Span
  typeParams : List Name
  constructors : List Name
deriving DecidableEq

structure SynonymEntry where
  name : Name
  span : Span
  typeParams : List Name
  rhs : Ty
deriving DecidableEq

inductive TypeEntry where
  | data (entry : DataEntry)
  | synonym (entry : SynonymEntry)
deriving DecidableEq

structure ConstructorEntry where
  name : Name
  span : Span
  dataType : Name
  fieldTys : List Ty
deriving DecidableEq

structure FuncEntry where
  name : Name
  span : Span
  typeParams : List Name
  /-- The types of the parameters as far as they are known. -/
  paramTys : List (Option Ty)
  returnTy : Option Ty
  /-- Whether the function takes the parameters of the effect encoding. -/
  needsFreeArgs : Bool := true
  isPartial : Bool := false
deriving DecidableEq

/-- A variable bound outside of any function, as a section does. -/
structure VarEntry where
  name : Name
  span : Span
  ty : Option Ty
deriving DecidableEq

inductive ValueEntry where
  | constructor (entry : ConstructorEntry)
  | func (entry : FuncEntry)
  | var (entry : VarEntry)
deriving DecidableEq

/-- A pragma as registered for its function. -/
structure PragmaEntry where
  param : ParamRef
  span : Span
deriving DecidableEq

def TypeEntry.name : TypeEntry → Name
  | data entry => entry.name
  | synonym entry => entry.name

def ValueEntry.name : ValueEntry → Name
  | constructor entry => entry.name
  | func entry => entry.name
  | var entry => entry.name

def ConstructorEntry.arity (entry : ConstructorEntry) : Nat := entry.fieldTys.length

namespace FuncEntry

/-- The entry of a function as declared: not known to be partial. -/
def ofDecl (d : FuncDecl) : FuncEntry :=
  { name := d.name, span := d.span, typeParams := d.typeParamNames, paramTys := d.paramTys
    returnTy := d.returnTy }

def arity (entry : FuncEntry) : Nat := entry.paramTys.length

/-- The type of the function, if every part of it is known. -/
def ty? (entry : FuncEntry) : Option Ty := do
  let params ← entry.paramTys.mapM id
  let result ← entry.returnTy
  return Ty.arrows params result

end FuncEntry

theorem typesNamed_nil (entry : Name × TypeEntry) (h : entry ∈ []) : entry.2.name = entry.1 := by
  cases h

structure Environment where
  types : Table TypeEntry := {}
  values : Table ValueEntry := {}
  decreasing : Table DecreasingParam := {}
  pragmas : Table PragmaEntry := {}
  /-- Types are registered under their own names. -/
  typesNamed : ∀ entry ∈ types.entries, entry.2.name = entry.1 := by exact typesNamed_nil

namespace Environment

/-! ## Registration -/

def addType (env : Environment) (entry : TypeEntry) : Environment :=
  { env with
    types := env.types.insert entry.name entry
    typesNamed := fun other h => by
      rcases Table.mem_entries_insert h with rfl | h
      · rfl
      · exact env.typesNamed other h }

theorem types_addType (env : Environment) (entry : TypeEntry) :
    (env.addType entry).types = env.types.insert entry.name entry := rfl

def addValue (env : Environment) (entry : ValueEntry) : Environment :=
  { env with values := env.values.insert entry.name entry }

def addFunc (env : Environment) (entry : FuncEntry) : Environment := env.addValue (.func entry)

/-- Register the constructors of a data type, then the type. -/
def addData (env : Environment) (d : DataDecl) : Environment :=
  let constructors := d.constructors.map fun c =>
    ValueEntry.constructor
      { name := c.name, span := c.span, dataType := d.name, fieldTys := c.fields }
  (constructors.foldl addValue env).addType <| .data
    { name := d.name, span := d.span, typeParams := d.typeParams.map TypeParam.name
      constructors := d.constructors.map Constructor.name }

def addSynonym (env : Environment) (d : SynonymDecl) : Environment :=
  env.addType <| .synonym
    { name := d.name, span := d.span, typeParams := d.typeParams.map TypeParam.name, rhs := d.rhs }

/-- Put back what stood under a name before it was shadowed. -/
def unshadow (env : Environment) (name : Name) (previous : Option ValueEntry) : Environment :=
  match previous with
  | some entry => { env with values := env.values.insert name entry }
  | none => { env with values := env.values.erase name }

def setDecreasing (env : Environment) (function : Name) (param : DecreasingParam) : Environment :=
  { env with decreasing := env.decreasing.insert function param }

def eraseDecreasing (env : Environment) (function : Name) : Environment :=
  { env with decreasing := env.decreasing.erase function }

def addPragma (env : Environment) (function : Name) (entry : PragmaEntry) : Environment :=
  { env with pragmas := env.pragmas.insert function entry }

/-! ## Queries -/

def func? (env : Environment) (name : Name) : Option FuncEntry :=
  match env.values.get? name with
  | some (.func entry) => some entry
  | _ => none

def constructor? (env : Environment) (name : Name) : Option ConstructorEntry :=
  match env.values.get? name with
  | some (.constructor entry) => some entry
  | _ => none

def synonym? (env : Environment) (name : Name) : Option SynonymEntry :=
  match env.types.get? name with
  | some (.synonym entry) => some entry
  | _ => none

/-- The functions in order of registration. -/
def funcNames (env : Environment) : List Name :=
  env.values.values.filterMap fun
    | .func entry => some entry.name
    | _ => none

/-- All registered names, of types and of values. -/
def names (env : Environment) : List Name := env.types.keys ++ env.values.keys

def isDefined (env : Environment) (name : Name) : Bool :=
  env.types.contains name || env.values.contains name

/-- Whether the target language spells some registered name like this. -/
def usesTarget (env : Environment) (spelled : Name) : Bool :=
  env.names.any (·.target = spelled)

def needsFreeArgs (env : Environment) (name : Name) : Bool :=
  (env.func? name).any FuncEntry.needsFreeArgs

def isPartial (env : Environment) (name : Name) : Bool := (env.func? name).any FuncEntry.isPartial

/-- Change the entry of a function, if there is one. -/
def updateFunc (env : Environment) (name : Name) (f : FuncEntry → FuncEntry) : Environment :=
  match env.func? name with
  | some entry => { env with values := env.values.insert name (.func (f entry)) }
  | none => env

def setPartial (env : Environment) (name : Name) (isPartial : Bool) : Environment :=
  env.updateFunc name ({ · with isPartial })

end Environment

end StructRec
