import StructRec.Decl
import StructRec.Text.Quoted

/-!
# StructRec — diagnostics

What can go wrong in a conversion. A `Cause` says what happened, a `Diagnostic` is what is reported:
the kind of error, its text and the place in the source, if one is known. A `Bug` is a fault of the
caller or of the conversion itself, which no module can bring about. A `Warning` does not stop a
conversion.
-/

namespace StructRec

inductive ErrorKind where
  /-- No choice of decreasing parameters, or several. -/
  | decreasingArgument
  /-- Type synonyms that mention each other in a cycle. -/
  | typeSynonymCycle
  /-- Inlining met a reference that it cannot unfold. -/
  | unresolvedReference
  /-- A pragma names an unknown function or an unsuitable parameter. -/
  | pragma
deriving DecidableEq

/-- Names in order, separated by commas. -/
def commaSeparated (names : List String) : String := ", ".intercalate names

/-- A parameter reference as it appears in messages. -/
def ParamRef.describe : ParamRef → String
  | index i => "Index(" ++ Nat.repr i ++ ")"
  | name n => "Name(" ++ Text.quoted n ++ ")"

inductive Cause where
  /-- No choice of parameters makes every call of these functions decrease, or several do. -/
  | decreasingUndetermined (functions : List Name) (ambiguous : Bool)
  | synonymCycle (synonyms : List Name)
  | missingTypeArgument (typeVar : Name)
  | valueBeforeType (typeVar : Name)
  | noTypeParameters
  | selfInlining (function : Name)
  | noSuchPosition (function : Name) (arity index : Nat)
  | noSuchParameter (function param : Name)
  | unresolvedParameter (function : Name) (param : ParamRef)
  | constantParameter (function param : Name)
  | noSuchFunction (function moduleName : Name)

namespace Cause

def kind : Cause → ErrorKind
  | decreasingUndetermined _ _ => .decreasingArgument
  | synonymCycle _ => .typeSynonymCycle
  | missingTypeArgument _ | valueBeforeType _ | noTypeParameters | selfInlining _ =>
      .unresolvedReference
  | noSuchPosition _ _ _ | noSuchParameter _ _ | unresolvedParameter _ _ | constantParameter _ _
  | noSuchFunction _ _ => .pragma

/-- A name in single quotes. -/
def named (n : Name) : String := "'" ++ n ++ "'"

def text : Cause → String
  | decreasingUndetermined functions ambiguous =>
    let several := functions.length > 1
    (if ambiguous then "ambiguous" else "could not identify") ++ " decreasing argument"
      ++ (if several then "s" else "") ++ " of " ++ commaSeparated (functions.map named)
      ++ "; use a pragma such as `\x7b-# FreeC " ++ functions.headD "<function>"
      ++ " DECREASES ON <arg> #-\x7d` to specify " ++ (if several then "them" else "it")
  | synonymCycle synonyms => "type synonyms " ++ commaSeparated synonyms ++ " depend on each other"
  | missingTypeArgument typeVar =>
    "inlined reference is used without its type argument " ++ named typeVar
  | valueBeforeType typeVar => "value argument applied before the type argument " ++ named typeVar
  | noTypeParameters => "type application to an inlined function without type parameters"
  | selfInlining function => named function ++ " would be inlined into itself"
  | noSuchPosition function arity index =>
    named function ++ " has " ++ Nat.repr arity ++ " parameter(s), there is no parameter #" ++
      Nat.repr index
  | noSuchParameter function param => named function ++ " has no parameter named " ++ named param
  | unresolvedParameter function param => named function ++ " has no parameter " ++ param.describe
  | constantParameter function param =>
    "the decreasing argument " ++ named param ++ " of " ++ named function
      ++ " is passed unchanged by every recursive call"
  | noSuchFunction function moduleName =>
    named function ++ " is not a function of module " ++ named moduleName

end Cause

/-- A reported error. -/
structure Diagnostic where
  kind : ErrorKind
  text : String
  span : Option Span
deriving DecidableEq

namespace Diagnostic

/-- The report of a cause whose place is not known yet. -/
def ofCause (cause : Cause) : Diagnostic := { kind := cause.kind, text := cause.text, span := none }

/-- The report of a cause at a place. -/
def ofCauseAt (span : Span) (cause : Cause) : Diagnostic := { ofCause cause with span := some span }

/-- Attach a place to an error that has none. -/
def withSpan (d : Diagnostic) (span : Span) : Diagnostic := { d with span := d.span.or (some span) }

def heading : ErrorKind → String
  | .decreasingArgument => "decreasing argument error: "
  | .typeSynonymCycle => "type synonym cycle: "
  | .unresolvedReference => "internal error: unresolved reference during inlining: "
  | .pragma => "invalid pragma: "

/-- The place, if it is one of the source, then the kind and the text. -/
def render (d : Diagnostic) : String :=
  let place := match d.span with
    | some span => if span.isGenerated then "" else span.render ++ ": "
    | none => ""
  place ++ heading d.kind ++ d.text

end Diagnostic

/-- A fault that is not the module's. -/
inductive Bug where
  /-- A function was to be split on a parameter it does not have. -/
  | decreasingOutOfRange (function : Name) (index : Nat)
  /-- A helper of a function does not take the decreasing parameter. -/
  | decreasingNotCaptured (function : Name)
  /-- A helper is not registered with its decreasing parameter. -/
  | decreasingUnregistered (helper : Name)
  /-- Parameters at these positions were to be shared, but a function has fewer, or there is
  none. -/
  | sharedOutOfRange (positions : List Nat)
  /-- A component of types has no declarations. -/
  | emptyComponent
  /-- Inlining went deeper than its bound. -/
  | inliningTooDeep
deriving DecidableEq

def Bug.text : Bug → String
  | decreasingOutOfRange function index =>
    "BUG: decreasing argument #" ++ Nat.repr index ++ " of " ++ Cause.named function ++
      " out of range"
  | decreasingNotCaptured function =>
    "BUG: helper of " ++ Cause.named function ++ " does not capture the decreasing argument"
  | decreasingUnregistered helper =>
      "BUG: helper " ++ Cause.named helper ++ " has no decreasing argument"
  | sharedOutOfRange positions =>
    "shared arguments " ++ commaSeparated (positions.map fun p => "#" ++ Nat.repr p) ++
      " out of range"
  | emptyComponent => "BUG: empty dependency component"
  | inliningTooDeep => "BUG: inlining exceeds its bound"

/-- Why a conversion stopped. -/
inductive Failure where
  | error (diagnostic : Diagnostic)
  | bug (bug : Bug)
deriving DecidableEq

inductive Warning where
  | duplicateDeclaration (name : Name)
  | duplicatePragma (function : Name)
  /-- A component failed and the conversion went on. -/
  | skipped (names : List Name) (reason : Diagnostic)

def Warning.text : Warning → String
  | duplicateDeclaration name =>
    "duplicate declaration of " ++ Cause.named name ++ ", later references resolve to the first"
  | duplicatePragma function =>
    "duplicate decreasing argument pragma for " ++ Cause.named function ++ ", the last one wins"
  | skipped names reason => "skipping [" ++ commaSeparated names ++ "]: " ++ reason.render

end StructRec
