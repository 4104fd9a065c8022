import StructRec.Call.Constant
import StructRec.Fixpoint.Hoist

/-!
# StructRec — recursive groups

A recursive group becomes a section if it has constant parameters, and helpers and main functions
otherwise.
-/

namespace StructRec

/-- Turn a recursive group into structurally recursive sentences. -/
def groupToSentences (decls : List FuncDecl) : Compile (List Sentence) :=
  match constantPositions decls with
  | [] => do
    match Decreasing.choose (← Session.getEnv) decls with
    | .ok positions => Split.toSentences decls positions
    | .error diagnostic => throw (.error diagnostic)
  | positions => Hoist.toSentences decls positions

end StructRec
