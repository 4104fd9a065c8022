/-!
# StructRec — names and their spellings

A generated name is a *root* followed by the mark `@` and a number. The mark does not occur in names
of the source language. The target language has no such mark, so there it is spelled `_`.
-/

namespace StructRec

/-- An identifier of a variable, function, constructor or type. -/
abbrev Name := String

namespace Name

/-- What stands before the first mark: the part of a generated name that was asked for. -/
def root (n : Name) : Name := String.ofList (n.toList.takeWhile (· != '@'))

/-- Whether the name holds a mark, as every generated one does. -/
def isMarked (n : Name) : Bool := n.toList.contains '@'

/-- The spelling in the target language. -/
def target (n : Name) : Name :=
  String.ofList (n.toList.map fun c => if c = '@' then '_' else c)

/-- The `k`-th generated name of a root. -/
def numbered (root : Name) (k : Nat) : Name := root ++ "@" ++ Nat.repr k

end Name

/-- The language whose spelling of names is printed. -/
inductive Spelling where
  | source
  | target
deriving DecidableEq

/-- A name as this language spells it. -/
def Spelling.of : Spelling → Name → String
  | source, n => n
  | target, n => n.target

end StructRec
