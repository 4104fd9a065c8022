import StructRec.Diagnostic
import StructRec.Environment.Basic

/-!
# StructRec — the state of a run

A `Session` is what a conversion works on: the environment, the counters behind generated names and
the warnings given so far. Only the environment can be rolled back. The counters never go down, so a
name that was generated once is not generated again, and warnings stay given.

Two kinds of computation use it. `Naming` can ask for names and always succeeds; `Compile` can also
fail, and then keeps the state it failed in.

A generated name is the first one of its root, from the root's counter on, that the target language
does not spell like a registered name. One of as many candidates as there are registered names, and
one more, is free (`Counters.freeName`), so the search is bounded.
-/

namespace StructRec

/-- The number of names generated so far for every root. -/
structure Counters where
  table : Table Nat := {}

namespace Counters

/-- How many candidates of this name's root have been taken. -/
def taken (c : Counters) (wanted : Name) : Nat := (c.table.get? wanted.root).getD 0

/-- Take the next candidate of a root. -/
def next (c : Counters) (wanted : Name) : Name × Counters :=
  let k := c.taken wanted
  (Name.numbered wanted.root k, ⟨c.table.insert wanted.root (k + 1)⟩)

/-- Take candidates until one is free, at most `skips` of them in vain. -/
def freeName (isUsed : Name → Bool) : Nat → Counters → Name → Name × Counters
  | 0, c, wanted => c.next wanted
  | skips + 1, c, wanted =>
    let (candidate, c') := c.next wanted
    if isUsed candidate then freeName isUsed skips c' wanted else (candidate, c')

end Counters

structure Session where
  env : Environment := {}
  counters : Counters := {}
  warnings : List Warning := []

/-- Computations that can generate names. -/
abbrev Naming := StateM Session

/-- Computations that can fail; the state at the failure is kept. -/
abbrev Compile := EStateM Failure Session

instance : MonadLift Naming Compile where
  monadLift x := fun s => let (a, s') := x.run s; .ok a s'

/-- A name derived from the wanted one that is new in every spelling. -/
def freshName (wanted : Name) : Naming Name := fun s =>
  let isUsed := fun candidate : Name => s.env.usesTarget candidate.target
  let (name, counters) := s.counters.freeName isUsed s.env.names.length wanted
  (name, { s with counters })

namespace Session

/-- Read the environment. -/
def getEnv : Naming Environment := fun s => (s.env, s)

/-- Change the environment. -/
def modifyEnv (f : Environment → Environment) :
    Naming Unit := fun s => ((), { s with env := f s.env })

def warn (warning : Warning) : Naming Unit :=
  fun s => ((), { s with warnings := s.warnings ++ [warning] })

end Session

namespace Compile

variable {α : Type}

/-- Fail with an error whose place is not known. -/
def fail (cause : Cause) : Compile α := throw (.error (.ofCause cause))

/-- Fail with an error at a place. -/
def failAt (span : Span) (cause : Cause) : Compile α := throw (.error (.ofCauseAt span cause))

/-- A value that is missing only by a fault which is not the module's. -/
def expect (bug : Bug) : Option α → Compile α
  | some a => return a
  | none => throw (.bug bug)

/-- Run a computation and undo its changes of the environment. -/
def isolated (x : Compile α) : Compile α := fun s =>
  match x s with
  | .ok a s' => .ok a { s' with env := s.env }
  | .error e s' => .error e { s' with env := s.env }

/-- Run a computation and undo its changes of the environment if it fails. -/
def transaction (x : Compile α) : Compile α := fun s =>
  match x s with
  | .ok a s' => .ok a s'
  | .error e s' => .error e { s' with env := s.env }

/-- Attach a place to an error that has none. -/
def locate (span : Span) (x : Compile α) : Compile α := fun s =>
  match x s with
  | .ok a s' => .ok a s'
  | .error (.error d) s' => .error (.error (d.withSpan span)) s'
  | .error (.bug b) s' => .error (.bug b) s'

end Compile

end StructRec
