import StructRec.Dependency.Graph

/-!
# StructRec — the emission of classes

The strongly connected classes of a graph are listed in whatever order they were found, and a class
is known by its number in this listing. A class waits for the other classes that its positions have
edges to. For every class there is a counter of the classes it still waits for, and the set of the
classes that wait for it, its users. To emit a class is to lower the counters of its users; a class
whose counter comes down to zero is ready, and of the ready ones the class with the earliest
position is emitted next.
-/

namespace StructRec

/-- Put a value into an ascending list, unless it is there. -/
def insertAscending {α : Type} (less : α → α → Bool) (a : α) : List α → List α
  | [] => [a]
  | b :: rest =>
    if less a b then a :: b :: rest
    else if less b a then b :: insertAscending less a rest
    else b :: rest

namespace Dependency

/-- Positions in ascending order. -/
def ascending (positions : List Nat) : List Nat :=
  positions.foldl (fun sorted i => insertAscending (· < ·) i sorted) []

/-- How classes wait for each other. -/
structure Waiting where
  /-- The users of every class, ascending. -/
  users : List (List Nat)
  /-- The number of classes that every class waits for. -/
  pending : List Nat

namespace Waiting

/-- No class waits. -/
def idle (count : Nat) : Waiting :=
  { users := List.replicate count [], pending := List.replicate count 0 }

def usersOf (w : Waiting) (id : Nat) : List Nat := w.users[id]?.getD []

/-- Let a class wait for another one, once however many edges lead there. -/
def link (w : Waiting) (user dep : Nat) : Waiting :=
  if user ≠ dep ∧ user ∉ w.usersOf dep then
    { users := w.users.modify dep (insertAscending (· < ·) user)
      pending := w.pending.modify user (· + 1) }
  else w

end Waiting

/-- A class that waits for nothing, with its first position. -/
structure ReadyClass where
  first : Nat
  id : Nat

/-- Ready classes come in the order of their first positions. -/
def ReadyClass.before (a b : ReadyClass) : Bool :=
  a.first < b.first || (a.first = b.first && a.id < b.id)

/-- An emission under way. -/
structure Emission where
  /-- The number of classes that every class still waits for. -/
  pending : List Nat
  /-- The classes that may be emitted next, ascending. -/
  ready : List ReadyClass
  /-- The classes emitted so far. -/
  emitted : List Nat := []

namespace Emission

def pendingOf (e : Emission) (id : Nat) : Nat := e.pending[id]?.getD 0

def addReady (e : Emission) (firsts : List Nat) (id : Nat) : Emission :=
  { e with ready := insertAscending ReadyClass.before ⟨firsts[id]?.getD 0, id⟩ e.ready }

/-- Before the first class is emitted, those are ready that wait for nothing. -/
def start (firsts : List Nat) (w : Waiting) : Emission :=
  let e : Emission := { pending := w.pending, ready := [] }
  ((List.range firsts.length).filter (e.pendingOf · = 0)).foldl (·.addReady firsts ·) e

/-- A class waits for one class less. -/
def release (firsts : List Nat) (e : Emission) (user : Nat) : Emission :=
  let left := e.pendingOf user - 1
  let e := { e with pending := e.pending.set user left }
  if left = 0 then e.addReady firsts user else e

/-- Emit the first ready class. -/
def step? (firsts : List Nat) (w : Waiting) (e : Emission) : Option Emission :=
  match e.ready with
  | [] => none
  | next :: rest =>
    let e := { e with ready := rest, emitted := e.emitted ++ [next.id] }
    some ((w.usersOf next.id).foldl (release firsts) e)

/-- Emit as long as a class is ready, up to a number of steps. -/
def run (firsts : List Nat) (w : Waiting) : Nat → Emission → Emission
  | 0, e => e
  | steps + 1, e =>
    match e.step? firsts w with
    | none => e
    | some e' => run firsts w steps e'

end Emission

namespace Graph

/-- The edges in the order of their sources. -/
def edgeList (g : Graph) : List (Nat × Nat) :=
  g.edges.zipIdx.flatMap fun edges => edges.1.map (edges.2, ·)

/-- The number of the class of every position. -/
def classNumbers (g : Graph) (classes : List (List Nat)) : List Nat :=
  classes.zipIdx.foldl (fun numbers c => c.1.foldl (·.set · c.2) numbers)
    (List.replicate g.size 0)

/-- How listed classes wait for each other. -/
def waiting (g : Graph) (classes : List (List Nat)) : Waiting :=
  let numbers := g.classNumbers classes
  let numberOf := fun i => numbers[i]?.getD 0
  g.edgeList.foldl (fun w edge => w.link (numberOf edge.1) (numberOf edge.2))
    (.idle classes.length)

/-- An emission of listed classes, the positions of each ascending, up to a number of steps. -/
def emission (g : Graph) (classes : List (List Nat)) (steps : Nat) : Emission :=
  let firsts := classes.map (·.headD 0)
  let w := g.waiting classes
  (Emission.start firsts w).run firsts w steps

/-- The strongly connected classes in dependency order, from any listing of them. Every step emits a
class, so there are as many steps as classes. -/
def emit (g : Graph) (listing : List (List Nat)) : List (List Nat) :=
  let classes := listing.map ascending
  (g.emission classes classes.length).emitted.filterMap (classes[·]?)

end Graph

end Dependency

end StructRec
