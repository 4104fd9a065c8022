import StructRec.Dependency.Emission
import StructRec.Session

/-!
# StructRec — components in dependency order

Declarations that reach each other form a component. Components are listed so that whatever a
component refers to outside of itself comes earlier; among those that may come next, the one with
the earliest declaration does.
-/

namespace StructRec

/-- Declarations that depend on each other. -/
inductive Component (α : Type) where
  /-- A declaration that does not refer to itself. -/
  | single (decl : α)
  /-- Several declarations, or one that refers to itself. -/
  | recursive (decls : List α)

namespace Component

variable {α β : Type}

def decls : Component α → List α
  | single decl => [decl]
  | recursive decls => decls

def isRecursive : Component α → Bool
  | single _ => false
  | recursive _ => true

def map (f : α → β) : Component α → Component β
  | single decl => single (f decl)
  | recursive decls => recursive (decls.map f)

def names [Declaration α] (c : Component α) : List Name := c.decls.map Declaration.declared

end Component

namespace Dependency

namespace Graph

/-- The positions that reach a position and are reached from it, given what every position
reaches. -/
def classOf (reached : List (List Nat)) (i : Nat) : List Nat :=
  (List.range reached.length).filter fun j =>
    j ∈ reached[i]?.getD [] && i ∈ reached[j]?.getD []

/-- The classes of positions that reach each other, by their first positions. -/
def classes (g : Graph) : List (List Nat) :=
  let reached := (List.range g.size).map g.reachable
  (List.range g.size).filterMap fun i =>
    let members := classOf reached i
    if members.head? = some i then some members else none

/-- The classes in dependency order. -/
def order (g : Graph) : List (List Nat) := g.emit g.classes

/-- Whether a class is recursive: it has several members, or an edge to itself. -/
def isRecursiveClass (g : Graph) (members : List Nat) : Bool :=
  members.length > 1 || members.any fun i => g.hasEdge i i

end Graph

/-- The declarations at the positions of a class. -/
def componentAt {α : Type} (g : Graph) (decls : List α) (members : List Nat) : Component α :=
  match g.isRecursiveClass members, members.filterMap (decls[·]?) with
  | false, [decl] => .single decl
  | _, decls => .recursive decls

/-- Order declarations into components, from a listing of their strongly connected classes. -/
def componentsOf {α : Type} [Declaration α] (decls : List α) (listing : List (List Nat)) :
    List (Component α) :=
  let g := Graph.ofDecls decls
  (g.emit listing).map (componentAt g decls)

/-- Order declarations into components. -/
def components {α : Type} [Declaration α] (decls : List α) : List (Component α) :=
  componentsOf decls (Graph.ofDecls decls).classes

/-- Order declarations into components, with a warning for each name declared again. -/
def arrangeDecls {α : Type} [Declaration α] (decls : List α) : Naming (List (Component α)) := do
  (Graph.ofDecls decls).duplicates.forM fun name => Session.warn (.duplicateDeclaration name)
  return components decls

end Dependency

end StructRec
