import StructRec.Decl

/-!
# StructRec — the graph of declarations

A batch of declarations of one kind is a graph on the positions `0, 1, ..., n - 1`. Position `i` has
an edge to the first declaration of every name that declaration `i` refers to; names that nothing in
the batch declares give no edge. `Graph.reachable` lists the positions that edges lead to, the start
included.
-/

namespace StructRec

/-- A declaration as the dependency analysis sees it: the declared name and the names it refers
to. -/
class Declaration (α : Type) where
  declared : α → Name
  references : α → List Name

instance : Declaration TypeDecl where
  declared := TypeDecl.name
  references := TypeDecl.references

instance : Declaration FuncDecl where
  declared := FuncDecl.name
  references := FuncDecl.references

namespace Dependency

structure Graph where
  /-- The declared name at every position. -/
  names : List Name
  /-- The names referred to at every position, declared in the batch or not. -/
  references : List (List Name)
  /-- The positions that the edges from every position lead to. -/
  edges : List (List Nat)

namespace Graph

def ofDecls {α : Type} [Declaration α] (decls : List α) : Graph :=
  let names := decls.map Declaration.declared
  let references := decls.map Declaration.references
  { names, references, edges := references.map fun refs => refs.filterMap names.idxOf? }

def size (g : Graph) : Nat := g.names.length

/-- The position of the first declaration of a name. -/
def position? (g : Graph) (name : Name) : Option Nat := g.names.idxOf? name

def successors (g : Graph) (i : Nat) : List Nat := g.edges[i]?.getD []

def hasEdge (g : Graph) (i j : Nat) : Bool := j ∈ g.successors i

/-- Names declared by an earlier position too, one for every later declaration. -/
def duplicates (g : Graph) : List Name :=
  (g.names.zipIdx.filter fun (name, i) => name ∈ g.names.take i).map Prod.fst

/-! ## Queries by name -/

/-- The names that the first declaration of a name refers to. -/
def referencesOf? (g : Graph) (name : Name) : Option (List Name) := do
  let i ← g.position? name
  g.references[i]?

/-- The names that the first declaration of a name depends on, in the order of their
declarations. -/
def dependenciesOf (g : Graph) (name : Name) : List Name :=
  match g.position? name with
  | none => []
  | some i => (g.names.zipIdx.filter fun (_, j) => g.hasEdge i j).map Prod.fst

def hasEdgeBetween (g : Graph) (source target : Name) : Bool :=
  match g.position? source, g.position? target with
  | some i, some j => g.hasEdge i j
  | _, _ => false

/-! ## Reachability -/

/-- Follow the edges from a frontier for some steps, past the positions seen. -/
def spread (g : Graph) : Nat → List Nat → List Nat → List Nat
  | 0, seen, _ => seen
  | steps + 1, seen, frontier =>
    let new := (frontier.flatMap g.successors).eraseDups.filter (· ∉ seen)
    if new.isEmpty then seen else g.spread steps (seen ++ new) new

/-- The positions that zero or more edges lead to. Each step finds a new position, so there are at
most as many steps as positions. -/
def reachable (g : Graph) (i : Nat) : List Nat := g.spread g.size [i] [i]

end Graph

end Dependency

end StructRec
