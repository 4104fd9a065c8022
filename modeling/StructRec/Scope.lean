import StructRec.Table

/-!
# StructRec — nested scopes

A `ScopeStack` says which binder a name refers to at a point of an expression. The bottom scope is
always there and holds the parameters of the function at hand; `push` opens a scope inside the
others. Binding a name again in one scope moves it to the end of that scope.
-/

namespace StructRec

/-- The bindings of one scope, in binding order. -/
abbrev Scope (α : Type) := Table α

/-- Bind a name last, whether it was bound before or not. -/
def Scope.bind {α : Type} (scope : Scope α) (name : Name) (value : α) : Scope α where
  entries := (scope.erase name).entries ++ [(name, value)]
  nodup := by
    rw [List.map_append]
    refine Table.nodup_concat (scope.erase name).nodup fun h => ?_
    have h : name ∈ scope.keys.filter (· != name) := Table.keys_filterKeys scope _ ▸ h
    simp at h

/-- Scopes inside each other, the innermost first. -/
structure ScopeStack (α : Type) where
  inner : List (Scope α) := []
  bottom : Scope α := {}

namespace ScopeStack

variable {α : Type}

/-- All scopes, the innermost first. -/
def scopes (s : ScopeStack α) : List (Scope α) := s.inner ++ [s.bottom]

/-- The number of scopes above the bottom. -/
def depth (s : ScopeStack α) : Nat := s.inner.length

/-- Open a scope inside the others. -/
def push (s : ScopeStack α) : ScopeStack α := { s with inner := {} :: s.inner }

/-- Close the innermost scope; the bottom stays. -/
def pop? (s : ScopeStack α) : Option (Scope α × ScopeStack α) :=
  match s.inner with
  | [] => none
  | scope :: rest => some (scope, { s with inner := rest })

/-- Bind a name in the innermost scope. -/
def bind (s : ScopeStack α) (name : Name) (value : α) : ScopeStack α :=
  match s.inner with
  | [] => { s with bottom := s.bottom.bind name value }
  | scope :: rest => { s with inner := scope.bind name value :: rest }

/-- Bind names in order in the innermost scope. -/
def bindAll (s : ScopeStack α) (bindings : List (Name × α)) : ScopeStack α :=
  bindings.foldl (fun s binding => s.bind binding.1 binding.2) s

/-- Open a scope with the given bindings. -/
def enter (s : ScopeStack α) (bindings : List (Name × α)) : ScopeStack α := s.push.bindAll bindings

/-- The value of the innermost binding. -/
def lookup (s : ScopeStack α) (name : Name) : Option α := s.scopes.findSome? (·.get? name)

def isDefined (s : ScopeStack α) (name : Name) : Bool := s.scopes.any (·.contains name)

/-- The depth of the scope that holds the innermost binding. -/
def bindingDepth (s : ScopeStack α) (name : Name) : Option Nat :=
  (s.scopes.findIdx? (·.contains name)).map (s.depth - ·)

/-- Whether a name is bound in the bottom scope and in no other. -/
def refersToBottom (s : ScopeStack α) (name : Name) : Bool :=
  s.bottom.contains name && !s.inner.any (·.contains name)

/-- The bindings of some scopes, the innermost first, that no scope before them hides; outermost
first. -/
def visibleFrom (hidden : Name → Bool) : List (Scope α) → List (Name × α)
  | [] => []
  | scope :: outer =>
    visibleFrom (fun name => hidden name || scope.contains name) outer
      ++ (scope.filterKeys (!hidden ·)).entries

/-- The bindings a name can refer to, outermost scope first. -/
def visible (s : ScopeStack α) : List (Name × α) := visibleFrom (fun _ => false) s.scopes

end ScopeStack

end StructRec
