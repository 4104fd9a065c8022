import Mathlib.Data.List.Basic
import StructRec.Expr.FreeVars

/-!
# StructRec — expressions without bound names

A `Nameless` term is what remains of an expression if bound variables lose their names: a bound
variable is the number of binders between it and its own, a free one keeps its name. Notes and the
annotations of binders are dropped. So two expressions are the same up to the names of bound
variables, spans and annotations exactly if their nameless terms are equal (`Expr.nameless`).
Visible type applications apart, all forms of expressions are nodes with parts, and each part says
how many variables the node binds in it; of several binders of one name in a list the last one binds
(`binderIndex?`).

What is done to free variables is one operation, `Nameless.mapFree`, which knows how many variables
are bound around each of them. Binding names is a case of it (`Nameless.capture`), and so is
simultaneous substitution (`Nameless.subst`): what is put in has no bound variable to get caught, so
no name is ever in the way.
-/

namespace StructRec

variable {n : Name}

/-- A pattern apart from the variables that it binds. -/
inductive PatternShape where
  | con (name : Name)
  | lit (value : Int64)
  | var
  | wildcard

def Pattern.shape : Pattern → PatternShape
  | con name _ => .con name
  | lit value => .lit value
  | var _ => .var
  | wildcard => .wildcard

/-- What a node of an expression is, apart from its parts. -/
inductive Former where
  | con (name : Name)
  | intLit (value : Int64)
  | undefined
  | error (message : String)
  | app
  | cond
  | case (patterns : List PatternShape)
  | lam
  | letRec

/-- An expression in which bound variables have no names. -/
inductive Nameless where
  /-- The variable of the binder that this many binders stand in between. -/
  | bound (index : Nat)
  | free (name : Name)
  | typeApp (fn : Nameless) (ty : Ty)
  /-- Every part comes with the number of variables that are bound in it. -/
  | node (former : Former) (parts : List (Nat × Nameless))

/-- The number of binders in a list that come after the last one of a name. -/
def binderIndex? (n : Name) : List Name → Option Nat
  | [] => none
  | x :: rest => (binderIndex? n rest).or (if x = n then some rest.length else none)

/-- A name has no index if it is not bound. -/
theorem binderIndex?_eq_none {names : List Name} : binderIndex? n names = none ↔ n ∉ names := by
  induction names with
  | nil => simp [binderIndex?]
  | cons x rest ih =>
    rw [binderIndex?, Option.or_eq_none_iff, ih, List.mem_cons, not_or]
    by_cases h : x = n
    · simp [h]
    · simp [h, Ne.symm h]

theorem exists_binderIndex {names : List Name} (h : n ∈ names) :
    ∃ i, binderIndex? n names = some i := by
  rw [← Option.isSome_iff_exists, ← Option.ne_none_iff_isSome]
  exact fun hnone => binderIndex?_eq_none.mp hnone h

/-- An index counts binders. -/
theorem binderIndex?_lt {names : List Name} {i : Nat} (h : binderIndex? n names = some i) :
    i < names.length := by
  induction names with
  | nil => cases h
  | cons x rest ih =>
    rw [binderIndex?] at h
    rw [List.length_cons]
    -- a later binder of the name comes first
    cases hrest : binderIndex? n rest with
    | some j =>
      rw [hrest, Option.some_or] at h
      obtain rfl := Option.some.inj h
      exact Nat.lt_succ_of_lt (ih hrest)
    | none =>
      rw [hrest, Option.none_or] at h
      split at h
      · obtain rfl := Option.some.inj h
        exact Nat.lt_succ_self _
      · cases h

theorem binderIndex?_cons_of_mem {rest : List Name} (x : Name) (h : n ∈ rest) :
    binderIndex? n (x :: rest) = binderIndex? n rest := by
  rw [binderIndex?]
  cases hrest : binderIndex? n rest with
  | some i => rfl
  | none => exact absurd h (binderIndex?_eq_none.mp hrest)

theorem binderIndex?_cons_of_notMem {rest : List Name} (x : Name) (h : n ∉ rest) :
    binderIndex? n (x :: rest) = if x = n then some rest.length else none := by
  rw [binderIndex?, binderIndex?_eq_none.mpr h, Option.none_or]

/-- A binder in front of binders that keep their places. -/
theorem binderIndex?_cons_later {m : Name} {names names' : List Name} (x x' : Name) (hn : n ∈ names)
    (h : binderIndex? m names' = binderIndex? n names) :
    binderIndex? m (x' :: names') = binderIndex? n (x :: names) := by
  have hm : m ∈ names' := by
    by_contra hnot
    rw [binderIndex?_eq_none.mpr hnot] at h
    exact binderIndex?_eq_none.mp h.symm hn
  rw [binderIndex?_cons_of_mem x' hm, binderIndex?_cons_of_mem x hn, h]

/-- Binders that are the last of their names keep their place in front. -/
theorem binderIndex?_cons_first {x x' : Name} {names names' : List Name} (hx : x ∉ names)
    (hx' : x' ∉ names') (hlength : names'.length = names.length) :
    binderIndex? x' (x' :: names') = binderIndex? x (x :: names) := by
  rw [binderIndex?_cons_of_notMem x' hx', binderIndex?_cons_of_notMem x hx, if_pos rfl,
    if_pos rfl, hlength]

namespace Nameless

/-! ## Free variables -/

mutual

/-- The free variables, in reading order. -/
def freeNames : Nameless → List Name
  | bound _ => []
  | free n => [n]
  | typeApp fn _ => fn.freeNames
  | node _ parts => freeNamesParts parts

def freeNamesParts : List (Nat × Nameless) → List Name
  | [] => []
  | (_, part) :: rest => part.freeNames ++ freeNamesParts rest

end

mutual

/-- The visible type arguments, in reading order. -/
def typeArgs : Nameless → List Ty
  | bound _ | free _ => []
  | typeApp fn ty => fn.typeArgs ++ [ty]
  | node _ parts => typeArgsParts parts

def typeArgsParts : List (Nat × Nameless) → List Ty
  | [] => []
  | (_, part) :: rest => part.typeArgs ++ typeArgsParts rest

end

mutual

/-- Replace every free variable, knowing how many variables are bound around it, and change the type
arguments. -/
def mapFree (f : Nat → Name → Nameless) (g : Ty → Ty) (depth : Nat) : Nameless → Nameless
  | bound i => bound i
  | free n => f depth n
  | typeApp fn ty => typeApp (fn.mapFree f g depth) (g ty)
  | node former parts => node former (mapFreeParts f g depth parts)

def mapFreeParts (f : Nat → Name → Nameless) (g : Ty → Ty) (depth : Nat) :
    List (Nat × Nameless) → List (Nat × Nameless)
  | [] => []
  | (count, part) :: rest =>
      (count, part.mapFree f g (depth + count)) :: mapFreeParts f g depth rest

end

mutual

/-- Every bound variable has its binder, of which this many are outside of the term. -/
def ClosedAt (depth : Nat) : Nameless → Prop
  | bound i => i < depth
  | free _ => True
  | typeApp fn _ => fn.ClosedAt depth
  | node _ parts => ClosedAtParts depth parts

def ClosedAtParts (depth : Nat) : List (Nat × Nameless) → Prop
  | [] => True
  | (count, part) :: rest => part.ClosedAt (depth + count) ∧ ClosedAtParts depth rest

end

mutual

/-- Put a term without unbound variables in the place of the variable that is bound this far
outside. -/
def instantiate (arg : Nameless) (depth : Nat) : Nameless → Nameless
  | bound i => if i = depth then arg else bound i
  | free n => free n
  | typeApp fn ty => typeApp (instantiate arg depth fn) ty
  | node former parts => node former (instantiateParts arg depth parts)

def instantiateParts (arg : Nameless) (depth : Nat) : List (Nat × Nameless) → List (Nat × Nameless)
  | [] => []
  | (count, part) :: rest =>
      (count, instantiate arg (depth + count) part) :: instantiateParts arg depth rest

end

/-- What a variable becomes where names are bound. -/
def captureVar (names : List Name) (depth : Nat) (n : Name) : Nameless :=
  match binderIndex? n names with
  | some i => bound (depth + i)
  | none => free n

/-- Bind names around a term. -/
def capture (names : List Name) (depth : Nat) (t : Nameless) : Nameless :=
  t.mapFree (captureVar names) id depth

/-- A term as a part in which names are bound. -/
def under (names : List Name) (t : Nameless) : Nat × Nameless := (names.length, t.capture names 0)

/-- Replace all free variables at once, and change the type arguments outside of what is put in. -/
def subst (v : Name → Nameless) (g : Ty → Ty) (t : Nameless) : Nameless :=
  t.mapFree (fun _ n => v n) g 0

/-! ## Induction over parts -/

mutual

/-- A node may use what holds of its parts. -/
@[elab_as_elim, induction_eliminator]
theorem induction {motive : Nameless → Prop} (bound : ∀ index, motive (bound index))
    (free : ∀ name, motive (free name)) (typeApp : ∀ fn ty, motive fn → motive (typeApp fn ty))
    (node : ∀ former parts, (∀ part ∈ parts, motive part.2) → motive (node former parts)) :
    (t : Nameless) → motive t
  | .bound index => bound index
  | .free name => free name
  | .typeApp fn ty => typeApp fn ty (induction bound free typeApp node fn)
  | .node former parts => node former parts (inductionParts bound free typeApp node parts)

/-- **Induction** over terms, with all parts of a node at once. -/
theorem inductionParts {motive : Nameless → Prop} (bound : ∀ index, motive (.bound index))
    (free : ∀ name, motive (.free name)) (typeApp : ∀ fn ty, motive fn → motive (.typeApp fn ty))
    (node : ∀ former parts, (∀ part ∈ parts, motive part.2) → motive (.node former parts)) :
    (parts : List (Nat × Nameless)) → ∀ part ∈ parts, motive part.2
  | [] => List.forall_mem_nil _
  | (_, part) :: rest =>
    List.forall_mem_cons.mpr
      ⟨induction bound free typeApp node part, inductionParts bound free typeApp node rest⟩

end

section

variable {f f' : Nat → Name → Nameless} {g g' : Ty → Ty} {depth : Nat}
  {parts : List (Nat × Nameless)} {former : Former}

theorem freeNames_node : (node former parts).freeNames = parts.flatMap (·.2.freeNames) := by
  rw [freeNames]
  induction parts with
  | nil => rfl
  | cons part rest ih => exact congrArg (part.2.freeNames ++ ·) ih

theorem typeArgs_node : (node former parts).typeArgs = parts.flatMap (·.2.typeArgs) := by
  rw [typeArgs]
  induction parts with
  | nil => rfl
  | cons part rest ih => exact congrArg (part.2.typeArgs ++ ·) ih

theorem mapFree_node : (node former parts).mapFree f g depth
    = node former (parts.map fun part => (part.1, part.2.mapFree f g (depth + part.1))) := by
  rw [mapFree]
  congr 1
  induction parts with
  | nil => rfl
  | cons part rest ih => exact congrArg ((part.1, part.2.mapFree f g (depth + part.1)) :: ·) ih

theorem closedAt_node : (node former parts).ClosedAt depth ↔
    ∀ part ∈ parts, part.2.ClosedAt (depth + part.1) := by
  rw [ClosedAt]
  induction parts with
  | nil => simp [ClosedAtParts]
  | cons part rest ih => rw [ClosedAtParts, ih, List.forall_mem_cons]

theorem instantiate_node {arg : Nameless} : instantiate arg depth (node former parts)
    = node former (parts.map fun part => (part.1, instantiate arg (depth + part.1) part.2)) := by
  rw [instantiate]
  congr 1
  induction parts with
  | nil => rfl
  | cons part rest ih => exact congrArg ((part.1, instantiate arg (depth + part.1) part.2) :: ·) ih

end

/-! ## Operations on free variables -/

section

variable {f f' : Nat → Name → Nameless} {g g' : Ty → Ty} {v v' : Name → Nameless}
  {names names' : List Name}
variable {t : Nameless} {depth : Nat}

/-- Two operations in a row are one: what the first puts in is changed by the second, where it
stands. -/
theorem mapFree_mapFree (t : Nameless) (depth : Nat) :
    (t.mapFree f g depth).mapFree f' g' depth =
      t.mapFree (fun depth n => (f depth n).mapFree f' g' depth) (g' ∘ g) depth := by
  induction t generalizing depth with
  | bound i => rfl
  | free n => rfl
  | typeApp fn ty ih => exact congrArg (typeApp · (g' (g ty))) (ih depth)
  | node former parts ih =>
    rw [mapFree_node, mapFree_node, mapFree_node, List.map_map]
    congr 1
    exact List.map_congr_left fun part hpart => congrArg (Prod.mk part.1) (ih part hpart _)

/-- Only the variables and the type arguments that occur decide what an operation does. -/
theorem mapFree_congr (hf : ∀ n ∈ t.freeNames, ∀ depth, f depth n = f' depth n)
    (hg : ∀ ty ∈ t.typeArgs, g ty = g' ty) : t.mapFree f g depth = t.mapFree f' g' depth := by
  induction t generalizing depth with
  | bound i => rfl
  | free n => exact hf n (List.mem_singleton.mpr rfl) depth
  | typeApp fn ty ih =>
    rw [typeArgs, List.forall_mem_append, List.forall_mem_singleton] at hg
    exact congrArg₂ typeApp (ih hf hg.1) hg.2
  | node former parts ih =>
    rw [freeNames_node] at hf
    rw [typeArgs_node] at hg
    rw [mapFree_node, mapFree_node]
    congr 1
    refine List.map_congr_left fun part hpart =>
      congrArg (Prod.mk part.1) (ih part hpart (fun n hn => ?_) fun ty hty => ?_)
    · exact hf n (List.mem_flatMap.mpr ⟨part, hpart, hn⟩)
    · exact hg ty (List.mem_flatMap.mpr ⟨part, hpart, hty⟩)

/-- An operation that does not look at the depth does the same at every depth. -/
theorem mapFree_eq_subst (t : Nameless) (depth : Nat) :
    t.mapFree (fun _ n => v n) g depth = t.subst v g := by
  unfold subst
  generalize 0 = depth'
  induction t generalizing depth depth' with
  | bound i => rfl
  | free n => rfl
  | typeApp fn ty ih => exact congrArg (typeApp · (g ty)) (ih depth depth')
  | node former parts ih =>
    rw [mapFree_node, mapFree_node]
    congr 1
    exact List.map_congr_left fun part hpart => congrArg (Prod.mk part.1) (ih part hpart _ _)

theorem subst_node {former : Former} {parts : List (Nat × Nameless)} : (node former parts).subst v g
    = node former (parts.map fun part => (part.1, part.2.subst v g)) := by
  rw [subst, mapFree_node]
  congr 1
  exact List.map_congr_left fun part _ => congrArg (Prod.mk part.1) (mapFree_eq_subst part.2 _)

theorem subst_congr (hv : ∀ n ∈ t.freeNames, v n = v' n) (hg : ∀ ty ∈ t.typeArgs, g ty = g' ty) :
    t.subst v g = t.subst v' g' := mapFree_congr (fun n hn _ => hv n hn) hg

/-- Replacing variables by themselves changes nothing. -/
theorem mapFree_self (t : Nameless) (depth : Nat) : t.mapFree (fun _ n => free n) id depth = t := by
  induction t generalizing depth with
  | bound i => rfl
  | free n => rfl
  | typeApp fn ty ih => exact congrArg (typeApp · ty) (ih depth)
  | node former parts ih =>
    rw [mapFree_node]
    congr 1
    exact (List.map_congr_left fun part hpart => congrArg (Prod.mk part.1) (ih part hpart _)).trans
      (List.map_id' parts)

/-- Replacing each variable by itself changes nothing. -/
theorem subst_self (hv : ∀ n ∈ t.freeNames, v n = free n) (hg : ∀ ty ∈ t.typeArgs, g ty = ty) :
    t.subst v g = t := (subst_congr hv hg).trans (mapFree_self t 0)

/-! ## Binding names -/

theorem captureVar_of_notMem (h : n ∉ names) (depth : Nat) : captureVar names depth n = free n := by
  rw [captureVar, binderIndex?_eq_none.mpr h]

theorem captureVar_of_index {i : Nat} (h : binderIndex? n names = some i) (depth : Nat) :
    captureVar names depth n = bound (depth + i) := by rw [captureVar, h]

theorem capture_node {former : Former} {parts : List (Nat × Nameless)} :
    (node former parts).capture names depth
      = node former
        (parts.map fun part => (part.1, part.2.capture names (depth + part.1))) := mapFree_node

/-- Names that do not occur are bound in vain. -/
theorem capture_of_disjoint (h : ∀ n ∈ t.freeNames, n ∉ names) (depth : Nat) :
    t.capture names depth = t :=
  (mapFree_congr (fun n hn depth => captureVar_of_notMem (h n hn) depth) fun _ _ => rfl).trans
    (mapFree_self t depth)

/-- **Substitution under binders.** The variables of the binders may have other names afterwards;
every variable must then become what it becomes outside. -/
theorem capture_subst
    (h : ∀ n ∈ t.freeNames, ∀ depth,
      (v' n).capture names' depth = (captureVar names depth n).subst v g) (depth : Nat) :
    (t.subst v' g).capture names' depth = (t.capture names depth).subst v g := by
  unfold capture at h ⊢
  rw [← mapFree_eq_subst t depth, ← mapFree_eq_subst _ depth, mapFree_mapFree, mapFree_mapFree]
  refine mapFree_congr (fun n hn depth => ?_) fun _ _ => rfl
  rw [h n hn depth]
  exact (mapFree_eq_subst _ depth).symm

/-- Names that are bound do not occur free afterwards. -/
theorem freeNames_capture (t : Nameless) (names : List Name) (depth : Nat) :
    (t.capture names depth).freeNames = t.freeNames.filter (· ∉ names) := by
  induction t generalizing depth with
  | bound i => rfl
  | free n =>
    change (captureVar names depth n).freeNames = [n].filter (· ∉ names)
    -- a captured name is free no more, any other still is
    cases hindex : binderIndex? n names with
    | some i =>
      have hmem : n ∈ names := by
        by_contra hnot
        rw [binderIndex?_eq_none.mpr hnot] at hindex
        cases hindex
      rw [captureVar_of_index hindex, List.filter_cons_of_neg (by simpa using hmem)]
      rfl
    | none =>
      have hnot := binderIndex?_eq_none.mp hindex
      rw [captureVar_of_notMem hnot, List.filter_cons_of_pos (by simpa using hnot)]
      rfl
  | typeApp fn ty ih => exact ih depth
  | node former parts ih =>
    rw [capture_node, freeNames_node, freeNames_node, List.flatMap_map, List.filter_flatMap]
    exact List.flatMap_congr fun part hpart => ih part hpart _

theorem freeNames_under (t : Nameless) (names : List Name) :
    (t.under names).2.freeNames = t.freeNames.filter (· ∉ names) := freeNames_capture t names 0

theorem typeArgs_captureVar (depth : Nat) (n : Name) :
    (captureVar names depth n).typeArgs = [] := by
  rw [captureVar]
  split <;> rfl

/-- Replacements without types leave the type arguments where they are. -/
theorem typeArgs_mapFree (t : Nameless) (depth : Nat) (hf : ∀ depth n, (f depth n).typeArgs = []) :
    (t.mapFree f g depth).typeArgs = t.typeArgs.map g := by
  induction t generalizing depth with
  | bound i => rfl
  | free n => exact hf depth n
  | typeApp fn ty ih =>
    rw [mapFree, typeArgs, typeArgs, List.map_append, ih]
    rfl
  | node former parts ih =>
    rw [mapFree_node, typeArgs_node, typeArgs_node, List.flatMap_map, List.map_flatMap]
    exact List.flatMap_congr fun part hpart => ih part hpart _

theorem typeArgs_capture (t : Nameless) (names : List Name) (depth : Nat) :
    (t.capture names depth).typeArgs = t.typeArgs :=
  (typeArgs_mapFree t depth typeArgs_captureVar).trans (List.map_id _)

/-- What a substitution leaves free is free in the replacement of an occurrence. -/
theorem freeNames_subst (t : Nameless) :
    (t.subst v g).freeNames = t.freeNames.flatMap fun n => (v n).freeNames := by
  induction t with
  | bound i => rfl
  | free n => exact (List.flatMap_singleton (fun n => (v n).freeNames) n).symm
  | typeApp fn ty ih => exact ih
  | node former parts ih =>
    rw [subst_node, freeNames_node, freeNames_node, List.flatMap_map, List.flatMap_assoc]
    exact List.flatMap_congr fun part hpart => ih part hpart

/-! ## Bound variables and their binders -/

/-- Captured names are bound by the new binders. -/
theorem ClosedAt.capture (h : t.ClosedAt depth) (names : List Name) :
    (t.capture names depth).ClosedAt (depth + names.length) := by
  induction t generalizing depth with
  | bound i => exact Nat.lt_add_right _ h
  | free n =>
    change (captureVar names depth n).ClosedAt (depth + names.length)
    rw [captureVar]
    split
    · next i hindex => exact Nat.add_lt_add_left (binderIndex?_lt hindex) depth
    · trivial
  | typeApp fn ty ih => exact ih h
  | node former parts ih =>
    rw [closedAt_node] at h
    rw [capture_node, closedAt_node, List.forall_mem_map]
    intro part hpart
    rw [Nat.add_right_comm]
    exact ih part hpart (h part hpart)

theorem ClosedAt.under (h : t.ClosedAt 0) (names : List Name) :
    (t.under names).2.ClosedAt (0 + (t.under names).1) := h.capture names

/-- **A value for the first of some variables.** It takes the place of the variable itself, whether
the variables have been bound or not. -/
theorem instantiate_capture {arg : Nameless} {x : Name} (hclosed : t.ClosedAt depth)
    (hx : x ∉ names) (harg : ∀ n ∈ arg.freeNames, n ∉ names) :
    instantiate arg (depth + names.length) (t.capture (x :: names) depth)
      = (t.subst (fun n => if x = n then arg else free n) id).capture names depth := by
  induction t generalizing depth with
  | bound i =>
    have hne : i ≠ depth + names.length := by
      have hlt : i < depth := hclosed
      omega
    exact if_neg hne
  | free n =>
    change instantiate arg _ (captureVar (x :: names) depth n) =
      (if x = n then arg else free n).capture names depth
    by_cases hn : n ∈ names
    · -- another of the variables keeps its index, which is below that of `x`
      have hne : x ≠ n := fun heq => hx (heq ▸ hn)
      rw [if_neg hne, captureVar, binderIndex?_cons_of_mem x hn]
      change _ = captureVar names depth n
      obtain ⟨i, hindex⟩ := exists_binderIndex hn
      have hlt := binderIndex?_lt hindex
      rw [hindex, captureVar_of_index hindex]
      exact if_neg (by omega)
    · rw [captureVar, binderIndex?_cons_of_notMem x hn]
      by_cases heq : x = n
      · rw [if_pos heq, if_pos heq, capture_of_disjoint harg]
        exact if_pos rfl
      · rw [if_neg heq, if_neg heq]
        exact (captureVar_of_notMem hn depth).symm
  | typeApp fn ty ih => exact congrArg (typeApp · ty) (ih hclosed)
  | node former parts ih =>
    rw [closedAt_node] at hclosed
    rw [capture_node, subst_node, capture_node, instantiate_node, List.map_map, List.map_map]
    congr 1
    refine List.map_congr_left fun part hpart => congrArg (Prod.mk part.1) ?_
    rw [Nat.add_right_comm]
    exact ih part hpart (hclosed part hpart)

end

end Nameless

/-! ## Expressions -/

namespace Expr

mutual

/-- An expression without the names of its bound variables, spans and annotations. -/
def nameless : Expr → Nameless
  | var _ name => .free name
  | con _ name => .node (.con name) []
  | intLit _ value => .node (.intLit value) []
  | undefined _ => .node .undefined []
  | error _ message => .node (.error message) []
  | app _ fn arg => .node .app [(0, fn.nameless), (0, arg.nameless)]
  | typeApp _ fn ty => .typeApp fn.nameless ty
  | cond _ test thenBranch elseBranch =>
    .node .cond [(0, test.nameless), (0, thenBranch.nameless), (0, elseBranch.nameless)]
  | case _ scrutinee alts =>
    .node (.case (alts.map (·.1.shape))) ((0, scrutinee.nameless) :: namelessAlts alts)
  | lam _ params body => .node .lam [body.nameless.under (binderNames params)]
  | letRec _ binds body =>
    .node .letRec
      (namelessRhss (Binds.names binds) binds ++ [body.nameless.under (Binds.names binds)])

def namelessAlts : Alts → List (Nat × Nameless)
  | [] => []
  | (pattern, rhs) :: rest => rhs.nameless.under pattern.names :: namelessAlts rest

def namelessRhss (names : List Name) : Binds → List (Nat × Nameless)
  | [] => []
  | (_, rhs) :: rest => rhs.nameless.under names :: namelessRhss names rest

end

theorem namelessAlts_eq (alts : Alts) :
    namelessAlts alts = alts.map fun alt => alt.2.nameless.under alt.1.names := by
  induction alts with
  | nil => rfl
  | cons alt rest ih => exact congrArg (alt.2.nameless.under alt.1.names :: ·) ih

theorem namelessRhss_eq (names : List Name) (binds : Binds) :
    namelessRhss names binds = (Binds.rhss binds).map (·.nameless.under names) := by
  induction binds with
  | nil => rfl
  | cons bind rest ih => exact congrArg (bind.2.nameless.under names :: ·) ih

mutual

/-- The free variables keep their names. -/
theorem freeNames_nameless : (e : Expr) → e.nameless.freeNames = e.freeOccs
  | var .. | con .. | intLit .. | undefined _ | error .. => rfl
  | app _ fn arg => by
    simp [nameless, Nameless.freeNames_node, freeOccs, freeNames_nameless fn,
      freeNames_nameless arg]
  | typeApp _ fn _ => freeNames_nameless fn
  | cond _ test thenBranch elseBranch => by
    simp [nameless, Nameless.freeNames_node, freeOccs, freeNames_nameless test,
      freeNames_nameless thenBranch, freeNames_nameless elseBranch]
  | case _ scrutinee alts => by
    rw [nameless, Nameless.freeNames_node, List.flatMap_cons, freeNames_nameless scrutinee,
      freeNames_namelessAlts alts]
    rfl
  | lam _ params body => by
    rw [nameless, Nameless.freeNames_node, List.flatMap_singleton, Nameless.freeNames_under,
      freeNames_nameless body]
    rfl
  -- the names are bound in all right-hand sides and in the body
  | letRec _ binds body => by
    rw [nameless, Nameless.freeNames_node, List.flatMap_append, List.flatMap_singleton,
      Nameless.freeNames_under,
      freeNames_nameless body, freeNames_namelessRhss _ binds, ← List.filter_append]
    rfl

theorem freeNames_namelessAlts : (alts : Alts) →
    (namelessAlts alts).flatMap (·.2.freeNames) = freeOccsAlts alts
  | [] => rfl
  | (_, rhs) :: rest => by
    rw [namelessAlts, List.flatMap_cons, Nameless.freeNames_under, freeNames_nameless rhs,
      freeNames_namelessAlts rest]
    rfl

theorem freeNames_namelessRhss (names : List Name) :
    (binds : Binds) → (namelessRhss names binds).flatMap (·.2.freeNames) =
      (freeOccsRhss binds).filter (· ∉ names)
  | [] => rfl
  | (_, rhs) :: rest => by
    rw [namelessRhss, List.flatMap_cons, Nameless.freeNames_under, freeNames_nameless rhs,
      freeNames_namelessRhss names rest, ← List.filter_append]
    rfl

end

mutual

/-- Every bound variable of an expression has its binder there. -/
theorem closedAt_nameless : (e : Expr) → e.nameless.ClosedAt 0
  | var .. => trivial
  | con .. | intLit .. | undefined _ | error .. => trivial
  | app _ fn arg => ⟨closedAt_nameless fn, closedAt_nameless arg, trivial⟩
  | typeApp _ fn _ => closedAt_nameless fn
  | cond _ test thenBranch elseBranch =>
    ⟨closedAt_nameless test, closedAt_nameless thenBranch, closedAt_nameless elseBranch, trivial⟩
  | case _ scrutinee alts => ⟨closedAt_nameless scrutinee, closedAt_namelessAlts alts⟩
  | lam _ params body => ⟨(closedAt_nameless body).under _, trivial⟩
  | letRec _ binds body => by
    rw [nameless, Nameless.closedAt_node, List.forall_mem_append, List.forall_mem_singleton]
    exact ⟨closedAt_namelessRhss _ binds, (closedAt_nameless body).under _⟩

theorem closedAt_namelessAlts : (alts : Alts) → Nameless.ClosedAtParts 0 (namelessAlts alts)
  | [] => trivial
  | (_, rhs) :: rest => ⟨(closedAt_nameless rhs).under _, closedAt_namelessAlts rest⟩

theorem closedAt_namelessRhss (names : List Name) :
    (binds : Binds) → ∀ part ∈ namelessRhss names binds, part.2.ClosedAt (0 + part.1)
  | [] => List.forall_mem_nil _
  | (_, rhs) :: rest =>
      List.forall_mem_cons.mpr ⟨(closedAt_nameless rhs).under _, closedAt_namelessRhss names rest⟩

end

end Expr

end StructRec
