import StructRec.Expr.Basic

/-!
# StructRec — free variables

Three readings of an expression: its free variables, the type variables of its annotations and
visible type applications, and whether it holds one of the markers `undefined` and `error`.
Constructors are not variables. All sets are lists in order of first occurrence.

`freeVars` walks through an expression with the names bound so far at hand. It lists the free
occurrences, each at its first place (`freeVars_eq`), which `freeOccs` gives binder by binder.
`occursFree` decides membership without building the set (`occursFree_iff_mem_freeVars`).
-/

namespace StructRec

namespace Expr

/-- Add a name to a set that lists its members in order of first occurrence. -/
def addNew (names : List Name) (name : Name) : List Name :=
  if name ∈ names then names else names ++ [name]

mutual

/-- Add the variables that are free under the names bound so far. -/
def collectFree (bound : List Name) : Expr → List Name → List Name
  | var _ name, free => if name ∈ bound then free else addNew free name
  | con _ _, free | intLit _ _, free | undefined _, free | error _ _, free => free
  | app _ fn arg, free => arg.collectFree bound (fn.collectFree bound free)
  | typeApp _ fn _, free => fn.collectFree bound free
  | cond _ test thenBranch elseBranch, free =>
    elseBranch.collectFree bound (thenBranch.collectFree bound (test.collectFree bound free))
  | case _ scrutinee alts, free => collectFreeAlts bound alts (scrutinee.collectFree bound free)
  | lam _ params body, free => body.collectFree (bound ++ binderNames params) free
  | letRec _ binds body, free =>
    body.collectFree (bound ++ Binds.names binds)
      (collectFreeRhss (bound ++ Binds.names binds) binds free)

def collectFreeAlts (bound : List Name) : Alts → List Name → List Name
  | [], free => free
  | (pattern, rhs) :: rest, free =>
    collectFreeAlts bound rest (rhs.collectFree (bound ++ pattern.names) free)

def collectFreeRhss (bound : List Name) : Binds → List Name → List Name
  | [], free => free
  | (_, rhs) :: rest, free => collectFreeRhss bound rest (rhs.collectFree bound free)

end

/-- The free variables in order of first occurrence. -/
def freeVars (e : Expr) : List Name := e.collectFree [] []

/-- The free variables of several expressions in one scope. -/
def freeVarsOfAll (es : List Expr) : List Name :=
  es.foldl (fun free e => e.freeVars.foldl addNew free) []

mutual

/-- The free occurrences of variables, in reading order. -/
def freeOccs : Expr → List Name
  | var _ name => [name]
  | con _ _ | intLit _ _ | undefined _ | error _ _ => []
  | app _ fn arg => fn.freeOccs ++ arg.freeOccs
  | typeApp _ fn _ => fn.freeOccs
  | cond _ test thenBranch elseBranch =>
    test.freeOccs ++ thenBranch.freeOccs ++ elseBranch.freeOccs
  | case _ scrutinee alts => scrutinee.freeOccs ++ freeOccsAlts alts
  | lam _ params body => body.freeOccs.filter (· ∉ binderNames params)
  | letRec _ binds body =>
    (freeOccsRhss binds ++ body.freeOccs).filter (· ∉ Binds.names binds)

def freeOccsAlts : Alts → List Name
  | [] => []
  | (pattern, rhs) :: rest => rhs.freeOccs.filter (· ∉ pattern.names) ++ freeOccsAlts rest

def freeOccsRhss : Binds → List Name
  | [] => []
  | (_, rhs) :: rest => rhs.freeOccs ++ freeOccsRhss rest

end

mutual

/-- Whether a variable occurs free. -/
def occursFree (name : Name) : Expr → Bool
  | var _ x => x = name
  | con _ _ | intLit _ _ | undefined _ | error _ _ => false
  | app _ fn arg => fn.occursFree name || arg.occursFree name
  | typeApp _ fn _ => fn.occursFree name
  | cond _ test thenBranch elseBranch =>
    test.occursFree name || thenBranch.occursFree name || elseBranch.occursFree name
  | case _ scrutinee alts => scrutinee.occursFree name || occursFreeAlts name alts
  | lam _ params body => name ∉ binderNames params && body.occursFree name
  | letRec _ binds body =>
    name ∉ Binds.names binds && (occursFreeRhss name binds || body.occursFree name)

def occursFreeAlts (name : Name) : Alts → Bool
  | [] => false
  | (pattern, rhs) :: rest =>
    (name ∉ pattern.names && rhs.occursFree name) || occursFreeAlts name rest

def occursFreeRhss (name : Name) : Binds → Bool
  | [] => false
  | (_, rhs) :: rest => rhs.occursFree name || occursFreeRhss name rest

end

/-- The occurrences of type variables in an optional annotation. -/
def annotationOccs (ty : Option Ty) : List Name := (ty.map Ty.varOccs).getD []

mutual

/-- The occurrences of type variables in annotations and visible type applications, in reading
order. -/
def typeVarOccs : Expr → List Name
  | var note _ | con note _ | intLit note _ | undefined note | error note _ =>
      annotationOccs note.ty
  | app note fn arg => annotationOccs note.ty ++ fn.typeVarOccs ++ arg.typeVarOccs
  | typeApp note fn arg => annotationOccs note.ty ++ fn.typeVarOccs ++ arg.varOccs
  | cond note test thenBranch elseBranch =>
    annotationOccs note.ty ++ test.typeVarOccs ++ thenBranch.typeVarOccs ++ elseBranch.typeVarOccs
  | case note scrutinee alts =>
    annotationOccs note.ty ++ scrutinee.typeVarOccs ++ typeVarOccsAlts alts
  | lam note params body =>
    annotationOccs note.ty ++ params.flatMap (annotationOccs ·.ty) ++ body.typeVarOccs
  | letRec note binds body => annotationOccs note.ty ++ typeVarOccsBinds binds ++ body.typeVarOccs

def typeVarOccsAlts : Alts → List Name
  | [] => []
  | (pattern, rhs) :: rest =>
    pattern.binders.flatMap (annotationOccs ·.ty) ++ rhs.typeVarOccs ++ typeVarOccsAlts rest

def typeVarOccsBinds : Binds → List Name
  | [] => []
  | (binder, rhs) :: rest => annotationOccs binder.ty ++ rhs.typeVarOccs ++ typeVarOccsBinds rest

end

/-- The type variables of annotations and visible type applications, in order of first
occurrence. -/
def freeTypeVars (e : Expr) : List Name := e.typeVarOccs.eraseDups

/-- The name under which `undefined` is referred to. -/
def undefinedKey : Name := "undefined"

/-- The name under which `error` is referred to. -/
def errorKey : Name := "error"

mutual

/-- The markers `undefined` and `error` in reading order. -/
def markers : Expr → List Name
  | undefined _ => [undefinedKey]
  | error _ _ => [errorKey]
  | var _ _ | con _ _ | intLit _ _ => []
  | app _ fn arg => fn.markers ++ arg.markers
  | typeApp _ fn _ => fn.markers
  | cond _ test thenBranch elseBranch => test.markers ++ thenBranch.markers ++ elseBranch.markers
  | case _ scrutinee alts => scrutinee.markers ++ markersAlts alts
  | lam _ _ body => body.markers
  | letRec _ binds body => markersRhss binds ++ body.markers

def markersAlts : Alts → List Name
  | [] => []
  | (_, rhs) :: rest => rhs.markers ++ markersAlts rest

def markersRhss : Binds → List Name
  | [] => []
  | (_, rhs) :: rest => rhs.markers ++ markersRhss rest

end

/-- Whether one of the markers `undefined` and `error` occurs. -/
def hasMarker (e : Expr) : Bool := !e.markers.isEmpty

/-! ## The free variables are the free occurrences -/

/-- Adding names one by one leaves their first occurrences, after what was there. -/
theorem foldl_addNew (names acc : List Name) :
    names.foldl addNew acc = acc ++ (names.filter (· ∉ acc)).eraseDups := by
  induction names generalizing acc with
  | nil => simp
  | cons name rest ih =>
    rw [List.foldl_cons, ih, addNew]
    split
    · next hmem => simp [hmem]
    · next hmem =>
      have hfilter : ∀ x ∈ rest,
          decide (x ∉ acc ++ [name]) = ((!x == name) && decide (x ∉ acc)) := by
        intro x _
        by_cases h : x = name <;> simp [h]
      rw [List.filter_cons_of_pos (by simpa using hmem), List.eraseDups_cons, List.filter_filter,
        List.filter_congr hfilter, List.append_assoc, List.singleton_append]

/-- What is free inside of some binders, under the names bound outside. -/
theorem filter_notMem_append (occs bound names : List Name) :
    occs.filter (· ∉ bound ++ names) = (occs.filter (· ∉ names)).filter (· ∉ bound) := by
  simp [List.filter_filter]

mutual

/-- The walk adds the occurrences that are free in the expression and not bound outside of it. -/
theorem collectFree_eq : (e : Expr) → (bound free : List Name) →
    e.collectFree bound free = (e.freeOccs.filter (· ∉ bound)).foldl addNew free
  | var _ name, bound, free => by by_cases h : name ∈ bound <;> simp [collectFree, freeOccs, h]
  | con _ _, _, _ | intLit _ _, _, _ | undefined _, _, _ | error _ _, _, _ => rfl
  | app _ fn arg, bound, free => by
    rw [collectFree, collectFree_eq fn, collectFree_eq arg, freeOccs, List.filter_append,
      List.foldl_append]
  | typeApp _ fn _, bound, free => collectFree_eq fn bound free
  | cond _ test thenBranch elseBranch, bound, free => by
    rw [collectFree, collectFree_eq test, collectFree_eq thenBranch, collectFree_eq elseBranch,
      freeOccs, List.filter_append, List.foldl_append, List.filter_append, List.foldl_append]
  | case _ scrutinee alts, bound, free => by
    rw [collectFree, collectFree_eq scrutinee, collectFreeAlts_eq alts, freeOccs,
      List.filter_append, List.foldl_append]
  | lam _ params body, bound, free => by
    rw [collectFree, collectFree_eq body, filter_notMem_append, freeOccs]
  -- the binders hide names in right-hand sides and body
  | letRec _ binds body, bound, free => by
    rw [collectFree, collectFreeRhss_eq binds, collectFree_eq body, ← List.foldl_append,
      ← List.filter_append, filter_notMem_append, freeOccs]

theorem collectFreeAlts_eq : (alts : Alts) → (bound free : List Name) →
    collectFreeAlts bound alts free = ((freeOccsAlts alts).filter (· ∉ bound)).foldl addNew free
  | [], _, _ => rfl
  | (pattern, rhs) :: rest, bound, free => by
    rw [collectFreeAlts, collectFree_eq rhs, collectFreeAlts_eq rest, filter_notMem_append,
      freeOccsAlts, List.filter_append, List.foldl_append]

theorem collectFreeRhss_eq : (binds : Binds) → (bound free : List Name) →
    collectFreeRhss bound binds free = ((freeOccsRhss binds).filter (· ∉ bound)).foldl addNew free
  | [], _, _ => rfl
  | (_, rhs) :: rest, bound, free => by
    rw [collectFreeRhss, collectFree_eq rhs, collectFreeRhss_eq rest, freeOccsRhss,
      List.filter_append, List.foldl_append]

end

/-- **The free variables** are the free occurrences, each at its first place. -/
theorem freeVars_eq (e : Expr) : e.freeVars = e.freeOccs.eraseDups := by
  have hall : e.freeOccs.filter (· ∉ ([] : List Name)) = e.freeOccs :=
    List.filter_eq_self.mpr fun _ _ => decide_eq_true List.not_mem_nil
  rw [freeVars, collectFree_eq, foldl_addNew, List.nil_append, hall, hall]

theorem mem_freeVars {e : Expr} {name : Name} : name ∈ e.freeVars ↔ name ∈ e.freeOccs := by
  rw [freeVars_eq, List.mem_eraseDups]

theorem mem_foldl_addNew {names acc : List Name} {name : Name} :
    name ∈ names.foldl addNew acc ↔ name ∈ acc ∨ name ∈ names := by
  rw [foldl_addNew, List.mem_append, List.mem_eraseDups, List.mem_filter]
  by_cases h : name ∈ acc <;> simp [h]

/-- What is free in several expressions is free in one of them. -/
theorem mem_freeVarsOfAll {es : List Expr} {name : Name} :
    name ∈ freeVarsOfAll es ↔ name ∈ es.flatMap freeOccs := by
  have hfold : ∀ acc : List Name, name ∈ es.foldl (fun free e => e.freeVars.foldl addNew free) acc ↔
      name ∈ acc ∨ name ∈ es.flatMap freeOccs := by
    induction es with
    | nil => simp
    | cons e rest ih =>
      intro acc
      rw [List.foldl_cons, ih, mem_foldl_addNew, mem_freeVars, List.flatMap_cons, List.mem_append,
        or_assoc]
  rw [freeVarsOfAll, hfold, or_iff_right List.not_mem_nil]

/-! ## The test for a variable -/

mutual

/-- The search for one name finds it where it is listed. -/
theorem occursFree_iff_mem_freeOccs (name : Name) :
    (e : Expr) → (e.occursFree name = true ↔ name ∈ e.freeOccs)
  | var _ x => by simp [occursFree, freeOccs, eq_comm]
  | con _ _ | intLit _ _ | undefined _ | error _ _ => by simp [occursFree, freeOccs]
  | app _ fn arg => by
    simp [occursFree, freeOccs, occursFree_iff_mem_freeOccs name fn,
      occursFree_iff_mem_freeOccs name arg]
  | typeApp _ fn _ => by simp [occursFree, freeOccs, occursFree_iff_mem_freeOccs name fn]
  | cond _ test thenBranch elseBranch => by
    simp [occursFree, freeOccs, occursFree_iff_mem_freeOccs name test,
      occursFree_iff_mem_freeOccs name thenBranch,
        occursFree_iff_mem_freeOccs name elseBranch, or_assoc]
  | case _ scrutinee alts => by
    simp [occursFree, freeOccs, occursFree_iff_mem_freeOccs name scrutinee,
      occursFreeAlts_iff_mem_freeOccsAlts name alts]
  | lam _ params body => by
    simp [occursFree, freeOccs, occursFree_iff_mem_freeOccs name body, and_comm]
  | letRec _ binds body => by
    simp [occursFree, freeOccs, occursFree_iff_mem_freeOccs name body,
      occursFreeRhss_iff_mem_freeOccsRhss name binds, and_comm, and_or_left]

theorem occursFreeAlts_iff_mem_freeOccsAlts (name : Name) :
    (alts : Alts) → (occursFreeAlts name alts = true ↔ name ∈ freeOccsAlts alts)
  | [] => by simp [occursFreeAlts, freeOccsAlts]
  | (pattern, rhs) :: rest => by
    simp [occursFreeAlts, freeOccsAlts, occursFree_iff_mem_freeOccs name rhs,
      occursFreeAlts_iff_mem_freeOccsAlts name rest, and_comm]

theorem occursFreeRhss_iff_mem_freeOccsRhss (name : Name) :
    (binds : Binds) → (occursFreeRhss name binds = true ↔ name ∈ freeOccsRhss binds)
  | [] => by simp [occursFreeRhss, freeOccsRhss]
  | (_, rhs) :: rest => by
    simp [occursFreeRhss, freeOccsRhss, occursFree_iff_mem_freeOccs name rhs,
      occursFreeRhss_iff_mem_freeOccsRhss name rest]

end

/-- The test and the set agree. -/
theorem occursFree_iff_mem_freeVars (name : Name) (e : Expr) :
    e.occursFree name = true ↔ name ∈ e.freeVars := by
  rw [occursFree_iff_mem_freeOccs, mem_freeVars]

end Expr

end StructRec
