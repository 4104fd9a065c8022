import StructRec.Proofs.Fixpoints
import StructRec.Proofs.Paths

/-!
# StructRec — one notion of reference

What an expression refers to is asked for in several places: the dependency graph lists the
references of a declaration, the analysis of calls looks for the functions of a group with the
scopes at hand, and substitution tests for the variables it is to replace. Each keeps track of
binders in its own way, and all of them mean the free variables.
-/

namespace StructRec

/-- **The callees of a function** are the free occurrences of the group, unless a parameter has the
name. -/
theorem FuncDecl.callees_eq (d : FuncDecl) (group : List Name) :
    (d.calls group).map CallSite.callee = d.rhs.freeOccs.filter fun n =>
      n ∈ group && n ∉ d.paramNames := by
  rw [calls_eq, occurrencesOf, List.map_map, Expr.freeOccs_eq d.rhs [], Occurrence.freeNames,
    List.filter_map, List.filter_filter]
  rfl

theorem FuncDecl.mem_callees_iff (d : FuncDecl) (group : List Name) (n : Name) :
    n ∈ (d.calls group).map CallSite.callee ↔
      n ∈ group ∧ n ∈ d.rhs.freeVars ∧ n ∉ d.paramNames := by
  rw [callees_eq, List.mem_filter, Bool.and_eq_true, decide_eq_true_iff, decide_eq_true_iff,
    Expr.mem_freeVars]
  exact and_left_comm

/-- A name of the group that a function refers to is called, or it is that of a marker. -/
theorem FuncDecl.mem_references_iff_callee (d : FuncDecl) (group : List Name) (n : Name) :
    n ∈ group ∧ n ∈ d.references ↔
      n ∈ (d.calls group).map CallSite.callee ∨ n ∈ group ∧ n ∈ d.rhs.markers := by
  rw [mem_references_iff, mem_callees_iff, Expr.mem_freeVars, ← and_or_left]

/-- What a substitution replaces are free variables of the scope. -/
theorem Subst.restrictTo_freeVars (s : Subst) (scope : List Expr) (n : Name) :
    (s.restrictTo scope).exprs.get? n =
      if n ∈ Expr.freeVarsOfAll scope then s.exprs.get? n else none := by
  have hoccurs : scope.any (·.occursFree n) = true ↔ n ∈ Expr.freeVarsOfAll scope := by
    rw [Expr.mem_freeVarsOfAll, List.mem_flatMap, List.any_eq_true]
    simp only [Expr.occursFree_iff_mem_freeOccs]
  simp only [get?_restrictTo, hoccurs]

/-- **The scope analyses agree.** The test for a variable finds the free variables, and the callees
of a function among some names are those of its free variables that are no parameters. So the edges
from a function into a group are its calls, markers apart, and a substitution is restricted to what
the expressions refer to. -/
theorem references_agree :
    (∀ (e : Expr) (n : Name), e.occursFree n = true ↔ n ∈ e.freeVars) ∧
      (∀ (d : FuncDecl) (group : List Name) (n : Name),
        n ∈ (d.calls group).map CallSite.callee ↔
          n ∈ group ∧ n ∈ d.rhs.freeVars ∧ n ∉ d.paramNames) ∧
      (∀ (d : FuncDecl) (group : List Name) (n : Name),
        n ∈ group ∧ n ∈ d.references ↔
          n ∈ (d.calls group).map CallSite.callee ∨ n ∈ group ∧ n ∈ d.rhs.markers) ∧
      ∀ (s : Subst) (scope : List Expr) (n : Name),
        (s.restrictTo scope).exprs.get? n =
          if n ∈ Expr.freeVarsOfAll scope then s.exprs.get? n else none :=
  ⟨fun e n => Expr.occursFree_iff_mem_freeVars n e, FuncDecl.mem_callees_iff,
    FuncDecl.mem_references_iff_callee, Subst.restrictTo_freeVars⟩

end StructRec
