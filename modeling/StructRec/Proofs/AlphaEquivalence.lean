import StructRec.Proofs.Nameless
import StructRec.Proofs.Occurrences

/-!
# StructRec — expressions up to the names of bound variables

Two expressions are alpha-equivalent if they differ in the names of bound variables only. Spans do
not count, and neither do the annotations of variable occurrences; those of binders and of all other
nodes do.

An `Annotated` term has no bound names to differ in: a bound variable is the level of its binder,
counted from the outside. `Expr.annotated` evaluates an expression to such a term. It takes what the
free variables stand for and what is done to types as parameters, so that a substitution does not
have to be defined on terms: it is another environment to evaluate in. Environments are given the
depth, because what stands for a variable may bind variables itself.
-/

namespace StructRec

variable {names : List Name}

/-- An expression in which bound variables have no names, with its annotations. -/
inductive Annotated where
  /-- The variable of the binder at this level. -/
  | bound (level : Nat)
  | free (name : Name)
  | typeApp (noted : Option Ty) (fn : Annotated) (ty : Ty)
  /-- Every part comes with the annotations of the variables that are bound in it. -/
  | node (former : Former) (noted : Option Ty) (parts : List (List (Option Ty) × Annotated))

namespace Annotated

variable {n : Name}

/-- What variables stand for at each depth. -/
abbrev Env := Nat → Name → Annotated

/-- Every variable stands for itself. -/
def Env.initial : Env := fun _ n => free n

/-- The environment in the scope of some names that are bound at a depth. Of several binders of one
name the last one binds. -/
def Env.bind (ρ : Env) (names : List Name) (depth : Nat) : Env := fun d n =>
  match binderIndex? n names with
  | some i => bound (depth + i)
  | none => ρ d n

theorem Env.bind_of_index {i : Nat} (h : binderIndex? n names = some i) (ρ : Env) (depth d : Nat) :
    ρ.bind names depth d n = bound (depth + i) := by rw [bind, h]

theorem Env.bind_of_notMem (h : n ∉ names) (ρ : Env) (depth d : Nat) :
    ρ.bind names depth d n = ρ d n := by rw [bind, binderIndex?_eq_none.mpr h]

theorem Env.bind_congr {ρ ρ' : Env} (names : List Name) (h : n ∉ names → ∀ d, ρ d n = ρ' d n)
    (depth d : Nat) : ρ.bind names depth d n = ρ'.bind names depth d n := by
  by_cases hn : n ∈ names
  · obtain ⟨i, hi⟩ := exists_binderIndex hn
    rw [bind_of_index hi, bind_of_index hi]
  · rw [bind_of_notMem hn, bind_of_notMem hn, h hn]

end Annotated

/-- The annotations of some binders. -/
def binderAnnotations (g : Ty → Ty) (binders : List Binder) : List (Option Ty) :=
  binders.map fun b => b.ty.map g

namespace Expr

open Annotated (Env)

mutual

/-- The term of an expression at a depth, in an environment of its free variables, where types are
changed by `g`. -/
def annotated (ρ : Env) (g : Ty → Ty) (depth : Nat) : Expr → Annotated
  | var _ n => ρ depth n
  | con note n => .node (.con n) (note.ty.map g) []
  | intLit note value => .node (.intLit value) (note.ty.map g) []
  | undefined note => .node .undefined (note.ty.map g) []
  | error note message => .node (.error message) (note.ty.map g) []
  | app note fn arg =>
      .node .app (note.ty.map g) [([], fn.annotated ρ g depth), ([], arg.annotated ρ g depth)]
  | typeApp note fn ty => .typeApp (note.ty.map g) (fn.annotated ρ g depth) (g ty)
  | cond note test thenBranch elseBranch => .node .cond (note.ty.map g)
      [([], test.annotated ρ g depth), ([], thenBranch.annotated ρ g depth),
        ([], elseBranch.annotated ρ g depth)]
  | case note scrutinee alts => .node (.case (alts.map (·.1.shape))) (note.ty.map g)
      (([], scrutinee.annotated ρ g depth) :: annotatedAlts ρ g depth alts)
  | lam note params body => .node .lam (note.ty.map g)
      [(binderAnnotations g params,
        body.annotated (ρ.bind (binderNames params) depth) g (depth + params.length))]
  | letRec note binds body => .node .letRec (note.ty.map g)
      ((binderAnnotations g (Binds.binders binds),
          body.annotated (ρ.bind (Binds.names binds) depth) g (depth + binds.length)) ::
        annotatedRhss (ρ.bind (Binds.names binds) depth) g (depth + binds.length) binds)

def annotatedAlts (ρ : Env) (g : Ty → Ty) (depth : Nat) : Alts → List (List (Option Ty) × Annotated)
  | [] => []
  | (pattern, rhs) :: rest =>
    (binderAnnotations g pattern.binders,
      rhs.annotated (ρ.bind pattern.names depth) g (depth + pattern.binders.length)) ::
        annotatedAlts ρ g depth rest

/-- The right-hand sides of a `let`. The annotations of its binders stand with the body. -/
def annotatedRhss (ρ : Env) (g : Ty → Ty) (depth : Nat) :
    Binds → List (List (Option Ty) × Annotated)
  | [] => []
  | (_, rhs) :: rest => ([], rhs.annotated ρ g depth) :: annotatedRhss ρ g depth rest

end

/-- The same up to the names of bound variables, spans and the annotations of variable
occurrences. -/
def AlphaEq (e e' : Expr) : Prop := e.annotated Env.initial id 0 = e'.annotated Env.initial id 0

/-- `\x -> \y -> x z` and `\y -> \x -> y z`. -/
example : AlphaEq
    (.lam {} [{ name := "x" }] (.lam {} [{ name := "y" }] (.app {} (.var {} "x") (.var {} "z"))))
    (.lam {} [{ name := "y" }]
      (.lam {} [{ name := "x" }] (.app {} (.var {} "y") (.var {} "z")))) := by
  unfold AlphaEq
  rfl

theorem annotatedRhss_eq (ρ : Env) (g : Ty → Ty) (depth : Nat) (binds : Binds) :
    annotatedRhss ρ g depth binds =
      ((Binds.rhss binds).map (·.annotated ρ g depth)).map (Prod.mk []) := by
  induction binds with
  | nil => rfl
  | cons bind rest ih => exact congrArg (([], bind.2.annotated ρ g depth) :: ·) ih

/-! ## What the term depends on -/

section

variable {ρ ρ' : Env} {g g' : Ty → Ty} {T : Name → Prop} {N : Name → Prop}

theorem map_annotation_congr (hg : ∀ ty : Ty, (∀ t ∈ ty.varOccs, T t) → g ty = g' ty)
    {noted : Option Ty} (h : AnnotationUses T noted) :
    noted.map g = noted.map g' := by
  cases noted with
  | none => rfl
  | some ty => exact congrArg some (hg ty h)

theorem binderAnnotations_congr (hg : ∀ ty : Ty, (∀ t ∈ ty.varOccs, T t) → g ty = g' ty)
    {binders : List Binder} (h : ∀ b ∈ binders, b.Uses N T) :
    binderAnnotations g binders = binderAnnotations g' binders :=
  List.map_congr_left fun b hb => map_annotation_congr hg (h b hb).ty

/-- Names that occur free in a scope are bound there, or they occur free outside. -/
theorem bind_congr_of_filter {occs : List Name}
    (h : ∀ n ∈ occs.filter (· ∉ names), ∀ d, ρ d n = ρ' d n) (depth : Nat) :
    ∀ n ∈ occs, ∀ d, ρ.bind names depth d n = ρ'.bind names depth d n :=
  fun n hn =>
    Env.bind_congr names (fun hfree => h n (List.mem_filter.mpr ⟨hn, decide_eq_true hfree⟩)) depth

mutual

/-- **Only what occurs decides about the term.** -/
theorem annotated_congr (hg : ∀ ty : Ty, (∀ t ∈ ty.varOccs, T t) → g ty = g' ty) :
    (e : Expr) → {ρ ρ' : Env} → e.Uses N T → (∀ n ∈ e.freeOccs, ∀ d, ρ d n = ρ' d n) →
      ∀ depth, e.annotated ρ g depth = e.annotated ρ' g' depth
  | var _ n, _, _, _, hρ, depth => hρ n (List.mem_singleton.mpr rfl) depth
  | con .., _, _, he, _, _ | intLit .., _, _, he, _, _ | undefined _, _, _, he, _, _
  | error .., _, _, he, _, _ => by
    simp only [annotated, map_annotation_congr hg he]
  | app _ fn arg, _, _, he, hρ, depth => by
    rw [freeOccs, List.forall_mem_append] at hρ
    rw [annotated, annotated, map_annotation_congr hg he.1, annotated_congr hg fn he.2.1 hρ.1,
      annotated_congr hg arg he.2.2 hρ.2]
  | typeApp _ fn ty, _, _, he, hρ, depth => by
    rw [annotated, annotated, map_annotation_congr hg he.1,
      annotated_congr hg fn he.2.1 hρ, hg ty he.2.2]
  | cond _ test thenBranch elseBranch, _, _, he, hρ, depth => by
    rw [freeOccs, List.forall_mem_append, List.forall_mem_append] at hρ
    rw [annotated, annotated, map_annotation_congr hg he.1, annotated_congr hg test he.2.1 hρ.1.1,
      annotated_congr hg thenBranch he.2.2.1 hρ.1.2, annotated_congr hg elseBranch he.2.2.2 hρ.2]
  | case _ scrutinee alts, _, _, he, hρ, depth => by
    rw [freeOccs, List.forall_mem_append] at hρ
    rw [annotated, annotated, map_annotation_congr hg he.1,
      annotated_congr hg scrutinee he.2.1 hρ.1, annotatedAlts_congr hg alts he.2.2 hρ.2]
  | lam _ params body, _, _, he, hρ, depth => by
    rw [annotated, annotated, map_annotation_congr hg he.1, binderAnnotations_congr hg he.2.1,
      annotated_congr hg body he.2.2 (bind_congr_of_filter hρ depth)]
  | letRec _ binds body, _, _, he, hρ, depth => by
    -- the binders scope over right-hand sides and body
    have hscope := bind_congr_of_filter hρ depth
    rw [List.forall_mem_append] at hscope
    rw [annotated, annotated, map_annotation_congr hg he.1, binderAnnotations_congr hg he.2.1,
      annotated_congr hg body he.2.2.2 hscope.2, annotatedRhss_congr hg binds he.2.2.1 hscope.1]

theorem annotatedAlts_congr (hg : ∀ ty : Ty, (∀ t ∈ ty.varOccs, T t) → g ty = g' ty) :
    (alts : Alts) → {ρ ρ' : Env} → UsesAlts N T alts →
      (∀ n ∈ freeOccsAlts alts, ∀ d, ρ d n = ρ' d n) →
      ∀ depth, annotatedAlts ρ g depth alts = annotatedAlts ρ' g' depth alts
  | [], _, _, _, _, _ => rfl
  | (pattern, rhs) :: rest, _, _, he, hρ, depth => by
    rw [freeOccsAlts, List.forall_mem_append] at hρ
    rw [annotatedAlts, annotatedAlts, binderAnnotations_congr hg he.1,
      annotated_congr hg rhs he.2.1 (bind_congr_of_filter hρ.1 depth),
        annotatedAlts_congr hg rest he.2.2 hρ.2]

theorem annotatedRhss_congr (hg : ∀ ty : Ty, (∀ t ∈ ty.varOccs, T t) → g ty = g' ty) :
    (binds : Binds) → {ρ ρ' : Env} → UsesRhss N T binds →
      (∀ n ∈ freeOccsRhss binds, ∀ d, ρ d n = ρ' d n) →
      ∀ depth, annotatedRhss ρ g depth binds = annotatedRhss ρ' g' depth binds
  | [], _, _, _, _, _ => rfl
  | (_, rhs) :: rest, _, _, he, hρ, depth => by
    rw [freeOccsRhss, List.forall_mem_append] at hρ
    rw [annotatedRhss, annotatedRhss, annotated_congr hg rhs he.1 hρ.1,
      annotatedRhss_congr hg rest he.2 hρ.2]

end

/-- Environments that agree on the free variables give the same term. -/
theorem annotated_congr_env {e : Expr} (hρ : ∀ n ∈ e.freeOccs, ∀ d, ρ d n = ρ' d n) (g : Ty → Ty)
    (depth : Nat) : e.annotated ρ g depth = e.annotated ρ' g depth := by
  have huses : e.Uses (fun _ => True) fun _ => True :=
    (uses_iff e).mpr ⟨fun _ _ => trivial, fun _ _ => trivial, fun _ _ => trivial⟩
  exact annotated_congr (fun _ _ => rfl) e huses hρ depth

end

end Expr

end StructRec
