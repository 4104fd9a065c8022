import StructRec.Table

/-!
# StructRec — types

Types as written in the source: variables, constructors, application and the function arrow.
`Ty.spine` reads a type as a head applied to arguments, `Ty.apply` builds it back.
-/

namespace StructRec

/-- A type as written in the source. -/
inductive Ty where
  | var (name : Name)
  | con (name : Name)
  | app (fn arg : Ty)
  | func (dom cod : Ty)
deriving DecidableEq

namespace Ty

/-- A head applied to arguments: `apply List [a]` is `List a`. -/
def apply (head : Ty) (args : List Ty) : Ty := args.foldl app head

/-- The type of functions with these arguments: `a₁ -> ... -> aₙ -> result`. -/
def arrows (args : List Ty) (result : Ty) : Ty := args.foldr func result

def spineOnto : Ty → List Ty → Ty × List Ty
  | app fn arg, args => fn.spineOnto (arg :: args)
  | head, args => (head, args)

/-- The head of an application and its arguments in order. -/
def spine (t : Ty) : Ty × List Ty := t.spineOnto []

/-- The occurrences of type variables, from left to right. -/
def varOccs : Ty → List Name
  | var name => [name]
  | con _ => []
  | app l r | func l r => l.varOccs ++ r.varOccs

/-- The occurrences of type constructors, from left to right. -/
def conOccs : Ty → List Name
  | var _ => []
  | con name => [name]
  | app l r | func l r => l.conOccs ++ r.conOccs

/-- The type variables in order of first occurrence. -/
def vars (t : Ty) : List Name := t.varOccs.eraseDups

/-- The type constructors in order of first occurrence. -/
def cons (t : Ty) : List Name := t.conOccs.eraseDups

/-- Replace all listed type variables at once. -/
def subst (types : Table Ty) : Ty → Ty
  | var name => (types.get? name).getD (var name)
  | con name => con name
  | app l r => app (l.subst types) (r.subst types)
  | func l r => func (l.subst types) (r.subst types)

theorem apply_spineOnto (t : Ty) (args : List Ty) :
    apply (t.spineOnto args).1 (t.spineOnto args).2 = apply t args := by
  induction t generalizing args with
  | app fn arg ihf _ => simp only [spineOnto, ihf]; rfl
  | var | con | func => rfl

/-- Applying the head to the arguments builds the type back. -/
theorem apply_spine (t : Ty) : apply t.spine.1 t.spine.2 = t := apply_spineOnto t []

/-- Only the variables that occur decide what a substitution does. -/
theorem subst_congr {s₁ s₂ : Table Ty} (t : Ty)
    (h : ∀ name ∈ t.varOccs, s₁.get? name = s₂.get? name) : t.subst s₁ = t.subst s₂ := by
  induction t with
  | var name => simp [subst, h name (by simp [varOccs])]
  | con name => rfl
  | app l r ihl ihr | func l r ihl ihr =>
    simp only [varOccs, List.mem_append] at h
    simp [subst, ihl fun n hn => h n (.inl hn), ihr fun n hn => h n (.inr hn)]

@[simp]
theorem subst_empty (t : Ty) : t.subst {} = t := by
  induction t <;> simp_all [subst]

end Ty

end StructRec
