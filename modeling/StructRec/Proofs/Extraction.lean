import StructRec.Fixpoint.Split
import StructRec.Proofs.Runs

/-!
# StructRec — runs of the extraction

`Split.extract` goes over an expression, with the scopes around it, and lifts the outermost cases on
a parameter. **`Lifts`** is its run: which parts of an expression are gone over, in which scopes and
in what order. **`lifts_of_extract`** says that there are no other runs, so what extraction does to
names, occurrences or the helpers is proved by induction along a run.
-/

namespace StructRec

/-- An expression without parts. -/
def Expr.IsLeaf : Expr → Prop
  | .var .. | .con .. | .intLit .. | .undefined _ | .error .. => True
  | .app .. | .typeApp .. | .cond .. | .case .. | .lam .. | .letRec .. => False

/-- A variable occurs in itself. -/
theorem Expr.mem_freeOccs_of_asVar? {e : Expr} {n : Name} (h : e.asVar? = some n) :
    n ∈ e.freeOccs := by
  cases e with
  | var note name => exact List.mem_singleton.mpr (Option.some.inj h).symm
  | _ => cases h

namespace Split

mutual

/-- The run of an extraction from an expression: the state before, the helpers, what remains of the
expression, and the state after. -/
inductive Lifts (d : FuncDecl) (param : Name) : ScopeStack (Option Ty) → Option (Option Ty) → Expr →
    Session → List Helper → Expr → Session → Prop
  | leaf {scope returnTy e σ} (hleaf : Expr.IsLeaf e) : Lifts d param scope returnTy e σ [] e σ
  | lift {scope returnTy note scrutinee alts σ helper call σ'}
      (hcase : isDecreasingCase param scope scrutinee = true)
      (hmake : makeHelper d param (returnTy.getD note.ty)
        (captured scope (.case note scrutinee alts))
        (.case note scrutinee alts) σ = ((helper, call), σ')) :
      Lifts d param scope returnTy (.case note scrutinee alts) σ [helper] call σ'
  | case {scope returnTy note scrutinee scrutinee' alts alts' σ σ₁ σ' helpers helpers'}
      (hcase : ¬ isDecreasingCase param scope scrutinee = true)
      (hscrutinee : Lifts d param scope none scrutinee σ helpers scrutinee' σ₁)
      (halts : LiftsAlts d param scope alts σ₁ helpers' alts' σ') :
      Lifts d param scope returnTy (.case note scrutinee alts) σ (helpers ++ helpers')
        (.case note scrutinee' alts') σ'
  | app {scope returnTy note fn fn' arg arg' σ σ₁ σ' helpers helpers'}
      (hfn : Lifts d param scope none fn σ helpers fn' σ₁)
      (harg : Lifts d param scope none arg σ₁ helpers' arg' σ') :
      Lifts d param scope returnTy (.app note fn arg) σ (helpers ++ helpers')
        (.app note fn' arg') σ'
  | typeApp {scope returnTy note fn fn' ty σ σ' helpers}
      (hfn : Lifts d param scope none fn σ helpers fn' σ') :
      Lifts d param scope returnTy (.typeApp note fn ty) σ helpers (.typeApp note fn' ty) σ'
  | cond {scope returnTy note test test' thenBranch then' elseBranch else' σ σ₁ σ₂ σ'}
      {helpers helpers' helpers''}
      (htest : Lifts d param scope none test σ helpers test' σ₁)
      (hthen : Lifts d param scope none thenBranch σ₁ helpers' then' σ₂)
      (helse : Lifts d param scope none elseBranch σ₂ helpers'' else' σ') :
      Lifts d param scope returnTy (.cond note test thenBranch elseBranch) σ
        (helpers ++ helpers' ++ helpers'') (.cond note test' then' else') σ'
  | lam {scope returnTy note params body body' σ σ' helpers}
      (hbody : Lifts d param (enter scope params) none body σ helpers body' σ') :
      Lifts d param scope returnTy (.lam note params body) σ helpers (.lam note params body') σ'
  | letRec {scope returnTy note binds binds' body body' σ σ₁ σ' helpers helpers'}
      (hbinds : LiftsBinds d param (enter scope (Binds.binders binds)) binds σ helpers binds' σ₁)
      (hbody : Lifts d param (enter scope (Binds.binders binds)) none body σ₁ helpers' body' σ') :
      Lifts d param scope returnTy (.letRec note binds body) σ (helpers ++ helpers')
        (.letRec note binds' body') σ'

inductive LiftsAlts (d : FuncDecl) (param : Name) : ScopeStack (Option Ty) → Alts → Session →
    List Helper → Alts → Session → Prop
  | nil {scope σ} : LiftsAlts d param scope [] σ [] [] σ
  | cons {scope pattern rhs rhs' rest rest' σ σ₁ σ' helpers helpers'}
      (hrhs : Lifts d param (enter scope (Pattern.binders pattern)) none rhs σ helpers rhs' σ₁)
      (hrest : LiftsAlts d param scope rest σ₁ helpers' rest' σ') :
      LiftsAlts d param scope ((pattern, rhs) :: rest) σ (helpers ++ helpers')
        ((pattern, rhs') :: rest') σ'

inductive LiftsBinds (d : FuncDecl) (param : Name) : ScopeStack (Option Ty) → Binds → Session →
    List Helper → Binds → Session → Prop
  | nil {scope σ} : LiftsBinds d param scope [] σ [] [] σ
  | cons {scope binder rhs rhs' rest rest' σ σ₁ σ' helpers helpers'}
      (hrhs : Lifts d param scope none rhs σ helpers rhs' σ₁)
      (hrest : LiftsBinds d param scope rest σ₁ helpers' rest' σ') :
      LiftsBinds d param scope ((binder, rhs) :: rest) σ (helpers ++ helpers')
        ((binder, rhs') :: rest') σ'

end

variable {d : FuncDecl} {param : Name}

mutual

/-- **Every extraction is a run.** -/
theorem lifts_of_extract {scope : ScopeStack (Option Ty)} {returnTy : Option (Option Ty)} (e : Expr)
    {σ σ' : Session} {helpers : List Helper} {e' : Expr}
    (h : extract d param scope returnTy e σ = ((helpers, e'), σ')) :
    Lifts d param scope returnTy e σ helpers e' σ' := by
  cases e with
  -- a case on the parameter becomes a helper as a whole, any other case is gone through
  | case note scrutinee alts =>
    rw [extract] at h
    split at h
    · next hcase =>
      simp only [Naming.bind_eq, Naming.pure_eq, Prod.mk.injEq] at h
      obtain ⟨⟨helper, call⟩, σ₁, hmake, ⟨rfl, rfl⟩, rfl⟩ := h
      exact .lift hcase hmake
    · next hcase =>
      simp only [Naming.bind_eq, Naming.pure_eq, Prod.mk.injEq] at h
      obtain ⟨⟨helpers₁, scrutinee'⟩, σ₁, hscrutinee, ⟨helpers₂, alts'⟩, σ₂, halts,
        ⟨rfl, rfl⟩, rfl⟩ := h
      exact .case hcase (lifts_of_extract scrutinee hscrutinee) (liftsAlts_of_extract alts halts)
  | app note fn arg =>
    simp only [extract, Naming.bind_eq, Naming.pure_eq, Prod.mk.injEq] at h
    obtain ⟨⟨helpers₁, fn'⟩, σ₁, hfn, ⟨helpers₂, arg'⟩, σ₂, harg, ⟨rfl, rfl⟩, rfl⟩ := h
    exact .app (lifts_of_extract fn hfn) (lifts_of_extract arg harg)
  | typeApp note fn ty =>
    simp only [extract, Naming.bind_eq, Naming.pure_eq, Prod.mk.injEq] at h
    obtain ⟨⟨helpers₁, fn'⟩, σ₁, hfn, ⟨rfl, rfl⟩, rfl⟩ := h
    exact .typeApp (lifts_of_extract fn hfn)
  | cond note test thenBranch elseBranch =>
    simp only [extract, Naming.bind_eq, Naming.pure_eq, Prod.mk.injEq] at h
    obtain ⟨⟨helpers₁, test'⟩, σ₁, htest, ⟨helpers₂, then'⟩, σ₂, hthen,
      ⟨helpers₃, else'⟩, σ₃, helse, ⟨rfl, rfl⟩, rfl⟩ := h
    exact .cond (lifts_of_extract test htest) (lifts_of_extract thenBranch hthen)
      (lifts_of_extract elseBranch helse)
  | lam note params body =>
    simp only [extract, Naming.bind_eq, Naming.pure_eq, Prod.mk.injEq] at h
    obtain ⟨⟨helpers₁, body'⟩, σ₁, hbody, ⟨rfl, rfl⟩, rfl⟩ := h
    exact .lam (lifts_of_extract body hbody)
  | letRec note binds body =>
    simp only [extract, Naming.bind_eq, Naming.pure_eq, Prod.mk.injEq] at h
    obtain ⟨⟨helpers₁, binds'⟩, σ₁, hbinds, ⟨helpers₂, body'⟩, σ₂, hbody, ⟨rfl, rfl⟩, rfl⟩ := h
    exact .letRec (liftsBinds_of_extract binds hbinds) (lifts_of_extract body hbody)
  | var | con | intLit | undefined | error =>
    obtain ⟨⟨⟩, rfl⟩ := Naming.pure_eq.mp h
    exact .leaf trivial

theorem liftsAlts_of_extract {scope : ScopeStack (Option Ty)} (alts : Alts) {σ σ' : Session}
    {helpers : List Helper} {alts' : Alts}
    (h : extractAlts d param scope alts σ = ((helpers, alts'), σ')) :
    LiftsAlts d param scope alts σ helpers alts' σ' := by
  cases alts with
  | nil =>
    obtain ⟨⟨⟩, rfl⟩ := Naming.pure_eq.mp h
    exact .nil
  | cons alt rest =>
    obtain ⟨pattern, rhs⟩ := alt
    simp only [extractAlts, Naming.bind_eq, Naming.pure_eq, Prod.mk.injEq] at h
    obtain ⟨⟨helpers₁, rhs'⟩, σ₁, hrhs, ⟨helpers₂, rest'⟩, σ₂, hrest, ⟨rfl, rfl⟩, rfl⟩ := h
    exact .cons (lifts_of_extract rhs hrhs) (liftsAlts_of_extract rest hrest)

theorem liftsBinds_of_extract {scope : ScopeStack (Option Ty)} (binds : Binds) {σ σ' : Session}
    {helpers : List Helper} {binds' : Binds}
    (h : extractBinds d param scope binds σ = ((helpers, binds'), σ')) :
    LiftsBinds d param scope binds σ helpers binds' σ' := by
  cases binds with
  | nil =>
    obtain ⟨⟨⟩, rfl⟩ := Naming.pure_eq.mp h
    exact .nil
  | cons bind rest =>
    obtain ⟨binder, rhs⟩ := bind
    simp only [extractBinds, Naming.bind_eq, Naming.pure_eq, Prod.mk.injEq] at h
    obtain ⟨⟨helpers₁, rhs'⟩, σ₁, hrhs, ⟨helpers₂, rest'⟩, σ₂, hrest, ⟨rfl, rfl⟩, rfl⟩ := h
    exact .cons (lifts_of_extract rhs hrhs) (liftsBinds_of_extract rest hrest)

end

end Split

end StructRec
