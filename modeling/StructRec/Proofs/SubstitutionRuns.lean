import StructRec.Proofs.Runs
import StructRec.Subst

/-!
# StructRec — runs of a substitution

**`Subst.Runs`** is the run of `Subst.onExpr` on an expression: what it does at each form, under
which substitution each part is gone over, and in what order the states follow each other.
**`runs_of_onExpr`** says that there are no other runs, so a fact about substitution is proved by
induction along them. **`Subst.Enters`** is the run over the binders of a scope.
-/

namespace StructRec.Subst

/-! ## Binders -/

/-- A run over binders. A captured one gets a new name, and is replaced by it from there on. -/
inductive Enters (captured : List Name) :
    Subst → List Binder → Session → Subst → List Binder → Session → Prop
  | nil {s σ} : Enters captured s [] σ s [] σ
  | renamed {s s' b rest rest' fresh σ σ₁ σ'} (hcaptured : b.name ∈ captured)
      (hfresh : freshName b.name σ = (fresh, σ₁))
      (hrest : Enters captured
        (s.insert b.name (Binder.toExpr { b with name := fresh, ty := b.ty.map s.applyTy }))
        rest σ₁ s' rest' σ') :
      Enters captured s (b :: rest) σ s'
        ({ b with name := fresh, ty := b.ty.map s.applyTy } :: rest') σ'
  | kept {s s' b rest rest' σ σ'} (hcaptured : b.name ∉ captured)
      (hrest : Enters captured s rest σ s' rest' σ') :
      Enters captured s (b :: rest) σ s' ({ b with ty := b.ty.map s.applyTy } :: rest') σ'

/-- **Entering binders** renames or keeps them, one after the other. -/
theorem enters_of_enterBinders {captured : List Name} {s s' : Subst}
    {binders binders' : List Binder} {σ σ' : Session}
    (h : enterBinders captured s binders σ = ((s', binders'), σ')) :
    Enters captured s binders σ s' binders' σ' := by
  induction binders generalizing s binders' σ with
  | nil =>
    obtain ⟨heq, rfl⟩ := Naming.pure_eq.mp h
    obtain ⟨rfl, rfl⟩ := Prod.mk.inj heq
    exact .nil
  | cons b rest ih =>
    simp only [enterBinders, enterBinder, Naming.bind_eq] at h
    obtain ⟨⟨s₁, b'⟩, σ₁, hfirst, ⟨⟨s₂, rest'⟩, σ₂, hrest, hpure⟩⟩ := h
    obtain ⟨heq, rfl⟩ := Naming.pure_eq.mp hpure
    obtain ⟨rfl, rfl⟩ := Prod.mk.inj heq
    split at hfirst
    · next hcaptured =>
      simp only [Naming.bind_eq, Naming.pure_eq] at hfirst
      obtain ⟨fresh, σ₃, hfresh, heq, rfl⟩ := hfirst
      obtain ⟨rfl, rfl⟩ := Prod.mk.inj heq
      exact .renamed hcaptured hfresh (ih hrest)
    · next hcaptured =>
      obtain ⟨heq, rfl⟩ := Naming.pure_eq.mp hfirst
      obtain ⟨rfl, rfl⟩ := Prod.mk.inj heq
      exact .kept hcaptured (ih hrest)

/-! ## Expressions -/

mutual

/-- The run of a substitution on an expression: the state before, the result and the state after. -/
inductive Runs : Subst → Expr → Session → Expr → Session → Prop
  | replaced {s note n r σ} (hget : s.exprs.get? n = some r) : Runs s (.var note n) σ r σ
  | var {s note n σ} (hget : s.exprs.get? n = none) :
      Runs s (.var note n) σ (.var (s.applyNote note) n) σ
  | con {s note n σ} : Runs s (.con note n) σ (.con (s.applyNote note) n) σ
  | intLit {s note i σ} : Runs s (.intLit note i) σ (.intLit (s.applyNote note) i) σ
  | undefined {s note σ} : Runs s (.undefined note) σ (.undefined (s.applyNote note)) σ
  | error {s note text σ} : Runs s (.error note text) σ (.error (s.applyNote note) text) σ
  | app {s note fn fn' arg arg' σ σ₁ σ'} (hfn : Runs s fn σ fn' σ₁) (harg : Runs s arg σ₁ arg' σ') :
      Runs s (.app note fn arg) σ (.app (s.applyNote note) fn' arg') σ'
  | typeApp {s note fn fn' ty σ σ'} (hfn : Runs s fn σ fn' σ') :
      Runs s (.typeApp note fn ty) σ (.typeApp (s.applyNote note) fn' (s.applyTy ty)) σ'
  | cond {s note test test' thenBranch then' elseBranch else' σ σ₁ σ₂ σ'}
      (htest : Runs s test σ test' σ₁) (hthen : Runs s thenBranch σ₁ then' σ₂)
      (helse : Runs s elseBranch σ₂ else' σ') :
      Runs s (.cond note test thenBranch elseBranch) σ
        (.cond (s.applyNote note) test' then' else') σ'
  | case {s note scrutinee scrutinee' alts alts' σ σ₁ σ'}
      (hscrutinee : Runs s scrutinee σ scrutinee' σ₁) (halts : RunsAlts s alts σ₁ alts' σ') :
      Runs s (.case note scrutinee alts) σ (.case (s.applyNote note) scrutinee' alts') σ'
  | lam {s note params params' body body' inner σ σ₁ σ'}
      (henter : s.enter params [body] σ = ((inner, params'), σ₁))
      (hbody : Runs inner body σ₁ body' σ') :
      Runs s (.lam note params body) σ (.lam (s.applyNote note) params' body') σ'
  | letRec {s note binds binders' rhss' body body' inner σ σ₁ σ₂ σ'}
      (henter : s.enter (Binds.binders binds) (Binds.rhss binds ++ [body]) σ
        = ((inner, binders'), σ₁))
      (hrhss : RunsRhss inner binds σ₁ rhss' σ₂) (hbody : Runs inner body σ₂ body' σ') :
      Runs s (.letRec note binds body) σ (.letRec (s.applyNote note) (binders'.zip rhss') body') σ'

inductive RunsAlts : Subst → Alts → Session → Alts → Session → Prop
  | nil {s σ} : RunsAlts s [] σ [] σ
  | cons {s pattern binders' rhs rhs' rest rest' inner σ σ₁ σ₂ σ'}
      (henter : s.enter (Pattern.binders pattern) [rhs] σ = ((inner, binders'), σ₁))
      (hrhs : Runs inner rhs σ₁ rhs' σ₂) (hrest : RunsAlts s rest σ₂ rest' σ') :
      RunsAlts s ((pattern, rhs) :: rest) σ ((pattern.withBinders binders', rhs') :: rest') σ'

inductive RunsRhss : Subst → Binds → Session → List Expr → Session → Prop
  | nil {s σ} : RunsRhss s [] σ [] σ
  | cons {s binder rhs rhs' rest rest' σ σ₁ σ'} (hrhs : Runs s rhs σ rhs' σ₁)
      (hrest : RunsRhss s rest σ₁ rest' σ') :
      RunsRhss s ((binder, rhs) :: rest) σ (rhs' :: rest') σ'

end

mutual

/-- **Every substitution is a run.** -/
theorem runs_of_onExpr {s : Subst} (e : Expr) {σ σ' : Session} {e' : Expr}
    (h : s.onExpr e σ = (e', σ')) : s.Runs e σ e' σ' := by
  cases e with
  | var note n =>
    obtain ⟨rfl, rfl⟩ := Naming.pure_eq.mp h
    cases hget : s.exprs.get? n with
    | some r => exact .replaced hget
    | none => exact .var hget
  | con | intLit | undefined | error =>
    obtain ⟨rfl, rfl⟩ := Naming.pure_eq.mp h
    constructor
  | app note fn arg =>
    simp only [onExpr, Naming.bind_eq, Naming.pure_eq] at h
    obtain ⟨fn', σ₁, hfn, arg', σ₂, harg, rfl, rfl⟩ := h
    exact .app (runs_of_onExpr fn hfn) (runs_of_onExpr arg harg)
  | typeApp note fn ty =>
    simp only [onExpr, Naming.bind_eq, Naming.pure_eq] at h
    obtain ⟨fn', σ₁, hfn, rfl, rfl⟩ := h
    exact .typeApp (runs_of_onExpr fn hfn)
  | cond note test thenBranch elseBranch =>
    simp only [onExpr, Naming.bind_eq, Naming.pure_eq] at h
    obtain ⟨test', σ₁, htest, then', σ₂, hthen, else', σ₃, helse, rfl, rfl⟩ := h
    exact .cond (runs_of_onExpr test htest) (runs_of_onExpr thenBranch hthen)
      (runs_of_onExpr elseBranch helse)
  | case note scrutinee alts =>
    simp only [onExpr, Naming.bind_eq, Naming.pure_eq] at h
    obtain ⟨scrutinee', σ₁, hscrutinee, alts', σ₂, halts, rfl, rfl⟩ := h
    exact .case (runs_of_onExpr scrutinee hscrutinee) (runs_of_onAlts alts halts)
  -- under binders the run goes on with the substitution that enters them
  | lam note params body =>
    simp only [onExpr, Naming.bind_eq, Naming.pure_eq] at h
    obtain ⟨⟨inner, params'⟩, σ₁, henter, body', σ₂, hbody, rfl, rfl⟩ := h
    exact .lam henter (runs_of_onExpr body hbody)
  | letRec note binds body =>
    simp only [onExpr, Naming.bind_eq, Naming.pure_eq] at h
    obtain ⟨⟨inner, binders'⟩, σ₁, henter, rhss', σ₂, hrhss, body', σ₃, hbody, rfl, rfl⟩ := h
    exact .letRec henter (runs_of_onRhss binds hrhss) (runs_of_onExpr body hbody)

theorem runs_of_onAlts {s : Subst} (alts : Alts) {σ σ' : Session} {alts' : Alts}
    (h : s.onAlts alts σ = (alts', σ')) : s.RunsAlts alts σ alts' σ' := by
  cases alts with
  | nil =>
    obtain ⟨rfl, rfl⟩ := Naming.pure_eq.mp h
    exact .nil
  | cons alt rest =>
    obtain ⟨pattern, rhs⟩ := alt
    simp only [onAlts, Naming.bind_eq, Naming.pure_eq] at h
    obtain ⟨⟨inner, binders'⟩, σ₁, henter, rhs', σ₂, hrhs, rest', σ₃, hrest, rfl, rfl⟩ := h
    exact .cons henter (runs_of_onExpr rhs hrhs) (runs_of_onAlts rest hrest)

theorem runs_of_onRhss {s : Subst} (binds : Binds) {σ σ' : Session} {rhss' : List Expr}
    (h : s.onRhss binds σ = (rhss', σ')) : s.RunsRhss binds σ rhss' σ' := by
  cases binds with
  | nil =>
    obtain ⟨rfl, rfl⟩ := Naming.pure_eq.mp h
    exact .nil
  | cons bind rest =>
    obtain ⟨binder, rhs⟩ := bind
    simp only [onRhss, Naming.bind_eq, Naming.pure_eq] at h
    obtain ⟨rhs', σ₁, hrhs, rest', σ₂, hrest, rfl, rfl⟩ := h
    exact .cons (runs_of_onExpr rhs hrhs) (runs_of_onRhss rest hrest)

end

end StructRec.Subst
