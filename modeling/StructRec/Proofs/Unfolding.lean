import Mathlib.Data.Finset.Card
import Mathlib.Data.List.Sort
import StructRec.Proofs.CaptureAvoidance
import StructRec.Proofs.InliningSuccess
import StructRec.Proofs.Reduction

/-!
# StructRec — inlining preserves meaning

Inlining gives the term that unfolding all references and reducing gives: every reference is
replaced by a function of the parameters, and where there are arguments, they are put in at once,
which is β-reduction (`Nameless.Inlines`). What waits for arguments is read as the function of the
parameters that are left (`Pending.term`).

The descent goes under binders with the references that they hide taken out
(`Context.closures_shadow`). That is right since no binder has the name of a free variable of a
right-hand side: such binders are given new names first, and so are the parameters of an unfolded
function. All names are settled when they are met (`Context.Hygienic`), so new names are new.
-/

namespace StructRec

/-! ## Fresh binders -/

theorem Counters.Draws.of_cons {c c' : Counters} {n : Name} {names : List Name}
    (h : c.Draws c' (n :: names)) : n ∉ names ∧ c.Draws c' names :=
  ⟨(List.nodup_cons.mp h.nodup).1, h.le, (List.forall_mem_cons.mp h.new).2,
    (List.forall_mem_cons.mp h.settled).2, (List.nodup_cons.mp h.nodup).2⟩

theorem Counters.Draws.mono {c₀ c c₁ c₂ : Counters} {names : List Name} (h : c.Draws c₁ names)
    (hle₀ : c₀ ≤ c) (hle : c₁ ≤ c₂) : c₀.Draws c₂ names where
  le := hle₀.trans (h.le.trans hle)
  new n hn hsettled := h.new n hn (hsettled.mono hle₀)
  settled n hn := (h.settled n hn).mono hle
  nodup := h.nodup

namespace Subst

variable {c c' : Counters} {s s' : Subst} {captured occs names names' : List Name}
  {binders binders' : List Binder} {σ σ' : Session}

theorem image_of_empty (hs : ∀ n, s.exprs.get? n = none) : s.image = .free :=
  funext fun n => image_of_none (hs n)

/-- If all binders are captured, they all get new names. -/
theorem enterBinders_draws (h : enterBinders captured s binders σ = ((s', binders'), σ'))
    (hcaptured : ∀ n ∈ binderNames binders, n ∈ captured) :
    σ.counters.Draws σ'.counters (binderNames binders') := by
  replace h := enters_of_enterBinders h
  induction h with
  | nil => exact .nil le_rfl
  | renamed _ hfresh _ ih =>
    exact (freshName_draws hfresh).append (ih (List.forall_mem_cons.mp hcaptured).2)
  | kept hfree _ _ => exact absurd (List.forall_mem_cons.mp hcaptured).1 hfree

/-- **Renamed with its binders**, an expression is the same without names, but for the types. -/
theorem Opens.apply_under (h : s.Opens s' names names' occs c c') (hs : ∀ n, s.exprs.get? n = none)
    {e e' : Expr} (hrun : s'.apply e σ = (e', σ')) (hσ : c' ≤ σ.counters) (he : e.Settled c)
    (hoccs : e.freeOccs ⊆ occs) :
    σ.counters ≤ σ'.counters ∧ e'.Settled σ'.counters ∧
      e'.nameless.under names' =
        (names.length, (e.nameless.capture names 0).subst .free s.applyTy) := by
  obtain ⟨hgrows, hnameless, hsettled⟩ :=
    apply_replaces hrun (h.inner.mono hσ) (he.mono (h.grows.trans hσ))
  refine ⟨hgrows, hsettled, ?_⟩
  rw [hnameless, h.under fun n hn => hoccs (by rwa [Expr.freeNames_nameless] at hn),
    image_of_empty hs]
  rfl

end Subst

/-- A function's right-hand side as a function of its parameters. -/
def FuncDecl.closure (d : FuncDecl) : Nameless := (Expr.lambda d.params d.rhs).term

/-- No name of the function can still be generated. -/
def FuncDecl.Settled (c : Counters) (d : FuncDecl) : Prop := d.Uses c.Settled fun _ => True

theorem FuncDecl.freeNames_closure (d : FuncDecl) :
    d.closure.freeNames = d.rhs.freeOccs.filter (· ∉ d.paramNames) := by
  rw [closure, Expr.term_lambda, Nameless.freeNames_lambda, Nameless.freeNames_capture,
    Expr.freeNames_term]
  rfl

namespace Inline

variable {c c' : Counters} {ctx : Context} {binders binders' : List Binder} {e e' : Expr}
  {p p' : Pending} {σ σ' : Session} {depth : Nat}
variable {d : FuncDecl} {n : Name} {names occs : List Name} {renames : Subst} {note : Note}
  {σ₁ : Session} {decls : List FuncDecl}

/-- A function that waits for arguments, as a function. -/
def Pending.term (p : Pending) : Nameless := (Expr.lambda p.params p.body).term

/-- A function with fresh parameters. -/
structure Instantiates (d : FuncDecl) (types : Ty → Ty) (p : Pending) (c c' : Counters) : Prop where
  draws : c.Draws c' (binderNames p.params)
  length_eq : p.params.length = d.params.length
  body : p.body.Settled c'
  capture : p.body.nameless.capture (binderNames p.params) 0 =
    (d.rhs.nameless.capture d.paramNames 0).subst .free types

/-- **Fresh parameters** for a function, which is the same without names, but for its type
parameters. -/
theorem instantiate_spec (h : instantiate d σ = (p, σ'))
    (hparams : ∀ n ∈ d.paramNames, σ.counters.Settled n) (hrhs : d.rhs.Settled σ.counters) :
    ∃ s σ₁, freshTypeParams {} d.typeParams σ = ((s, p.typeParams), σ₁) ∧
      Instantiates d s.applyTy p σ.counters σ'.counters := by
  simp only [instantiate, Naming.bind_eq, Naming.pure_eq] at h
  obtain ⟨⟨s, typeParams⟩, σ₁, htypes, ⟨renames, params⟩, σ₂, henter, body, σ₃, hbody,
    rfl, rfl⟩ := h
  obtain ⟨hexprs, hgrows⟩ := freshTypeParams_exprs htypes
  -- up to here only type variables are replaced
  have hnone : ∀ n, s.exprs.get? n = none := fun n => by rw [hexprs]; rfl
  have hdraws := Subst.enterBinders_draws henter fun n hn => hn
  have hopens : s.Opens renames d.paramNames (binderNames params) d.rhs.freeOccs σ₁.counters
      σ₂.counters := by
    refine Subst.enterBinders_opens henter (fun n r hr => ?_)
      (fun n hn => (hparams n hn).mono hgrows)
      (fun n hn => (hrhs.free n hn).mono hgrows) (fun n _ => hnone n) fun n r hr => ?_
    · rw [hnone n] at hr
      cases hr
    · rw [hnone n] at hr
      cases hr
  obtain ⟨hgrows', hsettled, hunder⟩ :=
    hopens.apply_under hnone hbody le_rfl (hrhs.mono hgrows) (List.Subset.refl _)
  refine ⟨s, σ₁, htypes, hdraws.mono hgrows hgrows', Subst.length_enterBinders henter, hsettled,
    (Prod.mk.inj hunder).2⟩

/-- An instance with fresh parameters is the definition itself. -/
theorem Instantiates.term_eq {types : Ty → Ty} (h : Instantiates d types p c c') :
    p.term = d.closure := by
  have hcapture := congrArg Nameless.eraseTypes h.capture
  rw [Nameless.eraseTypes_subst, Nameless.eraseTypes_capture,
    Nameless.eraseTypes_capture] at hcapture
  have hsame := hcapture.trans (Nameless.subst_self (fun _ _ => rfl) fun _ _ => rfl)
  rw [Pending.term, FuncDecl.closure, Expr.term_lambda, Expr.term_lambda, length_binderNames,
    length_binderNames, h.length_eq, Expr.term, hsame]
  rfl

/-! ## Contexts -/

/-- What a name stands for where inlining is. -/
def Context.closures (ctx : Context) (n : Name) : Option Nameless :=
  (ctx.decl? n).map FuncDecl.closure

/-- The functions to inline use settled names only, and their free variables are listed. -/
structure Context.Hygienic (c : Counters) (ctx : Context) : Prop where
  params : ∀ n d, ctx.decls.get? n = some d → ∀ x ∈ d.paramNames, c.Settled x
  rhs : ∀ n d, ctx.decls.get? n = some d → d.rhs.Settled c
  free : ∀ n d, ctx.decls.get? n = some d → ∀ x ∈ d.closure.freeNames, x ∈ ctx.globals
  globals : ∀ x ∈ ctx.globals, c.Settled x

theorem Context.Hygienic.mono (h : ctx.Hygienic c) (hle : c ≤ c') : ctx.Hygienic c' where
  params n d hd x hx := (h.params n d hd x hx).mono hle
  rhs n d hd := (h.rhs n d hd).mono hle
  free := h.free
  globals x hx := (h.globals x hx).mono hle

theorem Context.get?_of_decl? (h : ctx.decl? n = some d) : ctx.decls.get? n = some d := by
  unfold decl? at h
  split at h
  · cases h
  · exact h

/-- Binders hide what has their names. -/
theorem Context.closures_shadow (ctx : Context) (binders : List Binder) :
    (ctx.shadow binders).closures = Nameless.hide ctx.closures (binderNames binders) := by
  funext n
  rw [closures, decl?_shadow, Nameless.hide, apply_ite (Option.map FuncDecl.closure)]
  rfl

/-- Definitions refer to settled names. -/
theorem Context.Hygienic.mem_globals (h : ctx.Hygienic c) {x : Name} {d : Nameless}
    (hd : ctx.closures n = some d) (hx : x ∈ d.freeNames) :
    x ∈ ctx.globals := by
  obtain ⟨d', hd', rfl⟩ := Option.map_eq_some_iff.mp hd
  exact h.free n d' (get?_of_decl? hd') x hx

theorem Context.Hygienic.avoids (h : ctx.Hygienic c) (hnames : ∀ x ∈ ctx.globals, x ∉ names) :
    Nameless.Avoids ctx.closures names := fun _ _ hd x hx => hnames x (h.mem_globals hd hx)

/-- **Binders that make way** for the free variables of right-hand sides. Their scope is the same
without names. -/
theorem avoidCapture_opens (h : ctx.avoidCapture binders σ = ((renames, binders'), σ'))
    (hctx : ctx.Hygienic σ.counters) (hbinders : ∀ n ∈ binderNames binders, σ.counters.Settled n)
    (hoccs : ∀ n ∈ occs, σ.counters.Settled n) :
    ({} : Subst).Opens renames (binderNames binders) (binderNames binders') occs
      σ.counters σ'.counters ∧
      binders'.length = binders.length ∧ Nameless.Avoids ctx.closures (binderNames binders') := by
  have hentered := (Subst.enters_of_enterBinders h).entered hbinders
  refine ⟨Subst.enterBinders_opens h (fun n r hr => ?_) hbinders hoccs (fun _ _ => rfl)
    (fun n r hr => ?_), hentered.length_eq, hctx.avoids fun x hx hmem => ?_⟩
  · cases hr
  · cases hr
  · exact (hentered.names x hmem).elim (fun hold => hold.2 hx) fun hnew => hnew (hctx.globals x hx)

/-- Under binders that make way, nothing changes but names. -/
theorem Opens.apply_same {names' : List Name}
    (h : ({} : Subst).Opens renames names names' occs c c') (hrun : renames.apply e σ = (e', σ'))
    (hσ : c' ≤ σ.counters) (he : e.Settled c) (hoccs : e.freeOccs ⊆ occs) :
    σ.counters ≤ σ'.counters ∧ e'.Settled σ'.counters ∧
      e'.nameless.under names' = e.nameless.under names := by
  obtain ⟨hgrows, hsettled, hunder⟩ := Subst.Opens.apply_under h (fun _ => rfl) hrun hσ he hoccs
  refine ⟨hgrows, hsettled, hunder.trans (congrArg (Prod.mk names.length) ?_)⟩
  exact Nameless.subst_self (fun _ _ => rfl) fun ty _ => Ty.subst_empty ty

/-- Right-hand sides under one renaming of their binders are the same without names. -/
theorem Opens.applyAll_same {names' : List Name} {es es' : List Expr}
    (h : ({} : Subst).Opens renames names names' occs c c')
    (hrun : renames.applyAll es σ = (es', σ')) (hσ : c' ≤ σ.counters) (hes : ∀ e ∈ es, e.Settled c)
    (hoccs : ∀ e ∈ es, e.freeOccs ⊆ occs) :
    σ.counters ≤ σ'.counters ∧ List.Forall₂ (fun e e' => e'.Settled σ'.counters ∧
      e'.nameless.under names' = e.nameless.under names) es es' := by
  induction es generalizing es' σ with
  | nil =>
    obtain ⟨rfl, rfl⟩ := Naming.pure_eq.mp hrun
    exact ⟨le_rfl, .nil⟩
  | cons e rest ih =>
    simp only [Subst.applyAll, Naming.bind_eq, Naming.pure_eq] at hrun
    obtain ⟨e', σ₁, hfirst, rest', σ₂, hrest, rfl, rfl⟩ := hrun
    obtain ⟨he, hlater⟩ := List.forall_mem_cons.mp hes
    obtain ⟨hocc, hoccs⟩ := List.forall_mem_cons.mp hoccs
    obtain ⟨hgrows, hsettled, hunder⟩ := Opens.apply_same h hfirst hσ he hocc
    obtain ⟨hgrows', hrest'⟩ := ih hrest (hσ.trans hgrows) hlater hoccs
    exact ⟨hgrows.trans hgrows', .cons ⟨hsettled.mono hgrows', hunder⟩ hrest'⟩

/-! ## The descent -/

/-- The result of a descent. Parameters that are left have been generated on the way. -/
structure InlinesTo (ctx : Context) (e : Expr) (p : Pending) (c c' : Counters) : Prop where
  draws : c.Draws c' (binderNames p.params)
  body : p.body.Settled c'
  inlines : Nameless.Inlines ctx.closures e.term p.term

theorem InlinesTo.of_value (hle : c ≤ c') (hbody : e'.Settled c')
    (h : Nameless.Inlines ctx.closures e.term e'.term) : InlinesTo ctx e { body := e' } c c' :=
  ⟨.nil hle, hbody, h⟩

/-- What the result leaves free is settled. -/
theorem settled_of_inlines (hctx : ctx.Hygienic c) (he : e.Settled c) {t : Nameless}
    (h : Nameless.Inlines ctx.closures e.term t) : ∀ x ∈ t.freeNames, c.Settled x := by
  intro x hx
  rcases (h.freeNames x hx).2 with hfree | ⟨n, d, hd, hfree⟩
  · exact he.free x (by rwa [Expr.freeNames_term] at hfree)
  · exact hctx.globals x (hctx.mem_globals hd hfree)

/-- A closed application is an expression that inlines the one given. -/
theorem InlinesTo.close (h : InlinesTo ctx e p c σ.counters) (hrun : p.close σ = .ok e' σ') :
    σ' = σ ∧ e'.Settled σ.counters ∧ Nameless.Inlines ctx.closures e.term e'.term := by
  obtain ⟨typeParams, params, body⟩ := p
  cases typeParams with
  | cons typeVar rest => exact absurd hrun Compile.throw_ok
  | nil =>
    obtain ⟨rfl, rfl⟩ := Compile.pure_ok.mp hrun
    refine ⟨rfl, ?_, h.inlines⟩
    unfold Expr.lambda
    split
    · exact h.body
    · exact ⟨Expr.annotationUses_true _, Expr.binders_settled_iff.mpr h.draws.settled, h.body⟩

/-- **An argument** is put in for the first parameter: a β-step. The other parameters are new, so
the argument does not mention them. -/
theorem InlinesTo.applyValue {fn arg arg' : Expr} (h : InlinesTo ctx fn p c σ₁.counters)
    (hctx : ctx.Hygienic c) (harg : arg.Settled c) (hσ : σ₁.counters ≤ σ.counters)
    (hsettled : arg'.Settled σ.counters) (harg' : Nameless.Inlines ctx.closures arg.term arg'.term)
    (hrun : p.applyValue note arg' σ = .ok p' σ') :
    InlinesTo ctx (.app note fn arg) p' c σ'.counters := by
  have happ : Nameless.Inlines ctx.closures (Expr.app note fn arg).term
      (Nameless.app p.term arg'.term) := by
    have hparts : Nameless.Inlines ctx.closures (.node .app _) (.node .app _) :=
      .node (.cons h.inlines.part (.cons harg'.part .nil))
    rwa [Nameless.under_nil, Nameless.under_nil, Nameless.under_nil, Nameless.under_nil] at hparts
  obtain ⟨typeParams, params, body⟩ := p
  cases typeParams with
  -- a type argument is due first
  | cons typeVar rest => exact absurd hrun Compile.throw_ok
  | nil =>
    cases params with
    | nil =>
      obtain ⟨rfl, rfl⟩ := Compile.pure_ok.mp hrun
      exact .of_value (h.draws.le.trans hσ)
        ⟨Expr.annotationUses_true _, h.body.mono hσ, hsettled⟩ happ
    | cons param params =>
      simp only [Pending.applyValue, Compile.bind_ok, Compile.lift_ok, Compile.pure_ok] at hrun
      obtain ⟨body', σ₂, hsubst, rfl, rfl⟩ := hrun
      -- the argument takes the place of the first parameter
      obtain ⟨hgrows, hnameless, hbody'⟩ :=
        Subst.apply_replaces hsubst (.single hsettled) (h.body.mono hσ)
      obtain ⟨hfirst, hdraws⟩ := h.draws.of_cons
      refine ⟨hdraws.mono le_rfl (hσ.trans hgrows), hbody', happ.reduces (.single ?_)⟩
      have himage : ∀ n, ((Subst.single param.name arg').image n).eraseTypes
          = if param.name = n then arg'.term else .free n := by
        intro n
        rw [Subst.image_single]
        split <;> rfl
      have hterm : body'.term =
          body.term.subst (fun n => if param.name = n then arg'.term else .free n) id := by
        rw [Expr.term, hnameless, Nameless.eraseTypes_subst]
        exact Nameless.subst_congr (fun n _ => himage n) fun _ _ => rfl
      -- it has none of the parameters left free, which are drawn later than all it refers to
      have hstep :=
        Nameless.step_lambda body.closedAt_term arg'.closedAt_term hfirst fun n hn hmem =>
          hdraws.new n hmem (settled_of_inlines hctx harg harg' n hn)
      rw [Pending.term, Pending.term, Expr.term_lambda, Expr.term_lambda, hterm]
      exact hstep

/-- A type for the first type parameter changes nothing but types. -/
theorem InlinesTo.applyType {fn : Expr} {ty : Ty} (h : InlinesTo ctx fn p c σ.counters)
    (hrun : p.applyType note ty σ = .ok p' σ') :
    InlinesTo ctx (.typeApp note fn ty) p' c σ'.counters := by
  obtain ⟨typeParams, params, body⟩ := p
  cases typeParams with
  | nil =>
    cases params with
    | nil =>
      obtain ⟨rfl, rfl⟩ := Compile.pure_ok.mp hrun
      exact .of_value h.draws.le ⟨Expr.annotationUses_true _, h.body, fun _ _ => trivial⟩ h.inlines
    | cons param params => exact absurd hrun Compile.throw_ok
  | cons typeVar typeParams =>
    simp only [Pending.applyType, Compile.bind_ok, Compile.lift_ok, Compile.pure_ok] at hrun
    obtain ⟨body', σ₁, hsubst, rfl, rfl⟩ := hrun
    have hsettled : (Subst.singleType typeVar ty).Settled σ.counters := by
      intro n r hr
      cases hr
    obtain ⟨hgrows, hnameless, hbody'⟩ := Subst.apply_replaces hsubst hsettled h.body
    have hnames : binderNames
        (params.map fun b => { b with ty := b.ty.map (Subst.singleType typeVar ty).applyTy })
        = binderNames params := List.map_map
    -- types are erased from terms
    have hterm : body'.term = body.term := by
      rw [Expr.term, hnameless, Nameless.eraseTypes_subst]
      exact Nameless.subst_self (fun _ _ => rfl) fun _ _ => rfl
    refine ⟨?_, hbody', ?_⟩
    · rw [hnames]
      exact h.draws.mono le_rfl hgrows
    · rw [Pending.term, Expr.term_lambda, hnames, hterm, ← Expr.term_lambda]
      exact h.inlines

/-- What a descent of this depth yields is inlined. -/
def DescendInlines (depth : Nat) : Prop :=
  ∀ {ctx : Context} {e : Expr} {p : Pending} {σ σ' : Session}, descend depth ctx e σ = .ok p σ' →
    ctx.Hygienic σ.counters → e.Settled σ.counters → InlinesTo ctx e p σ.counters σ'.counters

/-- **A part in the same scope** is inlined and closed. -/
theorem DescendInlines.value (h : DescendInlines depth) (hrun : descend depth ctx e σ = .ok p σ₁)
    (hclose : p.close σ₁ = .ok e' σ') (hctx : ctx.Hygienic σ.counters) (he : e.Settled σ.counters) :
    σ.counters ≤ σ'.counters ∧ e'.Settled σ'.counters ∧
      Nameless.Inlines ctx.closures e.term e'.term := by
  have hp := h hrun hctx he
  obtain ⟨rfl, hsettled, hinlines⟩ := hp.close hclose
  exact ⟨hp.draws.le, hsettled, hinlines⟩

/-- A part under binders that made way. -/
theorem DescendInlines.under (h : DescendInlines depth) {e₁ : Expr}
    (hrun : descend depth (ctx.shadow binders') e₁ σ = .ok p σ₁) (hclose : p.close σ₁ = .ok e' σ')
    (hctx : ctx.Hygienic σ.counters) (he₁ : e₁.Settled σ.counters)
    (hunder : e₁.nameless.under (binderNames binders') = e.nameless.under names)
    (havoids : Nameless.Avoids ctx.closures (binderNames binders')) :
    σ.counters ≤ σ'.counters ∧ e'.Settled σ'.counters ∧
      Nameless.InlinesPart ctx.closures (e.term.under names)
        (e'.term.under (binderNames binders')) := by
  obtain ⟨hgrows, hsettled, hinlines⟩ :=
    h.value hrun hclose ⟨hctx.params, hctx.rhs, hctx.free, hctx.globals⟩ he₁
  refine ⟨hgrows, hsettled, binderNames binders', e₁.term, e'.term, ?_, rfl, havoids, ?_⟩
  · rw [Expr.term, Expr.term, ← Nameless.eraseTypes_under, ← Nameless.eraseTypes_under, hunder]
  · rwa [← Context.closures_shadow]

/-- **Alternatives**, one after the other. -/
theorem DescendInlines.alts (h : DescendInlines depth) {alts alts' : Alts}
    (hrun : Compile.MapRun (fun (alt : Pattern × Expr) => (do
      let (renames, binders) ← (ctx.avoidCapture alt.1.binders : Naming (Subst × List Binder))
      let rhs ← (renames.apply alt.2 : Naming Expr)
      let rhs ← (do (← descend depth (ctx.shadow binders) rhs).close)
      return (alt.1.withBinders binders, rhs) : Compile (Pattern × Expr))) alts σ alts' σ')
    (hctx : ctx.Hygienic σ.counters)
    (halts : Expr.UsesAlts σ.counters.Settled (fun _ => True) alts) :
    σ.counters ≤ σ'.counters ∧ Expr.UsesAlts σ'.counters.Settled (fun _ => True) alts' ∧
      alts'.map (·.1.shape) = alts.map (·.1.shape) ∧
      List.Forall₂ (Nameless.InlinesPart ctx.closures)
        (alts.map fun alt => alt.2.term.under alt.1.names)
        (alts'.map fun alt => alt.2.term.under alt.1.names) := by
  induction hrun with
  | nil σ => exact ⟨le_rfl, trivial, rfl, .nil⟩
  | @cons alt _ _ _ _ _ _ hfirst _ ih =>
    obtain ⟨pattern, rhs⟩ := alt
    simp only [Compile.bind_ok, Compile.lift_ok, Compile.pure_ok] at hfirst
    obtain ⟨⟨renames, binders'⟩, σ₁, hcapture, rhs₁, σ₂, hrename, rhs', σ₃,
      ⟨p, σ₄, hdescend, hclose⟩, rfl, rfl⟩ := hfirst
    -- binders that would capture an unfolded name are renamed first
    obtain ⟨hopens, hlength, havoids⟩ :=
      avoidCapture_opens hcapture hctx (Expr.binders_settled_iff.mp halts.1)
        (Expr.Settled.free halts.2.1)
    obtain ⟨hgrows₁, hrhs₁, hunder⟩ :=
      Opens.apply_same hopens hrename le_rfl halts.2.1 (List.Subset.refl _)
    have hgrows₂ := hopens.grows.trans hgrows₁
    obtain ⟨hgrows₃, hsettled, hpart⟩ :=
      h.under hdescend hclose (hctx.mono hgrows₂) hrhs₁ hunder havoids
    have hgrows := hgrows₂.trans hgrows₃
    obtain ⟨hgrows', hrest, hshapes, hparts⟩ :=
      ih (hctx.mono hgrows) (Expr.settledAlts_mono halts.2.2 hgrows)
    have hnames := Pattern.names_withBinders hlength
    refine ⟨hgrows.trans hgrows', ⟨?_, hsettled.mono hgrows', hrest⟩, ?_, .cons ?_ hparts⟩
    · refine Subst.uses_withBinders hlength (Expr.binders_settled_iff.mpr fun n hn => ?_)
      exact (hopens.settled n hn).mono (hgrows₁.trans (hgrows₃.trans hgrows'))
    · exact congrArg₂ List.cons (pattern.shape_withBinders binders') hshapes
    · change Nameless.InlinesPart _ _ (rhs'.term.under (pattern.withBinders binders').names)
      rw [hnames]
      exact hpart

/-- The right-hand sides of a `let`, and in the same way any list of parts under the same
binders. -/
theorem DescendInlines.parts (h : DescendInlines depth) {es es₁ es' : List Expr}
    (hrun :
      Compile.MapRun (fun e => do (← descend depth (ctx.shadow binders') e).close) es₁ σ es' σ')
    (hctx : ctx.Hygienic σ.counters)
    (hrenamed : List.Forall₂ (fun e e₁ => e₁.Settled σ.counters ∧
      e₁.nameless.under (binderNames binders') = e.nameless.under names) es es₁)
    (havoids : Nameless.Avoids ctx.closures (binderNames binders')) :
    σ.counters ≤ σ'.counters ∧ (∀ e' ∈ es', e'.Settled σ'.counters) ∧ List.Forall₂ (fun e e' =>
      Nameless.InlinesPart ctx.closures (e.term.under names)
        (e'.term.under (binderNames binders'))) es es' := by
  induction hrun generalizing es with
  | nil σ =>
    cases hrenamed
    exact ⟨le_rfl, List.forall_mem_nil _, .nil⟩
  | cons hfirst _ ih =>
    cases hrenamed with
    | cons hhead htail =>
      simp only [Compile.bind_ok] at hfirst
      obtain ⟨p, σ₁, hdescend, hclose⟩ := hfirst
      obtain ⟨hgrows, hsettled, hpart⟩ := h.under hdescend hclose hctx hhead.1 hhead.2 havoids
      obtain ⟨hgrows', hsettled', hparts⟩ :=
        ih (hctx.mono hgrows) (htail.imp fun _ _ he => ⟨he.1.mono hgrows, he.2⟩)
      exact ⟨hgrows.trans hgrows', List.forall_mem_cons.mpr ⟨hsettled.mono hgrows', hsettled'⟩,
        .cons hpart hparts⟩

/-- **A reference** is replaced by a function with fresh parameters, into whose body is inlined. -/
theorem DescendInlines.unfold (h : DescendInlines depth) {name : Name}
    (hdecl : ctx.decl? name = some d) (hrun : descend (depth + 1) ctx (.var note name) σ = .ok p σ')
    (hctx : ctx.Hygienic σ.counters) : InlinesTo ctx (.var note name) p σ.counters σ'.counters := by
  have hget := Context.get?_of_decl? hdecl
  rw [descend] at hrun
  simp only [hdecl] at hrun
  -- a function that is being unfolded is not unfolded again: the run fails
  split at hrun
  · simp only [Compile.bind_ok] at hrun
    obtain ⟨_, _, hfail, _⟩ := hrun
    exact absurd hfail Compile.throw_ok
  · simp only [Compile.bind_ok, Compile.lift_ok, Compile.pure_ok] at hrun
    obtain ⟨unfolded, σ₁, hinstantiate, body', σ₂, ⟨p₁, σ₃, hdescend, hclose⟩, rfl, rfl⟩ := hrun
    obtain ⟨s, _, _, hinst⟩ :=
      instantiate_spec hinstantiate (hctx.params name d hget) (hctx.rhs name d hget)
    -- the body is inlined with this function among those being unfolded
    have hctx' := hctx.mono hinst.draws.le
    obtain ⟨hgrows, hsettled, hinlines⟩ :=
      h.value hdescend hclose ⟨hctx'.params, hctx'.rhs, hctx'.free, hctx'.globals⟩ hinst.body
    refine ⟨hinst.draws.mono le_rfl hgrows, hsettled, ?_⟩
    have hclosure : ctx.closures name = some (Nameless.lambda (binderNames unfolded.params).length
        (unfolded.body.term.capture (binderNames unfolded.params) 0)) := by
      rw [Context.closures, hdecl, ← Expr.term_lambda]
      exact congrArg some hinst.term_eq.symm
    have havoids : Nameless.Avoids ctx.closures (binderNames unfolded.params) :=
      hctx.avoids fun x hx hmem =>
        hinst.draws.new x hmem (hctx.globals x hx)
    rw [Pending.term, Expr.term_lambda]
    refine .reference hclosure havoids ?_
    rw [← Context.closures_shadow]
    exact hinlines

/-- **Inlining is unfolding and reduction.** By induction on the depth of the descent. -/
theorem descend_inlines (depth : Nat) : DescendInlines depth := by
  -- the depth bounds the recursion into parts and into unfolded bodies alike
  induction depth with
  | zero =>
    intro ctx e p σ σ' hrun
    exact absurd hrun Compile.throw_ok
  | succ depth ih =>
    intro ctx e p σ σ' hrun hctx he
    cases e with
    | var note name =>
      cases hdecl : ctx.decl? name with
      -- the name is local or not to be inlined, and stays
      | none =>
        rw [descend] at hrun
        simp only [hdecl, Compile.pure_ok] at hrun
        obtain ⟨rfl, rfl⟩ := hrun
        refine .of_value le_rfl he (.of_none fun n hn => ?_)
        obtain rfl := List.mem_singleton.mp hn
        rw [Context.closures, hdecl]
        rfl
      | some d => exact ih.unfold hdecl hrun hctx
    | con | intLit | undefined | error =>
      obtain ⟨rfl, rfl⟩ := Compile.pure_ok.mp hrun
      exact .of_value le_rfl he (.of_none (List.forall_mem_nil _))
    | app note fn arg =>
      simp only [descend, Compile.bind_ok] at hrun
      obtain ⟨p₁, σ₁, hfn, arg', σ₂, ⟨p₂, σ₃, hdescend, hclose⟩, happly⟩ := hrun
      -- the head may be an unfolded function, which takes the argument in
      have hp₁ := ih hfn hctx he.2.1
      obtain ⟨hgrows, hsettled, harg'⟩ := ih.value hdescend hclose (hctx.mono hp₁.draws.le)
        (Expr.Settled.mono he.2.2 hp₁.draws.le)
      exact hp₁.applyValue hctx he.2.2 hgrows hsettled harg' happly
    | typeApp note fn ty =>
      simp only [descend, Compile.bind_ok] at hrun
      obtain ⟨p₁, σ₁, hfn, happly⟩ := hrun
      exact (ih hfn hctx he.2.1).applyType happly
    | cond note test thenBranch elseBranch =>
      simp only [descend, Compile.bind_ok, Compile.pure_ok] at hrun
      obtain ⟨test', σ₁, ⟨p₁, _, htest, hclose₁⟩, then', σ₂, ⟨p₂, _, hthen, hclose₂⟩, else', σ₃,
        ⟨p₃, _, helse, hclose₃⟩, rfl, rfl⟩ := hrun
      obtain ⟨hgrows₁, hsettled₁, htest'⟩ := ih.value htest hclose₁ hctx he.2.1
      obtain ⟨hgrows₂, hsettled₂, hthen'⟩ :=
        ih.value hthen hclose₂ (hctx.mono hgrows₁) (Expr.Settled.mono he.2.2.1 hgrows₁)
      have hgrows := hgrows₁.trans hgrows₂
      obtain ⟨hgrows₃, hsettled₃, helse'⟩ :=
        ih.value helse hclose₃ (hctx.mono hgrows) (Expr.Settled.mono he.2.2.2 hgrows)
      refine .of_value (hgrows.trans hgrows₃)
        ⟨Expr.annotationUses_true _, hsettled₁.mono (hgrows₂.trans hgrows₃),
        hsettled₂.mono hgrows₃, hsettled₃⟩ ?_
      rw [Expr.term_cond, Expr.term_cond]
      exact .node (.cons htest'.part (.cons hthen'.part (.cons helse'.part .nil)))
    | case note scrutinee alts =>
      simp only [descend, Compile.bind_ok, Compile.pure_ok] at hrun
      obtain ⟨scrutinee', σ₁, ⟨p₁, _, hscrutinee, hclose⟩, alts', σ₂, halts, rfl, rfl⟩ := hrun
      obtain ⟨hgrows, hsettled, hscrutinee'⟩ := ih.value hscrutinee hclose hctx he.2.1
      obtain ⟨hgrows', hsettled', hshapes, halts'⟩ :=
        ih.alts (Compile.mapM_ok halts) (hctx.mono hgrows) (Expr.settledAlts_mono he.2.2 hgrows)
      refine .of_value (hgrows.trans hgrows')
        ⟨Expr.annotationUses_true _, hsettled.mono hgrows', hsettled'⟩ ?_
      rw [Expr.term_case, Expr.term_case, hshapes]
      exact .node (.cons hscrutinee'.part halts')
    | lam note params body =>
      simp only [descend, Compile.bind_ok, Compile.lift_ok, Compile.pure_ok] at hrun
      obtain ⟨⟨renames, params'⟩, σ₁, hcapture, body₁, σ₂, hrename, body', σ₃,
        ⟨p₁, _, hdescend, hclose⟩, rfl, rfl⟩ := hrun
      -- `renames` opens the body under names that no unfolded body refers to
      obtain ⟨hopens, _, havoids⟩ :=
        avoidCapture_opens hcapture hctx (Expr.binders_settled_iff.mp he.2.1)
          (Expr.Settled.free he.2.2)
      obtain ⟨hgrows₁, hbody₁, hunder⟩ :=
        Opens.apply_same hopens hrename le_rfl he.2.2 (List.Subset.refl _)
      have hgrows := hopens.grows.trans hgrows₁
      obtain ⟨hgrows₂, hsettled, hpart⟩ :=
        ih.under hdescend hclose (hctx.mono hgrows) hbody₁ hunder havoids
      have hparams' := Expr.binders_settled_iff.mpr fun n hn =>
        (hopens.settled n hn).mono (hgrows₁.trans hgrows₂)
      refine .of_value (hgrows.trans hgrows₂)
        ⟨Expr.annotationUses_true _, hparams', hsettled⟩ ?_
      rw [Expr.term_lam, Expr.term_lam]
      exact .node (.cons hpart .nil)
    | letRec note binds body =>
      simp only [descend, Compile.bind_ok, Compile.lift_ok, Compile.pure_ok] at hrun
      obtain ⟨⟨renames, binders'⟩, σ₁, hcapture, rhss₁, σ₂, hrenames, body₁, σ₃, hrename, rhss', σ₄,
        hrhss, body', σ₅, ⟨p₁, _, hdescend, hclose⟩, rfl, rfl⟩ := hrun
      have hrhss₀ := Expr.usesRhss_iff.mp he.2.2.1
      -- one renaming serves all right-hand sides and the body
      have hoccs : ∀ n ∈ (Binds.rhss binds).flatMap Expr.freeOccs ++ body.freeOccs,
          σ.counters.Settled n := by
        refine List.forall_mem_append.mpr ⟨fun n hn => ?_, Expr.Settled.free he.2.2.2⟩
        obtain ⟨rhs, hrhs, hn⟩ := List.mem_flatMap.mp hn
        exact Expr.Settled.free (hrhss₀ rhs hrhs) n hn
      obtain ⟨hopens, hlength, havoids⟩ :=
        avoidCapture_opens hcapture hctx (Expr.binders_settled_iff.mp he.2.1) hoccs
      obtain ⟨hgrows₁, hrhss₁⟩ :=
        Opens.applyAll_same hopens hrenames le_rfl hrhss₀ fun rhs hrhs n hn =>
          List.mem_append_left _ (List.mem_flatMap.mpr ⟨rhs, hrhs, hn⟩)
      obtain ⟨hgrows₂, hbody₁, hunder⟩ :=
        Opens.apply_same hopens hrename hgrows₁ he.2.2.2 (List.subset_append_right _ _)
      have hgrows := hopens.grows.trans (hgrows₁.trans hgrows₂)
      obtain ⟨hgrows₃, hrhss', hparts⟩ := ih.parts (Compile.mapM_ok hrhss) (hctx.mono hgrows)
        (hrhss₁.imp fun _ _ hrhs => ⟨hrhs.1.mono hgrows₂, hrhs.2⟩) havoids
      obtain ⟨hgrows₄, hbody', hpart⟩ :=
        ih.under hdescend hclose (hctx.mono (hgrows.trans hgrows₃)) (hbody₁.mono hgrows₃)
          hunder havoids
      -- renaming and inlining keep the bindings in step with their binders
      have hzip : rhss'.length = binders'.length := by
        rw [← hparts.length_eq, hlength, Binds.rhss, Binds.binders, List.length_map,
          List.length_map]
      refine .of_value (hgrows.trans (hgrows₃.trans hgrows₄))
        ⟨Expr.annotationUses_true _, ?_, ?_, hbody'⟩ ?_
      · rw [Subst.binders_zip hzip]
        exact Expr.binders_settled_iff.mpr fun n hn =>
          (hopens.settled n hn).mono (hgrows₁.trans (hgrows₂.trans (hgrows₃.trans hgrows₄)))
      · rw [Expr.usesRhss_iff, Binds.rhss_zip hzip]
        exact fun rhs hrhs => (hrhss' rhs hrhs).mono hgrows₄
      · rw [Expr.term_letRec, Expr.term_letRec, Binds.rhss_zip hzip, Binds.names_zip hzip]
        refine .node ?_
        rw [List.forall₂_map_left_iff, List.forall₂_map_right_iff]
        exact List.rel_append hparts (.cons hpart .nil)

/-! ## Functions without cyclic references -/

/-- The right-hand side of one function refers to another of them. -/
def Refers (decls : List FuncDecl) (f g : Name) : Prop :=
  ∃ d ∈ decls, d.name = f ∧ g ∈ d.rhs.freeOccs ∧ g ∉ d.paramNames ∧ g ∈ decls.map FuncDecl.name

/-- A rank falls along references: the number of functions that a function leads to. -/
theorem exists_rank_of_acyclic (hacyclic : ∀ f, ¬ Relation.TransGen (Refers decls) f f) :
    ∃ rank : Name → Nat, ∀ f g, Refers decls f g → rank g < rank f := by
  classical
  refine ⟨fun f =>
    ((decls.map FuncDecl.name).toFinset.filter (Relation.TransGen (Refers decls) f)).card,
    fun f g hrefers => Finset.card_lt_card ?_⟩
  rw [Finset.ssubset_iff_of_subset fun h hh => ?_]
  · obtain ⟨_, _, _, _, _, hmem⟩ := id hrefers
    refine ⟨g, Finset.mem_filter.mpr ⟨List.mem_toFinset.mpr hmem, .single hrefers⟩,
      fun hcycle => ?_⟩
    exact hacyclic g (Finset.mem_filter.mp hcycle).2
  · obtain ⟨hmem, hleads⟩ := Finset.mem_filter.mp hh
    exact Finset.mem_filter.mpr ⟨hmem, .head hrefers hleads⟩

/-- **Functions without cyclic references can be put in order.** -/
theorem exists_inOrder (hnodup : (decls.map FuncDecl.name).Nodup)
    (hacyclic : ∀ f, ¬ Relation.TransGen (Refers decls) f f)
    (htypeParams : ∀ d ∈ decls, d.typeParams = [])
    (htyped : ∀ d ∈ decls, ∀ n ∈ d.rhs.typedHeads, n ∉ d.paramNames → n ∉ decls.map FuncDecl.name) :
    ∃ mains : List FuncDecl, mains.Perm decls ∧ InOrder mains := by
  obtain ⟨rank, hrank⟩ := exists_rank_of_acyclic hacyclic
  let le : FuncDecl → FuncDecl → Bool := fun d d' => decide (rank d.name ≤ rank d'.name)
  have htrans : ∀ d₁ d₂ d₃, le d₁ d₂ = true → le d₂ d₃ = true → le d₁ d₃ = true := by
    simp only [le, decide_eq_true_eq]
    omega
  have htotal : ∀ d₁ d₂, (le d₁ d₂ || le d₂ d₁) = true := by
    simp only [le, Bool.or_eq_true, decide_eq_true_eq]
    omega
  have hsorted : (decls.mergeSort le).Pairwise fun d d' => rank d.name ≤ rank d'.name :=
    (List.pairwise_mergeSort htrans htotal decls).imp of_decide_eq_true
  have hperm := List.mergeSort_perm decls le
  have hnames := hperm.map FuncDecl.name
  refine ⟨decls.mergeSort le, hperm, hnames.nodup_iff.mpr hnodup,
    fun i d hi h hh hparam => ⟨fun hmem => ?_, fun g hg => ?_⟩⟩
  case refine_2 =>
    have hd := hperm.mem_iff.mp (List.mem_of_getElem? hi)
    exact typesFirst_of_untyped htypeParams hh (htyped d hd h.1 · hparam) g (hperm.mem_iff.mp hg)
  have hn := Expr.mem_freeOccs_of_mem_heads hh
  -- a function further on has no lower rank, but what is referred to has
  obtain ⟨d', hd', hname⟩ := List.mem_map.mp hmem
  rw [← hname] at hn hparam
  have hle : rank d.name ≤ rank d'.name := by
    obtain ⟨j, hj⟩ := List.mem_iff_getElem?.mp hd'
    rw [List.getElem?_drop] at hj
    obtain ⟨hi', rfl⟩ := List.getElem?_eq_some_iff.mp hi
    obtain ⟨hj', rfl⟩ := List.getElem?_eq_some_iff.mp hj
    rcases Nat.eq_zero_or_pos j with rfl | hpos
    · exact le_rfl
    · exact List.pairwise_iff_getElem.mp hsorted i (i + j) hi' hj' (by omega)
  have hlt := hrank d.name d'.name ⟨d, hperm.mem_iff.mp (List.mem_of_getElem? hi), rfl, hn, hparam,
    List.mem_map_of_mem (hperm.mem_iff.mp (List.mem_of_mem_drop hd'))⟩
  omega

theorem rhsSizes_perm {mains : List FuncDecl} (h : mains.Perm decls) :
    rhsSizes mains = rhsSizes decls := by
  induction h with
  | nil => rfl
  | cons d _ ih => rw [rhsSizes, rhsSizes, ih]
  | swap d d' rest =>
    simp only [rhsSizes]
    omega
  | trans _ _ ih ih' => exact ih.trans ih'

/-- Functions with different names are found by their names. -/
theorem get?_ofDecls (hnodup : (decls.map FuncDecl.name).Nodup) :
    (Context.ofDecls decls).decls.get? n = some d ↔ d ∈ decls ∧ d.name = n := by
  constructor
  · intro h
    obtain ⟨d', hd', heq⟩ := List.mem_map.mp (Table.mem_of_get?_ofList h)
    obtain ⟨rfl, rfl⟩ := Prod.mk.inj heq
    exact ⟨hd', rfl⟩
  · rintro ⟨hd, rfl⟩
    exact Table.get?_ofList_of_mem (by rwa [List.map_map]) (List.mem_map_of_mem hd)

/-- **Inlining succeeds** where nothing refers to itself and no function is applied to types. -/
theorem inline_succeeds_of_acyclic (hnodup : (decls.map FuncDecl.name).Nodup)
    (hacyclic : ∀ f, ¬ Relation.TransGen (Refers decls) f f)
    (htypeParams : ∀ d ∈ decls, d.typeParams = [])
    (htyped : ∀ d ∈ decls, ∀ n ∈ d.rhs.typedHeads, n ∉ d.paramNames → n ∉ decls.map FuncDecl.name)
    (he : ∀ n ∈ e.typedHeads, n ∉ decls.map FuncDecl.name) :
    (inlineExpr decls e).Succeeds fun _ => True := by
  obtain ⟨mains, hperm, horder⟩ := exists_inOrder hnodup hacyclic htypeParams htyped
  have hfits : Fits mains mains.length (Context.ofDecls decls) [] e := by
    refine ⟨fun n => ?_, List.nil_subset _, fun h hh _ => ⟨?_, fun d hd => ?_⟩⟩
    · refine Option.ext fun d => ?_
      rw [get?_ofDecls hnodup, get?_ofDecls horder.nodup, hperm.mem_iff]
    · rw [List.drop_length]
      exact List.not_mem_nil
    · exact typesFirst_of_untyped htypeParams hh (he h.1) d (hperm.mem_iff.mp hd)
  have hweight : weight mains mains.length e ≤ (Context.ofDecls decls).bound e := by
    rw [weight, List.take_length, Context.bound, values_ofDecls hnodup, rhsSizes_perm hperm]
  exact DescendSucceeds.value (descend_succeeds horder _) hfits hweight

/-- The functions to inline use settled names only. -/
theorem hygienic_ofDecls (h : ∀ d ∈ decls, d.Settled c) : (Context.ofDecls decls).Hygienic c := by
  have hdecl : ∀ n d, (Context.ofDecls decls).decls.get? n = some d → d ∈ decls := by
    intro n d hd
    obtain ⟨d', hd', heq⟩ := List.mem_map.mp (Table.mem_of_get?_ofList hd)
    exact (Prod.mk.inj heq).2 ▸ hd'
  have hrhs : ∀ d ∈ decls, d.rhs.Settled c :=
    fun d hd => (h d hd).rhs.imp (fun _ hn => hn) fun _ _ _ => trivial
  refine ⟨fun n d hd => (binders_uses_iff.mp (h d (hdecl n d hd)).params).1,
    fun n d hd => hrhs d (hdecl n d hd), fun n d hd x hx => ?_, fun x hx => ?_⟩
  · rw [FuncDecl.freeNames_closure] at hx
    refine List.mem_flatMap.mpr ⟨d, hdecl n d hd, ?_⟩
    rw [List.mem_filter, Expr.mem_freeVars]
    exact List.mem_filter.mp hx
  · obtain ⟨d, hd, hx⟩ := List.mem_flatMap.mp hx
    rw [List.mem_filter, Expr.mem_freeVars] at hx
    exact (hrhs d hd).free x hx.1

end Inline

/-! ## Inlining into an expression -/

/-- What a name is defined as: the function of this name, as a function of its parameters. -/
def definitions (decls : List FuncDecl) (n : Name) : Option Nameless :=
  (decls.find? (·.name = n)).map FuncDecl.closure

/-- Outside of binders every function of the list is unfolded. -/
theorem closures_ofDecls {decls : List FuncDecl} (hnodup : (decls.map FuncDecl.name).Nodup) :
    (Inline.Context.ofDecls decls).closures = definitions decls := by
  funext n
  have hdecl : (Inline.Context.ofDecls decls).decl? n =
      (Inline.Context.ofDecls decls).decls.get? n :=
    if_neg List.not_mem_nil
  rw [Inline.Context.closures, definitions, hdecl]
  congr 1
  refine Option.ext fun d => ?_
  rw [Inline.get?_ofDecls hnodup]
  constructor
  · rintro ⟨hd, rfl⟩
    cases hfind : decls.find? (·.name = d.name) with
    | none => exact absurd (decide_eq_true rfl) (List.find?_eq_none.mp hfind d hd)
    | some d' =>
      have hname : d'.name = d.name := by simpa using List.find?_some hfind
      rw [List.inj_on_of_nodup_map hnodup (List.mem_of_find?_eq_some hfind) hd hname]
  · intro hfind
    exact ⟨List.mem_of_find?_eq_some hfind, by simpa using List.find?_some hfind⟩

/-- **Inlining preserves meaning and is complete.** What it yields is a reduct of the expression
with all references to the functions unfolded, and refers to none of them. It does yield something
if the functions do not refer to each other in a cycle, have no type parameters and are not applied
to types. -/
theorem inlineExpr_sound (decls : List FuncDecl) (e : Expr) (σ : Session)
    (hnodup : (decls.map FuncDecl.name).Nodup) (hdecls : ∀ d ∈ decls, d.Settled σ.counters)
    (he : e.Settled σ.counters) :
    (∀ e' σ', inlineExpr decls e σ = .ok e' σ' →
      (∃ u, Nameless.Unfolds (definitions decls) e.term u ∧ Nameless.Reduces u e'.term) ∧
        ∀ d ∈ decls, d.name ∉ e'.freeOccs) ∧
    ((∀ f, ¬ Relation.TransGen (Inline.Refers decls) f f) → (∀ d ∈ decls, d.typeParams = []) →
      (∀ d ∈ decls, ∀ n ∈ d.rhs.typedHeads, n ∉ d.paramNames → n ∉ decls.map FuncDecl.name) →
      (∀ n ∈ e.typedHeads, n ∉ decls.map FuncDecl.name) → ∃ e' σ',
        inlineExpr decls e σ = .ok e' σ') := by
  refine ⟨fun e' σ' hrun => ?_, fun hacyclic htypeParams htyped htyped' => ?_⟩
  · simp only [inlineExpr, Inline.Context.inline, Compile.bind_ok] at hrun
    obtain ⟨p, σ₁, hdescend, hclose⟩ := hrun
    obtain ⟨_, _, hinlines⟩ :=
      Inline.DescendInlines.value (Inline.descend_inlines _) hdescend hclose
        (Inline.hygienic_ofDecls hdecls) he
    rw [closures_ofDecls hnodup] at hinlines
    refine ⟨hinlines, fun d hd hfree => ?_⟩
    -- no name that stands for a definition is left free
    have hnone := (hinlines.freeNames d.name (by rwa [Expr.freeNames_term])).1
    rw [definitions, Option.map_eq_none_iff, List.find?_eq_none] at hnone
    exact hnone d hd (decide_eq_true rfl)
  · obtain ⟨e', σ', hrun, _⟩ :=
      Inline.inline_succeeds_of_acyclic hnodup hacyclic htypeParams htyped htyped' σ
    exact ⟨e', σ', hrun⟩

/-- Names of a source text are not generated ones. -/
theorem FuncDecl.settled_of_unmarked {c : Counters} {d : FuncDecl} (hname : d.name.isMarked = false)
    (hparams : ∀ n ∈ d.paramNames, n.isMarked = false)
    (hrhs : ∀ n ∈ d.rhs.freeOccs ++ d.rhs.boundNames, n.isMarked = false) : d.Settled c where
  name := Counters.settled_of_unmarked hname
  params :=
    binders_uses_iff.mpr
      ⟨fun n hn => Counters.settled_of_unmarked (hparams n hn), fun _ _ => .inl trivial⟩
  returnTy _ _ := .inl trivial
  rhs := (Expr.settled_of_unmarked hrhs).imp (fun _ hn => hn) fun _ _ _ => .inl trivial

/-- `twice f = \x -> apply f (apply f x)` and `apply g y = g y` in `\apply -> twice apply`. The
binder has the name of a function, and `twice` refers to that function. -/
theorem twice_apply_inlined :
    let var : Name → Expr := .var {}
    let app : Expr → Expr → Expr := .app {}
    let twice : FuncDecl :=
      { name := "twice", params := [{ name := "f" }]
        rhs :=
          .lam {} [{ name := "x" }]
            (app (app (var "apply") (var "f")) (app (app (var "apply") (var "f")) (var "x"))) }
    let apply : FuncDecl :=
      { name := "apply", params := [{ name := "g" }, { name := "y" }],
        rhs := app (var "g") (var "y") }
    let e : Expr := .lam {} [{ name := "apply" }] (app (var "twice") (var "apply"))
    (([twice, apply].map FuncDecl.name).Nodup ∧
      (∀ d ∈ [twice, apply], d.Settled ({} : Session).counters) ∧
      e.Settled ({} : Session).counters) ∧
      ∃ e' σ', inlineExpr [twice, apply] e {} = .ok e' σ' ∧
        (∃ u, Nameless.Unfolds (definitions [twice, apply]) e.term u ∧ Nameless.Reduces u e'.term) ∧
          ∀ d ∈ [twice, apply], d.name ∉ e'.freeOccs := by
  intro var app twice apply e
  have hnodup : ([twice, apply].map FuncDecl.name).Nodup := by decide
  have hdecls : ∀ d ∈ [twice, apply], d.Settled ({} : Session).counters := by
    refine List.forall_mem_cons.mpr
      ⟨FuncDecl.settled_of_unmarked (by decide) (by decide) (by decide),
      List.forall_mem_singleton.mpr
        (FuncDecl.settled_of_unmarked (by decide) (by decide) (by decide))⟩
  have he : e.Settled ({} : Session).counters := Expr.settled_of_unmarked (by decide)
  -- the only reference is the one of `twice` to `apply`
  have hrefers : ∀ f g, Inline.Refers [twice, apply] f g → f = "twice" ∧ g = "apply" := by
    rintro f g ⟨d, hd, rfl, hfree, hparam, _⟩
    rcases List.mem_cons.mp hd with rfl | hd
    · refine ⟨rfl, ?_⟩
      have hall : ∀ n ∈ twice.rhs.freeOccs, n ∉ twice.paramNames → n = "apply" := by decide
      exact hall g hfree hparam
    · obtain rfl := List.mem_singleton.mp hd
      have hnone : ∀ n ∈ apply.rhs.freeOccs, n ∈ apply.paramNames := by decide
      exact absurd (hnone g hfree) hparam
  have hleads : ∀ f g, Relation.TransGen (Inline.Refers [twice, apply]) f g →
      f = "twice" ∧ g = "apply" := by
    intro f g h
    induction h with
    | single h => exact hrefers _ _ h
    | tail _ h ih => exact ⟨ih.1, (hrefers _ _ h).2⟩
  have hacyclic : ∀ f, ¬ Relation.TransGen (Inline.Refers [twice, apply]) f f := by
    intro f h
    obtain ⟨rfl, habsurd⟩ := hleads f f h
    exact absurd habsurd (by decide)
  obtain ⟨hsound, hcomplete⟩ := inlineExpr_sound [twice, apply] e {} hnodup hdecls he
  obtain ⟨e', σ', hrun⟩ := hcomplete hacyclic (by decide) (by decide) (by decide)
  exact ⟨⟨hnodup, hdecls, he⟩, e', σ', hrun, hsound e' σ' hrun⟩

end StructRec
