import StructRec.Proofs.InliningSuccess
import StructRec.Proofs.Splitting

/-!
# StructRec — what remains of a split function

A function is split into helpers, one for every outermost case on a parameter, and a main function
in which calls of the helpers stand in the places of the cases. So the main function refers to what
occurs outside of these cases (`Expr.outsideOccs`), and to its helpers. A function without such a
case (`Expr.hasCase`) is a helper as a whole, and its main function refers to nothing else.
-/

namespace StructRec

namespace Expr

mutual

/-- The free variables outside of the outermost cases on a variable. A name bound around the
expression stands for another variable. -/
def outsideOccs (x : Name) (bound : List Name) : Expr → List Name
  | var _ name => [name]
  | con _ _ | intLit _ _ | undefined _ | error _ _ => []
  | app _ fn arg => fn.outsideOccs x bound ++ arg.outsideOccs x bound
  | typeApp _ fn _ => fn.outsideOccs x bound
  | cond _ test thenBranch elseBranch =>
    test.outsideOccs x bound ++ thenBranch.outsideOccs x bound ++ elseBranch.outsideOccs x bound
  | case _ scrutinee alts =>
    if scrutinee.asVar? = some x ∧ x ∉ bound then []
    else scrutinee.outsideOccs x bound ++ outsideOccsAlts x bound alts
  | lam _ params body =>
      (body.outsideOccs x (binderNames params ++ bound)).filter (· ∉ binderNames params)
  | letRec _ binds body =>
    let inner := Binds.names binds ++ bound
    (outsideOccsRhss x inner binds ++ body.outsideOccs x inner).filter (· ∉ Binds.names binds)

def outsideOccsAlts (x : Name) (bound : List Name) : Alts → List Name
  | [] => []
  | (pattern, rhs) :: rest =>
    (rhs.outsideOccs x (pattern.names ++ bound)).filter (· ∉ pattern.names) ++
      outsideOccsAlts x bound rest

def outsideOccsRhss (x : Name) (bound : List Name) : Binds → List Name
  | [] => []
  | (_, rhs) :: rest => rhs.outsideOccs x bound ++ outsideOccsRhss x bound rest

end

mutual

/-- Whether there is a case on a variable. -/
def hasCase (x : Name) (bound : List Name) : Expr → Bool
  | var _ _ | con _ _ | intLit _ _ | undefined _ | error _ _ => false
  | app _ fn arg => fn.hasCase x bound || arg.hasCase x bound
  | typeApp _ fn _ => fn.hasCase x bound
  | cond _ test thenBranch elseBranch =>
    test.hasCase x bound || thenBranch.hasCase x bound || elseBranch.hasCase x bound
  | case _ scrutinee alts =>
    scrutinee.asVar? = some x && x ∉ bound || scrutinee.hasCase x bound || hasCaseAlts x bound alts
  | lam _ params body => body.hasCase x (binderNames params ++ bound)
  | letRec _ binds body =>
    let inner := Binds.names binds ++ bound
    hasCaseRhss x inner binds || body.hasCase x inner

def hasCaseAlts (x : Name) (bound : List Name) : Alts → Bool
  | [] => false
  | (pattern, rhs) :: rest => rhs.hasCase x (pattern.names ++ bound) || hasCaseAlts x bound rest

def hasCaseRhss (x : Name) (bound : List Name) : Binds → Bool
  | [] => false
  | (_, rhs) :: rest => rhs.hasCase x bound || hasCaseRhss x bound rest

end

end Expr

namespace FuncDecl

/-- The variables that a function refers to. -/
def freeVars (d : FuncDecl) : List Name := d.rhs.freeOccs.filter (· ∉ d.paramNames)

/-- What a function refers to outside of the outermost cases on the parameter at a position, if
there are any. -/
def outerVars (d : FuncDecl) (position : Nat) : List Name :=
  match d.params[position]? with
  | none => []
  | some param =>
    if d.rhs.hasCase param.name []
      then (d.rhs.outsideOccs param.name []).filter (· ∉ d.paramNames) else []

end FuncDecl

namespace Split

variable {position : Nat} {call : Expr} {helper : Helper}

/-- What the helper of an expression is like: it takes the decreasing parameter, and refers to such
variables only, of those that it does not take. -/
structure HelperOf (scope : ScopeStack (Option Ty)) (heads : List (Name × List ArgKind))
    (h : Helper) : Prop where
  captured : h.decreasing < h.decl.arity
  heads : ∀ x ∈ h.decl.rhs.heads [], x.1 ∉ h.decl.paramNames →
    x ∈ heads ∧ scope.isDefined x.1 = false

/-- The helpers that are extracted from a part of a function, and how what remains of the part
refers to the names known before. -/
structure Extracts (σ σ' : Session) (scope : ScopeStack (Option Ty)) (found : Bool)
    (outside : List Name) (heads : List (Name × List ArgKind)) (helpers : List Helper)
    (heads' : List (Name × List ArgKind)) : Prop where
  grows : σ.counters ≤ σ'.counters
  pragmas : σ'.env.pragmas = σ.env.pragmas
  found : helpers.isEmpty = !found
  free : ∀ n, σ.counters.Settled n → scope.isDefined n = false →
    (n ∈ heads'.map Prod.fst ↔ n ∈ outside)
  helpers : ∀ h ∈ helpers, HelperOf scope heads h
  heads : ∀ x ∈ heads', σ.counters.Settled x.1 → scope.isDefined x.1 = false → x ∈ heads

theorem HelperOf.mono {scope : ScopeStack (Option Ty)} {heads heads' : List (Name × List ArgKind)}
    {h : Helper} (hof : HelperOf scope heads h) (hsub : heads ⊆ heads') : HelperOf scope heads' h :=
  ⟨hof.captured, fun x hx hparam => (hof.heads x hx hparam).imp_left (hsub ·)⟩

namespace Extracts

variable {σ σ₁ σ' : Session} {scope : ScopeStack (Option Ty)} {found found₁ found₂ : Bool}
  {outside outside₁ outside₂ : List Name}
  {heads heads₁ heads₂ heads' heads₁' heads₂' : List (Name × List ArgKind)}
  {helpers helpers₁ helpers₂ : List Helper}

theorem refl (σ : Session) (scope : ScopeStack (Option Ty))
    (houtside : heads.map Prod.fst = outside) :
    Extracts σ σ scope false outside heads [] heads where
  grows := le_rfl
  pragmas := rfl
  found := rfl
  free _ _ _ := houtside ▸ Iff.rfl
  helpers := List.forall_mem_nil _
  heads _ h _ _ := h

/-- Parts are extracted one after the other. -/
theorem append (h₁ : Extracts σ σ₁ scope found₁ outside₁ heads₁ helpers₁ heads₁')
    (h₂ : Extracts σ₁ σ' scope found₂ outside₂ heads₂ helpers₂ heads₂') :
    Extracts σ σ' scope (found₁ || found₂) (outside₁ ++ outside₂) (heads₁ ++ heads₂)
      (helpers₁ ++ helpers₂)
      (heads₁' ++ heads₂') where
  grows := h₁.grows.trans h₂.grows
  pragmas := h₂.pragmas.trans h₁.pragmas
  found := by
    have happend : (helpers₁ ++ helpers₂).isEmpty = (helpers₁.isEmpty && helpers₂.isEmpty) := by
      cases helpers₁ <;> rfl
    rw [happend, h₁.found, h₂.found, Bool.not_or]
  free n hn hscope := by
    rw [List.map_append, List.mem_append, List.mem_append, h₁.free n hn hscope,
      h₂.free n (hn.mono h₁.grows) hscope]
  helpers h hh := by
    rcases List.mem_append.mp hh with hh | hh
    · exact (h₁.helpers h hh).mono (List.subset_append_left _ _)
    · exact (h₂.helpers h hh).mono (List.subset_append_right _ _)
  heads x hmem hx hscope := by
    rw [List.mem_append] at hmem ⊢
    exact hmem.imp (h₁.heads x · hx hscope) (h₂.heads x · (hx.mono h₁.grows) hscope)

theorem isDefined_enter (scope : ScopeStack (Option Ty)) (binders : List Binder) (n : Name) :
    (enter scope binders).isDefined n =
      (decide (n ∈ binderNames binders) || scope.isDefined n) := by
  rw [enter, ScopeStack.isDefined_enter, List.map_map]
  rfl

/-- Under binders. -/
theorem under {binders : List Binder}
    (h : Extracts σ σ' (enter scope binders) found outside heads helpers heads') :
    Extracts σ σ' scope found (outside.filter (· ∉ binderNames binders))
      (heads.filter (·.1 ∉ binderNames binders)) helpers
      (heads'.filter (·.1 ∉ binderNames binders)) := by
  have hinner : ∀ n, n ∉ binderNames binders → scope.isDefined n = false →
      (enter scope binders).isDefined n = false := by
    intro n hbinder hscope
    rw [isDefined_enter, hscope, decide_eq_false hbinder]
    rfl
  refine ⟨h.grows, h.pragmas, h.found, fun n hn hscope => ?_, fun helper hhelper => ?_,
    fun x hmem hx hscope => ?_⟩
  · rw [Expr.map_fst_filter, List.mem_filter, List.mem_filter]
    exact and_congr_left fun hbinder => h.free n hn (hinner n (of_decide_eq_true hbinder) hscope)
  · refine ⟨(h.helpers helper hhelper).captured, fun x hx hparam => ?_⟩
    obtain ⟨hmem, hscope⟩ := (h.helpers helper hhelper).heads x hx hparam
    rw [isDefined_enter, Bool.or_eq_false_iff, decide_eq_false_iff_not] at hscope
    exact ⟨List.mem_filter.mpr ⟨hmem, decide_eq_true hscope.1⟩, hscope.2⟩
  · obtain ⟨hmem, hbinder⟩ := List.mem_filter.mp hmem
    exact List.mem_filter.mpr
      ⟨h.heads x hmem hx (hinner x.1 (of_decide_eq_true hbinder) hscope), hbinder⟩

end Extracts

/-! ## Extraction -/

section extract

variable {d : FuncDecl} {param : Name}

theorem freeOccs_withNote (note : Note) (e : Expr) :
    (e.withNote note).freeOccs = e.freeOccs := by cases e <;> rfl

theorem freeOccs_applyTypes (fn : Expr) (tys : List Ty) :
    (fn.applyTypes tys).freeOccs = fn.freeOccs := by
  induction tys generalizing fn with
  | nil => rfl
  | cons ty rest ih => exact ih _

theorem freeOccs_apply (fn : Expr) (binders : List Binder) :
    (fn.apply (binders.map Binder.toExpr)).freeOccs = fn.freeOccs ++ binderNames binders := by
  induction binders generalizing fn with
  | nil => exact (List.append_nil _).symm
  | cons b rest ih =>
    change ((fn.applyValue b.toExpr).apply (rest.map Binder.toExpr)).freeOccs = _
    rw [ih]
    exact List.append_assoc fn.freeOccs [b.name] _

/-- The call of a helper refers to the helper and to its parameters only. -/
theorem makeHelper_call {returnTy : Option Ty} {vars : List (Name × Option Ty)} {body : Expr}
    {σ σ' : Session} (h : makeHelper d param returnTy vars body σ = ((helper, call), σ')) :
    call.freeOccs = helper.decl.name :: vars.map Prod.fst := by
  simp only [makeHelper, Naming.bind_eq, Naming.pure_eq, Session.modifyEnv_eq] at h
  obtain ⟨name, σ₁, hfresh, _, _, rfl, heq, rfl⟩ := h
  obtain ⟨rfl, rfl⟩ := Prod.mk.inj heq
  rw [freeOccs_withNote, freeOccs_apply, freeOccs_applyTypes, binderNames, List.map_map]
  rfl

/-- **A lifted case.** -/
theorem lift_extracts {scope : ScopeStack (Option Ty)} {returnTy : Option Ty} {e : Expr}
    {σ σ' : Session} (hbottom : scope.refersToBottom param = true) (hparam : param ∈ e.freeOccs)
    (h : makeHelper d param returnTy (captured scope e) e σ = ((helper, call), σ'))
    (kinds : List ArgKind) :
    Extracts σ σ' scope true [] (e.heads []) [helper] (call.heads kinds) := by
  obtain ⟨hgrows, hpragmas, hnew, _, hvars, hrhs, hindex, _⟩ := makeHelper_spec h
  have hcaptured := Surface.mem_captured_iff scope e
  -- a call of the helper refers to the helper and to variables in scope
  have hcall : ∀ n ∈ call.freeOccs, σ.counters.Settled n → scope.isDefined n = true := by
    intro n hmem hn
    rw [makeHelper_call h, List.mem_cons, hcaptured] at hmem
    rcases hmem with rfl | hmem
    · exact absurd hn hnew
    · exact hmem.1
  refine ⟨hgrows, hpragmas, rfl, fun n hn hscope => ?_,
    List.forall_mem_singleton.mpr ⟨?_, fun x hx hfree => ?_⟩, fun x hmem hx hscope => ?_⟩
  · rw [Expr.map_fst_heads]
    refine iff_of_false (fun hmem => ?_) List.not_mem_nil
    exact Bool.false_ne_true (hscope.symm.trans (hcall n hmem hn))
  · rw [hindex, FuncDecl.arity, ← length_binderNames, ← FuncDecl.paramNames, hvars]
    exact List.idxOf_lt_length_of_mem
      ((hcaptured param).mpr ⟨ScopeStack.isDefined_of_refersToBottom hbottom, hparam⟩)
  · rw [hvars, hcaptured] at hfree
    rw [hrhs] at hx
    exact ⟨hx, Bool.eq_false_iff.mpr fun hscope =>
      hfree ⟨hscope, Expr.mem_freeOccs_of_mem_heads hx⟩⟩
  · exact absurd (hcall x.1 (Expr.mem_freeOccs_of_mem_heads hmem) hx) (Bool.eq_false_iff.mp hscope)

theorem refersToBottom_enter {scope : ScopeStack (Option Ty)} {bound : List Name}
    (binders : List Binder) (h : scope.refersToBottom param = decide (param ∉ bound)) :
    (enter scope binders).refersToBottom param = decide (param ∉ binderNames binders ++ bound) := by
  rw [enter, ScopeStack.refersToBottom_enter, h, List.map_map]
  change (_ && decide (param ∉ binderNames binders)) = _
  simp [and_comm]

mutual

/-- **Extraction.** Parts are put together by `Extracts.append`, and binders are left by
`Extracts.under`. -/
theorem Lifts.extracts {scope returnTy e σ helpers e' σ'}
    (h : Lifts d param scope returnTy e σ helpers e' σ') (kinds : List ArgKind) {bound : List Name}
    (hbottom : scope.refersToBottom param = decide (param ∉ bound)) :
    Extracts σ σ' scope (e.hasCase param bound) (e.outsideOccs param bound) (e.heads kinds) helpers
      (e'.heads kinds) := by
  cases h with
  | leaf hleaf =>
    cases e with
    | app | typeApp | cond | case | lam | letRec => cases hleaf
    | var | con | intLit | undefined | error => exact .refl σ scope rfl
  | app hfn harg => exact (hfn.extracts (.value :: kinds) hbottom).append (harg.extracts [] hbottom)
  | typeApp hfn => exact hfn.extracts (.type :: kinds) hbottom
  | cond htest hthen helse =>
    have htest' := htest.extracts [] hbottom
    have hthen' := hthen.extracts [] hbottom
    exact (htest'.append hthen').append (helse.extracts [] hbottom)
  | @lift _ _ note scrutinee alts _ helper call _ hcase hmake =>
    -- the case is lifted as a whole, and nothing of it remains outside
    rw [isDecreasingCase, Bool.and_eq_true, decide_eq_true_eq] at hcase
    have hfree : param ∉ bound := of_decide_eq_true (hbottom ▸ hcase.2)
    have hparam := Expr.mem_freeOccs_of_asVar? hcase.1
    have hextracts := lift_extracts hcase.2 (List.mem_append_left _ hparam) hmake kinds
    change Extracts _ _ _ _ _ ((Expr.case note scrutinee alts).heads []) _ _
    rw [Expr.outsideOccs, if_pos ⟨hcase.1, hfree⟩, Expr.hasCase, hcase.1]
    simpa [hfree] using hextracts
  | @case _ _ note scrutinee _ _ _ _ _ _ _ _ hcase hscrutinee halts =>
    -- a case on something else, or on a variable that hides the parameter
    have hother : (decide (scrutinee.asVar? = some param) && decide (param ∉ bound)) = false := by
      rwa [isDecreasingCase, hbottom, Bool.not_eq_true] at hcase
    have hnot : ¬ (scrutinee.asVar? = some param ∧ param ∉ bound) := by simpa using hother
    rw [Expr.outsideOccs, if_neg hnot, Expr.hasCase, hother, Bool.false_or]
    exact (hscrutinee.extracts [] hbottom).append (halts.extracts hbottom)
  | @lam _ _ _ params _ _ _ _ _ hbody =>
    exact (hbody.extracts [] (refersToBottom_enter params hbottom)).under
  | @letRec _ _ _ binds _ _ _ _ _ _ _ _ hbinds hbody =>
    have hinner := refersToBottom_enter (Binds.binders binds) hbottom
    obtain ⟨hnames, hbinds'⟩ := hbinds.extracts hinner
    have hextracts := (hbinds'.append (hbody.extracts [] hinner)).under
    rw [Expr.heads, Expr.heads, hnames]
    exact hextracts

/-- Alternatives, one after the other. -/
theorem LiftsAlts.extracts {scope alts σ helpers alts' σ'}
    (h : LiftsAlts d param scope alts σ helpers alts' σ') {bound : List Name}
    (hbottom : scope.refersToBottom param = decide (param ∉ bound)) :
    Extracts σ σ' scope (Expr.hasCaseAlts param bound alts) (Expr.outsideOccsAlts param bound alts)
      (Expr.headsAlts alts) helpers (Expr.headsAlts alts') := by
  cases h with
  | nil => exact .refl σ scope rfl
  | @cons _ pattern _ _ _ _ _ _ _ _ _ hrhs hrest =>
    have hrhs' := hrhs.extracts [] (refersToBottom_enter pattern.binders hbottom)
    exact hrhs'.under.append (hrest.extracts hbottom)

theorem LiftsBinds.extracts {scope binds σ helpers binds' σ'}
    (h : LiftsBinds d param scope binds σ helpers binds' σ') {bound : List Name}
    (hbottom : scope.refersToBottom param = decide (param ∉ bound)) :
    Binds.names binds' = Binds.names binds ∧
      Extracts σ σ' scope (Expr.hasCaseRhss param bound binds)
        (Expr.outsideOccsRhss param bound binds) (Expr.headsRhss binds) helpers
        (Expr.headsRhss binds') := by
  cases h with
  | nil => exact ⟨rfl, .refl σ scope rfl⟩
  | @cons _ b _ _ _ _ _ _ _ _ _ hrhs hrest =>
    obtain ⟨hnames, hrest'⟩ := hrest.extracts hbottom
    exact ⟨congrArg (b.name :: ·) hnames, (hrhs.extracts [] hbottom).append hrest'⟩

end

end extract

/-! ## Functions -/

/-- The main function of a function that is split on the parameter at a position, as to the names
known before. -/
structure Remainder (c : Counters) (d : FuncDecl) (position : Nat) (main : FuncDecl) : Prop where
  name : main.name = d.name
  params : main.params = d.params
  typeParams : main.typeParams = d.typeParams
  freeVars : ∀ n, c.Settled n → (n ∈ main.freeVars ↔ n ∈ d.outerVars position)
  heads : ∀ x ∈ main.rhs.heads [], c.Settled x.1 → x.1 ∉ d.paramNames → x ∈ d.rhs.heads []

theorem Remainder.weaken {c c' : Counters} {d main : FuncDecl} (h : Remainder c' d position main)
    (hc : c ≤ c') : Remainder c d position main :=
  { h with
    freeVars := fun n hn => h.freeVars n (hn.mono hc)
    heads := fun x hmem hx => h.heads x hmem (hx.mono hc) }

theorem refersToBottom_paramScope {d : FuncDecl} {param : Name} (h : param ∈ d.paramNames) :
    (paramScope d).refersToBottom param = true := by
  rw [paramScope, ScopeStack.refersToBottom_eq_isDefined
    (ScopeStack.inner_bindAll_eq_nil rfl _), ← paramScope, isDefined_paramScope, decide_eq_true h]

/-- What a split of a function yields. -/
structure Splits (σ σ' : Session) (d : FuncDecl) (position : Nat) (helpers : List Helper)
    (main : FuncDecl) : Prop where
  grows : σ.counters ≤ σ'.counters
  pragmas : σ'.env.pragmas = σ.env.pragmas
  helpers : ∀ x ∈ helpers, HelperOf (paramScope d) (d.rhs.heads []) x
  remainder : Remainder σ.counters d position main

/-- A function without cases on the parameter is a helper as a whole. -/
theorem makeHelper_splits {d : FuncDecl} {param : Binder}
    {σ σ' : Session} (hparam : d.params[position]? = some param)
    (hnone : d.rhs.hasCase param.name [] = false)
    (h : makeHelper d param.name d.returnTy (d.params.map fun b => (b.name, b.ty)) d.rhs σ =
      ((helper, call), σ')) :
    Splits σ σ' d position [helper] { d with rhs := call } := by
  obtain ⟨hgrows, hpragmas, hnew, _, hvars, hrhs, hindex, _⟩ := makeHelper_spec h
  have hnames : (d.params.map fun b => (b.name, b.ty)).map Prod.fst = d.paramNames := List.map_map
  have hfree := makeHelper_call h
  rw [hnames] at hvars hindex hfree
  have hmem : param.name ∈ d.paramNames := List.mem_map_of_mem (List.mem_of_getElem? hparam)
  -- the main function refers to its parameters and to the helper
  have hcall : ∀ n ∈ call.freeOccs, σ.counters.Settled n → n ∈ d.paramNames := by
    intro n hmem hn
    rw [hfree, List.mem_cons] at hmem
    rcases hmem with rfl | hmem
    · exact absurd hn hnew
    · exact hmem
  refine ⟨hgrows, hpragmas, List.forall_mem_singleton.mpr ⟨?_, fun x hx hother => ?_⟩, rfl, rfl,
    rfl, fun n hn => ?_, fun x hx hsettled hother => ?_⟩
  · rw [hindex, FuncDecl.arity, ← length_binderNames, ← FuncDecl.paramNames, hvars]
    exact List.idxOf_lt_length_of_mem hmem
  · rw [hvars] at hother
    rw [hrhs] at hx
    exact ⟨hx, (isDefined_paramScope d x.1).trans (decide_eq_false hother)⟩
  · have houter : d.outerVars position = [] := by simp [FuncDecl.outerVars, hparam, hnone]
    rw [houter]
    refine iff_of_false (fun hmain => ?_) List.not_mem_nil
    obtain ⟨hocc, hother⟩ := List.mem_filter.mp hmain
    exact of_decide_eq_true hother (hcall n hocc hn)
  · exact absurd (hcall x.1 (Expr.mem_freeOccs_of_mem_heads hx) hsettled) hother

/-- **Splitting** leaves a function without cases on its decreasing argument. -/
theorem splitAt_splits {d main : FuncDecl} {param : Binder} {helpers : List Helper} {σ σ' : Session}
    (hparam : d.params[position]? = some param)
    (h : splitAt d param.name σ = ((helpers, main), σ')) : Splits σ σ' d position helpers main := by
  have hmem : param.name ∈ d.paramNames := List.mem_map_of_mem (List.mem_of_getElem? hparam)
  simp only [splitAt, Naming.bind_eq] at h
  obtain ⟨⟨helpers₁, rhs'⟩, σ₁, hextract, h⟩ := h
  have hextracts := (lifts_of_extract d.rhs hextract).extracts []
    ((refersToBottom_paramScope hmem).trans (decide_eq_true List.not_mem_nil).symm)
  split at h
  · next hempty =>
    -- without helpers there was no case, and the right-hand side is the helper
    simp only [Naming.bind_eq, Naming.pure_eq] at h
    obtain ⟨⟨helper, call⟩, σ₂, hmake, heq, rfl⟩ := h
    obtain ⟨rfl, rfl⟩ := Prod.mk.inj heq
    have hnone : d.rhs.hasCase param.name [] = false := by simpa [hempty] using hextracts.found
    have hsplits := makeHelper_splits hparam hnone hmake
    exact ⟨hextracts.grows.trans hsplits.grows, hsplits.pragmas.trans hextracts.pragmas,
      hsplits.helpers, hsplits.remainder.weaken hextracts.grows⟩
  · next hempty =>
    simp only [Naming.pure_eq] at h
    obtain ⟨heq, rfl⟩ := h
    obtain ⟨rfl, rfl⟩ := Prod.mk.inj heq
    have hsome : d.rhs.hasCase param.name [] = true := by simpa [hempty] using hextracts.found
    have hscope : ∀ n, n ∉ d.paramNames → (paramScope d).isDefined n = false := fun n hn =>
      (isDefined_paramScope d n).trans (decide_eq_false hn)
    refine ⟨hextracts.grows, hextracts.pragmas, hextracts.helpers, rfl, rfl, rfl, fun n hn => ?_,
      fun x hx hsettled hother => hextracts.heads x hx hsettled (hscope x.1 hother)⟩
    simp only [FuncDecl.freeVars, FuncDecl.outerVars, hparam, hsome, if_true, List.mem_filter]
    refine and_congr_left fun hfree => ?_
    rw [← hextracts.free n hn (hscope n (of_decide_eq_true hfree)), Expr.map_fst_heads]

/-- **Splitting a function** never fails. -/
theorem split_remainder {d : FuncDecl} (hposition : position < d.arity) (σ : Session) :
    ∃ helpers main σ', d.split position σ = .ok (helpers, main) σ' ∧
      Splits σ σ' d position helpers main := by
  have hparam : d.params[position]? = some d.params[position] := List.getElem?_eq_getElem hposition
  obtain ⟨helpers, main, σ', hsplit⟩ : ∃ helpers main σ',
      splitAt d d.params[position].name σ = ((helpers, main), σ') :=
    ⟨_, _, _, rfl⟩
  have hsplits := splitAt_splits hparam hsplit
  have hcaptured : (helpers.any fun h => h.decl.arity ≤ h.decreasing) = false := by
    rw [List.any_eq_false]
    intro h hh hle
    exact Nat.not_le_of_lt (hsplits.helpers h hh).captured (of_decide_eq_true hle)
  refine ⟨helpers, main, σ', ?_, hsplits⟩
  rw [FuncDecl.split, hparam]
  refine Compile.bind_ok.mpr ⟨(helpers, main), σ', Compile.lift_ok.mpr hsplit, ?_⟩
  simp only [hcaptured]
  rfl

/-- **Splitting functions** in order. -/
theorem splitAll_remainder {decls : List (FuncDecl × Nat)}
    (hpositions : ∀ p ∈ decls, p.2 < p.1.arity) (σ : Session) :
    ∃ helpers mains σ', splitAll decls σ = .ok (helpers, mains) σ' ∧
      σ'.env.pragmas = σ.env.pragmas ∧
      (∀ x ∈ helpers, ∃ p ∈ decls, HelperOf (paramScope p.1) (p.1.rhs.heads []) x) ∧
      List.Forall₂ (fun p main => Remainder σ.counters p.1 p.2 main) decls mains := by
  induction decls generalizing σ with
  | nil => exact ⟨[], [], σ, rfl, rfl, List.forall_mem_nil _, .nil⟩
  | cons p rest ih =>
    rw [List.forall_mem_cons] at hpositions
    obtain ⟨helpers, main, σ₁, hsplit, hsplits⟩ := split_remainder hpositions.1 σ
    obtain ⟨helpers', mains, σ₂, hrest, hpragmas, hlater, hmains⟩ := ih hpositions.2 σ₁
    refine ⟨helpers ++ helpers', main :: mains, σ₂, ?_, hpragmas.trans hsplits.pragmas,
      fun x hx => ?_, .cons hsplits.remainder (hmains.imp fun _ _ h => h.weaken hsplits.grows)⟩
    · exact Compile.bind_ok.mpr
        ⟨(helpers, main), σ₁, hsplit, Compile.bind_ok.mpr ⟨(helpers', mains), σ₂, hrest, rfl⟩⟩
    · rcases List.mem_append.mp hx with hx | hx
      · exact ⟨p, List.mem_cons_self, hsplits.helpers x hx⟩
      · obtain ⟨p', hp', hof⟩ := hlater x hx
        exact ⟨p', List.mem_cons_of_mem _ hp', hof⟩

end Split

end StructRec
