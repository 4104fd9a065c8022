import StructRec.Proofs.Inlining

/-!
# StructRec — names and type variables of expressions

Which variables and which type variables a function is made of. `Expr.Uses N T` says that every
variable of an expression, free or bound, satisfies `N` and every type variable of its annotations
and type arguments satisfies `T`. No pass invents a variable or a type variable: whatever it puts
into a function comes from the functions it works on, or is a generated name. So a predicate that
holds of the source and of generated names holds of the result.

Generated names avoid the registered ones, so what is known of them depends on the functions that
are registered meanwhile (`Supplies`, `Environment.Registers`).
-/

namespace StructRec

variable {d : FuncDecl} {binders' : List Binder}

/-! ## Predicates on occurrences -/

/-- Every type variable of an annotation satisfies the predicate. -/
def AnnotationUses (T : Name → Prop) (ty : Option Ty) : Prop := ∀ t ∈ Expr.annotationOccs ty, T t

/-- The name of a binder satisfies one predicate, the type variables of its annotation the other. -/
structure Binder.Uses (N T : Name → Prop) (b : Binder) : Prop where
  name : N b.name
  ty : AnnotationUses T b.ty

namespace Expr

mutual

/-- Every variable, free or bound, satisfies the first predicate, and every type variable the
second. -/
def Uses (N T : Name → Prop) : Expr → Prop
  | var note name => AnnotationUses T note.ty ∧ N name
  | con note _ | intLit note _ | undefined note | error note _ => AnnotationUses T note.ty
  | app note fn arg => AnnotationUses T note.ty ∧ fn.Uses N T ∧ arg.Uses N T
  | typeApp note fn ty => AnnotationUses T note.ty ∧ fn.Uses N T ∧ ∀ t ∈ ty.varOccs, T t
  | cond note test thenBranch elseBranch =>
    AnnotationUses T note.ty ∧ test.Uses N T ∧ thenBranch.Uses N T ∧ elseBranch.Uses N T
  | case note scrutinee alts => AnnotationUses T note.ty ∧ scrutinee.Uses N T ∧ UsesAlts N T alts
  | lam note params body => AnnotationUses T note.ty ∧ (∀ b ∈ params, b.Uses N T) ∧ body.Uses N T
  | letRec note binds body =>
    AnnotationUses T note.ty ∧ (∀ b ∈ Binds.binders binds, b.Uses N T) ∧
      UsesRhss N T binds ∧ body.Uses N T

def UsesAlts (N T : Name → Prop) : Alts → Prop
  | [] => True
  | (pattern, rhs) :: rest => (∀ b ∈ pattern.binders, b.Uses N T) ∧ rhs.Uses N T ∧ UsesAlts N T rest

def UsesRhss (N T : Name → Prop) : Binds → Prop
  | [] => True
  | (_, rhs) :: rest => rhs.Uses N T ∧ UsesRhss N T rest

end

end Expr

/-- The type variables of a function that satisfy a predicate or are its own type parameters. -/
def FuncDecl.InScopeTypes (T : Name → Prop) (d : FuncDecl) (t : Name) : Prop :=
  T t ∨ t ∈ d.typeParamNames

/-- A function made of such variables. Its own type parameters are in scope beside the given type
variables. -/
structure FuncDecl.Uses (N T : Name → Prop) (d : FuncDecl) : Prop where
  name : N d.name
  params : ∀ b ∈ d.params, b.Uses N (d.InScopeTypes T)
  returnTy : AnnotationUses (d.InScopeTypes T) d.returnTy
  rhs : d.rhs.Uses N (d.InScopeTypes T)

section occurrences

variable {N N' T T' : Name → Prop}

/-- Binders are made of their names and annotations. -/
theorem binders_uses_iff {binders : List Binder} :
    (∀ b ∈ binders, b.Uses N T) ↔
      (∀ n ∈ binderNames binders, N n) ∧ ∀ t ∈ binders.flatMap (Expr.annotationOccs ·.ty), T t := by
  constructor
  · intro h
    refine ⟨fun n hn => ?_, fun t ht => ?_⟩
    · obtain ⟨b, hb, rfl⟩ := List.mem_map.mp hn
      exact (h b hb).name
    · obtain ⟨b, hb, ht⟩ := List.mem_flatMap.mp ht
      exact (h b hb).ty t ht
  · rintro ⟨hnames, htypes⟩ b hb
    exact ⟨hnames _ (List.mem_map_of_mem hb),
      fun t ht => htypes t (List.mem_flatMap.mpr ⟨b, hb, ht⟩)⟩

theorem typeVarOccsBinds_iff {binds : Binds} :
    (∀ t ∈ Expr.typeVarOccsBinds binds, T t) ↔
      (∀ t ∈ (Binds.binders binds).flatMap (Expr.annotationOccs ·.ty), T t) ∧
        ∀ t ∈ (Binds.rhss binds).flatMap Expr.typeVarOccs, T t := by
  induction binds with
  | nil => simp [Expr.typeVarOccsBinds, Binds.binders, Binds.rhss]
  | cons bind rest ih =>
    change _ ↔
      (∀ t ∈ Expr.annotationOccs bind.1.ty ++
        (Binds.binders rest).flatMap (Expr.annotationOccs ·.ty), T t) ∧
      ∀ t ∈ bind.2.typeVarOccs ++ (Binds.rhss rest).flatMap Expr.typeVarOccs, T t
    simp only [Expr.typeVarOccsBinds, List.forall_mem_append, ih]
    tauto

namespace Expr

variable {e : Expr}

theorem usesRhss_iff {binds : Binds} : UsesRhss N T binds ↔ ∀ r ∈ Binds.rhss binds, r.Uses N T := by
  induction binds with
  | nil => simp [UsesRhss, Binds.rhss]
  | cons bind rest ih =>
    rw [UsesRhss, ih, show Binds.rhss (bind :: rest) = bind.2 :: Binds.rhss rest from rfl,
      List.forall_mem_cons]

/-- Names that satisfy the predicate may be taken out. -/
theorem forall_mem_filter_notMem (N : Name → Prop) (names occs : List Name)
    (hnames : ∀ n ∈ names, N n) : (∀ n ∈ occs.filter (· ∉ names), N n) ↔ ∀ n ∈ occs, N n := by
  constructor
  · intro h n hn
    by_cases hbound : n ∈ names
    · exact hnames n hbound
    · exact h n (List.mem_filter.mpr ⟨hn, decide_eq_true hbound⟩)
  · exact fun h n hn => h n (List.mem_filter.mp hn).1

mutual

/-- The recursive reading agrees with the lists of occurrences. -/
theorem uses_iff : (e : Expr) →
    (e.Uses N T ↔ (∀ n ∈ e.freeOccs, N n) ∧ (∀ n ∈ e.boundNames, N n) ∧ ∀ t ∈ e.typeVarOccs, T t)
  | var .. => by simp [Uses, freeOccs, boundNames, typeVarOccs, AnnotationUses, and_comm]
  | con .. | intLit .. | undefined _ | error .. => by
    simp [Uses, freeOccs, boundNames, typeVarOccs, AnnotationUses]
  | app _ fn arg => by
    simp only [Uses, uses_iff fn, uses_iff arg, freeOccs, boundNames, typeVarOccs, AnnotationUses,
      List.forall_mem_append]
    tauto
  | typeApp _ fn _ => by
    simp only [Uses, uses_iff fn, freeOccs, boundNames, typeVarOccs, AnnotationUses,
      List.forall_mem_append]
    tauto
  | cond _ test thenBranch elseBranch => by
    simp only [Uses, uses_iff test, uses_iff thenBranch, uses_iff elseBranch, freeOccs,
      boundNames, typeVarOccs, AnnotationUses, List.forall_mem_append]
    tauto
  | case _ scrutinee alts => by
    simp only [Uses, uses_iff scrutinee, usesAlts_iff alts, freeOccs, boundNames, typeVarOccs,
      AnnotationUses, List.forall_mem_append]
    tauto
  -- the names of the binders satisfy the predicate themselves, so it does not matter that they are
  -- bound
  | lam _ params body => by
    simp only [Uses, uses_iff body, freeOccs, boundNames, typeVarOccs, AnnotationUses,
      List.forall_mem_append, binders_uses_iff]
    have hfree := forall_mem_filter_notMem N (binderNames params) body.freeOccs
    tauto
  | letRec _ binds body => by
    simp only [Uses, uses_iff body, usesRhss_iff_occs binds, freeOccs, boundNames, typeVarOccs,
      AnnotationUses, List.forall_mem_append, binders_uses_iff, typeVarOccsBinds_iff]
    have hfree :=
      forall_mem_filter_notMem N (Binds.names binds) (freeOccsRhss binds ++ body.freeOccs)
    rw [List.forall_mem_append] at hfree
    unfold Binds.names at *
    tauto

/-- The alternatives of a `case`. -/
theorem usesAlts_iff : (alts : Alts) →
    (UsesAlts N T alts ↔ (∀ n ∈ freeOccsAlts alts, N n) ∧ (∀ n ∈ boundNamesAlts alts, N n) ∧
      ∀ t ∈ typeVarOccsAlts alts, T t)
  | [] => by simp [UsesAlts, freeOccsAlts, boundNamesAlts, typeVarOccsAlts]
  | (pattern, rhs) :: rest => by
    simp only [UsesAlts, uses_iff rhs, usesAlts_iff rest, freeOccsAlts, boundNamesAlts,
      typeVarOccsAlts, List.forall_mem_append, binders_uses_iff]
    have hfree := forall_mem_filter_notMem N pattern.names rhs.freeOccs
    unfold Pattern.names at *
    tauto

theorem usesRhss_iff_occs : (binds : Binds) →
    (UsesRhss N T binds ↔ (∀ n ∈ freeOccsRhss binds, N n) ∧ (∀ n ∈ boundNamesRhss binds, N n) ∧
      ∀ t ∈ (Binds.rhss binds).flatMap typeVarOccs, T t)
  | [] => by simp [UsesRhss, freeOccsRhss, boundNamesRhss, Binds.rhss]
  | (_, rhs) :: rest => by
    change rhs.Uses N T ∧ UsesRhss N T rest ↔ (∀ n ∈ rhs.freeOccs ++ freeOccsRhss rest, N n) ∧
      (∀ n ∈ rhs.boundNames ++ boundNamesRhss rest, N n) ∧
      ∀ t ∈ rhs.typeVarOccs ++ (Binds.rhss rest).flatMap typeVarOccs, T t
    simp only [uses_iff rhs, usesRhss_iff_occs rest, List.forall_mem_append]
    tauto

end

/-- For the type variables it is enough to look at those that occur. -/
theorem Uses.imp (h : e.Uses N T) (hnames : ∀ n, N n → N' n)
    (htypes : ∀ t ∈ e.typeVarOccs, T t → T' t) : e.Uses N' T' := by
  rw [uses_iff] at h ⊢
  exact ⟨fun n hn => hnames n (h.1 n hn), fun n hn => hnames n (h.2.1 n hn),
    fun t ht => htypes t ht (h.2.2 t ht)⟩

theorem Uses.note (h : e.Uses N T) : AnnotationUses T e.note.ty := by
  cases e with
  | con | intLit | undefined | error => exact h
  | _ => exact h.1

theorem uses_withNote {note : Note} (h : e.Uses N T) (hnote : AnnotationUses T note.ty) :
    (e.withNote note).Uses N T := by
  cases e with
  | con | intLit | undefined | error => exact hnote
  | _ => exact ⟨hnote, h.2⟩

theorem uses_of_withNote {note : Note} (h : (e.withNote note).Uses N T)
    (hnote : AnnotationUses T e.note.ty) : e.Uses N T := by
  cases e with
  | con | intLit | undefined | error => exact hnote
  | _ => exact ⟨hnote, h.2⟩

theorem annotationUses_none : AnnotationUses T none := nofun

theorem uses_toExpr {b : Binder} (h : b.Uses N T) : b.toExpr.Uses N T := ⟨h.ty, h.name⟩

end Expr

end occurrences

/-! ## Generated names -/

/-- These functions are registered as values. -/
def Environment.Registers (env : Environment) (functions : List Name) : Prop :=
  ∀ f ∈ functions, env.values.contains f = true

/-- Names that are generated while these functions are registered satisfy the predicate. -/
def Supplies (functions : List Name) (N : Name → Prop) : Prop :=
  ∀ {wanted n : Name} {σ σ' : Session}, freshName wanted σ = (n, σ') →
    σ.env.Registers functions → N n

/-! ## Substitution -/

namespace Subst

variable {N T T' : Name → Prop} {functions : List Name} {s s' : Subst} {captured : List Name}
variable {binders : List Binder} {σ σ' : Session}

/-- Replacements are made of such variables, and type variables of the one kind become types over
the other. -/
structure Uses (N T T' : Name → Prop) (s : Subst) : Prop where
  replaced : ∀ n r, s.exprs.get? n = some r → r.Uses N T'
  types : ∀ t, T t → ∀ x ∈ (s.applyTy (.var t)).varOccs, T' x

namespace Uses

/-- Types over the one kind of variables become types over the other. -/
theorem applyTy (h : s.Uses N T T') {ty : Ty} (hty : ∀ t ∈ ty.varOccs, T t) :
    ∀ x ∈ (s.applyTy ty).varOccs, T' x := by
  induction ty with
  | var t => exact h.types t (hty t (List.mem_singleton.mpr rfl))
  | con name => nofun
  | app l r ihl ihr | func l r ihl ihr =>
    rw [Ty.varOccs, List.forall_mem_append] at hty
    exact List.forall_mem_append.mpr ⟨ihl hty.1, ihr hty.2⟩

theorem mapTy (h : s.Uses N T T') {ty : Option Ty} (hty : AnnotationUses T ty) :
    AnnotationUses T' (ty.map s.applyTy) := by
  cases ty with
  | none => nofun
  | some ty => exact h.applyTy hty

/-- Fewer replacements. -/
theorem of_subset (h : s.Uses N T T')
    (hexprs : ∀ n r, s'.exprs.get? n = some r → s.exprs.get? n = some r)
    (htypes : s'.types = s.types) :
    s'.Uses N T T' := by
  refine ⟨fun n r hr => h.replaced n r (hexprs n r hr), ?_⟩
  unfold Subst.applyTy
  rw [htypes]
  exact h.types

theorem restrictTo (h : s.Uses N T T') (scope : List Expr) : (s.restrictTo scope).Uses N T T' := by
  refine h.of_subset (fun n r hr => ?_) rfl
  rw [get?_restrictTo] at hr
  split at hr
  · exact hr
  · cases hr

theorem without (h : s.Uses N T T') (names : List Name) : (s.without names).Uses N T T' := by
  refine h.of_subset (fun n r hr => ?_) rfl
  rw [get?_without] at hr
  split at hr
  · cases hr
  · exact hr

/-- One more replacement. -/
theorem insert (h : s.Uses N T T') {name : Name} {e : Expr} (he : e.Uses N T') :
    (s.insert name e).Uses N T T' := by
  refine ⟨fun n r hr => ?_, h.types⟩
  have hget : (s.insert name e).exprs.get? n = if name = n then some e else s.exprs.get? n :=
    Table.get?_insert _ _ _ _
  rw [hget] at hr
  split at hr
  · exact Option.some.inj hr ▸ he
  · exact h.replaced n r hr

/-- Nothing is replaced. -/
theorem empty (h : ∀ t, T t → T' t) : ({} : Subst).Uses N T T' := by
  refine ⟨nofun, fun t ht x hx => ?_⟩
  rw [Subst.applyTy, Ty.subst_empty] at hx
  exact List.mem_singleton.mp hx ▸ h t ht

theorem single {name : Name} {e : Expr} (he : e.Uses N T) : (Subst.single name e).Uses N T T :=
  (empty (N := N) fun _ ht => ht).insert he

end Uses

/-- **Entering binders** supplies new names and takes types along. -/
theorem enterBinders_uses (hN : Supplies functions N)
    (h : enterBinders captured s binders σ = ((s', binders'), σ')) (hs : s.Uses N T T')
    (hbinders : ∀ b ∈ binders, b.Uses N T) (hσ : σ.env.Registers functions) :
    σ'.env = σ.env ∧ binders'.length = binders.length ∧ s'.Uses N T T' ∧ ∀ b ∈ binders',
      b.Uses N T' := by
  replace h := enters_of_enterBinders h
  induction h with
  | nil => exact ⟨rfl, rfl, hs, nofun⟩
  | @renamed s _ b _ _ fresh _ _ _ _ hfresh _ ih =>
    obtain ⟨hb, hbinders⟩ := List.forall_mem_cons.mp hbinders
    have henv := (freshName_spec hfresh).1
    -- the new name is one that the session supplies
    have hb' : Binder.Uses N T' { b with name := fresh, ty := b.ty.map s.applyTy } :=
      ⟨hN hfresh hσ, hs.mapTy hb.ty⟩
    obtain ⟨henv', hlength, hs', hrest'⟩ :=
      ih (hs.insert (Expr.uses_toExpr hb')) hbinders (henv ▸ hσ)
    exact ⟨henv'.trans henv, congrArg (· + 1) hlength, hs',
      List.forall_mem_cons.mpr ⟨hb', hrest'⟩⟩
  | kept _ _ ih =>
    obtain ⟨hb, hbinders⟩ := List.forall_mem_cons.mp hbinders
    obtain ⟨henv, hlength, hs', hrest'⟩ := ih hs hbinders hσ
    exact ⟨henv, congrArg (· + 1) hlength, hs',
      List.forall_mem_cons.mpr ⟨⟨hb.name, hs.mapTy hb.ty⟩, hrest'⟩⟩

/-- **Entering a scope.** -/
theorem enter_uses (hN : Supplies functions N) {scope : List Expr}
    (h : s.enter binders scope σ = ((s', binders'), σ')) (hs : s.Uses N T T')
    (hbinders : ∀ b ∈ binders, b.Uses N T) (hσ : σ.env.Registers functions) :
    σ'.env = σ.env ∧ binders'.length = binders.length ∧ s'.Uses N T T' ∧ ∀ b ∈ binders',
      b.Uses N T' :=
  enterBinders_uses hN h ((hs.without _).restrictTo scope) hbinders hσ

theorem uses_withBinders {p : Pattern} (hlength : binders.length = p.binders.length)
    (h : ∀ b ∈ binders, b.Uses N T) : ∀ b ∈ (p.withBinders binders).binders, b.Uses N T := by
  cases p with
  | con name vars => exact h
  | var b =>
    obtain ⟨b', rfl⟩ := List.length_eq_one_iff.mp hlength
    exact h
  | lit | wildcard => nofun

theorem binders_zip {rhss : List Expr} (h : rhss.length = binders.length) :
    Binds.binders (binders.zip rhss) = binders := List.map_fst_zip (by rw [h])

mutual

/-- **Substitution** puts in replacements and generated names only. -/
theorem Runs.uses (hN : Supplies functions N) {s : Subst} (hs : s.Uses N T T') {e e' : Expr}
    {σ σ' : Session} (h : s.Runs e σ e' σ') (he : e.Uses N T) (hσ : σ.env.Registers functions) :
    σ'.env = σ.env ∧ e'.Uses N T' := by
  cases h with
  | @replaced _ _ n _ _ hget => exact ⟨rfl, hs.replaced n e' hget⟩
  | var => exact ⟨rfl, hs.mapTy he.1, he.2⟩
  | con | intLit | undefined | error => exact ⟨rfl, hs.mapTy he⟩
  | app hfn harg =>
    obtain ⟨henv, hfn'⟩ := hfn.uses hN hs he.2.1 hσ
    obtain ⟨henv', harg'⟩ := harg.uses hN hs he.2.2 (henv ▸ hσ)
    exact ⟨henv'.trans henv, hs.mapTy he.1, hfn', harg'⟩
  | typeApp hfn =>
    obtain ⟨henv, hfn'⟩ := hfn.uses hN hs he.2.1 hσ
    exact ⟨henv, hs.mapTy he.1, hfn', hs.applyTy he.2.2⟩
  | cond htest hthen helse =>
    obtain ⟨henv₁, htest'⟩ := htest.uses hN hs he.2.1 hσ
    obtain ⟨henv₂, hthen'⟩ := hthen.uses hN hs he.2.2.1 (henv₁ ▸ hσ)
    have henv := henv₂.trans henv₁
    obtain ⟨henv₃, helse'⟩ := helse.uses hN hs he.2.2.2 (henv ▸ hσ)
    exact ⟨henv₃.trans henv, hs.mapTy he.1, htest', hthen', helse'⟩
  | case hscrutinee halts =>
    obtain ⟨henv, hscrutinee'⟩ := hscrutinee.uses hN hs he.2.1 hσ
    obtain ⟨henv', halts'⟩ := halts.uses hN hs he.2.2 (henv ▸ hσ)
    exact ⟨henv'.trans henv, hs.mapTy he.1, hscrutinee', halts'⟩
  | lam henter hbody =>
    obtain ⟨henv, _, hinner, hparams'⟩ := enter_uses hN henter hs he.2.1 hσ
    obtain ⟨henv', hbody'⟩ := hbody.uses hN hinner he.2.2 (henv ▸ hσ)
    exact ⟨henv'.trans henv, hs.mapTy he.1, hparams', hbody'⟩
  -- there are as many right-hand sides as binders, so no binder is lost
  | @letRec _ _ _ binders' rhss' _ _ _ _ _ _ _ henter hrhss hbody =>
    obtain ⟨henv₁, hlength, hinner, hbinders'⟩ := enter_uses hN henter hs he.2.1 hσ
    obtain ⟨henv₂, hlength', hrhss'⟩ := hrhss.uses hN hinner he.2.2.1 (henv₁ ▸ hσ)
    have henv := henv₂.trans henv₁
    obtain ⟨henv₃, hbody'⟩ := hbody.uses hN hinner he.2.2.2 (henv ▸ hσ)
    have hzip : rhss'.length = binders'.length := by
      rw [hlength', hlength, Binds.binders, List.length_map]
    refine ⟨henv₃.trans henv, hs.mapTy he.1, ?_, ?_, hbody'⟩
    · rw [binders_zip hzip]
      exact hbinders'
    · rw [Expr.usesRhss_iff, Binds.rhss_zip hzip]
      exact hrhss'

/-- The alternatives of a `case`. -/
theorem RunsAlts.uses (hN : Supplies functions N) {s : Subst} (hs : s.Uses N T T')
    {alts alts' : Alts} {σ σ' : Session} (h : s.RunsAlts alts σ alts' σ')
    (halts : Expr.UsesAlts N T alts) (hσ : σ.env.Registers functions) :
    σ'.env = σ.env ∧ Expr.UsesAlts N T' alts' := by
  cases h with
  | nil => exact ⟨rfl, trivial⟩
  | cons henter hrhs hrest =>
    obtain ⟨henv₁, hlength, hinner, hbinders'⟩ := enter_uses hN henter hs halts.1 hσ
    obtain ⟨henv₂, hrhs'⟩ := hrhs.uses hN hinner halts.2.1 (henv₁ ▸ hσ)
    have henv := henv₂.trans henv₁
    obtain ⟨henv₃, hrest'⟩ := hrest.uses hN hs halts.2.2 (henv ▸ hσ)
    exact ⟨henv₃.trans henv, uses_withBinders hlength hbinders', hrhs', hrest'⟩

/-- The right-hand sides of a `let`. -/
theorem RunsRhss.uses (hN : Supplies functions N) {s : Subst} (hs : s.Uses N T T') {binds : Binds}
    {rhss' : List Expr} {σ σ' : Session} (h : s.RunsRhss binds σ rhss' σ')
    (hbinds : Expr.UsesRhss N T binds) (hσ : σ.env.Registers functions) :
    σ'.env = σ.env ∧ rhss'.length = binds.length ∧ ∀ r ∈ rhss', r.Uses N T' := by
  cases h with
  | nil => exact ⟨rfl, rfl, List.forall_mem_nil _⟩
  | cons hrhs hrest =>
    obtain ⟨henv, hrhs'⟩ := hrhs.uses hN hs hbinds.1 hσ
    obtain ⟨henv', hlength, hrest'⟩ := hrest.uses hN hs hbinds.2 (henv ▸ hσ)
    exact ⟨henv'.trans henv, congrArg (· + 1) hlength, List.forall_mem_cons.mpr ⟨hrhs', hrest'⟩⟩

end

/-- **Applying a substitution.** Where nothing is to replace, no type variable of the expression is
replaced either. -/
theorem apply_uses (hN : Supplies functions N) {e e' : Expr} (h : s.apply e σ = (e', σ'))
    (hs : s.Uses N T T') (he : e.Uses N T) (hσ : σ.env.Registers functions) :
    σ'.env = σ.env ∧ e'.Uses N T' := by
  simp only [apply] at h
  split at h
  · next hidle =>
    obtain ⟨rfl, rfl⟩ := Naming.pure_eq.mp h
    refine ⟨rfl, he.imp (fun _ hn => hn) fun t ht hT => ?_⟩
    -- no type variable of the expression is replaced
    have hkept : s.types.get? t = none := by
      have htypes := (Bool.and_eq_true_iff.mp hidle).2
      rw [Bool.not_eq_true', List.any_eq_false] at htypes
      rw [← Option.not_isSome_iff_eq_none]
      intro hsome
      refine htypes t ((Table.contains_iff_mem_keys _ _).mp hsome) (decide_eq_true ?_)
      rwa [Expr.freeTypeVars, List.mem_eraseDups]
    have hvar : s.applyTy (.var t) = .var t := by rw [applyTy, Ty.subst, hkept, Option.getD_none]
    refine hs.types t hT t ?_
    rw [hvar]
    exact List.mem_singleton.mpr rfl
  · exact (runs_of_onExpr e h).uses hN (hs.restrictTo [e]) he hσ

/-- Several expressions, one after the other. -/
theorem applyAll_uses (hN : Supplies functions N) {es es' : List Expr}
    (h : s.applyAll es σ = (es', σ')) (hs : s.Uses N T T') (hes : ∀ e ∈ es, e.Uses N T)
    (hσ : σ.env.Registers functions) :
    σ'.env = σ.env ∧ es'.length = es.length ∧ ∀ e ∈ es', e.Uses N T' := by
  induction es generalizing es' σ with
  | nil =>
    obtain ⟨rfl, rfl⟩ := Naming.pure_eq.mp h
    exact ⟨rfl, rfl, nofun⟩
  | cons e rest ih =>
    simp only [applyAll, Naming.bind_eq, Naming.pure_eq] at h
    obtain ⟨e', σ₁, he, rest', σ₂, hrest, rfl, rfl⟩ := h
    obtain ⟨hfirst, hlater⟩ := List.forall_mem_cons.mp hes
    obtain ⟨henv, he'⟩ := apply_uses hN he hs hfirst hσ
    obtain ⟨henv', hlength, hrest'⟩ := ih hrest hlater (henv ▸ hσ)
    exact ⟨henv'.trans henv, congrArg (· + 1) hlength, List.forall_mem_cons.mpr ⟨he', hrest'⟩⟩

end Subst

/-! ## Inlining -/

theorem FuncDecl.Uses.imp {N T T' : Name → Prop} (h : d.Uses N T) (htypes : ∀ t, T t → T' t) :
    d.Uses N T' := by
  have hscope : ∀ t, d.InScopeTypes T t → d.InScopeTypes T' t := fun t => Or.imp_left (htypes t)
  exact ⟨h.name, fun b hb => ⟨(h.params b hb).name, fun t ht => hscope t ((h.params b hb).ty t ht)⟩,
    fun t ht => hscope t (h.returnTy t ht), h.rhs.imp (fun _ hn => hn) fun t _ => hscope t⟩

namespace Inline

variable {N T : Name → Prop} {functions : List Name} {σ σ' : Session}
variable {e : Expr}

/-- A function that waits for arguments. Its type parameters are in scope too. -/
structure Pending.Uses (N T : Name → Prop) (p : Pending) : Prop where
  params : ∀ b ∈ p.params, b.Uses N fun t => T t ∨ t ∈ p.typeParams
  body : p.body.Uses N fun t => T t ∨ t ∈ p.typeParams

/-- The functions to inline. -/
def Context.Uses (N T : Name → Prop) (ctx : Context) : Prop :=
  ∀ n d, ctx.decls.get? n = some d → d.Uses N T

namespace Pending.Uses

variable {p p' : Pending}

/-- An expression that waits for nothing. -/
theorem of_expr (h : e.Uses N T) : Pending.Uses N T { body := e } :=
  ⟨nofun, h.imp (fun _ hn => hn) fun _ _ ht => .inl ht⟩

/-- Without type parameters none is in scope. -/
theorem resolve (h : e.Uses N fun t => T t ∨ t ∈ []) : e.Uses N T :=
  h.imp (fun _ hn => hn) fun _ _ ht => ht.resolve_right List.not_mem_nil

/-- A call that is closed takes no more arguments. -/
theorem close {e : Expr} (hrun : p.close σ = .ok e σ') (h : p.Uses N T) : σ' = σ ∧ e.Uses N T := by
  obtain ⟨typeParams, params, body⟩ := p
  cases typeParams with
  | cons typeVar rest => exact absurd hrun Compile.throw_ok
  | nil =>
    obtain ⟨rfl, rfl⟩ := Compile.pure_ok.mp hrun
    refine ⟨rfl, ?_⟩
    unfold Expr.lambda
    split
    · exact resolve h.body
    · exact resolve ⟨Expr.annotationUses_none, h.params, h.body⟩

/-- A value is put in for the first parameter, or applied. -/
theorem applyValue (hN : Supplies functions N) {note : Note} {arg : Expr}
    (hrun : p.applyValue note arg σ = .ok p' σ') (h : p.Uses N T) (hnote : AnnotationUses T note.ty)
    (harg : arg.Uses N T) (hσ : σ.env.Registers functions) : σ'.env = σ.env ∧ p'.Uses N T := by
  obtain ⟨typeParams, params, body⟩ := p
  cases typeParams with
  | cons typeVar rest => exact absurd hrun Compile.throw_ok
  | nil =>
    cases params with
    | nil =>
      obtain ⟨rfl, rfl⟩ := Compile.pure_ok.mp hrun
      exact ⟨rfl, of_expr ⟨hnote, resolve h.body, harg⟩⟩
    | cons param params =>
      simp only [Pending.applyValue, Compile.bind_ok, Compile.lift_ok, Compile.pure_ok] at hrun
      obtain ⟨body', σ₁, hsubst, rfl, rfl⟩ := hrun
      -- no type parameter is left that the argument could mention
      have hargInside : arg.Uses N fun t => T t ∨ t ∈ [] :=
        harg.imp (fun _ hn => hn) fun _ _ ht => .inl ht
      obtain ⟨henv, hbody⟩ := Subst.apply_uses hN hsubst (.single hargInside) h.body hσ
      exact ⟨henv, fun b hb => h.params b (List.mem_cons_of_mem _ hb), hbody⟩

/-- A type takes the place of the first type parameter. -/
theorem singleType_uses {typeVar : Name} {typeParams : List Name} {ty : Ty}
    (hty : ∀ t ∈ ty.varOccs, T t) :
    (Subst.singleType typeVar ty).Uses N (fun t => T t ∨ t ∈ typeVar :: typeParams) fun t =>
      T t ∨ t ∈ typeParams := by
  refine ⟨nofun, fun t ht x hx => ?_⟩
  have hget : (Subst.singleType typeVar ty).types.get? t = if typeVar = t then some ty else none :=
    Table.get?_insert _ _ _ _
  rw [Subst.applyTy, Ty.subst, hget] at hx
  split at hx
  · exact .inl (hty x hx)
  · next hne =>
    obtain rfl := List.mem_singleton.mp hx
    exact ht.imp_right fun hmem => (List.mem_cons.mp hmem).resolve_left (Ne.symm hne)

/-- A type is put in for the first type parameter, or applied. -/
theorem applyType (hN : Supplies functions N) {note : Note} {ty : Ty}
    (hrun : p.applyType note ty σ = .ok p' σ') (h : p.Uses N T) (hnote : AnnotationUses T note.ty)
    (hty : ∀ t ∈ ty.varOccs, T t) (hσ : σ.env.Registers functions) :
    σ'.env = σ.env ∧ p'.Uses N T := by
  obtain ⟨typeParams, params, body⟩ := p
  cases typeParams with
  | nil =>
    cases params with
    | nil =>
      obtain ⟨rfl, rfl⟩ := Compile.pure_ok.mp hrun
      exact ⟨rfl, of_expr ⟨hnote, resolve h.body, hty⟩⟩
    | cons param params => exact absurd hrun Compile.throw_ok
  | cons typeVar typeParams =>
    simp only [Pending.applyType, Compile.bind_ok, Compile.lift_ok, Compile.pure_ok] at hrun
    obtain ⟨body', σ₁, hsubst, rfl, rfl⟩ := hrun
    obtain ⟨henv, hbody⟩ := Subst.apply_uses hN hsubst (singleType_uses hty) h.body hσ
    refine ⟨henv, List.forall_mem_map.mpr fun b hb => ⟨(h.params b hb).name, ?_⟩, hbody⟩
    exact (singleType_uses (N := N) hty).mapTy (h.params b hb).ty

end Pending.Uses

/-- Type parameters are replaced by generated ones. -/
theorem freshTypeParams_spec {s s' : Subst} {params : List TypeParam} {fresh : List Name}
    (h : freshTypeParams s params σ = ((s', fresh), σ')) :
    σ'.env = σ.env ∧ (∀ t, t ∉ params.map TypeParam.name → s'.types.get? t = s.types.get? t) ∧
      ∀ t ∈ params.map TypeParam.name, ∃ x ∈ fresh, s'.types.get? t = some (.var x) := by
  induction params generalizing s fresh σ with
  | nil =>
    obtain ⟨heq, rfl⟩ := Naming.pure_eq.mp h
    obtain ⟨rfl, rfl⟩ := Prod.mk.inj heq
    exact ⟨rfl, fun _ _ => rfl, nofun⟩
  | cons p rest ih =>
    simp only [freshTypeParams, Naming.bind_eq, Naming.pure_eq] at h
    obtain ⟨x, σ₁, hfresh, ⟨s₁, fresh'⟩, σ₂, hrest, heq, rfl⟩ := h
    obtain ⟨rfl, rfl⟩ := Prod.mk.inj heq
    obtain ⟨henv, hkept, hreplaced⟩ := ih hrest
    have hinsert : ∀ t, (s.insertType p.name (.var x)).types.get? t =
        if p.name = t then some (.var x) else s.types.get? t :=
      fun t => Table.get?_insert _ _ _ _
    refine ⟨henv.trans (freshName_spec hfresh).1, fun t ht => ?_, fun t ht => ?_⟩
    · rw [List.map_cons, List.mem_cons, not_or] at ht
      rw [hkept t ht.2, hinsert, if_neg (Ne.symm ht.1)]
    · -- a later type parameter of the same name replaces the earlier one
      by_cases hlater : t ∈ rest.map TypeParam.name
      · obtain ⟨y, hy, hget⟩ := hreplaced t hlater
        exact ⟨y, List.mem_cons_of_mem _ hy, hget⟩
      · obtain rfl : t = p.name := (List.mem_cons.mp ht).resolve_right hlater
        exact ⟨x, List.mem_cons_self, by rw [hkept _ hlater, hinsert, if_pos rfl]⟩

/-- **Fresh parameters** take the places of a function's own. -/
theorem instantiate_uses (hN : Supplies functions N) {p : Pending} (h : instantiate d σ = (p, σ'))
    (hd : d.Uses N T) (hσ : σ.env.Registers functions) : σ'.env = σ.env ∧ p.Uses N T := by
  simp only [instantiate, Naming.bind_eq, Naming.pure_eq] at h
  obtain ⟨⟨renames, fresh⟩, σ₁, htypes, ⟨renames', params⟩, σ₂, henter, body, σ₃, hbody,
    rfl, rfl⟩ := h
  obtain ⟨henv₁, hkept, hreplaced⟩ := freshTypeParams_spec htypes
  -- a type parameter becomes a fresh one, any other type variable stays
  have hrenames : renames.Uses N (d.InScopeTypes T) fun t => T t ∨ t ∈ fresh := by
    refine ⟨fun n r hr => ?_, fun t ht x hx => ?_⟩
    · rw [(freshTypeParams_exprs htypes).1] at hr
      cases hr
    · rw [Subst.applyTy, Ty.subst] at hx
      by_cases hparam : t ∈ d.typeParamNames
      · obtain ⟨y, hy, hget⟩ := hreplaced t hparam
        rw [hget] at hx
        exact .inr (List.mem_singleton.mp hx ▸ hy)
      · rw [hkept t hparam] at hx
        exact .inl (List.mem_singleton.mp hx ▸ ht.resolve_right hparam)
  obtain ⟨henv₂, _, hrenames', hparams⟩ :=
    Subst.enterBinders_uses hN henter hrenames hd.params (henv₁ ▸ hσ)
  have henv := henv₂.trans henv₁
  obtain ⟨henv₃, hbody'⟩ := Subst.apply_uses hN hbody hrenames' hd.rhs (henv ▸ hσ)
  exact ⟨henv₃.trans henv, hparams, hbody'⟩

/-! ### The descent -/

/-- What a descent of this depth yields is made of what went in. The type variables in scope vary:
inside a right-hand side its type parameters are in scope too. -/
def DescendUses (functions : List Name) (N : Name → Prop) (depth : Nat) : Prop :=
  ∀ {T : Name → Prop} {ctx : Context} {e : Expr} {p : Pending} {σ σ' : Session},
    descend depth ctx e σ = .ok p σ' →
    ctx.Uses N T → e.Uses N T → σ.env.Registers functions → σ'.env = σ.env ∧ p.Uses N T

section descent

variable {depth : Nat} {ctx : Context}

theorem avoidCapture_uses (hN : Supplies functions N) {binders : List Binder} {renames : Subst}
    (h : ctx.avoidCapture binders σ = ((renames, binders'), σ'))
    (hbinders : ∀ b ∈ binders, b.Uses N T) (hσ : σ.env.Registers functions) :
    σ'.env = σ.env ∧ binders'.length = binders.length ∧ renames.Uses N T T ∧
      ∀ b ∈ binders', b.Uses N T :=
  Subst.enterBinders_uses hN h (.empty fun _ ht => ht) hbinders hσ

theorem DescendUses.value (h : DescendUses functions N depth) {e' : Expr} {p : Pending}
    {σ₁ : Session} (hrun : descend depth ctx e σ = .ok p σ₁) (hclose : p.close σ₁ = .ok e' σ')
    (hctx : ctx.Uses N T) (he : e.Uses N T) (hσ : σ.env.Registers functions) :
    σ'.env = σ.env ∧ e'.Uses N T := by
  obtain ⟨henv, hp⟩ := h hrun hctx he hσ
  obtain ⟨rfl, he'⟩ := hp.close hclose
  exact ⟨henv, he'⟩

/-- Several descents, one after the other. -/
theorem DescendUses.values (h : DescendUses functions N depth) {es es' : List Expr}
    (hrun : Compile.MapRun (fun e => do (← descend depth ctx e).close) es σ es' σ')
    (hctx : ctx.Uses N T) (hes : ∀ e ∈ es, e.Uses N T) (hσ : σ.env.Registers functions) :
    σ'.env = σ.env ∧ es'.length = es.length ∧ ∀ e ∈ es', e.Uses N T := by
  induction hrun with
  | nil σ => exact ⟨rfl, rfl, nofun⟩
  | cons hfirst _ ih =>
    simp only [Compile.bind_ok] at hfirst
    obtain ⟨p, σ₁, hdescend, hclose⟩ := hfirst
    obtain ⟨hhead, htail⟩ := List.forall_mem_cons.mp hes
    obtain ⟨henv, hfirst'⟩ := h.value hdescend hclose hctx hhead hσ
    obtain ⟨henv', hlength, hrest'⟩ := ih htail (henv ▸ hσ)
    exact ⟨henv'.trans henv, congrArg (· + 1) hlength, List.forall_mem_cons.mpr ⟨hfirst', hrest'⟩⟩

/-- The alternatives of a `case`: each is renamed, then gone into. -/
theorem DescendUses.alts (hN : Supplies functions N) (h : DescendUses functions N depth)
    {alts alts' : Alts}
    (hrun : Compile.MapRun (fun (alt : Pattern × Expr) => (do
      let (renames, binders) ← (ctx.avoidCapture alt.1.binders : Naming (Subst × List Binder))
      let rhs ← (renames.apply alt.2 : Naming Expr)
      let rhs ← (do (← descend depth (ctx.shadow binders) rhs).close)
      return (alt.1.withBinders binders, rhs) : Compile (Pattern × Expr))) alts σ alts' σ')
    (hctx : ctx.Uses N T) (halts : Expr.UsesAlts N T alts) (hσ : σ.env.Registers functions) :
    σ'.env = σ.env ∧ Expr.UsesAlts N T alts' := by
  induction hrun with
  | nil σ => exact ⟨rfl, trivial⟩
  | @cons alt _ _ _ _ _ _ hfirst _ ih =>
    obtain ⟨pattern, rhs⟩ := alt
    simp only [Compile.bind_ok, Compile.lift_ok, Compile.pure_ok] at hfirst
    obtain ⟨⟨renames, binders'⟩, σ₁, hcapture, rhs₁, σ₂, hrename, rhs', σ₃,
      ⟨p, σ₄, hdescend, hclose⟩, rfl, rfl⟩ := hfirst
    obtain ⟨henv₁, hlength, hrenames, hbinders'⟩ := avoidCapture_uses hN hcapture halts.1 hσ
    obtain ⟨henv₂, hrhs₁⟩ := Subst.apply_uses hN hrename hrenames halts.2.1 (henv₁ ▸ hσ)
    have henv₁₂ := henv₂.trans henv₁
    obtain ⟨henv₃, hrhs'⟩ := h.value hdescend hclose hctx hrhs₁ (henv₁₂ ▸ hσ)
    have henv := henv₃.trans henv₁₂
    obtain ⟨henv', hrest'⟩ := ih halts.2.2 (henv ▸ hσ)
    exact ⟨henv'.trans henv, Subst.uses_withBinders hlength hbinders', hrhs', hrest'⟩

/-- A reference to a function to inline becomes its right-hand side under generated parameters. -/
theorem DescendUses.unfold (hN : Supplies functions N) (h : DescendUses functions N depth)
    {note : Note} {name : Name} {d : FuncDecl} (hdecl : ctx.decl? name = some d) {p : Pending}
    (hrun : descend (depth + 1) ctx (.var note name) σ = .ok p σ') (hctx : ctx.Uses N T)
    (hσ : σ.env.Registers functions) :
    σ'.env = σ.env ∧ p.Uses N T := by
  have hd : d.Uses N T := by
    unfold Context.decl? at hdecl
    split at hdecl
    · cases hdecl
    · exact hctx name d hdecl
  rw [descend] at hrun
  simp only [hdecl] at hrun
  split at hrun
  · simp only [Compile.bind_ok] at hrun
    obtain ⟨_, _, hfail, _⟩ := hrun
    exact absurd hfail Compile.throw_ok
  · simp only [Compile.bind_ok, Compile.lift_ok, Compile.pure_ok] at hrun
    obtain ⟨unfolded, σ₁, hinstantiate, body', σ₂, ⟨p₁, σ₃, hdescend, hclose⟩, rfl, rfl⟩ := hrun
    obtain ⟨henv, hunfolded⟩ := instantiate_uses hN hinstantiate hd hσ
    -- inside the function its fresh type parameters are in scope too
    have hinside : ctx.Uses N fun t => T t ∨ t ∈ unfolded.typeParams :=
      fun n d' hd' => (hctx n d' hd').imp fun _ => .inl
    obtain ⟨henv', hbody'⟩ := h.value hdescend hclose hinside hunfolded.body (henv ▸ hσ)
    exact ⟨henv'.trans henv, hunfolded.params, hbody'⟩

/-- **Inlining puts in right-hand sides, arguments and generated names only.** By induction on the
depth of the descent. -/
theorem descend_uses (hN : Supplies functions N) (depth : Nat) : DescendUses functions N depth := by
  induction depth with
  | zero =>
    intro T ctx e p σ σ' hrun
    exact absurd hrun Compile.throw_ok
  | succ depth ih =>
    intro T ctx e p σ σ' hrun hctx he hσ
    cases e with
    | var note name =>
      cases hdecl : ctx.decl? name with
      | none =>
        rw [descend] at hrun
        simp only [hdecl, Compile.pure_ok] at hrun
        obtain ⟨rfl, rfl⟩ := hrun
        exact ⟨rfl, .of_expr he⟩
      | some d =>
        exact ih.unfold hN hdecl hrun hctx hσ
    | con | intLit | undefined | error =>
      obtain ⟨rfl, rfl⟩ := Compile.pure_ok.mp hrun
      exact ⟨rfl, .of_expr he⟩
    -- the environment does not change, so what is registered stays registered
    | app note fn arg =>
      simp only [descend, Compile.bind_ok] at hrun
      obtain ⟨p₁, σ₁, hfn, arg', σ₂, ⟨p₂, σ₃, hdescend, hclose⟩, happly⟩ := hrun
      obtain ⟨henv₁, hp₁⟩ := ih hfn hctx he.2.1 hσ
      obtain ⟨henv₂, harg'⟩ := ih.value hdescend hclose hctx he.2.2 (henv₁ ▸ hσ)
      have henv := henv₂.trans henv₁
      obtain ⟨henv₃, hp⟩ := hp₁.applyValue hN happly he.1 harg' (henv ▸ hσ)
      exact ⟨henv₃.trans henv, hp⟩
    | typeApp note fn ty =>
      simp only [descend, Compile.bind_ok] at hrun
      obtain ⟨p₁, σ₁, hfn, happly⟩ := hrun
      obtain ⟨henv₁, hp₁⟩ := ih hfn hctx he.2.1 hσ
      obtain ⟨henv₂, hp⟩ := hp₁.applyType hN happly he.1 he.2.2 (henv₁ ▸ hσ)
      exact ⟨henv₂.trans henv₁, hp⟩
    | cond note test thenBranch elseBranch =>
      simp only [descend, Compile.bind_ok, Compile.pure_ok] at hrun
      obtain ⟨test', σ₁, ⟨p₁, _, htest, hclose₁⟩, then', σ₂, ⟨p₂, _, hthen, hclose₂⟩, else', σ₃,
        ⟨p₃, _, helse, hclose₃⟩, rfl, rfl⟩ := hrun
      obtain ⟨henv₁, htest'⟩ := ih.value htest hclose₁ hctx he.2.1 hσ
      obtain ⟨henv₂, hthen'⟩ := ih.value hthen hclose₂ hctx he.2.2.1 (henv₁ ▸ hσ)
      have henv := henv₂.trans henv₁
      obtain ⟨henv₃, helse'⟩ := ih.value helse hclose₃ hctx he.2.2.2 (henv ▸ hσ)
      exact ⟨henv₃.trans henv, .of_expr ⟨he.1, htest', hthen', helse'⟩⟩
    | case note scrutinee alts =>
      simp only [descend, Compile.bind_ok, Compile.pure_ok] at hrun
      obtain ⟨scrutinee', σ₁, ⟨p₁, _, hscrutinee, hclose⟩, alts', σ₂, halts, rfl, rfl⟩ := hrun
      obtain ⟨henv, hscrutinee'⟩ := ih.value hscrutinee hclose hctx he.2.1 hσ
      obtain ⟨henv', halts'⟩ := ih.alts hN (Compile.mapM_ok halts) hctx he.2.2 (henv ▸ hσ)
      exact ⟨henv'.trans henv, .of_expr ⟨he.1, hscrutinee', halts'⟩⟩
    -- binders make way before the descent into their scope
    | lam note params body =>
      simp only [descend, Compile.bind_ok, Compile.lift_ok, Compile.pure_ok] at hrun
      obtain ⟨⟨renames, params'⟩, σ₁, hcapture, body₁, σ₂, hrename, body', σ₃,
        ⟨p₁, _, hdescend, hclose⟩, rfl, rfl⟩ := hrun
      obtain ⟨henv₁, _, hrenames, hparams'⟩ := avoidCapture_uses hN hcapture he.2.1 hσ
      obtain ⟨henv₂, hbody₁⟩ := Subst.apply_uses hN hrename hrenames he.2.2 (henv₁ ▸ hσ)
      have henv := henv₂.trans henv₁
      obtain ⟨henv₃, hbody'⟩ := ih.value hdescend hclose hctx hbody₁ (henv ▸ hσ)
      exact ⟨henv₃.trans henv, .of_expr ⟨he.1, hparams', hbody'⟩⟩
    | letRec note binds body =>
      simp only [descend, Compile.bind_ok, Compile.lift_ok, Compile.pure_ok] at hrun
      obtain ⟨⟨renames, binders'⟩, σ₁, hcapture, rhss₁, σ₂, hrenames, body₁, σ₃, hrename, rhss', σ₄,
        hrhss, body', σ₅, ⟨p₁, _, hdescend, hclose⟩, rfl, rfl⟩ := hrun
      obtain ⟨henv₁, hlength, hsubst, hbinders'⟩ := avoidCapture_uses hN hcapture he.2.1 hσ
      obtain ⟨henv₂, hlength₁, hrhss₁⟩ :=
        Subst.applyAll_uses hN hrenames hsubst (Expr.usesRhss_iff.mp he.2.2.1) (henv₁ ▸ hσ)
      have henv₁₂ := henv₂.trans henv₁
      obtain ⟨henv₃, hbody₁⟩ := Subst.apply_uses hN hrename hsubst he.2.2.2 (henv₁₂ ▸ hσ)
      have henv₁₃ := henv₃.trans henv₁₂
      obtain ⟨henv₄, hlength₂, hrhss'⟩ :=
        ih.values (Compile.mapM_ok hrhss) hctx hrhss₁ (henv₁₃ ▸ hσ)
      have henv := henv₄.trans henv₁₃
      obtain ⟨henv₅, hbody'⟩ := ih.value hdescend hclose hctx hbody₁ (henv ▸ hσ)
      -- renaming and inlining keep the bindings in step with their binders
      have hzip : rhss'.length = binders'.length := by
        rw [hlength₂, hlength₁, hlength, Binds.rhss, Binds.binders, List.length_map,
          List.length_map]
      refine ⟨henv₅.trans henv, .of_expr ⟨he.1, ?_, ?_, hbody'⟩⟩
      · rw [Subst.binders_zip hzip]
        exact hbinders'
      · rw [Expr.usesRhss_iff, Binds.rhss_zip hzip]
        exact hrhss'

end descent

end Inline

/-- **Inlining into a function.** -/
theorem inlineDecl_uses {N T : Name → Prop} {functions : List Name} (hN : Supplies functions N)
    {mains : List FuncDecl} {d' : FuncDecl} {σ σ' : Session} (h : inlineDecl mains d σ = .ok d' σ')
    (hmains : ∀ main ∈ mains, main.Uses N T) (hd : d.Uses N T) (hσ : σ.env.Registers functions) :
    σ'.env = σ.env ∧ d'.Uses N T := by
  simp only [inlineDecl, Inline.Context.inline, Compile.bind_ok, Compile.lift_ok,
    Compile.pure_ok] at h
  obtain ⟨⟨renames, params'⟩, σ₁, hcapture, rhs₁, σ₂, hrename, rhs', σ₃, ⟨p, _, hdescend, hclose⟩,
    rfl, rfl⟩ := h
  have hctx : (Inline.Context.ofDecls mains).Uses N (d.InScopeTypes T) := by
    intro n main hget
    obtain ⟨main', hmem, heq⟩ := List.mem_map.mp (Table.mem_of_get?_ofList hget)
    obtain ⟨rfl, rfl⟩ := Prod.mk.inj heq
    exact (hmains main' hmem).imp fun _ => .inl
  obtain ⟨henv₁, _, hrenames, hparams'⟩ := Inline.avoidCapture_uses hN hcapture hd.params hσ
  obtain ⟨henv₂, hrhs₁⟩ := Subst.apply_uses hN hrename hrenames hd.rhs (henv₁ ▸ hσ)
  have henv := henv₂.trans henv₁
  obtain ⟨henv₃, hrhs'⟩ :=
    Inline.DescendUses.value (Inline.descend_uses hN _) hdescend hclose hctx hrhs₁ (henv ▸ hσ)
  exact ⟨henv₃.trans henv, hd.name, hparams', hd.returnTy, hrhs'⟩

end StructRec
