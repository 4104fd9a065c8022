import StructRec.Proofs.Hoisting
import StructRec.Proofs.Occurrences

/-!
# StructRec — names and type variables of groups

What becomes of a recursive group is made of the variables of the group and of generated names. A
helper keeps the type parameters of its function, so its type variables stay in scope. An inner
function loses the type parameters that the section takes over, and finds them among the type
variables of the section. A definition after the section passes all type variables of the section
on, whether they are its type parameters or not.
-/

namespace StructRec

variable {decls : List FuncDecl} {fn : Expr} {positions : List Nat}

/-! ## Splitting -/

namespace Environment.Registers

variable {env : Environment} {functions : List Name}

/-- Setting an entry unregisters nothing. -/
theorem insert (h : env.Registers functions) (name : Name) (entry : ValueEntry) :
    { env with values := env.values.insert name entry }.Registers functions := by
  intro f hf
  rw [Table.contains, Table.get?_insert]
  split
  · rfl
  · exact h f hf

theorem addValue (h : env.Registers functions) (entry : ValueEntry) :
    (env.addValue entry).Registers functions :=
  h.insert entry.name entry

theorem updateFunc (h : env.Registers functions) (name : Name) (f : FuncEntry → FuncEntry) :
    (env.updateFunc name f).Registers functions := by
  unfold Environment.updateFunc
  split
  · exact h.insert name _
  · exact h

/-- Only a name that is none of the functions may end up without an entry. -/
theorem unshadow (h : env.Registers functions) {name : Name} {previous : Option ValueEntry}
    (hprevious : previous = none → name ∉ functions) :
    (env.unshadow name previous).Registers functions := by
  cases previous with
  | some entry => exact h.insert name entry
  | none =>
    intro f hf
    have hne : f ≠ name := fun heq => hprevious rfl (heq ▸ hf)
    rw [Table.contains, Environment.unshadow, Table.get?_erase, if_neg hne]
    exact h f hf

/-- Changes that each keep the functions registered. -/
theorem foldl {α : Type} {f : Environment → α → Environment} {xs : List α}
    (hf : ∀ env, ∀ x ∈ xs, env.Registers functions → (f env x).Registers functions)
    (h : env.Registers functions) : (xs.foldl f env).Registers functions := by
  induction xs generalizing env with
  | nil => exact h
  | cons x rest ih =>
    rw [List.foldl_cons]
    exact ih (fun env y hy => hf env y (List.mem_cons_of_mem _ hy)) (hf env x List.mem_cons_self h)

end Environment.Registers

namespace Expr

variable {N T : Name → Prop}

theorem uses_applyTypes {types : List Ty} (hfn : fn.Uses N T)
    (htypes : ∀ ty ∈ types, ∀ t ∈ ty.varOccs, T t) : (fn.applyTypes types).Uses N T := by
  induction types generalizing fn with
  | nil => exact hfn
  | cons ty rest ih =>
    rw [List.forall_mem_cons] at htypes
    exact ih ⟨annotationUses_none, hfn, htypes.1⟩ htypes.2

theorem uses_apply {args : List Expr} (hfn : fn.Uses N T) (hargs : ∀ arg ∈ args, arg.Uses N T) :
    (fn.apply args).Uses N T := by
  induction args generalizing fn with
  | nil => exact hfn
  | cons arg rest ih =>
    rw [List.forall_mem_cons] at hargs
    exact ih ⟨annotationUses_none, hfn, hargs.1⟩ hargs.2

end Expr

namespace Split

variable {N T : Name → Prop} {functions : List Name} {d : FuncDecl} {param : Name} {σ σ' : Session}
variable {helpers : List Helper}

/-- A variable in scope with its annotation. -/
def EntryUses (N T : Name → Prop) (entry : Name × Option Ty) : Prop :=
  N entry.1 ∧ AnnotationUses T entry.2

theorem entries_uses {binders : List Binder} (h : ∀ b ∈ binders, b.Uses N T) :
    ∀ entry ∈ binders.map fun b => (b.name, b.ty), EntryUses N T entry :=
  List.forall_mem_map.mpr fun b hb => ⟨(h b hb).name, (h b hb).ty⟩

/-- **A helper** has the type parameters of its function, so the same type variables are in
scope. -/
theorem makeHelper_uses (hN : Supplies functions N) {returnTy : Option Ty}
    {vars : List (Name × Option Ty)} {body call : Expr} {helper : Helper}
    (h : makeHelper d param returnTy vars body σ = ((helper, call), σ'))
    (hreturn : AnnotationUses (d.InScopeTypes T) returnTy)
    (hvars : ∀ entry ∈ vars, EntryUses N (d.InScopeTypes T) entry)
    (hbody : body.Uses N (d.InScopeTypes T)) (hσ : σ.env.Registers functions) :
    σ'.env.Registers functions ∧ helper.decl.Uses N T ∧ call.Uses N (d.InScopeTypes T) := by
  simp only [makeHelper, Naming.bind_eq, Naming.pure_eq, Session.modifyEnv_eq] at h
  obtain ⟨name, σ₁, hfresh, _, _, rfl, heq, rfl⟩ := h
  obtain ⟨rfl, rfl⟩ := Prod.mk.inj heq
  have hname : N name := hN hfresh hσ
  have hparams : ∀ b ∈ vars.map fun entry =>
      { name := entry.1, ty := entry.2, span := body.span : Binder },
      b.Uses N (d.InScopeTypes T) :=
        List.forall_mem_map.mpr fun entry hentry => ⟨(hvars entry hentry).1, (hvars entry hentry).2⟩
  refine ⟨?_, ⟨hname, hparams, hreturn, hbody⟩,
    Expr.uses_withNote (Expr.uses_apply (Expr.uses_applyTypes ?_ ?_) ?_) hbody.note⟩
  · have hσ₁ : σ₁.env.Registers functions := (freshName_spec hfresh).1 ▸ hσ
    exact hσ₁.addValue _
  · exact ⟨Expr.annotationUses_none, hname⟩
  · refine List.forall_mem_map.mpr fun p hp t ht => .inr ?_
    rw [List.mem_singleton.mp ht]
    exact List.mem_map_of_mem hp
  · exact List.forall_mem_map.mpr fun b hb => Expr.uses_toExpr (hparams b hb)

mutual

/-- **Lifting cases** moves parts of an expression into helpers. -/
theorem Lifts.uses (hN : Supplies functions N) {scope returnTy e σ helpers e' σ'}
    (h : Lifts d param scope returnTy e σ helpers e' σ')
    (hreturn : ∀ ty, returnTy = some ty → AnnotationUses (d.InScopeTypes T) ty)
    (hscope : scope.All (EntryUses N (d.InScopeTypes T))) (he : e.Uses N (d.InScopeTypes T))
    (hσ : σ.env.Registers functions) :
    σ'.env.Registers functions ∧ (∀ h ∈ helpers, h.decl.Uses N T) ∧
      e'.Uses N (d.InScopeTypes T) := by
  cases h with
  | leaf => exact ⟨hσ, List.forall_mem_nil _, he⟩
  | @lift _ _ note scrutinee alts _ helper call _ hcase hmake =>
    -- the return type of a helper is the annotation of the `case`, or that of the whole function
    have hty : AnnotationUses (d.InScopeTypes T) (returnTy.getD note.ty) := by
      cases returnTy with
      | none => exact he.1
      | some ty => exact hreturn ty rfl
    have hcaptured : ∀ entry ∈ captured scope (.case note scrutinee alts),
        EntryUses N (d.InScopeTypes T) entry :=
      fun entry hentry => hscope.visible entry (List.mem_filter.mp hentry).1
    obtain ⟨hσ', hhelper, hcall⟩ := makeHelper_uses hN hmake hty hcaptured he hσ
    exact ⟨hσ', List.forall_mem_singleton.mpr hhelper, hcall⟩
  | case _ hscrutinee halts =>
    obtain ⟨hσ₁, hhelpers₁, hscrutinee'⟩ := hscrutinee.uses hN nofun hscope he.2.1 hσ
    obtain ⟨hσ₂, hhelpers₂, halts'⟩ := halts.uses hN hscope he.2.2 hσ₁
    exact ⟨hσ₂, List.forall_mem_append.mpr ⟨hhelpers₁, hhelpers₂⟩, he.1, hscrutinee', halts'⟩
  | app hfn harg =>
    obtain ⟨hσ₁, hhelpers₁, hfn'⟩ := hfn.uses hN nofun hscope he.2.1 hσ
    obtain ⟨hσ₂, hhelpers₂, harg'⟩ := harg.uses hN nofun hscope he.2.2 hσ₁
    exact ⟨hσ₂, List.forall_mem_append.mpr ⟨hhelpers₁, hhelpers₂⟩, he.1, hfn', harg'⟩
  | typeApp hfn =>
    obtain ⟨hσ₁, hhelpers₁, hfn'⟩ := hfn.uses hN nofun hscope he.2.1 hσ
    exact ⟨hσ₁, hhelpers₁, he.1, hfn', he.2.2⟩
  | cond htest hthen helse =>
    obtain ⟨hσ₁, hhelpers₁, htest'⟩ := htest.uses hN nofun hscope he.2.1 hσ
    obtain ⟨hσ₂, hhelpers₂, hthen'⟩ := hthen.uses hN nofun hscope he.2.2.1 hσ₁
    obtain ⟨hσ₃, hhelpers₃, helse'⟩ := helse.uses hN nofun hscope he.2.2.2 hσ₂
    have hhelpers := List.forall_mem_append.mpr ⟨hhelpers₁, hhelpers₂⟩
    exact ⟨hσ₃, List.forall_mem_append.mpr ⟨hhelpers, hhelpers₃⟩, he.1, htest', hthen', helse'⟩
  | lam hbody =>
    obtain ⟨hσ₁, hhelpers₁, hbody'⟩ :=
      hbody.uses hN nofun (hscope.enter (entries_uses he.2.1)) he.2.2 hσ
    exact ⟨hσ₁, hhelpers₁, he.1, he.2.1, hbody'⟩
  | letRec hbinds hbody =>
    have hinner := hscope.enter (entries_uses he.2.1)
    obtain ⟨hσ₁, hhelpers₁, hbinders, hbinds'⟩ := hbinds.uses hN hinner he.2.2.1 hσ
    obtain ⟨hσ₂, hhelpers₂, hbody'⟩ := hbody.uses hN nofun hinner he.2.2.2 hσ₁
    exact ⟨hσ₂, List.forall_mem_append.mpr ⟨hhelpers₁, hhelpers₂⟩, he.1, hbinders ▸ he.2.1, hbinds',
      hbody'⟩

/-- Alternatives, one after the other. -/
theorem LiftsAlts.uses (hN : Supplies functions N) {scope alts σ helpers alts' σ'}
    (h : LiftsAlts d param scope alts σ helpers alts' σ')
    (hscope : scope.All (EntryUses N (d.InScopeTypes T)))
    (halts : Expr.UsesAlts N (d.InScopeTypes T) alts) (hσ : σ.env.Registers functions) :
    σ'.env.Registers functions ∧ (∀ h ∈ helpers, h.decl.Uses N T) ∧
      Expr.UsesAlts N (d.InScopeTypes T) alts' := by
  cases h with
  | nil => exact ⟨hσ, List.forall_mem_nil _, trivial⟩
  | cons hrhs hrest =>
    obtain ⟨hσ₁, hhelpers₁, hrhs'⟩ :=
      hrhs.uses hN nofun (hscope.enter (entries_uses halts.1)) halts.2.1 hσ
    obtain ⟨hσ₂, hhelpers₂, hrest'⟩ := hrest.uses hN hscope halts.2.2 hσ₁
    exact ⟨hσ₂, List.forall_mem_append.mpr ⟨hhelpers₁, hhelpers₂⟩, halts.1, hrhs', hrest'⟩

/-- The bindings of a `let`. -/
theorem LiftsBinds.uses (hN : Supplies functions N) {scope binds σ helpers binds' σ'}
    (h : LiftsBinds d param scope binds σ helpers binds' σ')
    (hscope : scope.All (EntryUses N (d.InScopeTypes T)))
    (hbinds : Expr.UsesRhss N (d.InScopeTypes T) binds) (hσ : σ.env.Registers functions) :
    σ'.env.Registers functions ∧ (∀ h ∈ helpers, h.decl.Uses N T) ∧
      Binds.binders binds = Binds.binders binds' ∧ Expr.UsesRhss N (d.InScopeTypes T) binds' := by
  cases h with
  | nil => exact ⟨hσ, List.forall_mem_nil _, rfl, trivial⟩
  | cons hrhs hrest =>
    obtain ⟨hσ₁, hhelpers₁, hrhs'⟩ := hrhs.uses hN nofun hscope hbinds.1 hσ
    obtain ⟨hσ₂, hhelpers₂, hbinders, hrest'⟩ := hrest.uses hN hscope hbinds.2 hσ₁
    exact ⟨hσ₂, List.forall_mem_append.mpr ⟨hhelpers₁, hhelpers₂⟩,
      congrArg (_ :: ·) hbinders, hrhs', hrest'⟩

end

/-- **Splitting a function** makes helpers of its own variables. -/
theorem splitAt_uses (hN : Supplies functions N) {main : FuncDecl}
    (h : splitAt d param σ = ((helpers, main), σ')) (hd : d.Uses N T)
    (hσ : σ.env.Registers functions) :
    σ'.env.Registers functions ∧ (∀ h ∈ helpers, h.decl.Uses N T) ∧ main.Uses N T := by
  simp only [splitAt, Naming.bind_eq] at h
  obtain ⟨⟨helpers₁, rhs'⟩, σ₁, hextract, h⟩ := h
  have hscope : (paramScope d).All (EntryUses N (d.InScopeTypes T)) :=
    ScopeStack.All.bindAll .empty (entries_uses hd.params)
  have hreturn : ∀ ty, some d.returnTy = some ty →
      AnnotationUses (d.InScopeTypes T) ty := fun ty hty =>
    Option.some.inj hty ▸ hd.returnTy
  obtain ⟨hσ₁, hhelpers, hrhs'⟩ :=
    (lifts_of_extract d.rhs hextract).uses hN hreturn hscope hd.rhs hσ
  -- without a case to lift the right-hand side as a whole becomes the helper
  split at h
  · simp only [Naming.bind_eq, Naming.pure_eq] at h
    obtain ⟨⟨helper, call⟩, σ₂, hmade, heq, rfl⟩ := h
    obtain ⟨rfl, rfl⟩ := Prod.mk.inj heq
    obtain ⟨hσ₂, hhelper, hcall⟩ :=
      makeHelper_uses hN hmade hd.returnTy (entries_uses hd.params) hd.rhs hσ₁
    exact ⟨hσ₂, List.forall_mem_singleton.mpr hhelper, hd.name, hd.params, hd.returnTy, hcall⟩
  · obtain ⟨heq, rfl⟩ := Naming.pure_eq.mp h
    obtain ⟨rfl, rfl⟩ := Prod.mk.inj heq
    exact ⟨hσ₁, hhelpers, hd.name, hd.params, hd.returnTy, hrhs'⟩

/-- Several functions, one after the other. -/
theorem splitAll_uses (hN : Supplies functions N) {decls : List (FuncDecl × Nat)}
    {mains : List FuncDecl} (h : splitAll decls σ = .ok (helpers, mains) σ')
    (hdecls : ∀ p ∈ decls, p.1.Uses N T) (hσ : σ.env.Registers functions) :
    σ'.env.Registers functions ∧ (∀ h ∈ helpers, h.decl.Uses N T) ∧ ∀ main ∈ mains,
      main.Uses N T := by
  induction decls generalizing σ helpers mains with
  | nil =>
    obtain ⟨heq, rfl⟩ := Compile.pure_ok.mp h
    obtain ⟨rfl, rfl⟩ := Prod.mk.inj heq
    exact ⟨hσ, nofun, nofun⟩
  | cons p rest ih =>
    obtain ⟨d, position⟩ := p
    simp only [splitAll, Compile.bind_ok, Compile.pure_ok] at h
    obtain ⟨⟨helpers₁, main⟩, σ₁, hsplit, ⟨helpers₂, mains'⟩, σ₂, hrest, heq, rfl⟩ := h
    obtain ⟨rfl, rfl⟩ := Prod.mk.inj heq
    obtain ⟨hd, hdecls⟩ := List.forall_mem_cons.mp hdecls
    obtain ⟨param, _, hsplitAt, _⟩ := split_ok hsplit
    obtain ⟨hσ₁, hhelpers₁, hmain⟩ := splitAt_uses hN hsplitAt hd hσ
    obtain ⟨hσ₂, hhelpers₂, hmains'⟩ := ih hrest hdecls hσ₁
    exact ⟨hσ₂, List.forall_mem_append.mpr ⟨hhelpers₁, hhelpers₂⟩,
      List.forall_mem_cons.mpr ⟨hmain, hmains'⟩⟩

/-- The main functions are inlined into every helper. -/
theorem inlineAll_uses (hN : Supplies functions N) {mains inlined : List FuncDecl}
    (h : Compile.MapRun (fun h : Helper => inlineDecl mains h.decl) helpers σ inlined σ')
    (hmains : ∀ main ∈ mains, main.Uses N T) (hhelpers : ∀ h ∈ helpers, h.decl.Uses N T)
    (hσ : σ.env.Registers functions) : ∀ d ∈ inlined, d.Uses N T := by
  induction h with
  | nil => nofun
  | cons hfirst _ ih =>
    obtain ⟨hhelper, hhelpers⟩ := List.forall_mem_cons.mp hhelpers
    obtain ⟨henv, hd⟩ := inlineDecl_uses hN hfirst hmains hhelper hσ
    exact List.forall_mem_cons.mpr ⟨hd, ih hhelpers (henv ▸ hσ)⟩

theorem decl_of_isBody {pairs : List (Helper × FuncDecl)} {bodies : List FixpointBody}
    (h : List.Forall₂ (fun p b => IsBody p.1 p.2 b) pairs bodies) {b : FixpointBody}
    (hb : b ∈ bodies) : ∃ p ∈ pairs, b.decl = p.2 := by
  obtain ⟨p, hp, hbody⟩ := h.exists_left hb
  exact ⟨p, hp, hbody.decl⟩

end Split

namespace Sentence

theorem funcDeclsOfAll_definitions (decls : List FuncDecl) :
    funcDeclsOfAll (decls.map definition) = decls := by
  induction decls with
  | nil => rfl
  | cons d rest ih => exact congrArg (d :: ·) ih

theorem funcDeclsOfAll_append (xs ys : List Sentence) :
    funcDeclsOfAll (xs ++ ys) = funcDeclsOfAll xs ++ funcDeclsOfAll ys := by
  induction xs with
  | nil => rfl
  | cons x rest ih =>
    change x.funcDecls ++ funcDeclsOfAll (rest ++ ys) =
      x.funcDecls ++ funcDeclsOfAll rest ++ funcDeclsOfAll ys
    rw [ih, List.append_assoc]

end Sentence

namespace Split

variable {N T : Name → Prop} {functions : List Name} {σ σ' : Session}

theorem registers_markDecreasing {env : Environment} (h : env.Registers functions)
    (bodies : List FixpointBody) (mains : List FuncDecl) :
    (markDecreasing bodies mains env).Registers functions := by
  have hvalues : (markDecreasing bodies mains env).values = env.values := by
    unfold markDecreasing
    refine (Environment.part_foldl Environment.values ?_ mains _).trans
      (Environment.part_foldl Environment.values ?_ bodies env)
    · exact fun _ _ => rfl
    · exact fun _ _ => rfl
  unfold Environment.Registers
  rw [hvalues]
  exact h

/-- **The fixpoint and the main functions of a group** are made of the variables of the group. -/
theorem toSentences_uses (hN : Supplies functions N) {sentences : List Sentence}
    (h : toSentences decls positions σ = .ok sentences σ') (hdecls : ∀ d ∈ decls, d.Uses N T)
    (hσ : σ.env.Registers functions) :
    σ'.env.Registers functions ∧ ∀ d ∈ Sentence.funcDeclsOfAll sentences, d.Uses N T := by
  obtain @⟨helpers, mains, inlined, bodies, σ₁, σ₂, hsplit, hinline, hbodies⟩ := toSentences_ok.mp h
  have hdecls' : ∀ p ∈ decls.zip positions, p.1.Uses N T :=
    fun p hp => hdecls p.1 (List.of_mem_zip hp).1
  obtain ⟨hσ₁, hhelpers, hmains⟩ := splitAll_uses hN hsplit hdecls' hσ
  have hinlined := inlineAll_uses hN (Compile.mapM_ok hinline) hmains hhelpers hσ₁
  refine ⟨registers_markDecreasing hσ₁ bodies mains,
    List.forall_mem_append.mpr ⟨List.forall_mem_map.mpr fun b hb => ?_, ?_⟩⟩
  · obtain ⟨p, hp, hdecl⟩ := decl_of_isBody hbodies hb
    exact hdecl ▸ hinlined p.2 (List.of_mem_zip hp).2
  · rw [Sentence.funcDeclsOfAll_definitions]
    exact hmains

end Split

/-! ## Hoisting -/

namespace Hoist

variable {N T : Name → Prop} {plan : Plan}
variable {d : FuncDecl}

/-- An argument made of such variables. -/
def ArgUses (N T : Name → Prop) : Arg → Prop
  | .type ty => ∀ t ∈ ty.varOccs, T t
  | .value e => e.Uses N T

theorem uses_applyArgs_iff {args : List Arg} :
    (fn.applyArgs args).Uses N T ↔ fn.Uses N T ∧ ∀ arg ∈ args, ArgUses N T arg := by
  induction args generalizing fn with
  | nil => exact ⟨fun h => ⟨h, nofun⟩, fun h => h.1⟩
  | cons arg rest ih =>
    have hstep : (fn.applyArg arg).Uses N T ↔ fn.Uses N T ∧ ArgUses N T arg := by
      cases arg with
      | type ty => exact and_iff_right Expr.annotationUses_none
      | value e => exact and_iff_right Expr.annotationUses_none
    rw [List.forall_mem_cons, ← and_assoc, ← hstep]
    exact ih

theorem ty_applyArgs (h : fn.note.ty = none) (args : List Arg) :
    (fn.applyArgs args).note.ty = none := by
  induction args generalizing fn with
  | nil => exact h
  | cons arg rest ih =>
    refine ih ?_
    cases arg with
    | type ty => rfl
    | value e => rfl

/-- Arguments are put back with their notes. -/
theorem uses_reapply {head : Expr} {args : List (Note × Arg)} (hhead : head.Uses N T)
    (hargs : ∀ arg ∈ args, AnnotationUses T arg.1.ty ∧ ArgUses N T arg.2) :
    (Plan.reapply head args).Uses N T := by
  induction args generalizing head with
  | nil => exact hhead
  | cons arg rest ih =>
    rw [List.forall_mem_cons] at hargs
    refine ih ?_ hargs.2
    obtain ⟨note, arg⟩ := arg
    cases arg with
    | type ty => exact ⟨hargs.1.1, hhead, hargs.1.2⟩
    | value e => exact ⟨hargs.1.1, hhead, hargs.1.2⟩

mutual

/-- **Redirection** puts in inner functions and drops arguments. -/
theorem redirectOnto_uses (hinner : ∀ n inner, plan.innerNames.get? n = some inner → N inner) :
    (e : Expr) → {bound : List Name} → {args : List (Note × Arg)} → e.Uses N T →
      (∀ arg ∈ args, AnnotationUses T arg.1.ty ∧ ArgUses N T arg.2) →
        (plan.redirectOnto bound e args).Uses N T
  | .var note n, bound, args, he, hargs => by
    rw [Plan.redirectOnto]
    cases hget : plan.inner? bound n with
    | none => exact uses_reapply he hargs
    -- the call of a function goes to its inner function, with some arguments left out
    | some inner =>
      have hname : N inner := by
        unfold Plan.inner? at hget
        split at hget
        · cases hget
        · exact hinner n inner hget
      -- the new call has the type of the whole application
      have houtermost : AnnotationUses T ((args.getLast?.map Prod.fst).getD note).ty := by
        cases hlast : args.getLast? with
        | none => exact he.1
        | some last => exact (hargs last (List.mem_of_getLast? hlast)).1
      refine Expr.uses_withNote
        (uses_applyArgs_iff.mpr ⟨⟨Expr.annotationUses_none, hname⟩, fun arg harg => ?_⟩) houtermost
      obtain ⟨entry, hentry, rfl⟩ := List.mem_map.mp (mem_of_mem_keptArgs harg)
      exact (hargs entry hentry).2
  | .con .., _, _, he, hargs | .intLit .., _, _, he, hargs | .undefined _, _, _, he, hargs
  | .error .., _, _, he, hargs => by
    rw [Plan.redirectOnto]
    · exact uses_reapply he hargs
    all_goals nofun
  | .app note fn arg, _, _, he, hargs => by
    rw [Plan.redirectOnto]
    refine redirectOnto_uses hinner fn he.2.1 (List.forall_mem_cons.mpr ⟨⟨he.1, ?_⟩, hargs⟩)
    exact redirectOnto_uses hinner arg he.2.2 (by nofun)
  | .typeApp note fn ty, _, _, he, hargs => by
    rw [Plan.redirectOnto]
    exact redirectOnto_uses hinner fn he.2.1 (List.forall_mem_cons.mpr ⟨⟨he.1, he.2.2⟩, hargs⟩)
  | .cond _ test thenBranch elseBranch, _, _, he, hargs => by
    rw [Plan.redirectOnto]
    exact uses_reapply ⟨he.1, redirectOnto_uses hinner test he.2.1 (by nofun),
      redirectOnto_uses hinner thenBranch he.2.2.1 (by nofun),
        redirectOnto_uses hinner elseBranch he.2.2.2 (by nofun)⟩ hargs
  | .case _ scrutinee alts, _, _, he, hargs => by
    rw [Plan.redirectOnto]
    exact uses_reapply
      ⟨he.1, redirectOnto_uses hinner scrutinee he.2.1 (by nofun),
        redirectAlts_uses hinner alts he.2.2⟩ hargs
  | .lam _ params body, _, _, he, hargs => by
    rw [Plan.redirectOnto]
    exact uses_reapply ⟨he.1, he.2.1, redirectOnto_uses hinner body he.2.2 (by nofun)⟩ hargs
  | .letRec _ binds body, _, _, he, hargs => by
    rw [Plan.redirectOnto]
    exact uses_reapply
      ⟨he.1, (binders_redirectBinds plan _ binds).symm ▸ he.2.1,
        redirectBinds_uses hinner binds he.2.2.1,
      redirectOnto_uses hinner body he.2.2.2 (by nofun)⟩ hargs

/-- The alternatives of a `case`. -/
theorem redirectAlts_uses (hinner : ∀ n inner, plan.innerNames.get? n = some inner → N inner) :
    (alts : Alts) → {bound : List Name} → Expr.UsesAlts N T alts →
      Expr.UsesAlts N T (plan.redirectAlts bound alts)
  | [], _, _ => by
    rw [Plan.redirectAlts]
    trivial
  | (pattern, rhs) :: rest, _, halts => by
    rw [Plan.redirectAlts]
    exact ⟨halts.1, redirectOnto_uses hinner rhs halts.2.1 (by nofun),
      redirectAlts_uses hinner rest halts.2.2⟩

theorem redirectBinds_uses (hinner : ∀ n inner, plan.innerNames.get? n = some inner → N inner) :
    (binds : Binds) → {bound : List Name} → Expr.UsesRhss N T binds →
      Expr.UsesRhss N T (plan.redirectBinds bound binds)
  | [], _, _ => by
    rw [Plan.redirectBinds]
    trivial
  | (b, rhs) :: rest, _, hbinds => by
    rw [Plan.redirectBinds]
    exact ⟨redirectOnto_uses hinner rhs hbinds.1 (by nofun),
      redirectBinds_uses hinner rest hbinds.2⟩

end

/-- **The inner function of a function**: the type parameters that it loses are type variables of
the section. -/
theorem reduce_uses (hinner : ∀ n inner, plan.innerNames.get? n = some inner → N inner)
    (hd : d.Uses N T) : (plan.reduce d).Uses N fun t => T t ∨ t ∈ plan.typeVars := by
  have hscope : ∀ t, d.InScopeTypes T t →
      (plan.reduce d).InScopeTypes (fun t => T t ∨ t ∈ plan.typeVars) t := by
    rintro t (hT | hparam)
    · exact .inl (.inl hT)
    · by_cases hshared : t ∈ plan.typeVars
      · exact .inl (.inr hshared)
      · obtain ⟨p, hp, rfl⟩ := List.mem_map.mp hparam
        exact .inr (List.mem_map_of_mem (List.mem_filter.mpr ⟨hp, decide_eq_true hshared⟩))
  refine ⟨?_, fun b hb => ?_, fun t ht => hscope t (hd.returnTy t ht), ?_⟩
  · change N ((plan.innerNames.get? d.name).getD d.name)
    cases hget : plan.innerNames.get? d.name with
    | none => exact hd.name
    | some inner => exact hinner d.name inner hget
  · have hparam := hd.params b ((dropAt_sublist _ _).subset hb)
    exact ⟨hparam.name, fun t ht => hscope t (hparam.ty t ht)⟩
  · exact (redirectOnto_uses hinner d.rhs hd.rhs (by nofun)).imp (fun _ hn => hn)
      fun t _ => hscope t

/-- **The definition of a function after the section** passes on the type variables of the section,
so these have to be in scope there. -/
theorem wrapper_uses_iff (hinner : ∀ n inner, plan.innerNames.get? n = some inner → N inner)
    {w : FuncDecl} (h : plan.wrapper? d = some w) (hd : d.Uses N T) :
    w.Uses N T ↔ ∀ t ∈ plan.typeVars, d.InScopeTypes T t := by
  unfold Plan.wrapper? at h
  obtain ⟨shared, hshared, h⟩ := Option.bind_eq_some_iff.mp h
  obtain rfl := Option.some.inj h
  have hname : N ((plan.innerNames.get? d.name).getD d.name) := (reduce_uses hinner hd).name
  have hnote : ∀ args, AnnotationUses (d.InScopeTypes T)
      ((Expr.var {} ((plan.innerNames.get? d.name).getD d.name)).applyArgs args).note.ty := by
    intro args
    rw [ty_applyArgs rfl]
    exact Expr.annotationUses_none
  constructor
  · intro hw t ht
    have hargs := (uses_applyArgs_iff.mp (Expr.uses_of_withNote hw.rhs (hnote _))).2
    refine hargs (.type (.var t)) ?_ t (List.mem_singleton.mpr rfl)
    exact List.mem_append_left _
      (List.mem_append_left _ (List.mem_append_left _ (List.mem_map_of_mem ht)))
  · intro htypeVars
    refine ⟨hd.name, hd.params, hd.returnTy, Expr.uses_withNote (uses_applyArgs_iff.mpr
      ⟨⟨Expr.annotationUses_none, hname⟩, fun arg harg => ?_⟩) ?_⟩
    · -- the arguments are type variables of the section, shared parameters, other type parameters
      -- and other parameters
      simp only [List.mem_append, List.mem_map] at harg
      rcases harg with ((⟨t, ht, rfl⟩ | ⟨b, hb, rfl⟩) | ⟨p, hp, rfl⟩) | ⟨b, hb, rfl⟩
      · exact fun x hx => List.mem_singleton.mp hx ▸ htypeVars t ht
      · obtain ⟨i, _, hi⟩ := (List.forall₂_of_mapM_eq_some hshared).exists_left hb
        exact Expr.uses_toExpr (hd.params b (List.mem_of_getElem? hi))
      · exact fun x hx =>
          .inr (List.mem_singleton.mp hx ▸ List.mem_map_of_mem (List.mem_filter.mp hp).1)
      · exact Expr.uses_toExpr (hd.params b ((dropAt_sublist _ _).subset hb))
    · exact hnote _

/-! ### What stays registered -/

section registered

variable {functions : List Name} {σ σ' : Session}

/-- Opening a section hides no function for good: where nothing stood before, there was no
function. -/
theorem openSection_registers {vars : List Binder} {previous : List (Name × Option ValueEntry)}
    (h : openSection vars σ = (previous, σ')) (hσ : σ.env.Registers functions) :
    σ'.env.Registers functions ∧ ∀ entry ∈ previous, entry.2 = none → entry.1 ∉ functions := by
  induction vars generalizing σ previous with
  | nil =>
    obtain ⟨rfl, rfl⟩ := Naming.pure_eq.mp h
    exact ⟨hσ, nofun⟩
  | cons b rest ih =>
    simp only [openSection, Naming.bind_eq, Naming.pure_eq, Session.getEnv_eq,
      Session.modifyEnv_eq] at h
    obtain ⟨_, _, ⟨rfl, rfl⟩, _, _, rfl, later, σ₂, hrest, rfl, rfl⟩ := h
    obtain ⟨hσ', hlater⟩ := ih hrest (hσ.addValue _)
    refine ⟨hσ', List.forall_mem_cons.mpr ⟨fun hnone hmem => ?_, hlater⟩⟩
    have hregistered : (σ.env.values.get? b.name).isSome = true := hσ b.name hmem
    rw [show σ.env.values.get? b.name = none from hnone] at hregistered
    cases hregistered

/-- Registering more leaves what is registered. -/
theorem registerInner_registers {inner : FuncDecl} {u : Unit}
    (h : registerInner positions d inner σ = .ok u σ') (hσ : σ.env.Registers functions) :
    σ'.env.Registers functions := by
  simp only [registerInner, Compile.bind_ok, Compile.lift_ok, Session.modifyEnv_eq,
    Session.getEnv_eq] at h
  obtain ⟨_, σ₁, rfl, _, _, ⟨rfl, rfl⟩, h⟩ := h
  generalize innerPragma _ positions d = result at h
  rcases result with diagnostic | pragma
  · exact absurd h Compile.throw_ok
  · cases pragma with
    | none =>
      obtain ⟨_, rfl⟩ := Compile.pure_ok.mp h
      exact hσ.addValue _
    | some pragma =>
      simp only [Compile.lift_ok, Session.modifyEnv_eq] at h
      subst h
      exact hσ.addValue _

theorem registerAll_registers {pairs : List (FuncDecl × FuncDecl)} {u : Unit}
    (h : (pairs.forM fun (d, inner) => registerInner positions d inner) σ = .ok u σ')
    (hσ : σ.env.Registers functions) : σ'.env.Registers functions := by
  induction pairs generalizing σ with
  | nil =>
    obtain ⟨_, rfl⟩ := Compile.pure_ok.mp h
    exact hσ
  | cons p rest ih =>
    change (registerInner positions p.1 p.2 >>= fun _ => rest.forM _) σ = .ok u σ' at h
    obtain ⟨_, σ₁, hfirst, hrest⟩ := Compile.bind_ok.mp h
    exact ih hrest (registerInner_registers hfirst hσ)

theorem registers_closeOver {env : Environment} (h : env.Registers functions) (typeVars : List Name)
    (vars : List Binder) (function : Name) :
    (closeOver typeVars vars function env).Registers functions := by
  unfold closeOver
  simp only
  split
  · exact h.updateFunc function _
  · exact h.updateFunc function _

/-- Closing a section brings back what its variables have hidden. -/
theorem registers_closeSection {env : Environment} (h : env.Registers functions)
    {previous : List (Name × Option ValueEntry)}
    (hprevious : ∀ entry ∈ previous, entry.2 = none → entry.1 ∉ functions) (decls : List FuncDecl) :
    (plan.closeSection previous decls env).Registers functions := by
  refine .foldl (fun env d _ henv => registers_closeOver henv _ _ d.name)
    (.foldl (fun env entry hentry henv => ?_) h)
  exact henv.unshadow (hprevious entry hentry)

end registered

/-- The inner functions have names that the session supplies. -/
theorem freshInnerNames_supplied {functions : List Name} {σ σ' : Session}
    (hN : Supplies functions N) {entries : List (Name × Name)}
    (h : freshInnerNames decls σ = (entries, σ')) (hσ : σ.env.Registers functions) :
    ∀ entry ∈ entries, N entry.2 := by
  induction decls generalizing σ entries with
  | nil =>
    obtain ⟨rfl, rfl⟩ := Naming.pure_eq.mp h
    nofun
  | cons d rest ih =>
    simp only [freshInnerNames, Naming.bind_eq, Naming.pure_eq] at h
    obtain ⟨inner, σ₁, hfresh, later, σ₂, hrest, rfl, rfl⟩ := h
    exact List.forall_mem_cons.mpr ⟨hN hfresh hσ, ih hrest ((freshName_spec hfresh).1 ▸ hσ)⟩

/-- **The section and the definitions of a group** are made of the variables of the group and of
generated names. -/
theorem toSentences_uses {functions : List Name} {σ σ' : Session} (hN : Supplies functions N)
    {decls : List FuncDecl} {positions : List Nat} {sentences : List Sentence}
    (h : toSentences decls positions σ = .ok sentences σ')
    (hdecls : ∀ d ∈ decls, d.Uses N fun _ => True) (hσ : σ.env.Registers functions) :
    σ'.env.Registers functions ∧ ∀ d ∈ Sentence.funcDeclsOfAll sentences,
      d.Uses N fun _ => True := by
  obtain @⟨plan, entries, first, name, previous, chosen, inner, wrappers, σ₁, σ₂, σ₃, σ₄, σ₅, _, _,
    _, hnames, _, hfresh, _, hname, hopen, hregister, _, hsplit, hwrappers⟩ := toSentences_ok.mp h
  have hinner : ∀ n inner, plan.innerNames.get? n = some inner → N inner := by
    intro n inner hget
    rw [hnames] at hget
    exact freshInnerNames_supplied hN hfresh hσ _ (Table.mem_of_get?_ofList hget)
  have hσ₂ : σ₂.env.Registers functions := by
    rwa [(freshName_spec hname).1, (freshInnerNames_spec hfresh).1]
  obtain ⟨hσ₃, hprevious⟩ := openSection_registers hopen hσ₂
  have hreduced : ∀ d ∈ decls.map plan.reduce, d.Uses N fun _ => True :=
    List.forall_mem_map.mpr fun d hd => (reduce_uses hinner (hdecls d hd)).imp fun _ _ => trivial
  obtain ⟨hσ₅, hsentences⟩ :=
    Split.toSentences_uses hN hsplit hreduced (registerAll_registers hregister hσ₃)
  refine ⟨registers_closeSection hσ₅ hprevious _, List.forall_mem_append.mpr ⟨hsentences, ?_⟩⟩
  rw [Sentence.funcDeclsOfAll_definitions]
  intro w hw
  obtain ⟨d, hd, hwrapper⟩ := (List.forall₂_of_mapM_eq_some hwrappers).exists_left hw
  exact (wrapper_uses_iff hinner hwrapper (hdecls d hd)).mpr fun _ _ => .inl trivial

end Hoist

/-- **What a recursive group becomes** is made of the variables of the group and of generated
names. -/
theorem groupToSentences_uses {N : Name → Prop} {functions : List Name} (hN : Supplies functions N)
    {sentences : List Sentence} {σ σ' : Session} (h : groupToSentences decls σ = .ok sentences σ')
    (hdecls : ∀ d ∈ decls, d.Uses N fun _ => True) (hσ : σ.env.Registers functions) :
    σ'.env.Registers functions ∧ ∀ d ∈ Sentence.funcDeclsOfAll sentences,
      d.Uses N fun _ => True := by
  cases groupToSentences_ok.mp h with
  | split _ _ hrun => exact Split.toSentences_uses hN hrun hdecls hσ
  | hoist _ hrun => exact Hoist.toSentences_uses hN hrun hdecls hσ

end StructRec
