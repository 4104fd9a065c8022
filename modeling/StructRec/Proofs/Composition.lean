import Mathlib.Logic.Relation
import StructRec.Proofs.AlphaEquivalence
import StructRec.Proofs.CaptureAvoidance
import StructRec.Proofs.Scopes

/-!
# StructRec — composition of substitutions

Applying the composition of two substitutions is applying the one and then the other, up to
alpha-equivalence: the two ways generate different names at different times.

A substitution is an environment to evaluate in (`Subst.inEnv`): the term of the result is the term
of the expression, where each variable stands for the term of its replacement. This holds in every
environment, which is what makes it a law about substitutions in a row. It takes that the generated
names are new, so no variable may be one that the session can still generate
(`Session.CanGenerate`). A settled name is none of these, and neither is one that is spelled like a
registered name.
-/

namespace StructRec

open Annotated (Env)

/-! ## Names that can be generated -/

namespace Session

/-- More names have been generated. -/
def Later : Session → Session → Prop :=
  Relation.ReflTransGen fun σ σ' => ∃ wanted, (freshName wanted σ).2 = σ'

/-- A name that is generated some time if names are asked for. -/
def CanGenerate (σ : Session) (n : Name) : Prop :=
  ∃ σ' wanted, σ.Later σ' ∧ (freshName wanted σ').1 = n

/-- No variable of the expression, free or bound, is one that can still be generated. -/
def Spares (σ : Session) (e : Expr) : Prop := e.Uses (fun n => ¬ σ.CanGenerate n) fun _ => True

variable {σ σ' : Session} {n wanted : Name} {e : Expr}

theorem Later.refl (σ : Session) : σ.Later σ := Relation.ReflTransGen.refl

theorem Later.trans {σ'' : Session} (h : σ.Later σ') (h' : σ'.Later σ'') : σ.Later σ'' :=
  Relation.ReflTransGen.trans h h'

theorem Later.of_freshName (h : freshName wanted σ = (n, σ')) : σ.Later σ' :=
  .single ⟨wanted, congrArg Prod.snd h⟩

/-- Later counters are higher. -/
theorem Later.counters_le (h : σ.Later σ') : σ.counters ≤ σ'.counters := by
  induction h with
  | refl => exact le_rfl
  | tail _ hstep ih =>
    obtain ⟨wanted, rfl⟩ := hstep
    exact ih.trans (freshName_spec (Prod.eta _).symm).2.1

/-- What can be generated later can be generated now. -/
theorem CanGenerate.of_later (h : σ.Later σ') (hn : σ'.CanGenerate n) : σ.CanGenerate n := by
  obtain ⟨σ'', wanted, hlater, heq⟩ := hn
  exact ⟨σ'', wanted, h.trans hlater, heq⟩

theorem canGenerate_of_freshName (h : freshName wanted σ = (n, σ')) : σ.CanGenerate n :=
  ⟨σ, wanted, .refl σ, congrArg Prod.fst h⟩

/-- Names below the counters are not generated any more. -/
theorem not_canGenerate_of_settled (h : σ.counters.Settled n) : ¬ σ.CanGenerate n := by
  rintro ⟨σ', wanted, hlater, rfl⟩
  exact (freshName_spec (Prod.eta (freshName wanted σ')).symm).2.2.1 (h.mono hlater.counters_le)

/-- A name is generated only once. -/
theorem not_canGenerate_after (h : freshName wanted σ = (n, σ')) : ¬ σ'.CanGenerate n :=
  not_canGenerate_of_settled (freshName_spec h).2.2.2.1

namespace Spares

theorem mono (h : σ.Spares e) (hlater : σ.Later σ') : σ'.Spares e :=
  Expr.Uses.imp h (fun _ hn hcan => hn (hcan.of_later hlater)) fun _ _ ht => ht

theorem free (h : σ.Spares e) : ∀ n ∈ e.freeOccs, ¬ σ.CanGenerate n := ((Expr.uses_iff e).mp h).1

/-- Settled names are no more to be generated. -/
theorem of_settled (h : e.Settled σ.counters) : σ.Spares e :=
  Expr.Uses.imp h (fun _ hn => not_canGenerate_of_settled hn) fun _ _ ht => ht

theorem var (note : Note) (h : ¬ σ.CanGenerate n) : σ.Spares (.var note n) :=
  ⟨Expr.annotationUses_true _, h⟩

end Spares

/-- What is spared now is spared later. -/
theorem sparesAlts_mono {alts : Alts}
    (h : Expr.UsesAlts (fun n => ¬ σ.CanGenerate n) (fun _ => True) alts) (hlater : σ.Later σ') :
    Expr.UsesAlts (fun n => ¬ σ'.CanGenerate n) (fun _ => True) alts := by
  obtain ⟨hfree, hbound, htypes⟩ := (Expr.usesAlts_iff alts).mp h
  exact (Expr.usesAlts_iff alts).mpr ⟨fun n hn hcan => hfree n hn (hcan.of_later hlater),
    fun n hn hcan => hbound n hn (hcan.of_later hlater), htypes⟩

theorem binders_spared_iff {binders : List Binder} :
    (∀ b ∈ binders, b.Uses (fun n => ¬ σ.CanGenerate n) fun _ => True) ↔
      ∀ n ∈ binderNames binders, ¬ σ.CanGenerate n :=
  binders_uses_iff.trans (and_iff_left fun _ _ => trivial)

end Session

namespace Table

variable {α : Type}

/-- A table with other values under its keys. -/
theorem get?_withValues {t : Table α} {xs : List α} {R : α → α → Prop}
    (h : List.Forall₂ R t.values xs) (k : Name) :
    Option.Rel R (t.get? k) ((t.withValues xs).get? k) := by
  unfold values at h
  simp only [withValues, keys, get?]
  generalize t.entries = entries at h ⊢
  induction entries generalizing xs with
  | nil => exact .none
  | cons entry rest ih =>
    obtain ⟨x', xs', hx, hrest, rfl⟩ := List.forall₂_cons_left_iff.mp h
    rw [List.map_cons, List.zip_cons_cons, List.lookup_cons, List.lookup_cons]
    cases k == entry.1 with
    | true => exact .some hx
    | false => exact ih hrest

end Table

/-- A pattern takes as many binders as it has. -/
theorem Pattern.binders_withBinders {p : Pattern} {binders : List Binder}
    (h : binders.length = p.binders.length) : (p.withBinders binders).binders = binders := by
  cases p with
  | con name vars => rfl
  | var b =>
    obtain ⟨b', rfl⟩ := List.length_eq_one_iff.mp h
    rfl
  | lit | wildcard => exact (List.length_eq_zero_iff.mp h).symm

namespace Subst

variable {s s' t : Subst} {captured occs : List Name} {binders binders' : List Binder}
  {σ σ' : Session}
variable {n : Name} {b b' : Binder}

/-- The environment in which a replaced variable stands for the term of its replacement. -/
def inEnv (s : Subst) (ρ : Env) (g : Ty → Ty) : Env := fun depth n =>
  match s.exprs.get? n with
  | some r => r.annotated ρ g depth
  | none => ρ depth n

/-- No variable of a replacement can still be generated. -/
def Spared (σ : Session) (s : Subst) : Prop := ∀ n r, s.exprs.get? n = some r → σ.Spares r

/-- A replaced variable stands for the term of its replacement. -/
theorem inEnv_of_some {r : Expr} (h : s.exprs.get? n = some r) (ρ : Env) (g : Ty → Ty)
    (depth : Nat) : s.inEnv ρ g depth n = r.annotated ρ g depth := by rw [inEnv, h]

theorem inEnv_of_none (h : s.exprs.get? n = none) (ρ : Env) (g : Ty → Ty) (depth : Nat) :
    s.inEnv ρ g depth n = ρ depth n := by rw [inEnv, h]

theorem inEnv_congr (h : s'.exprs.get? n = s.exprs.get? n) (ρ : Env) (g : Ty → Ty) (depth : Nat) :
    s'.inEnv ρ g depth n = s.inEnv ρ g depth n := by rw [inEnv, inEnv, h]

theorem Spared.mono (h : s.Spared σ) (hlater : σ.Later σ') :
    s.Spared σ' := fun n r hr => (h n r hr).mono hlater

theorem Spared.restrictTo (h : s.Spared σ) (scope : List Expr) : (s.restrictTo scope).Spared σ := by
  intro n r hr
  rw [get?_restrictTo] at hr
  split at hr
  · exact h n r hr
  · cases hr

theorem Spared.without (h : s.Spared σ) (names : List Name) : (s.without names).Spared σ := by
  intro n r hr
  rw [get?_without] at hr
  split at hr
  · cases hr
  · exact h n r hr

/-! ## Binders -/

/-- A variable goes by another name, whatever variables stand for. -/
def Leads (s : Subst) (n m : Name) : Prop := ∀ ρ g depth, s.inEnv ρ g depth n = ρ depth m

/-- What renaming the captured ones of some binders yields. -/
structure Relabels (captured : List Name) (s s' : Subst) (binders binders' : List Binder)
    (σ σ' : Session) : Prop where
  later : σ.Later σ'
  annotations : binders'.map Binder.ty = binders.map fun b => b.ty.map s.applyTy
  kept : ∀ n ∉ binderNames binders, s'.exprs.get? n = s.exprs.get? n
  names : ∀ m ∈ binderNames binders', m ∈ binderNames binders ∧ m ∉ captured ∨ σ.CanGenerate m
  spared : ∀ m ∈ binderNames binders', ¬ σ'.CanGenerate m
  /-- A bound variable stays with its binder: what it is called now is bound in the same place of
  the list. -/
  index : ∀ n ∈ binderNames binders, ∃ m, s'.Leads n m ∧
    binderIndex? m (binderNames binders') = binderIndex? n (binderNames binders)

theorem Relabels.length_eq (h : Relabels captured s s' binders binders' σ σ') :
    binders'.length = binders.length := by
  simpa using congrArg List.length h.annotations

namespace Relabels

theorem nil (captured : List Name) (s : Subst) (σ : Session) : Relabels captured s s [] [] σ σ where
  later := .refl σ
  annotations := rfl
  kept _ _ := rfl
  names := List.forall_mem_nil _
  spared := List.forall_mem_nil _
  index := List.forall_mem_nil _

/-- A binder that is not captured stays. -/
theorem cons_kept (hty : b'.ty = b.ty.map s.applyTy) (hname : b'.name = b.name)
    (hcaptured : b.name ∉ captured) (hb : ¬ σ.CanGenerate b.name)
    (hnone : s.exprs.get? b.name = none) (h : Relabels captured s s' binders binders' σ σ') :
    Relabels captured s s' (b :: binders) (b' :: binders') σ σ' where
  later := h.later
  annotations := congrArg₂ List.cons hty h.annotations
  kept n hn := h.kept n fun hmem => hn (List.mem_cons_of_mem _ hmem)
  names := by
    refine List.forall_mem_cons.mpr
      ⟨.inl ⟨hname ▸ List.mem_cons_self, hname ▸ hcaptured⟩, fun m hm => ?_⟩
    exact (h.names m hm).imp_left fun hold => ⟨List.mem_cons_of_mem _ hold.1, hold.2⟩
  spared := List.forall_mem_cons.mpr ⟨fun hcan => hb (hname ▸ hcan.of_later h.later), h.spared⟩
  index := by
    intro n hn
    -- a later binder of the same name hides this one
    by_cases hmem : n ∈ binderNames binders
    · obtain ⟨m, hleads, hindex⟩ := h.index n hmem
      exact ⟨m, hleads, binderIndex?_cons_later _ _ hmem hindex⟩
    · obtain rfl : n = b.name := (List.mem_cons.mp hn).resolve_right hmem
      have hb' : b'.name ∉ binderNames binders' := fun hmem' =>
        (h.names _ hmem').elim (fun hold => hmem (hname ▸ hold.1)) (hname ▸ hb)
      refine ⟨b'.name, fun ρ g depth => ?_,
        binderIndex?_cons_first hmem hb' (by simp [h.length_eq])⟩
      rw [hname]
      exact inEnv_of_none ((h.kept _ hmem).trans hnone) ρ g depth

/-- A captured binder gets a new name, and the substitution leads there. -/
theorem cons_renamed {σ₁ : Session} (hty : b'.ty = b.ty.map s.applyTy)
    (hfresh : freshName b.name σ = (b'.name, σ₁))
    (hbinders : ∀ n ∈ binderNames binders, ¬ σ.CanGenerate n)
    (h : Relabels captured (s.insert b.name b'.toExpr) s' binders binders' σ₁ σ') :
    Relabels captured s s' (b :: binders) (b' :: binders') σ σ' where
  later := (Session.Later.of_freshName hfresh).trans h.later
  annotations := congrArg₂ List.cons hty h.annotations
  kept n hn := by
    rw [h.kept n fun hmem => hn (List.mem_cons_of_mem _ hmem), insert, Table.get?_insert, if_neg]
    exact fun heq => hn (heq ▸ List.mem_cons_self)
  names := by
    refine List.forall_mem_cons.mpr ⟨.inr (Session.canGenerate_of_freshName hfresh), fun m hm => ?_⟩
    rcases h.names m hm with hold | hnew
    · exact .inl ⟨List.mem_cons_of_mem _ hold.1, hold.2⟩
    · exact .inr (hnew.of_later (Session.Later.of_freshName hfresh))
  spared := by
    refine List.forall_mem_cons.mpr ⟨fun hcan => ?_, h.spared⟩
    exact Session.not_canGenerate_after hfresh (hcan.of_later h.later)
  index := by
    intro n hn
    by_cases hmem : n ∈ binderNames binders
    · obtain ⟨m, hleads, hindex⟩ := h.index n hmem
      exact ⟨m, hleads, binderIndex?_cons_later _ _ hmem hindex⟩
    · obtain rfl : n = b.name := (List.mem_cons.mp hn).resolve_right hmem
      -- the new name is none of the other binders: those they keep could not be generated, and it
      -- no longer can be
      have hb' : b'.name ∉ binderNames binders' := fun hmem' => (h.names _ hmem').elim
        (fun hold => hbinders _ hold.1 (Session.canGenerate_of_freshName hfresh))
          (Session.not_canGenerate_after hfresh)
      have hget : s'.exprs.get? b.name = some b'.toExpr := by
        rw [h.kept _ hmem, insert, Table.get?_insert, if_pos rfl]
      refine ⟨b'.name, fun ρ g depth => inEnv_of_some hget ρ g depth, ?_⟩
      exact binderIndex?_cons_first hmem hb' (by simp [h.length_eq])

end Relabels

/-- **Renaming captured binders.** A name that is not captured is not replaced at the start; one
that is may be, by the name that an earlier binder of the list got. -/
theorem enterBinders_relabels (h : enterBinders captured s binders σ = ((s', binders'), σ'))
    (hbinders : ∀ n ∈ binderNames binders, ¬ σ.CanGenerate n)
    (hnone : ∀ n ∈ binderNames binders, n ∉ captured → s.exprs.get? n = none) :
    Relabels captured s s' binders binders' σ σ' := by
  replace h := enters_of_enterBinders h
  induction h with
  | nil => exact .nil captured _ _
  | @renamed s _ b _ _ fresh _ _ _ hcaptured hfresh _ ih =>
    obtain ⟨_, hrestNames⟩ := List.forall_mem_cons.mp hbinders
    refine .cons_renamed rfl hfresh hrestNames (ih (fun n hn hcan => ?_) fun n hn hfree => ?_)
    · exact hrestNames n hn (hcan.of_later (.of_freshName hfresh))
    · have hne : b.name ≠ n := fun heq => hfree (heq ▸ hcaptured)
      rw [insert, Table.get?_insert, if_neg hne]
      exact hnone n (List.mem_cons_of_mem _ hn) hfree
  | kept hcaptured _ ih =>
    obtain ⟨hb, hrestNames⟩ := List.forall_mem_cons.mp hbinders
    obtain ⟨hbNone, hrestNone⟩ := List.forall_mem_cons.mp hnone
    exact .cons_kept rfl rfl hcaptured hb (hbNone hcaptured) (ih hrestNames hrestNone)

/-- The step under binders: what variables stand for in the scope, with the substitution for the
scope inside, is what they stand for with the given one outside. -/
structure Scopes (s s' : Subst) (binders binders' : List Binder) (occs : List Name)
    (σ σ' : Session) : Prop where
  later : σ.Later σ'
  annotations : binders'.map Binder.ty = binders.map fun b => b.ty.map s.applyTy
  spared : ∀ n ∈ binderNames binders', ¬ σ'.CanGenerate n
  inner : s'.Spared σ'
  applyTy_eq : s'.applyTy = s.applyTy
  env : ∀ ρ g depth, ∀ n ∈ occs, ∀ d, s'.inEnv (ρ.bind (binderNames binders') depth) g d n
    = (s.inEnv ρ g).bind (binderNames binders) depth d n

/-- **Entering a scope.** No replacement that is needed in the scope has a free variable that the
binders bind now. -/
theorem enter_scopes {scope : List Expr} (h : s.enter binders scope σ = ((s', binders'), σ'))
    (hs : s.Spared σ) (hbinders : ∀ n ∈ binderNames binders, ¬ σ.CanGenerate n)
    (hscope : ∀ e ∈ scope, σ.Spares e) :
    s.Scopes s' binders binders' (scope.flatMap Expr.freeOccs) σ σ' := by
  have hinner : ((s.without (binderNames binders)).restrictTo scope).Spared σ :=
    (hs.without _).restrictTo scope
  have hrelabels := enterBinders_relabels h hbinders fun n hn _ => by
    rw [get?_restrictTo, get?_without, if_pos hn, ite_self]
  obtain ⟨htypes, horigin⟩ := enterBinders_origin h
  refine ⟨hrelabels.later, hrelabels.annotations, hrelabels.spared, fun n r hr => ?_, ?_,
    fun ρ g depth n hn d => ?_⟩
  · rcases horigin n r hr with hold | ⟨note, m, hm, rfl⟩
    · exact (hinner n r hold).mono hrelabels.later
    · exact .var note (hrelabels.spared m hm)
  · funext ty
    rw [applyTy, htypes]
    rfl
  · by_cases hbound : n ∈ binderNames binders
    · obtain ⟨m, hleads, hindex⟩ := hrelabels.index n hbound
      obtain ⟨i, hi⟩ := exists_binderIndex hbound
      rw [hleads, Env.bind_of_index (hindex.trans hi), Env.bind_of_index hi]
    · have hget : ((s.without (binderNames binders)).restrictTo scope).exprs.get? n =
          s.exprs.get? n := by
        rw [get?_restrictTo_of_mem _ hn, get?_without, if_neg hbound]
      rw [Env.bind_of_notMem hbound, inEnv_congr (hrelabels.kept n hbound)]
      cases hr : s.exprs.get? n with
      | some r =>
        -- the binders have names that are not captured, or that the replacement cannot have
        have hdisjoint : ∀ x ∈ r.freeOccs, x ∉ binderNames binders' := by
          intro x hx hx'
          rcases hrelabels.names x hx' with hold | hnew
          · exact hold.2 (mem_replacementVars (hget.trans hr) hx)
          · exact (hs n r hr).free x hx hnew
        rw [inEnv_of_some (hget.trans hr), inEnv_of_some hr]
        exact Expr.annotated_congr_env
          (fun x hx d => Env.bind_of_notMem (hdisjoint x hx) ρ depth d) g d
      | none =>
        have hfree : n ∉ binderNames binders' := by
          intro hn'
          obtain ⟨e, he, hocc⟩ := List.mem_flatMap.mp hn
          exact (hrelabels.names n hn').elim (fun hold => hbound hold.1) ((hscope e he).free n hocc)
        rw [inEnv_of_none (hget.trans hr), inEnv_of_none hr, Env.bind_of_notMem hfree]

namespace Scopes

theorem length_eq (h : s.Scopes s' binders binders' occs σ σ') :
    binders'.length = binders.length := by
  simpa using congrArg List.length h.annotations

/-- Annotations get the types that the substitution puts in. -/
theorem binderAnnotations_eq (h : s.Scopes s' binders binders' occs σ σ') (g : Ty → Ty) :
    binderAnnotations g binders' = binderAnnotations (g ∘ s.applyTy) binders := by
  have hmap := congrArg (List.map (Option.map g)) h.annotations
  rw [List.map_map, List.map_map] at hmap
  refine hmap.trans (List.map_congr_left fun b _ => ?_)
  exact Option.map_map ..

/-- The scope, read inside, is what it is outside. -/
theorem annotated_eq (h : s.Scopes s' binders binders' occs σ σ') {e : Expr}
    (he : ∀ n ∈ e.freeOccs, n ∈ occs) (ρ : Env) (g : Ty → Ty) (depth d : Nat) :
    e.annotated (s'.inEnv (ρ.bind (binderNames binders') depth) g) (g ∘ s'.applyTy) d
      = e.annotated ((s.inEnv ρ g).bind (binderNames binders) depth) (g ∘ s.applyTy) d := by
  rw [h.applyTy_eq]
  exact Expr.annotated_congr_env (fun n hn => h.env ρ g depth n (he n hn)) _ d

end Scopes

/-! ## The traversal -/

/-- The term of the result of a substitution is the term of the expression in another
environment. -/
structure Evaluates (s : Subst) (e e' : Expr) (σ σ' : Session) : Prop where
  later : σ.Later σ'
  annotated : ∀ ρ g depth, e'.annotated ρ g depth = e.annotated (s.inEnv ρ g) (g ∘ s.applyTy) depth
  spared : σ'.Spares e'

theorem map_applyNote (s : Subst) (note : Note) (g : Ty → Ty) :
    (s.applyNote note).ty.map g = note.ty.map (g ∘ s.applyTy) := Option.map_map ..

mutual

/-- **Substitution is evaluation in another environment**, and leaves no name that can still be
generated. -/
theorem Runs.evaluates {s : Subst} {e e' : Expr} {σ σ' : Session} (h : s.Runs e σ e' σ')
    (hs : s.Spared σ) (he : σ.Spares e) : s.Evaluates e e' σ σ' := by
  cases h with
  | @replaced _ _ n _ _ hget =>
    exact ⟨.refl σ, fun ρ g depth => (inEnv_of_some hget ρ g depth).symm, hs n e' hget⟩
  | var hget =>
    exact ⟨.refl σ, fun ρ g depth => (inEnv_of_none hget ρ g depth).symm, .var _ he.2⟩
  | con | intLit | undefined | error =>
    refine ⟨.refl σ, fun ρ g depth => ?_, Expr.annotationUses_true _⟩
    rw [Expr.annotated, Expr.annotated, map_applyNote]
  | app hfn harg =>
    obtain ⟨hlater, hfn', hspared⟩ := hfn.evaluates hs he.2.1
    obtain ⟨hlater', harg', hspared'⟩ :=
      harg.evaluates (hs.mono hlater) (Session.Spares.mono he.2.2 hlater)
    refine ⟨hlater.trans hlater', fun ρ g depth => ?_, Expr.annotationUses_true _,
      hspared.mono hlater', hspared'⟩
    rw [Expr.annotated, Expr.annotated, map_applyNote, hfn', harg']
  | typeApp hfn =>
    obtain ⟨hlater, hfn', hspared⟩ := hfn.evaluates hs he.2.1
    refine ⟨hlater, fun ρ g depth => ?_, Expr.annotationUses_true _, hspared, fun _ _ => trivial⟩
    rw [Expr.annotated, Expr.annotated, map_applyNote, hfn']
    rfl
  | cond htest hthen helse =>
    obtain ⟨hlater₁, htest', hspared₁⟩ := htest.evaluates hs he.2.1
    obtain ⟨hlater₂, hthen', hspared₂⟩ :=
      hthen.evaluates (hs.mono hlater₁) (Session.Spares.mono he.2.2.1 hlater₁)
    have hlater := hlater₁.trans hlater₂
    obtain ⟨hlater₃, helse', hspared₃⟩ :=
      helse.evaluates (hs.mono hlater) (Session.Spares.mono he.2.2.2 hlater)
    refine ⟨hlater.trans hlater₃, fun ρ g depth => ?_, Expr.annotationUses_true _,
      hspared₁.mono (hlater₂.trans hlater₃), hspared₂.mono hlater₃, hspared₃⟩
    rw [Expr.annotated, Expr.annotated, map_applyNote, htest', hthen', helse']
  | case hscrutinee halts =>
    obtain ⟨hlater, hscrutinee', hspared⟩ := hscrutinee.evaluates hs he.2.1
    obtain ⟨hlater', hshapes, halts', hspared'⟩ :=
      halts.evaluates (hs.mono hlater) (Session.sparesAlts_mono he.2.2 hlater)
    refine ⟨hlater.trans hlater', fun ρ g depth => ?_, Expr.annotationUses_true _,
      hspared.mono hlater', hspared'⟩
    rw [Expr.annotated, Expr.annotated, map_applyNote, hscrutinee', halts', hshapes]
  -- the body is evaluated where the renamed binders mean what the old ones meant
  | lam henter hbody =>
    have hscopes := enter_scopes henter hs (Session.binders_spared_iff.mp he.2.1)
      (List.forall_mem_singleton.mpr he.2.2)
    rw [List.flatMap_singleton] at hscopes
    obtain ⟨hlater, hbody', hspared⟩ :=
      hbody.evaluates hscopes.inner (Session.Spares.mono he.2.2 hscopes.later)
    refine ⟨hscopes.later.trans hlater, fun ρ g depth => ?_, Expr.annotationUses_true _,
      Session.binders_spared_iff.mpr fun n hn hcan => hscopes.spared n hn (hcan.of_later hlater),
      hspared⟩
    rw [Expr.annotated, Expr.annotated, map_applyNote, hscopes.binderAnnotations_eq, hbody',
      hscopes.annotated_eq fun _ hn => hn, hscopes.length_eq]
  -- the binders are in scope in the right-hand sides and the body, so they are entered once
  | @letRec _ _ binds binders' rhss' _ _ _ _ _ _ _ henter hrhss hbody =>
    have hrhss₀ := Expr.usesRhss_iff.mp he.2.2.1
    have hscopes := enter_scopes henter hs (Session.binders_spared_iff.mp he.2.1)
      (List.forall_mem_append.mpr ⟨hrhss₀, List.forall_mem_singleton.mpr he.2.2.2⟩)
    rw [List.flatMap_append, List.flatMap_singleton] at hscopes
    obtain ⟨hlater, hlength, hrhss', hspared⟩ := hrhss.evaluates hscopes.inner
      fun r hr => Session.Spares.mono (hrhss₀ r hr) hscopes.later
    have hlater₀ := hscopes.later.trans hlater
    obtain ⟨hlater', hbody', hspared'⟩ :=
      hbody.evaluates (hscopes.inner.mono hlater) (Session.Spares.mono he.2.2.2 hlater₀)
    have hbinders : binders'.length = binds.length := by
      rw [hscopes.length_eq, Binds.binders, List.length_map]
    have hzip : rhss'.length = binders'.length := hlength.trans hbinders.symm
    refine ⟨hlater₀.trans hlater', fun ρ g depth => ?_, Expr.annotationUses_true _, ?_, ?_,
      hspared'⟩
    · have hcount : (binders'.zip rhss').length = binds.length := by
        rw [List.length_zip, hzip, Nat.min_self, hbinders]
      -- each right-hand side in the environment of the scope
      have hterms := (hrhss' (ρ.bind (binderNames binders') depth) g (depth + binds.length)).trans
        (List.map_congr_left fun r hr => hscopes.annotated_eq
          (fun n hn => List.mem_append_left _ (List.mem_flatMap.mpr ⟨r, hr, hn⟩)) ρ g depth _)
      rw [Expr.annotated, Expr.annotated, Expr.annotatedRhss_eq, Expr.annotatedRhss_eq,
        map_applyNote, Binds.names_zip hzip, Binds.rhss_zip hzip, binders_zip hzip, hcount,
        hscopes.binderAnnotations_eq, hbody',
        hscopes.annotated_eq fun _ hn => List.mem_append_right _ hn, hterms]
      rfl
    · rw [binders_zip hzip]
      exact Session.binders_spared_iff.mpr fun n hn hcan =>
        hscopes.spared n hn (hcan.of_later (hlater.trans hlater'))
    · rw [Expr.usesRhss_iff, Binds.rhss_zip hzip]
      exact fun r hr => (hspared r hr).mono hlater'

/-- The alternatives of a `case`, each with a scope of its own. -/
theorem RunsAlts.evaluates {s : Subst} {alts alts' : Alts} {σ σ' : Session}
    (h : s.RunsAlts alts σ alts' σ') (hs : s.Spared σ)
    (he : Expr.UsesAlts (fun n => ¬ σ.CanGenerate n) (fun _ => True) alts) :
    σ.Later σ' ∧ alts'.map (·.1.shape) = alts.map (·.1.shape) ∧
      (∀ ρ g depth, Expr.annotatedAlts ρ g depth alts'
        = Expr.annotatedAlts (s.inEnv ρ g) (g ∘ s.applyTy) depth alts) ∧
      Expr.UsesAlts (fun n => ¬ σ'.CanGenerate n) (fun _ => True) alts' := by
  cases h with
  | nil => exact ⟨.refl σ, rfl, fun _ _ _ => rfl, trivial⟩
  | @cons _ pattern binders' _ _ _ _ _ _ _ _ _ henter hrhs hrest =>
    -- entering the pattern gives the scope of this right-hand side only
    have hscopes := enter_scopes henter hs (Session.binders_spared_iff.mp he.1)
      (List.forall_mem_singleton.mpr he.2.1)
    rw [List.flatMap_singleton] at hscopes
    obtain ⟨hlater, hrhs', hspared⟩ :=
      hrhs.evaluates hscopes.inner (Session.Spares.mono he.2.1 hscopes.later)
    have hlater₀ := hscopes.later.trans hlater
    obtain ⟨hlater', hshapes, hrest', hspared'⟩ :=
      hrest.evaluates (hs.mono hlater₀) (Session.sparesAlts_mono he.2.2 hlater₀)
    have hbinders := Pattern.binders_withBinders hscopes.length_eq
    refine ⟨hlater₀.trans hlater', ?_, fun ρ g depth => ?_, ?_, hspared.mono hlater', hspared'⟩
    · exact congrArg₂ List.cons (pattern.shape_withBinders binders') hshapes
    · rw [Expr.annotatedAlts, Expr.annotatedAlts, Pattern.names, hbinders,
        hscopes.binderAnnotations_eq, hrhs', hrest', hscopes.annotated_eq fun _ hn => hn,
        hscopes.length_eq]
      rfl
    · rw [hbinders]
      exact Session.binders_spared_iff.mpr fun n hn hcan =>
        hscopes.spared n hn (hcan.of_later (hlater.trans hlater'))

/-- The right-hand sides of a `let`, within the scope. -/
theorem RunsRhss.evaluates {s : Subst} {binds : Binds} {rhss' : List Expr} {σ σ' : Session}
    (h : s.RunsRhss binds σ rhss' σ') (hs : s.Spared σ) (he : ∀ r ∈ Binds.rhss binds, σ.Spares r) :
    σ.Later σ' ∧ rhss'.length = binds.length ∧
      (∀ ρ g depth, rhss'.map (·.annotated ρ g depth)
        = (Binds.rhss binds).map (·.annotated (s.inEnv ρ g) (g ∘ s.applyTy) depth)) ∧
      ∀ r ∈ rhss', σ'.Spares r := by
  cases h with
  | nil => exact ⟨.refl σ, rfl, fun _ _ _ => rfl, List.forall_mem_nil _⟩
  | cons hrhs hrest =>
    obtain ⟨hrhs₀, hrest₀⟩ := List.forall_mem_cons.mp he
    obtain ⟨hlater, hrhs', hspared⟩ := hrhs.evaluates hs hrhs₀
    obtain ⟨hlater', hlength, hrest', hspared'⟩ := hrest.evaluates (hs.mono hlater)
      fun r hr => (hrest₀ r hr).mono hlater
    exact ⟨hlater.trans hlater', congrArg (· + 1) hlength,
      fun ρ g depth => congrArg₂ List.cons (hrhs' ρ g depth) (hrest' ρ g depth),
      List.forall_mem_cons.mpr ⟨hspared.mono hlater', hspared'⟩⟩

end

/-- **Applying a substitution.** Leaving the expression alone is right where there is nothing to
replace. -/
theorem apply_evaluates {e e' : Expr} (h : s.apply e σ = (e', σ')) (hs : s.Spared σ)
    (he : σ.Spares e) : s.Evaluates e e' σ σ' := by
  have hrelevant : ∀ n ∈ e.freeOccs, (s.restrictTo [e]).exprs.get? n = s.exprs.get? n := fun n hn =>
    get?_restrictTo_of_mem s (by rwa [List.flatMap_singleton])
  simp only [apply] at h
  split at h
  · next hidle =>
    obtain ⟨rfl, rfl⟩ := Naming.pure_eq.mp h
    obtain ⟨hempty, htypes⟩ := Bool.and_eq_true_iff.mp hidle
    rw [Bool.not_eq_true', List.any_eq_false] at htypes
    -- nothing applies, so every variable and every type stands for itself
    have hvars : ∀ n ∈ e.freeOccs, s.exprs.get? n = none := by
      intro n hn
      rw [← hrelevant n hn, Table.get?, List.isEmpty_iff.mp hempty]
      rfl
    have htypes' : ∀ t ∈ e.typeVarOccs, s.types.get? t = none := by
      intro t ht
      rw [← Option.not_isSome_iff_eq_none]
      intro hsome
      refine htypes t ((Table.contains_iff_mem_keys _ _).mp hsome) (decide_eq_true ?_)
      rwa [Expr.freeTypeVars, List.mem_eraseDups]
    have huses : e.Uses (fun _ => True) (· ∈ e.typeVarOccs) :=
      (Expr.uses_iff e).mpr ⟨fun _ _ => trivial, fun _ _ => trivial, fun _ ht => ht⟩
    refine ⟨.refl σ, fun ρ g depth =>
      Expr.annotated_congr (fun ty hty => ?_) e huses (fun n hn d => ?_) depth, he⟩
    · exact congrArg g (applyTy_of_disjoint fun t ht => htypes' t (hty t ht)).symm
    · exact (inEnv_of_none (hvars n hn) ρ g d).symm
  · obtain ⟨hlater, hannotated, hspared⟩ := (runs_of_onExpr e h).evaluates (hs.restrictTo [e]) he
    refine ⟨hlater, fun ρ g depth => (hannotated ρ g depth).trans ?_, hspared⟩
    exact Expr.annotated_congr_env (fun n hn => inEnv_congr (hrelevant n hn) ρ g) _ depth

/-- Several expressions, one after the other. -/
theorem applyAll_evaluates {es es' : List Expr} (h : t.applyAll es σ = (es', σ')) (ht : t.Spared σ)
    (hes : ∀ e ∈ es, σ.Spares e) :
    σ.Later σ' ∧ List.Forall₂ (fun e e' => t.Evaluates e e' σ σ') es es' := by
  induction es generalizing es' σ with
  | nil =>
    obtain ⟨rfl, rfl⟩ := Naming.pure_eq.mp h
    exact ⟨.refl σ, .nil⟩
  | cons e rest ih =>
    simp only [applyAll, Naming.bind_eq, Naming.pure_eq] at h
    obtain ⟨e', σ₁, he, rest', σ₂, hrest, rfl, rfl⟩ := h
    obtain ⟨hfirst, hlater⟩ := List.forall_mem_cons.mp hes
    have hfirst' := apply_evaluates he ht hfirst
    obtain ⟨hlater', hrest'⟩ :=
      ih hrest (ht.mono hfirst'.later) fun r hr => (hlater r hr).mono hfirst'.later
    refine ⟨hfirst'.later.trans hlater', .cons ?_ (hrest'.imp fun _ _ hr => ?_)⟩
    · exact ⟨hfirst'.later.trans hlater', hfirst'.annotated, hfirst'.spared.mono hlater'⟩
    · exact ⟨hfirst'.later.trans hr.later, hr.annotated, hr.spared⟩

/-! ## Composition -/

variable {composed : Subst}

/-- The type part of a composition. -/
theorem applyTy_compose (h : s.compose t σ = (composed, σ')) (ty : Ty) :
    composed.applyTy ty = t.applyTy (s.applyTy ty) := by
  simp only [compose, Naming.bind_eq, Naming.pure_eq] at h
  obtain ⟨rs, σ₁, _, rfl, rfl⟩ := h
  induction ty with
  | var x =>
    have hget : ((s.types.mapValues t.applyTy).union t.types).get? x
        = ((s.types.get? x).map t.applyTy).or (t.types.get? x) := by
      rw [Table.get?_union, Table.get?_mapValues]
    refine (congrArg (Option.getD · (Ty.var x)) hget).trans ?_
    change _ = t.applyTy ((s.types.get? x).getD (.var x))
    cases s.types.get? x <;> rfl
  | con name => rfl
  | app l r ihl ihr => exact congrArg₂ Ty.app ihl ihr
  | func l r ihl ihr => exact congrArg₂ Ty.func ihl ihr

/-- The expression part of a composition: what a variable stands for with the one substitution in
the environment of the other. -/
theorem compose_inEnv (h : s.compose t σ = (composed, σ')) (hs : ∀ r ∈ s.exprs.values, σ.Spares r)
    (ht : t.Spared σ) :
    σ.Later σ' ∧ composed.Spared σ' ∧ ∀ ρ g,
      composed.inEnv ρ g = s.inEnv (t.inEnv ρ g) (g ∘ t.applyTy) := by
  simp only [compose, Naming.bind_eq, Naming.pure_eq] at h
  obtain ⟨rs, σ₁, hrs, rfl, rfl⟩ := h
  obtain ⟨hlater, hevaluates⟩ := applyAll_evaluates hrs ht hs
  -- a name is replaced by the first substitution, whose replacements the second has gone over, or
  -- by the second
  have hget : ∀ n, s.exprs.get? n = none ∧
      ((s.exprs.withValues rs).union t.exprs).get? n = t.exprs.get? n ∨
      ∃ r r', s.exprs.get? n = some r ∧ ((s.exprs.withValues rs).union t.exprs).get? n = some r' ∧
        t.Evaluates r r' σ σ₁ := by
    intro n
    have hrel := Table.get?_withValues hevaluates n
    rw [Table.get?_union]
    generalize s.exprs.get? n = old, (s.exprs.withValues rs).get? n = new at hrel
    cases hrel with
    | none => exact .inl ⟨rfl, rfl⟩
    | some hr => exact .inr ⟨_, _, rfl, rfl, hr⟩
  refine ⟨hlater, fun n r hr => ?_, fun ρ g => funext fun depth => funext fun n => ?_⟩
  · rcases hget n with ⟨_, hnew⟩ | ⟨_, r', _, hnew, hr'⟩
    · exact (ht n r (hnew.symm.trans hr)).mono hlater
    · obtain rfl := Option.some.inj (hnew.symm.trans hr)
      exact hr'.spared
  · rcases hget n with ⟨hold, hnew⟩ | ⟨r, r', hold, hnew, hr'⟩
    · rw [inEnv_of_none hold]
      exact inEnv_congr hnew ρ g depth
    · rw [inEnv_of_some hold, ← hr'.annotated]
      exact inEnv_of_some hnew ρ g depth

/-- **Substitutions compose.** Let no variable of an expression or of the replacements of two
substitutions be one that can still be generated. Then applying the composition gives what applying
the first and then the second one gives, up to alpha-equivalence, whatever names have been generated
meanwhile. On types it is the one after the other. -/
theorem apply_compose (s t : Subst) (e : Expr) (σ : Session) (hs : ∀ r ∈ s.exprs.values, σ.Spares r)
    (ht : ∀ r ∈ t.exprs.values, σ.Spares r) (he : σ.Spares e) :
    (∀ σ₁ σ₂, (s.compose t σ).2.Later σ₁ → σ.Later σ₂ →
      ((s.compose t σ).1.apply e σ₁).1.AlphaEq (t.apply (s.apply e σ₂).1 (s.apply e σ₂).2).1) ∧
    ∀ ty, (s.compose t σ).1.applyTy ty = t.applyTy (s.applyTy ty) := by
  have hcompose : s.compose t σ = ((s.compose t σ).1, (s.compose t σ).2) := rfl
  have hs' : s.Spared σ := fun _ r hr => hs r (Table.mem_values_of_get? hr)
  have ht' : t.Spared σ := fun _ r hr => ht r (Table.mem_values_of_get? hr)
  obtain ⟨hlater, hspared, hinEnv⟩ := compose_inEnv hcompose hs ht'
  refine ⟨fun σ₁ σ₂ h₁ h₂ => ?_, applyTy_compose hcompose⟩
  -- both sides are evaluated in environments, and these agree
  have hcomposed := apply_evaluates (Prod.eta ((s.compose t σ).1.apply e σ₁)).symm (hspared.mono h₁)
    (he.mono (hlater.trans h₁))
  have hfirst := apply_evaluates (Prod.eta (s.apply e σ₂)).symm (hs'.mono h₂) (he.mono h₂)
  have hsecond := apply_evaluates (Prod.eta (t.apply (s.apply e σ₂).1 (s.apply e σ₂).2)).symm
    (ht'.mono (h₂.trans hfirst.later)) hfirst.spared
  have htypes : (s.compose t σ).1.applyTy = t.applyTy ∘ s.applyTy :=
    funext (applyTy_compose hcompose)
  rw [Expr.AlphaEq, hcomposed.annotated, hsecond.annotated, hfirst.annotated, hinEnv, htypes]
  rfl

/-- `y` becomes `x`, and then `x` becomes `z y` and `a` becomes `Int`, in `\x -> \z -> y x z @a`.
Both binders make way, at different times for the composition and for the one after the other. -/
theorem crossing_compose :
    let s : Subst := { exprs := .ofList [("y", .var {} "x")] }
    let t : Subst :=
      { exprs := .ofList [("x", .app {} (.var {} "z") (.var {} "y"))],
        types := .ofList [("a", .con "Int")] }
    let e : Expr := .lam {} [{ name := "x", ty := some (.var "a") }] (.lam {} [{ name := "z" }]
      (.typeApp {} (.app {} (.app {} (.var {} "y") (.var {} "x")) (.var {} "z")) (.var "a")))
    (∀ r ∈ s.exprs.values ++ t.exprs.values ++ [e], ({} : Session).Spares r) ∧
      ((s.compose t {}).1.apply e (s.compose t {}).2).1.AlphaEq
        (t.apply (s.apply e {}).1 (s.apply e {}).2).1 ∧
      (t.apply (s.apply e {}).1 (s.apply e {}).2).1.freeOccs = ["z", "y"] := by
  intro s t e
  have hspared : ∀ r ∈ s.exprs.values ++ t.exprs.values ++ [e], ({} : Session).Spares r := by
    have hunmarked : ∀ r ∈ s.exprs.values ++ t.exprs.values ++ [e],
        ∀ n ∈ r.freeOccs ++ r.boundNames, n.isMarked = false := by decide
    exact fun r hr => .of_settled (Expr.settled_of_unmarked (hunmarked r hr))
  refine ⟨hspared, ?_, by decide⟩
  exact (apply_compose s t e {} (fun r hr => hspared r (by simp [hr]))
    (fun r hr => hspared r (by simp [hr])) (hspared e (by simp))).1 _ _ (.refl _) (.refl _)

end Subst

end StructRec
