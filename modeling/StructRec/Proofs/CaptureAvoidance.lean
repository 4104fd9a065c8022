import StructRec.Proofs.Nameless
import StructRec.Proofs.Occurrences

/-!
# StructRec — substitution does not capture

Substitution works on expressions with names and gives captured binders new ones. Without the names
of bound variables there is nothing to capture, and simultaneous substitution is plain replacement
(`Nameless.subst`). The two agree, as long as the names that are asked for on the way are new: no
variable of the expression or of a replacement may be one that can still be generated
(`Expr.Settled`).

The invariant is about one step under binders (`Subst.Opens`): a bound variable stays with its
binder, whatever its name is now, and what replaces a free one holds no name that the binders have
now.
-/

namespace StructRec

/-! ## Settled expressions -/

/-- No variable of the expression, free or bound, can still be generated. -/
def Expr.Settled (c : Counters) (e : Expr) : Prop := e.Uses c.Settled fun _ => True

namespace Expr

variable {c c' : Counters} {e : Expr}

theorem annotationUses_true (ty : Option Ty) :
    AnnotationUses (fun _ => True) ty := fun _ _ => trivial

theorem Settled.mono (h : e.Settled c) (hle : c ≤ c') : e.Settled c' :=
  Uses.imp h (fun _ hn => hn.mono hle) fun _ _ ht => ht

theorem settledAlts_mono {alts : Alts} (h : UsesAlts c.Settled (fun _ => True) alts)
    (hle : c ≤ c') : UsesAlts c'.Settled (fun _ => True) alts := by
  obtain ⟨hfree, hbound, htypes⟩ := (usesAlts_iff alts).mp h
  exact (usesAlts_iff alts).mpr
    ⟨fun n hn => (hfree n hn).mono hle, fun n hn => (hbound n hn).mono hle, htypes⟩

theorem Settled.free (h : e.Settled c) : ∀ n ∈ e.freeOccs, c.Settled n := ((uses_iff e).mp h).1

/-- Names without a mark are never generated. -/
theorem settled_of_unmarked (h : ∀ n ∈ e.freeOccs ++ e.boundNames, n.isMarked = false) :
    e.Settled c := by
  obtain ⟨hfree, hbound⟩ := List.forall_mem_append.mp h
  exact (uses_iff e).mpr ⟨fun n hn => Counters.settled_of_unmarked (hfree n hn),
    fun n hn => Counters.settled_of_unmarked (hbound n hn), fun _ _ => trivial⟩

theorem settled_var (note : Note) {n : Name} (h : c.Settled n) : (var note n).Settled c :=
  ⟨annotationUses_true _, h⟩

theorem binders_settled_iff {binders : List Binder} :
    (∀ b ∈ binders, b.Uses c.Settled fun _ => True) ↔ ∀ n ∈ binderNames binders, c.Settled n :=
  binders_uses_iff.trans (and_iff_left fun _ _ => trivial)

mutual

/-- Type arguments are made of the type variables of the expression. -/
theorem Uses.typeArgs {N T : Name → Prop} :
    (e : Expr) → e.Uses N T → ∀ ty ∈ e.nameless.typeArgs, ∀ t ∈ ty.varOccs, T t
  | var .., _ | con .., _ | intLit .., _ | undefined _, _ | error .., _ => List.forall_mem_nil _
  | app _ fn arg, h => by
    simp only [nameless, Nameless.typeArgs_node, List.flatMap_cons, List.flatMap_nil,
      List.append_nil, List.forall_mem_append]
    exact ⟨Uses.typeArgs fn h.2.1, Uses.typeArgs arg h.2.2⟩
  | typeApp _ fn ty, h => by
    rw [nameless, Nameless.typeArgs, List.forall_mem_append, List.forall_mem_singleton]
    exact ⟨Uses.typeArgs fn h.2.1, h.2.2⟩
  | cond _ test thenBranch elseBranch, h => by
    simp only [nameless, Nameless.typeArgs_node, List.flatMap_cons, List.flatMap_nil,
      List.append_nil, List.forall_mem_append]
    exact ⟨Uses.typeArgs test h.2.1, Uses.typeArgs thenBranch h.2.2.1,
      Uses.typeArgs elseBranch h.2.2.2⟩
  | case _ scrutinee alts, h => by
    simp only [nameless, Nameless.typeArgs_node, List.flatMap_cons, List.forall_mem_append]
    exact ⟨Uses.typeArgs scrutinee h.2.1, UsesAlts.typeArgs alts h.2.2⟩
  -- capturing variables changes no type argument
  | lam _ params body, h => by
    simp only [nameless, Nameless.typeArgs_node, List.flatMap_cons, List.flatMap_nil,
      List.append_nil, Nameless.under, Nameless.typeArgs_capture]
    exact Uses.typeArgs body h.2.2
  | letRec _ binds body, h => by
    simp only [nameless, Nameless.typeArgs_node, List.flatMap_append, List.flatMap_cons,
      List.flatMap_nil,
      List.append_nil, Nameless.under, Nameless.typeArgs_capture, List.forall_mem_append]
    exact ⟨UsesRhss.typeArgs _ binds h.2.2.1, Uses.typeArgs body h.2.2.2⟩

/-- The alternatives of a `case`. -/
theorem UsesAlts.typeArgs {N T : Name → Prop} : (alts : Alts) → UsesAlts N T alts →
    ∀ ty ∈ (namelessAlts alts).flatMap (·.2.typeArgs), ∀ t ∈ ty.varOccs, T t
  | [], _ => List.forall_mem_nil _
  | (_, rhs) :: rest, h => by
    simp only [namelessAlts, List.flatMap_cons, Nameless.under, Nameless.typeArgs_capture,
      List.forall_mem_append]
    exact ⟨Uses.typeArgs rhs h.2.1, UsesAlts.typeArgs rest h.2.2⟩

theorem UsesRhss.typeArgs {N T : Name → Prop} (names : List Name) :
    (binds : Binds) → UsesRhss N T binds →
      ∀ ty ∈ (namelessRhss names binds).flatMap (·.2.typeArgs), ∀ t ∈ ty.varOccs, T t
  | [], _ => List.forall_mem_nil _
  | (_, rhs) :: rest, h => by
    simp only [namelessRhss, List.flatMap_cons, Nameless.under, Nameless.typeArgs_capture,
      List.forall_mem_append]
    exact ⟨Uses.typeArgs rhs h.1, UsesRhss.typeArgs names rest h.2⟩

end

end Expr

theorem Pattern.shape_withBinders (p : Pattern) (binders : List Binder) :
    (p.withBinders binders).shape = p.shape := by
  cases p with
  | var b => cases binders <;> rfl
  | _ => rfl

namespace Subst

variable {c c' : Counters} {s s' : Subst} {captured occs : List Name}
  {binders binders' : List Binder} {σ σ' : Session}
variable {n : Name}

/-- What a variable becomes. -/
def image (s : Subst) (n : Name) : Nameless := ((s.exprs.get? n).map Expr.nameless).getD (.free n)

/-- No variable of a replacement can still be generated. -/
def Settled (c : Counters) (s : Subst) : Prop := ∀ n r, s.exprs.get? n = some r → r.Settled c

theorem image_of_none (h : s.exprs.get? n = none) : s.image n = .free n := by rw [image, h]; rfl

theorem image_of_some {r : Expr} (h : s.exprs.get? n = some r) :
    s.image n = r.nameless := by rw [image, h]; rfl

theorem image_congr (h : s'.exprs.get? n = s.exprs.get? n) :
    s'.image n = s.image n := by rw [image, h]; rfl

theorem get?_single (x : Name) (e : Expr) (n : Name) :
    (single x e).exprs.get? n = if x = n then some e else none :=
  Table.get?_insert _ _ _ _

/-- One variable becomes a term, the others stay. -/
theorem image_single (x : Name) (e : Expr) (n : Name) :
    (single x e).image n = if x = n then e.nameless else .free n := by
  rw [image, get?_single]
  split <;> rfl

theorem Settled.single {x : Name} {e : Expr} (he : e.Settled c) : (single x e).Settled c := by
  intro n r hr
  rw [get?_single] at hr
  split at hr
  · cases hr
    exact he
  · cases hr

theorem Settled.mono (h : s.Settled c) (hle : c ≤ c') :
    s.Settled c' := fun n r hr => (h n r hr).mono hle

theorem Settled.restrictTo (h : s.Settled c) (scope : List Expr) :
    (s.restrictTo scope).Settled c := by
  intro n r hr
  rw [get?_restrictTo] at hr
  split at hr
  · exact h n r hr
  · cases hr

theorem Settled.without (h : s.Settled c) (names : List Name) : (s.without names).Settled c := by
  intro n r hr
  rw [get?_without] at hr
  split at hr
  · cases hr
  · exact h n r hr

/-! ## Binders -/

/-- Renaming binders does not touch the type part, and adds only variables that the new binders
bind. -/
theorem enterBinders_origin (h : enterBinders captured s binders σ = ((s', binders'), σ')) :
    s'.types = s.types ∧ ∀ n r, s'.exprs.get? n = some r →
      s.exprs.get? n = some r ∨ ∃ note, ∃ m ∈ binderNames binders', r = .var note m := by
  replace h := enters_of_enterBinders h
  have hlater : ∀ {b : Binder} {rest : List Binder} {r : Expr},
      (∃ note, ∃ m ∈ binderNames rest, r = .var note m) →
        ∃ note, ∃ m ∈ binderNames (b :: rest), r = .var note m := by
    rintro b rest r ⟨note, m, hm, rfl⟩
    exact ⟨note, m, List.mem_cons_of_mem _ hm, rfl⟩
  induction h with
  | nil => exact ⟨rfl, fun n r hr => .inl hr⟩
  | @renamed _ _ _ _ _ fresh _ _ _ _ _ _ ih =>
    refine ⟨ih.1, fun n r hr => ?_⟩
    rcases ih.2 n r hr with hold | hnew
    · -- the entry is the one for this binder, or was there before
      rw [insert, Table.get?_insert] at hold
      split at hold
      · cases hold
        exact .inr ⟨_, fresh, List.mem_cons_self, rfl⟩
      · exact .inl hold
    · exact .inr (hlater hnew)
  | kept _ _ ih => exact ⟨ih.1, fun n r hr => (ih.2 n r hr).imp_right hlater⟩

/-- A bound variable stays with its binder: what it is called now is bound in the same place of the
list. -/
theorem enterBinders_index (h : enterBinders captured s binders σ = ((s', binders'), σ'))
    (hsettled : ∀ n ∈ binderNames binders, σ.counters.Settled n)
    (hnone : ∀ n ∈ binderNames binders, n ∉ captured → s.exprs.get? n = none) :
    ∀ n ∈ binderNames binders, ∃ m, s'.image n = .free m ∧
      binderIndex? m (binderNames binders') = binderIndex? n (binderNames binders) := by
  replace h := enters_of_enterBinders h
  induction h with
  | nil => exact List.forall_mem_nil _
  | @renamed s s' b rest rest' fresh σ σ₁ σ' hcaptured hfresh hrest ih =>
    obtain ⟨hb, hsettledRest⟩ := List.forall_mem_cons.mp hsettled
    obtain ⟨_, hgrows, hnew, hsettled', _⟩ := freshName_spec hfresh
    have hsettledRest' := fun n hn => (hsettledRest n hn).mono hgrows
    have hentered := hrest.entered hsettledRest'
    intro n hn
    by_cases hmem : n ∈ binderNames rest
    · obtain ⟨m, himage, hindex⟩ := ih hsettledRest' (fun n hn hfree => by
        have hne : b.name ≠ n := fun heq => hfree (heq ▸ hcaptured)
        rw [insert, Table.get?_insert, if_neg hne]
        exact hnone n (List.mem_cons_of_mem _ hn) hfree) n hmem
      exact ⟨m, himage, binderIndex?_cons_later _ _ hmem hindex⟩
    · -- the new name is not that of a later binder
      obtain rfl : n = b.name := (List.mem_cons.mp hn).resolve_right hmem
      have hfresh' : fresh ∉ binderNames rest' := fun hmem' =>
        (hentered.names _ hmem').elim (fun hold => hnew (hsettledRest _ hold.1)) fun hnew' =>
          hnew' hsettled'
      have hget := hentered.kept b.name (.inl hmem)
      rw [insert, Table.get?_insert, if_pos rfl] at hget
      exact ⟨fresh, image_of_some hget,
        binderIndex?_cons_first hmem hfresh' (by simp [hentered.length_eq])⟩
  | @kept s s' b rest rest' σ σ' hcaptured hrest ih =>
    obtain ⟨hb, hsettledRest⟩ := List.forall_mem_cons.mp hsettled
    have hentered := hrest.entered hsettledRest
    intro n hn
    by_cases hmem : n ∈ binderNames rest
    · obtain ⟨m, himage, hindex⟩ :=
        ih hsettledRest (fun n hn => hnone n (List.mem_cons_of_mem _ hn)) n hmem
      exact ⟨m, himage, binderIndex?_cons_later _ _ hmem hindex⟩
    · obtain rfl : n = b.name := (List.mem_cons.mp hn).resolve_right hmem
      have hb' : b.name ∉ binderNames rest' := fun hmem' =>
        (hentered.names _ hmem').elim (fun hold => hmem hold.1) fun hnew => hnew hb
      refine ⟨b.name, image_of_none ?_,
        binderIndex?_cons_first hmem hb' (by simp [hentered.length_eq])⟩
      rw [hentered.kept b.name (.inl hmem)]
      exact hnone b.name hn hcaptured

/-- The step under binders: the substitution for their scope does inside what the given one does
outside. -/
structure Opens (s s' : Subst) (names names' occs : List Name) (c c' : Counters) : Prop where
  grows : c ≤ c'
  length_eq : names'.length = names.length
  settled : ∀ n ∈ names', c'.Settled n
  inner : s'.Settled c'
  applyTy_eq : s'.applyTy = s.applyTy
  capture_image : ∀ n ∈ occs, ∀ depth,
    (s'.image n).capture names' depth = (Nameless.captureVar names depth n).subst s.image s.applyTy

/-- **Renaming captured binders.** No replacement holds the name of a binder afterwards, if the
captured names are those of the replacements. -/
theorem enterBinders_opens (h : enterBinders captured s binders σ = ((s', binders'), σ'))
    (hs : s.Settled σ.counters) (hbinders : ∀ n ∈ binderNames binders, σ.counters.Settled n)
    (hoccs : ∀ n ∈ occs, σ.counters.Settled n)
    (hnone : ∀ n ∈ binderNames binders, s.exprs.get? n = none)
    (hcaptured : ∀ n r, s.exprs.get? n = some r → r.freeOccs ⊆ captured) :
    s.Opens s' (binderNames binders) (binderNames binders') occs σ.counters σ'.counters := by
  have hentered := (enters_of_enterBinders h).entered hbinders
  obtain ⟨htypes, horigin⟩ := enterBinders_origin h
  refine ⟨hentered.grows, ?_, hentered.settled, fun n r hr => ?_, ?_, fun n hn depth => ?_⟩
  · rw [length_binderNames, length_binderNames, hentered.length_eq]
  · rcases horigin n r hr with hold | ⟨note, m, hm, rfl⟩
    · exact (hs n r hold).mono hentered.grows
    · exact Expr.settled_var note (hentered.settled m hm)
  · funext ty
    rw [applyTy, applyTy, htypes]
  · by_cases hbound : n ∈ binderNames binders
    · obtain ⟨m, himage, hindex⟩ :=
        enterBinders_index h hbinders (fun n hn _ => hnone n hn) n hbound
      obtain ⟨i, hi⟩ := exists_binderIndex hbound
      rw [himage, Nameless.captureVar_of_index hi]
      exact Nameless.captureVar_of_index (hindex.trans hi) depth
    · -- what a free variable becomes holds no name of a binder: such a name would have been
      -- captured, or is new
      rw [image_congr (hentered.kept n (.inl hbound)), Nameless.captureVar_of_notMem hbound]
      refine Nameless.capture_of_disjoint (fun x hx hx' => ?_) depth
      cases hr : s.exprs.get? n with
      | some r =>
        rw [image_of_some hr, Expr.freeNames_nameless] at hx
        exact (hentered.names x hx').elim (fun hold => hold.2 (hcaptured n r hr hx)) fun hnew =>
          hnew ((hs n r hr).free x hx)
      | none =>
        rw [image_of_none hr] at hx
        obtain rfl := List.mem_singleton.mp hx
        exact (hentered.names x hx').elim (fun hold => hbound hold.1) fun hnew => hnew (hoccs x hn)

/-- **Entering a scope.** -/
theorem enter_opens {scope : List Expr} (h : s.enter binders scope σ = ((s', binders'), σ'))
    (hs : s.Settled σ.counters) (hbinders : ∀ n ∈ binderNames binders, σ.counters.Settled n)
    (hscope : ∀ n ∈ scope.flatMap Expr.freeOccs, σ.counters.Settled n) :
    s.Opens s' (binderNames binders) (binderNames binders') (scope.flatMap Expr.freeOccs) σ.counters
      σ'.counters := by
  obtain ⟨hgrows, hlength, hsettled, hinner, hty, hcapture⟩ :=
    enterBinders_opens h ((hs.without _).restrictTo scope) hbinders
      hscope (fun n hn => by rw [get?_restrictTo, get?_without, if_pos hn, ite_self])
      fun n r hr x hx => mem_replacementVars hr hx
  refine ⟨hgrows, hlength, hsettled, hinner, hty, fun n hn depth => (hcapture n hn depth).trans ?_⟩
  by_cases hbound : n ∈ binderNames binders
  · obtain ⟨i, hi⟩ := exists_binderIndex hbound
    rw [Nameless.captureVar_of_index hi]
    rfl
  · rw [Nameless.captureVar_of_notMem hbound]
    refine image_congr ?_
    rw [get?_restrictTo_of_mem _ hn, get?_without, if_neg hbound]

/-- **Under binders**, the substitution for the scope does what the given one does outside. -/
theorem Opens.under {names names' : List Name} (h : s.Opens s' names names' occs c c')
    {t : Nameless} (ht : ∀ n ∈ t.freeNames, n ∈ occs) :
    (t.subst s'.image s'.applyTy).under names'
      = ((t.under names).1, (t.under names).2.subst s.image s.applyTy) := by
  rw [Nameless.under, Nameless.under, h.length_eq, h.applyTy_eq]
  exact congrArg (Prod.mk names.length)
    (Nameless.capture_subst (fun n hn => h.capture_image n (ht n hn)) 0)

/-! ## The traversal -/

/-- The result of a substitution, seen without names. -/
structure Replaces (s : Subst) (e e' : Expr) (c c' : Counters) : Prop where
  grows : c ≤ c'
  nameless : e'.nameless = e.nameless.subst s.image s.applyTy
  settled : e'.Settled c'

mutual

/-- **Substitution is substitution without names**, and leaves no name that can still be
generated. -/
theorem Runs.replaces {s : Subst} {e e' : Expr} {σ σ' : Session} (h : s.Runs e σ e' σ')
    (hs : s.Settled σ.counters) (he : e.Settled σ.counters) :
    s.Replaces e e' σ.counters σ'.counters := by
  cases h with
  | @replaced _ _ n _ _ hget => exact ⟨le_rfl, (image_of_some hget).symm, hs n e' hget⟩
  | var hget => exact ⟨le_rfl, (image_of_none hget).symm, Expr.settled_var _ he.2⟩
  | con | intLit | undefined | error => exact ⟨le_rfl, rfl, Expr.annotationUses_true _⟩
  | app hfn harg =>
    obtain ⟨hgrows, hfn', hsettled⟩ := hfn.replaces hs he.2.1
    obtain ⟨hgrows', harg', hsettled'⟩ :=
      harg.replaces (hs.mono hgrows) (Expr.Settled.mono he.2.2 hgrows)
    refine ⟨hgrows.trans hgrows', ?_, Expr.annotationUses_true _, hsettled.mono hgrows', hsettled'⟩
    rw [Expr.nameless, Expr.nameless, Nameless.subst_node, hfn', harg']
    rfl
  | typeApp hfn =>
    obtain ⟨hgrows, hfn', hsettled⟩ := hfn.replaces hs he.2.1
    refine ⟨hgrows, ?_, Expr.annotationUses_true _, hsettled, fun _ _ => trivial⟩
    rw [Expr.nameless, Expr.nameless, hfn']
    rfl
  | cond htest hthen helse =>
    obtain ⟨hgrows₁, htest', hsettled₁⟩ := htest.replaces hs he.2.1
    obtain ⟨hgrows₂, hthen', hsettled₂⟩ :=
      hthen.replaces (hs.mono hgrows₁) (Expr.Settled.mono he.2.2.1 hgrows₁)
    have hgrows := hgrows₁.trans hgrows₂
    obtain ⟨hgrows₃, helse', hsettled₃⟩ :=
      helse.replaces (hs.mono hgrows) (Expr.Settled.mono he.2.2.2 hgrows)
    refine ⟨hgrows.trans hgrows₃, ?_, Expr.annotationUses_true _,
      hsettled₁.mono (hgrows₂.trans hgrows₃), hsettled₂.mono hgrows₃, hsettled₃⟩
    rw [Expr.nameless, Expr.nameless, Nameless.subst_node, htest', hthen', helse']
    rfl
  | case hscrutinee halts =>
    obtain ⟨hgrows, hscrutinee', hsettled⟩ := hscrutinee.replaces hs he.2.1
    obtain ⟨hgrows', hshapes, halts', hsettled'⟩ :=
      halts.replaces (hs.mono hgrows) (Expr.settledAlts_mono he.2.2 hgrows)
    refine ⟨hgrows.trans hgrows', ?_, Expr.annotationUses_true _, hsettled.mono hgrows', hsettled'⟩
    rw [Expr.nameless, Expr.nameless, Nameless.subst_node, hscrutinee', halts', hshapes]
    rfl
  -- the body is gone over with the substitution of the scope
  | @lam _ _ _ _ body _ _ _ _ _ henter hbody =>
    have hopens := enter_opens henter hs (Expr.binders_settled_iff.mp he.2.1)
      (by rw [List.flatMap_singleton]; exact Expr.Settled.free he.2.2)
    rw [List.flatMap_singleton] at hopens
    obtain ⟨hgrows, hbody', hsettled⟩ :=
      hbody.replaces hopens.inner (Expr.Settled.mono he.2.2 hopens.grows)
    refine ⟨hopens.grows.trans hgrows, ?_, Expr.annotationUses_true _,
      Expr.binders_settled_iff.mpr fun n hn => (hopens.settled n hn).mono hgrows, hsettled⟩
    rw [Expr.nameless, Expr.nameless, Nameless.subst_node, hbody',
      hopens.under fun n hn => Expr.freeNames_nameless body ▸ hn]
    rfl
  | @letRec _ _ binds binders' rhss' body body' _ _ _ _ _ henter hrhss hbody =>
    have hrhss₀ := Expr.usesRhss_iff.mp he.2.2.1
    -- the binders are in scope in all right-hand sides and in the body
    have hopens := enter_opens henter hs (Expr.binders_settled_iff.mp he.2.1) (by
      rw [List.flatMap_append, List.flatMap_singleton, List.forall_mem_append]
      refine ⟨fun n hn => ?_, Expr.Settled.free he.2.2.2⟩
      obtain ⟨r, hr, hn⟩ := List.mem_flatMap.mp hn
      exact Expr.Settled.free (hrhss₀ r hr) n hn)
    rw [List.flatMap_append, List.flatMap_singleton] at hopens
    obtain ⟨hgrows, hlength, hrhss', hsettled⟩ := hrhss.replaces hopens.inner
      fun r hr => Expr.Settled.mono (hrhss₀ r hr) hopens.grows
    have hgrows₀ := hopens.grows.trans hgrows
    obtain ⟨hgrows', hbody', hsettled'⟩ :=
      hbody.replaces (hopens.inner.mono hgrows) (Expr.Settled.mono he.2.2.2 hgrows₀)
    have hzip : rhss'.length = binders'.length := by
      rw [hlength, ← length_binderNames binders', hopens.length_eq, length_binderNames,
        Binds.binders, List.length_map]
    refine ⟨hgrows₀.trans hgrows', ?_, Expr.annotationUses_true _, ?_, ?_, hsettled'⟩
    · rw [Expr.nameless, Expr.nameless, Nameless.subst_node, Expr.namelessRhss_eq,
        Expr.namelessRhss_eq, Binds.names_zip hzip, Binds.rhss_zip hzip, hbody', List.map_append,
        List.map_map, List.map_singleton,
        hopens.under fun n hn => List.mem_append_right _ (Expr.freeNames_nameless body ▸ hn)]
      -- under the new binders the right-hand sides are what the old ones are under the old
      have hparts : rhss'.map (·.nameless.under (binderNames binders')) =
          (Binds.rhss binds).map fun r => ((r.nameless.under (Binds.names binds)).1,
            (r.nameless.under (Binds.names binds)).2.subst s.image s.applyTy) := by
        have hmap := congrArg (List.map (Nameless.under (binderNames binders'))) hrhss'
        rw [List.map_map, List.map_map] at hmap
        refine hmap.trans (List.map_congr_left fun r hr => hopens.under fun n hn =>
          List.mem_append_left _ (List.mem_flatMap.mpr ⟨r, hr, ?_⟩))
        exact Expr.freeNames_nameless r ▸ hn
      rw [hparts]
      rfl
    · rw [binders_zip hzip]
      exact Expr.binders_settled_iff.mpr fun n hn =>
        (hopens.settled n hn).mono (hgrows.trans hgrows')
    · rw [Expr.usesRhss_iff, Binds.rhss_zip hzip]
      exact fun r hr => (hsettled r hr).mono hgrows'

/-- The alternatives of a `case`. -/
theorem RunsAlts.replaces {s : Subst} {alts alts' : Alts} {σ σ' : Session}
    (h : s.RunsAlts alts σ alts' σ') (hs : s.Settled σ.counters)
    (he : Expr.UsesAlts σ.counters.Settled (fun _ => True) alts) :
    σ.counters ≤ σ'.counters ∧ alts'.map (·.1.shape) = alts.map (·.1.shape) ∧
      Expr.namelessAlts alts'
        = (Expr.namelessAlts alts).map (fun part => (part.1, part.2.subst s.image s.applyTy)) ∧
      Expr.UsesAlts σ'.counters.Settled (fun _ => True) alts' := by
  cases h with
  | nil => exact ⟨le_rfl, rfl, rfl, trivial⟩
  | @cons _ pattern binders' rhs _ _ _ _ _ _ _ _ henter hrhs hrest =>
    have hopens := enter_opens henter hs (Expr.binders_settled_iff.mp he.1)
      (by rw [List.flatMap_singleton]; exact Expr.Settled.free he.2.1)
    rw [List.flatMap_singleton] at hopens
    obtain ⟨hgrows, hrhs', hsettled⟩ :=
      hrhs.replaces hopens.inner (Expr.Settled.mono he.2.1 hopens.grows)
    have hgrows₀ := hopens.grows.trans hgrows
    obtain ⟨hgrows', hshapes, hrest', hsettled'⟩ :=
      hrest.replaces (hs.mono hgrows₀) (Expr.settledAlts_mono he.2.2 hgrows₀)
    have hlength : binders'.length = pattern.binders.length := length_enterBinders henter
    refine ⟨hgrows₀.trans hgrows', ?_, ?_, ?_, hsettled.mono hgrows', hsettled'⟩
    · exact congrArg₂ List.cons (pattern.shape_withBinders binders') hshapes
    · rw [Expr.namelessAlts, Expr.namelessAlts, Pattern.names_withBinders hlength, hrhs', hrest',
        hopens.under fun n hn => Expr.freeNames_nameless rhs ▸ hn]
      rfl
    · exact uses_withBinders hlength (Expr.binders_settled_iff.mpr fun n hn =>
        (hopens.settled n hn).mono (hgrows.trans hgrows'))

/-- The right-hand sides of a `let`. -/
theorem RunsRhss.replaces {s : Subst} {binds : Binds} {rhss' : List Expr} {σ σ' : Session}
    (h : s.RunsRhss binds σ rhss' σ') (hs : s.Settled σ.counters)
    (he : ∀ r ∈ Binds.rhss binds, r.Settled σ.counters) :
    σ.counters ≤ σ'.counters ∧ rhss'.length = binds.length ∧
      rhss'.map Expr.nameless
        = (Binds.rhss binds).map (fun r => r.nameless.subst s.image s.applyTy) ∧
      ∀ r ∈ rhss', r.Settled σ'.counters := by
  cases h with
  | nil => exact ⟨le_rfl, rfl, rfl, List.forall_mem_nil _⟩
  | cons hrhs hrest =>
    obtain ⟨hrhs₀, hrest₀⟩ := List.forall_mem_cons.mp he
    obtain ⟨hgrows, hrhs', hsettled⟩ := hrhs.replaces hs hrhs₀
    obtain ⟨hgrows', hlength, hrest', hsettled'⟩ := hrest.replaces (hs.mono hgrows)
      fun r hr => (hrest₀ r hr).mono hgrows
    exact ⟨hgrows.trans hgrows', congrArg (· + 1) hlength, congrArg₂ List.cons hrhs' hrest',
      List.forall_mem_cons.mpr ⟨hsettled.mono hgrows', hsettled'⟩⟩

end

/-- What a substitution does not concern stays. -/
theorem applyTy_of_disjoint {ty : Ty} (h : ∀ t ∈ ty.varOccs, s.types.get? t = none) :
    s.applyTy ty = ty := by
  have hsubst : ty.subst s.types = ty.subst {} := Ty.subst_congr ty h
  rw [applyTy, hsubst, Ty.subst_empty]

/-- **Applying a substitution.** Leaving the expression alone is right where there is nothing to
replace. -/
theorem apply_replaces {e e' : Expr} (h : s.apply e σ = (e', σ')) (hs : s.Settled σ.counters)
    (he : e.Settled σ.counters) : s.Replaces e e' σ.counters σ'.counters := by
  have himage : ∀ n ∈ e.nameless.freeNames, (s.restrictTo [e]).image n = s.image n := by
    intro n hn
    refine image_congr (get?_restrictTo_of_mem s ?_)
    rwa [List.flatMap_singleton, ← Expr.freeNames_nameless]
  simp only [apply] at h
  split at h
  · -- a substitution with nothing to replace leaves the expression as it is
    next hidle =>
    obtain ⟨rfl, rfl⟩ := Naming.pure_eq.mp h
    obtain ⟨hempty, htypes⟩ := Bool.and_eq_true_iff.mp hidle
    refine ⟨le_rfl,
      (Nameless.subst_self (fun n hn => ?_) fun ty hty => applyTy_of_disjoint fun t ht => ?_).symm,
      he⟩
    · rw [← himage n hn]
      refine image_of_none ?_
      rw [Table.get?, List.isEmpty_iff.mp hempty]
      rfl
    · have hmem : t ∈ e.typeVarOccs :=
        Expr.Uses.typeArgs e ((Expr.uses_iff (N := fun _ => True) (T := (· ∈ e.typeVarOccs)) e).mpr
          ⟨fun _ _ => trivial, fun _ _ => trivial, fun t ht => ht⟩) ty hty t ht
      rw [Bool.not_eq_true', List.any_eq_false] at htypes
      rw [← Option.not_isSome_iff_eq_none]
      intro hsome
      refine htypes t ((Table.contains_iff_mem_keys _ _).mp hsome) (decide_eq_true ?_)
      rwa [Expr.freeTypeVars, List.mem_eraseDups]
  · obtain ⟨hgrows, hnameless, hsettled⟩ := (runs_of_onExpr e h).replaces (hs.restrictTo [e]) he
    exact ⟨hgrows, hnameless.trans (Nameless.subst_congr himage fun _ _ => rfl), hsettled⟩

/-- **Substitution is capture-avoiding and simultaneous.** Without the names of bound variables the
result is the expression with each free variable replaced by its replacement, once, and with the
type part applied to its type arguments. In particular its free variables are those of the
replacements, occurrence by occurrence. -/
theorem apply_capture_avoiding (s : Subst) (e : Expr) (σ : Session) (hs : s.Settled σ.counters)
    (he : e.Settled σ.counters) :
    (s.apply e σ).1.nameless = e.nameless.subst s.image s.applyTy ∧
      (s.apply e σ).1.freeOccs = e.freeOccs.flatMap fun n =>
        ((s.exprs.get? n).map Expr.freeOccs).getD [n] := by
  have hreplaces := apply_replaces (Prod.eta (s.apply e σ)).symm hs he
  refine ⟨hreplaces.nameless, ?_⟩
  rw [← Expr.freeNames_nameless, hreplaces.nameless, Nameless.freeNames_subst,
    Expr.freeNames_nameless]
  -- each free name gives way to the free names of what replaces it
  refine List.flatMap_congr fun n _ => ?_
  cases hget : s.exprs.get? n with
  | some r => rw [image_of_some hget, Expr.freeNames_nameless]; rfl
  | none => rw [image_of_none hget]; rfl

/-- In `\x -> y x @a`, `y` becomes `x` and `a` becomes `Int`. The binder makes way: the new `x`
stays free, the old one stays bound. -/
theorem clashing_binder_capture_avoiding :
    let s : Subst := { exprs := .ofList [("y", .var {} "x")], types := .ofList [("a", .con "Int")] }
    let e : Expr :=
      .lam {} [{ name := "x" }] (.typeApp {} (.app {} (.var {} "y") (.var {} "x")) (.var "a"))
    s.Settled ({} : Session).counters ∧ e.Settled ({} : Session).counters ∧
      (s.apply e {}).1.nameless =
        .node .lam [(1, .typeApp (.node .app [(0, .free "x"), (0, .bound 0)]) (.con "Int"))] := by
  intro s e
  have hs : s.Settled ({} : Session).counters := by
    intro n r hr
    obtain rfl : r = .var {} "x" := List.mem_singleton.mp (Table.mem_values_of_get? hr)
    exact Expr.settled_of_unmarked (by decide)
  have he : e.Settled ({} : Session).counters := Expr.settled_of_unmarked (by decide)
  refine ⟨hs, he, (apply_capture_avoiding s e {} hs he).1.trans ?_⟩
  rfl

end Subst

end StructRec
