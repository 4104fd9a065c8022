import StructRec.Proofs.Inlining

/-!
# StructRec — inlining succeeds

Inlining fails in two ways only: a function is met again inside its own unfolding, or it is not
applied to the types that it takes. Neither happens if the functions can be put in an order in which
each refers to earlier ones only, and wherever a function is referred to (`Expr.heads`), it gets its
types before any value (`TypesFirst`). The depth of the descent is then bounded by the size of the
expression and of the functions that it may still unfold (`Inline.weight`), so the bound is never
reached.

On its way down inlining renames binders. A renaming changes neither the size of an expression nor
what its free variables refer to and are applied to (`Subst.RenamesTo`); nothing has to be known of
the new names for that.
-/

namespace StructRec

variable {α β : Type}
variable {count : Nat}

/-! ## Computations that succeed -/

namespace Compile

/-- The computation succeeds in every state, with such a result. -/
def Succeeds (x : Compile α) (P : α → Prop) : Prop := ∀ s, ∃ a s', x s = .ok a s' ∧ P a

namespace Succeeds

variable {x : Compile α} {P : α → Prop} {Q : β → Prop}

theorem pure {a : α} (h : P a) : Succeeds (Pure.pure a) P := fun s => ⟨a, s, rfl, h⟩

theorem bind {f : α → Compile β} (hx : x.Succeeds P) (hf : ∀ a, P a → (f a).Succeeds Q) :
    (x >>= f).Succeeds Q := by
  intro s
  obtain ⟨a, s₁, hrun, ha⟩ := hx s
  obtain ⟨b, s₂, hrun', hb⟩ := hf a ha s₁
  exact ⟨b, s₂, bind_ok.mpr ⟨a, s₁, hrun, hrun'⟩, hb⟩

/-- Computations that generate names always succeed. -/
theorem lift {x : Naming α} (h : ∀ s a s', x s = (a, s') → P a) : Succeeds (liftM x) P := by
  intro s
  exact ⟨(x s).1, (x s).2, lift_ok.mpr rfl, h s _ _ rfl⟩

/-- If every step succeeds, so do all of them in turn. -/
theorem mapM {f : α → Compile β} {P : α → β → Prop} {xs : List α}
    (h : ∀ a ∈ xs, (f a).Succeeds (P a)) : (xs.mapM f).Succeeds (List.Forall₂ P xs) := by
  induction xs with
  | nil =>
    rw [List.mapM_nil]
    exact .pure .nil
  | cons a rest ih =>
    rw [List.forall_mem_cons] at h
    rw [List.mapM_cons]
    exact h.1.bind fun b hb => (ih h.2).bind fun later hlater => .pure (.cons hb hlater)

end Succeeds

end Compile

/-! ## Heads of applications -/

/-- What a function is applied to. -/
inductive ArgKind where
  | type
  | value
deriving DecidableEq

/-- There are exactly so many types among the arguments, and they come before all values. -/
def TypesFirst : Nat → List ArgKind → Prop
  | 0, kinds => .type ∉ kinds
  | _ + 1, [] | _ + 1, .value :: _ => False
  | count + 1, .type :: kinds => TypesFirst count kinds

instance decidableTypesFirst : (count : Nat) → (kinds : List ArgKind) →
    Decidable (TypesFirst count kinds)
  | 0, kinds => inferInstanceAs (Decidable (.type ∉ kinds))
  | _ + 1, [] | _ + 1, .value :: _ => inferInstanceAs (Decidable False)
  | count + 1, .type :: kinds => decidableTypesFirst count kinds

theorem TypesFirst.of_nil (h : TypesFirst count []) : count = 0 := by
  cases count with
  | zero => rfl
  | succ count => exact h.elim

/-- A value comes after all types. -/
theorem TypesFirst.of_value {kinds : List ArgKind} (h : TypesFirst count (.value :: kinds)) :
    count = 0 ∧ TypesFirst 0 kinds := by
  cases count with
  | zero => exact ⟨rfl, fun hmem => h (List.mem_cons_of_mem _ hmem)⟩
  | succ count => exact h.elim

/-- A type is the first of those that are still to come. -/
theorem TypesFirst.of_type {kinds : List ArgKind} (h : TypesFirst count (.type :: kinds)) :
    ∃ rest, count = rest + 1 ∧ TypesFirst rest kinds := by
  cases count with
  | zero => exact absurd List.mem_cons_self h
  | succ count => exact ⟨count, rfl, h⟩

namespace Expr

/-- The variable at the head of an application. -/
def headName? : Expr → Option Name
  | var _ name => some name
  | app _ fn _ | typeApp _ fn _ => fn.headName?
  | _ => none

mutual

/-- The free variables that types are applied to, possibly after values. -/
def typedHeads : Expr → List Name
  | var _ _ | con _ _ | intLit _ _ | undefined _ | error _ _ => []
  | app _ fn arg => fn.typedHeads ++ arg.typedHeads
  | typeApp _ fn _ => fn.headName?.toList ++ fn.typedHeads
  | cond _ test thenBranch elseBranch =>
      test.typedHeads ++ thenBranch.typedHeads ++ elseBranch.typedHeads
  | case _ scrutinee alts => scrutinee.typedHeads ++ typedHeadsAlts alts
  | lam _ params body => body.typedHeads.filter (· ∉ binderNames params)
  | letRec _ binds body => (typedHeadsRhss binds ++ body.typedHeads).filter (· ∉ Binds.names binds)

def typedHeadsAlts : Alts → List Name
  | [] => []
  | (pattern, rhs) :: rest => rhs.typedHeads.filter (· ∉ pattern.names) ++ typedHeadsAlts rest

def typedHeadsRhss : Binds → List Name
  | [] => []
  | (_, rhs) :: rest => rhs.typedHeads ++ typedHeadsRhss rest

end

mutual

/-- The free variables of an expression that is applied to such arguments, each with what it is
applied to itself. -/
def heads : Expr → List ArgKind → List (Name × List ArgKind)
  | var _ name, kinds => [(name, kinds)]
  | con _ _, _ | intLit _ _, _ | undefined _, _ | error _ _, _ => []
  | app _ fn arg, kinds => fn.heads (.value :: kinds) ++ arg.heads []
  | typeApp _ fn _, kinds => fn.heads (.type :: kinds)
  | cond _ test thenBranch elseBranch, _ =>
      test.heads [] ++ thenBranch.heads [] ++ elseBranch.heads []
  | case _ scrutinee alts, _ => scrutinee.heads [] ++ headsAlts alts
  | lam _ params body, _ => (body.heads []).filter (·.1 ∉ binderNames params)
  | letRec _ binds body, _ => (headsRhss binds ++ body.heads []).filter (·.1 ∉ Binds.names binds)

def headsAlts : Alts → List (Name × List ArgKind)
  | [] => []
  | (pattern, rhs) :: rest => (rhs.heads []).filter (·.1 ∉ pattern.names) ++ headsAlts rest

def headsRhss : Binds → List (Name × List ArgKind)
  | [] => []
  | (_, rhs) :: rest => rhs.heads [] ++ headsRhss rest

end

theorem map_fst_filter (heads : List (Name × List ArgKind)) (names : List Name) :
    (heads.filter (·.1 ∉ names)).map Prod.fst = (heads.map Prod.fst).filter (· ∉ names) := by
  rw [List.filter_map]
  rfl

mutual

/-- The heads are the free variables. -/
theorem map_fst_heads : (e : Expr) → (kinds : List ArgKind) →
    (e.heads kinds).map Prod.fst = e.freeOccs
  | var .., _ | con .., _ | intLit .., _ | undefined _, _ | error .., _ => rfl
  | app _ fn arg, kinds => by
    rw [heads, freeOccs, List.map_append, map_fst_heads fn, map_fst_heads arg]
  | typeApp _ fn _, kinds => by rw [heads, freeOccs, map_fst_heads fn]
  | cond _ test thenBranch elseBranch, _ => by
    rw [heads, freeOccs, List.map_append, List.map_append, map_fst_heads test,
      map_fst_heads thenBranch, map_fst_heads elseBranch]
  | case _ scrutinee alts, _ => by
    rw [heads, freeOccs, List.map_append, map_fst_heads scrutinee, map_fst_headsAlts alts]
  | lam _ params body, _ => by rw [heads, freeOccs, map_fst_filter, map_fst_heads body]
  | letRec _ binds body, _ => by
    rw [heads, freeOccs, map_fst_filter, List.map_append, map_fst_headsRhss binds,
      map_fst_heads body]

theorem map_fst_headsAlts : (alts : Alts) → (headsAlts alts).map Prod.fst = freeOccsAlts alts
  | [] => rfl
  | (pattern, rhs) :: rest => by
    rw [headsAlts, freeOccsAlts, List.map_append, map_fst_filter, map_fst_heads rhs,
      map_fst_headsAlts rest]

theorem map_fst_headsRhss : (binds : Binds) → (headsRhss binds).map Prod.fst = freeOccsRhss binds
  | [] => rfl
  | (_, rhs) :: rest => by
    rw [headsRhss, freeOccsRhss, List.map_append, map_fst_heads rhs, map_fst_headsRhss rest]

end

/-- A head is a free variable. -/
theorem mem_freeOccs_of_mem_heads {e : Expr} {kinds : List ArgKind} {h : Name × List ArgKind}
    (hh : h ∈ e.heads kinds) : h.1 ∈ e.freeOccs :=
  map_fst_heads e kinds ▸ List.mem_map_of_mem hh

mutual

/-- If there is a type among the arguments of a variable, the variable is applied to types. -/
theorem typed_of_mem_heads : (e : Expr) → {kinds : List ArgKind} → {h : Name × List ArgKind} →
    h ∈ e.heads kinds →
    .type ∈ h.2 → h.1 ∈ e.typedHeads ∨ (e.headName? = some h.1 ∧ .type ∈ kinds)
  | var .., _, _, hmem, htype => by
    obtain rfl := List.mem_singleton.mp hmem
    exact .inr ⟨rfl, htype⟩
  | con .., _, _, hmem, _ | intLit .., _, _, hmem, _ | undefined _, _, _, hmem, _ | error .., _, _,
      hmem, _ => by cases hmem
  -- a value argument is no type, and the argument itself is applied to nothing
  | app _ fn arg, _, _, hmem, htype => by
    rcases List.mem_append.mp hmem with hmem | hmem
    · refine (typed_of_mem_heads fn hmem htype).imp (List.mem_append_left _)
        fun hhead => ⟨hhead.1, ?_⟩
      simpa using hhead.2
    · exact .inl (List.mem_append_right _ (typed_of_mem_heads_nil arg hmem htype))
  -- here the head of the function is listed itself
  | typeApp _ fn _, _, _, hmem, htype => by
    rcases typed_of_mem_heads fn hmem htype with htyped | ⟨hhead, _⟩
    · exact .inl (List.mem_append_right _ htyped)
    · exact .inl (List.mem_append_left _ (Option.mem_toList.mpr hhead))
  | cond _ test thenBranch elseBranch, _, _, hmem, htype => by
    rcases List.mem_append.mp hmem with hmem | hmem
    · refine .inl (List.mem_append_left _ (List.mem_append.mpr ?_))
      exact (List.mem_append.mp hmem).imp (typed_of_mem_heads_nil test · htype)
        (typed_of_mem_heads_nil thenBranch · htype)
    · exact .inl (List.mem_append_right _ (typed_of_mem_heads_nil elseBranch hmem htype))
  | case _ scrutinee alts, _, _, hmem, htype => by
    refine .inl (List.mem_append.mpr ?_)
    exact (List.mem_append.mp hmem).imp (typed_of_mem_heads_nil scrutinee · htype)
      (typed_of_mem_headsAlts alts · htype)
  | lam _ params body, _, _, hmem, htype => by
    obtain ⟨hmem, hfree⟩ := List.mem_filter.mp hmem
    exact .inl (List.mem_filter.mpr ⟨typed_of_mem_heads_nil body hmem htype, hfree⟩)
  | letRec _ binds body, _, _, hmem, htype => by
    obtain ⟨hmem, hfree⟩ := List.mem_filter.mp hmem
    refine .inl (List.mem_filter.mpr ⟨List.mem_append.mpr ?_, hfree⟩)
    exact (List.mem_append.mp hmem).imp (typed_of_mem_headsRhss binds · htype)
      (typed_of_mem_heads_nil body · htype)

theorem typed_of_mem_heads_nil (e : Expr) {h : Name × List ArgKind} (hmem : h ∈ e.heads [])
    (htype : .type ∈ h.2) : h.1 ∈ e.typedHeads :=
  (typed_of_mem_heads e hmem htype).resolve_right fun hhead => List.not_mem_nil hhead.2

/-- Under a pattern, names that it binds are taken out on both sides. -/
theorem typed_of_mem_headsAlts : (alts : Alts) → {h : Name × List ArgKind} →
    h ∈ headsAlts alts → .type ∈ h.2 →
    h.1 ∈ typedHeadsAlts alts
  | [], _, hmem, _ => by cases hmem
  | (_, rhs) :: rest, _, hmem, htype => by
    rcases List.mem_append.mp hmem with hmem | hmem
    · obtain ⟨hmem, hfree⟩ := List.mem_filter.mp hmem
      exact List.mem_append_left _
        (List.mem_filter.mpr ⟨typed_of_mem_heads_nil rhs hmem htype, hfree⟩)
    · exact List.mem_append_right _ (typed_of_mem_headsAlts rest hmem htype)

theorem typed_of_mem_headsRhss : (binds : Binds) → {h : Name × List ArgKind} →
    h ∈ headsRhss binds → .type ∈ h.2 →
    h.1 ∈ typedHeadsRhss binds
  | [], _, hmem, _ => by cases hmem
  | (_, rhs) :: rest, _, hmem, htype => by
    refine List.mem_append.mpr ?_
    exact (List.mem_append.mp hmem).imp (typed_of_mem_heads_nil rhs · htype)
      (typed_of_mem_headsRhss rest · htype)

end

theorem flatMap_heads_rhss (binds : Binds) :
    (Binds.rhss binds).flatMap (heads · []) = headsRhss binds := by
  induction binds with
  | nil => rfl
  | cons bind rest ih => exact congrArg (bind.2.heads [] ++ ·) ih

theorem foldr_size_rhss (binds : Binds) :
    (Binds.rhss binds).foldr (·.size + ·) 0 = sizeBinds binds := by
  induction binds with
  | nil => rfl
  | cons bind rest ih => exact congrArg (bind.2.size + ·) ih

end Expr

/-- Wherever functions refer to each other, each gets the types that it takes before any value. -/
def TypesApplied (decls : List FuncDecl) : Prop :=
  ∀ d ∈ decls, ∀ h ∈ d.rhs.heads [], h.1 ∉ d.paramNames → ∀ g ∈ decls, g.name = h.1 →
    TypesFirst g.typeParams.length h.2

instance decidableTypesApplied (decls : List FuncDecl) : Decidable (TypesApplied decls) :=
  inferInstanceAs (Decidable (∀ d ∈ decls, ∀ h ∈ d.rhs.heads [], _))

theorem TypesApplied.mono {decls group : List FuncDecl} (h : TypesApplied decls)
    (hsub : group ⊆ decls) :
    TypesApplied group := fun d hd x hx hparam g hg => h d (hsub hd) x hx hparam g (hsub hg)

/-- Functions without type parameters get their types first where they are not applied to types. -/
theorem typesFirst_of_untyped {decls : List FuncDecl} (htypeParams : ∀ d ∈ decls, d.typeParams = [])
    {e : Expr} {h : Name × List ArgKind} (hmem : h ∈ e.heads [])
    (huntyped : h.1 ∈ e.typedHeads → h.1 ∉ decls.map FuncDecl.name) :
    ∀ d ∈ decls, d.name = h.1 → TypesFirst d.typeParams.length h.2 := by
  intro d hd hname
  rw [htypeParams d hd]
  intro htype
  exact huntyped (Expr.typed_of_mem_heads_nil e hmem htype) (hname ▸ List.mem_map_of_mem hd)

/-! ## Renaming -/

namespace Subst

variable {s s' : Subst} {binders binders' : List Binder} {captured : List Name}
variable {n : Name} {σ σ' : Session}

/-- Variables are replaced by variables. -/
def IsRenaming (s : Subst) : Prop := ∀ n r, s.exprs.get? n = some r → ∃ note m, r = .var note m

/-- The variable that takes the place of another. -/
def rename (s : Subst) (n : Name) : Name := (((s.exprs.get? n).bind Expr.asVar?)).getD n

theorem rename_of_none (h : s.exprs.get? n = none) : s.rename n = n := by
  rw [rename, h]
  rfl

theorem rename_congr (h : s'.exprs.get? n = s.exprs.get? n) : s'.rename n = s.rename n := by
  rw [rename, rename, h]

/-- Each of the second heads comes from one of the first, applied to the same. -/
def RenamesHeads (s : Subst) (heads heads' : List (Name × List ArgKind)) : Prop :=
  ∀ h' ∈ heads', ∃ n, (n, h'.2) ∈ heads ∧ s.rename n = h'.1

/-- What becomes of an expression whose variables are renamed. -/
structure RenamesTo (s : Subst) (e e' : Expr) : Prop where
  size : e'.size = e.size
  heads : ∀ kinds, s.RenamesHeads (e.heads kinds) (e'.heads kinds)

theorem RenamesHeads.nil (s : Subst) : s.RenamesHeads [] [] := List.forall_mem_nil _

theorem RenamesHeads.append {xs xs' ys ys' : List (Name × List ArgKind)} (h : s.RenamesHeads xs xs')
    (h' : s.RenamesHeads ys ys') : s.RenamesHeads (xs ++ ys) (xs' ++ ys') := by
  intro head' hmem
  rcases List.mem_append.mp hmem with hmem | hmem
  · obtain ⟨n, hn, hrename⟩ := h head' hmem
    exact ⟨n, List.mem_append_left _ hn, hrename⟩
  · obtain ⟨n, hn, hrename⟩ := h' head' hmem
    exact ⟨n, List.mem_append_right _ hn, hrename⟩

/-- Binders and the renaming in their scope. -/
structure EnteredBinders (s s' : Subst) (binders binders' : List Binder) (scope : List Name) :
    Prop where
  isRenaming : s'.IsRenaming
  length_eq : binders'.length = binders.length
  bound : ∀ n ∈ binderNames binders, s'.rename n ∈ binderNames binders'
  free : ∀ n ∈ scope, n ∉ binderNames binders → s'.rename n = s.rename n

/-- Under binders only the free variables are renamed from outside. -/
theorem EnteredBinders.renamesHeads {scope : List Name} {heads heads' : List (Name × List ArgKind)}
    (h : EnteredBinders s s' binders binders' scope) (hscope : heads.map Prod.fst ⊆ scope)
    (hrenames : s'.RenamesHeads heads heads') :
    s.RenamesHeads (heads.filter (·.1 ∉ binderNames binders))
      (heads'.filter (·.1 ∉ binderNames binders')) := by
  intro head' hhead'
  obtain ⟨hmem, hfree'⟩ := List.mem_filter.mp hhead'
  obtain ⟨n, hn, hrename⟩ := hrenames head' hmem
  have hfree : n ∉ binderNames binders := fun hbinder =>
    of_decide_eq_true hfree' (hrename ▸ h.bound n hbinder)
  exact ⟨n, List.mem_filter.mpr ⟨hn, decide_eq_true hfree⟩,
    (h.free n (hscope (List.mem_map_of_mem hn)) hfree).symm.trans hrename⟩

/-- A renaming with one more name. -/
theorem IsRenaming.insert_toExpr (h : s.IsRenaming) (n : Name) (b : Binder) :
    (s.insert n b.toExpr).IsRenaming := by
  intro m r hr
  rw [insert, Table.get?_insert] at hr
  split at hr
  · exact ⟨_, b.name, (Option.some.inj hr).symm⟩
  · exact h m r hr

/-- A binder is renamed if it is captured. -/
theorem enterBinders_renames (h : enterBinders captured s binders σ = ((s', binders'), σ'))
    (hs : s.IsRenaming) (hkept : ∀ n ∈ binderNames binders, n ∉ captured → s.exprs.get? n = none) :
    s'.IsRenaming ∧ binders'.length = binders.length ∧
      (∀ n ∈ binderNames binders, s'.rename n ∈ binderNames binders') ∧
      ∀ n, n ∉ binderNames binders ∨ n ∉ captured → s'.exprs.get? n = s.exprs.get? n := by
  replace h := enters_of_enterBinders h
  induction h with
  | nil => exact ⟨hs, rfl, nofun, fun _ _ => rfl⟩
  | @renamed s s' b rest rest' fresh σ σ₁ σ' hcaptured _ _ ih =>
    -- the renaming gets an entry for the binder
    let b' : Binder := { b with name := fresh, ty := b.ty.map s.applyTy }
    have hget : ∀ n, (s.insert b.name b'.toExpr).exprs.get? n
        = if b.name = n then some b'.toExpr else s.exprs.get? n :=
      fun n => Table.get?_insert _ _ _ _
    obtain ⟨hrenaming, hlength, hbound, hother⟩ :=
      ih (hs.insert_toExpr b.name b') fun n hn hfree => by
        have hne : b.name ≠ n := fun heq => hfree (heq ▸ hcaptured)
        rw [hget, if_neg hne]
        exact hkept n (List.mem_cons_of_mem _ hn) hfree
    refine ⟨hrenaming, congrArg (· + 1) hlength, fun n hn => ?_, fun n hn => ?_⟩
    · by_cases hlater : n ∈ binderNames rest
      · exact List.mem_cons_of_mem _ (hbound n hlater)
      · -- no later binder of this name overwrites the renaming
        obtain rfl : n = b.name := (List.mem_cons.mp hn).resolve_right hlater
        have hrename : s'.rename b.name = fresh := by
          rw [rename, hother _ (.inl hlater), hget, if_pos rfl]
          rfl
        rw [hrename]
        exact List.mem_cons_self
    · have hne : b.name ≠ n := by
        rintro rfl
        rcases hn with hn | hn
        · exact hn List.mem_cons_self
        · exact hn hcaptured
      rw [hother n (hn.imp_left fun hn hmem => hn (List.mem_cons_of_mem _ hmem)), hget, if_neg hne]
  | @kept s s' b rest rest' σ σ' hcaptured _ ih =>
    -- the binder stays, and by assumption nothing renames it
    obtain ⟨hrenaming, hlength, hbound, hother⟩ :=
      ih hs fun n hn => hkept n (List.mem_cons_of_mem _ hn)
    refine ⟨hrenaming, congrArg (· + 1) hlength, fun n hn => ?_, fun n hn => ?_⟩
    · by_cases hlater : n ∈ binderNames rest
      · exact List.mem_cons_of_mem _ (hbound n hlater)
      · obtain rfl : n = b.name := (List.mem_cons.mp hn).resolve_right hlater
        have hnone := (hother _ (.inl hlater)).trans (hkept _ List.mem_cons_self hcaptured)
        rw [rename_of_none hnone]
        exact List.mem_cons_self
    · exact hother n (hn.imp_left fun hn hmem => hn (List.mem_cons_of_mem _ hmem))

theorem IsRenaming.of_get? {t : Subst} (h : s.IsRenaming)
    (hget : ∀ n r, t.exprs.get? n = some r → s.exprs.get? n = some r) :
    t.IsRenaming := fun n r hr => h n r (hget n r hr)

theorem get?_of_get?_restrictTo {scope : List Expr} {r : Expr}
    (h : (s.restrictTo scope).exprs.get? n = some r) : s.exprs.get? n = some r := by
  rw [get?_restrictTo] at h
  split at h
  · exact h
  · cases h

/-- **Entering a scope with a renaming** gives a renaming of what is free in the scope. -/
theorem enter_renames {scope : List Expr} (h : s.enter binders scope σ = ((s', binders'), σ'))
    (hs : s.IsRenaming) : EnteredBinders s s' binders binders' (scope.flatMap Expr.freeOccs) := by
  -- the binders are taken out first, so nothing renames them at the start
  have hget : ∀ n r, ((s.without (binderNames binders)).restrictTo scope).exprs.get? n = some r →
      n ∉ binderNames binders ∧ s.exprs.get? n = some r := by
    intro n r hr
    have hwithout := get?_of_get?_restrictTo hr
    rw [get?_without] at hwithout
    split at hwithout
    · cases hwithout
    · next hn => exact ⟨hn, hwithout⟩
  obtain ⟨hrenaming, hlength, hbound, hother⟩ :=
    enterBinders_renames h (hs.of_get? fun n r hr => (hget n r hr).2) fun n hn _ => by
      cases hr : ((s.without (binderNames binders)).restrictTo scope).exprs.get? n with
      | none => rfl
      | some r => exact absurd hn (hget n r hr).1
  refine ⟨hrenaming, hlength, hbound, fun n hn hfree => rename_congr ?_⟩
  rw [hother n (.inl hfree), get?_restrictTo_of_mem _ hn, get?_without, if_neg hfree]

mutual

/-- **A renaming** keeps the size of an expression and moves its heads. -/
theorem Runs.renames {s : Subst} (hs : s.IsRenaming) {e e' : Expr} {σ σ' : Session}
    (h : s.Runs e σ e' σ') : s.RenamesTo e e' := by
  have hvar : ∀ note n note' m, s.rename n = m → s.RenamesTo (.var note n) (.var note' m) :=
    fun note n note' m hrename =>
      ⟨rfl, fun kinds => List.forall_mem_singleton.mpr ⟨n, List.mem_singleton.mpr rfl, hrename⟩⟩
  cases h with
  -- a variable, renamed or not, is the head and keeps its arguments
  | @replaced _ note n _ _ hget =>
    obtain ⟨note', m, rfl⟩ := hs n e' hget
    refine hvar note n note' m ?_
    rw [rename, hget]
    rfl
  | var hget => exact hvar _ _ _ _ (rename_of_none hget)
  | con | intLit | undefined | error => exact ⟨rfl, fun _ => .nil s⟩
  | app hfn harg =>
    have hfn' := hfn.renames hs
    have harg' := harg.renames hs
    exact ⟨by rw [Expr.size, Expr.size, hfn'.size, harg'.size],
      fun kinds => (hfn'.heads _).append (harg'.heads [])⟩
  | typeApp hfn =>
    have hfn' := hfn.renames hs
    exact ⟨congrArg (· + 1) hfn'.size, fun kinds => hfn'.heads _⟩
  | cond htest hthen helse =>
    have htest' := htest.renames hs
    have hthen' := hthen.renames hs
    have helse' := helse.renames hs
    exact ⟨by rw [Expr.size, Expr.size, htest'.size, hthen'.size, helse'.size],
      fun _ => ((htest'.heads []).append (hthen'.heads [])).append (helse'.heads [])⟩
  | case hscrutinee halts =>
    have hscrutinee' := hscrutinee.renames hs
    obtain ⟨hsize, hheads⟩ := halts.renames hs
    exact ⟨by rw [Expr.size, Expr.size, hscrutinee'.size, hsize],
      fun _ => (hscrutinee'.heads []).append hheads⟩
  -- under binders only names that are free outside matter
  | @lam _ _ _ _ body _ _ _ _ _ henter hbody =>
    have hentered := enter_renames henter hs
    rw [List.flatMap_singleton, ← Expr.map_fst_heads body []] at hentered
    have hbody' := hbody.renames hentered.isRenaming
    exact ⟨congrArg (· + 1) hbody'.size,
      fun _ => hentered.renamesHeads (List.Subset.refl _) (hbody'.heads [])⟩
  | @letRec _ _ _ binders' rhss' body _ _ _ _ _ _ henter hrhss hbody =>
    have hentered := enter_renames henter hs
    rw [List.flatMap_append, List.flatMap_singleton, flatMap_freeOccs_rhss,
      ← Expr.map_fst_headsRhss, ← Expr.map_fst_heads body [], ← List.map_append] at hentered
    obtain ⟨hlength, hsize, hheads⟩ := hrhss.renames hentered.isRenaming
    have hbody' := hbody.renames hentered.isRenaming
    have hzip : rhss'.length = binders'.length := by
      rw [hlength, hentered.length_eq, Binds.binders, List.length_map]
    have hheads' := hentered.renamesHeads (List.Subset.refl _) (hheads.append (hbody'.heads []))
    refine ⟨?_, fun _ => ?_⟩
    · rw [Expr.size, Expr.size, ← Expr.foldr_size_rhss, Binds.rhss_zip hzip, hsize, hbody'.size]
    · rw [Expr.heads, Expr.heads, Binds.names_zip hzip,
        ← Expr.flatMap_heads_rhss (binders'.zip rhss'), Binds.rhss_zip hzip]
      exact hheads'

/-- The alternatives of a `case`. -/
theorem RunsAlts.renames {s : Subst} (hs : s.IsRenaming) {alts alts' : Alts} {σ σ' : Session}
    (h : s.RunsAlts alts σ alts' σ') : Expr.sizeAlts alts' = Expr.sizeAlts alts ∧
      s.RenamesHeads (Expr.headsAlts alts) (Expr.headsAlts alts') := by
  cases h with
  | nil => exact ⟨rfl, .nil s⟩
  | @cons _ _ _ rhs _ _ _ _ _ _ _ _ henter hrhs hrest =>
    have hentered := enter_renames henter hs
    rw [List.flatMap_singleton, ← Expr.map_fst_heads rhs []] at hentered
    have hrhs' := hrhs.renames hentered.isRenaming
    obtain ⟨hsize, hheads⟩ := hrest.renames hs
    refine ⟨by rw [Expr.sizeAlts, Expr.sizeAlts, hrhs'.size, hsize], ?_⟩
    rw [Expr.headsAlts, Expr.headsAlts, Pattern.names_withBinders hentered.length_eq]
    exact (hentered.renamesHeads (List.Subset.refl _) (hrhs'.heads [])).append hheads

/-- The right-hand sides of a `let`. -/
theorem RunsRhss.renames {s : Subst} (hs : s.IsRenaming) {binds : Binds} {rhss' : List Expr}
    {σ σ' : Session} (h : s.RunsRhss binds σ rhss' σ') : rhss'.length = binds.length ∧
      rhss'.foldr (·.size + ·) 0 = Expr.sizeBinds binds ∧
      s.RenamesHeads (Expr.headsRhss binds) (rhss'.flatMap (Expr.heads · [])) := by
  cases h with
  | nil => exact ⟨rfl, rfl, .nil s⟩
  | cons hrhs hrest =>
    have hrhs' := hrhs.renames hs
    obtain ⟨hlength, hsize, hheads⟩ := hrest.renames hs
    refine ⟨congrArg (· + 1) hlength, ?_, (hrhs'.heads []).append hheads⟩
    rw [List.foldr_cons, hrhs'.size, hsize, Expr.sizeBinds]

end

/-- **Renaming** keeps the size of an expression and leads its heads to others, with their
arguments. -/
theorem apply_renames {e e' : Expr} (h : s.apply e σ = (e', σ')) (hs : s.IsRenaming) :
    s.RenamesTo e e' := by
  have hrelevant : ∀ n ∈ e.freeOccs, (s.restrictTo [e]).rename n = s.rename n := fun n hn =>
    rename_congr (get?_restrictTo_of_mem s (by rwa [List.flatMap_singleton]))
  simp only [apply] at h
  split at h
  · next hempty =>
    obtain ⟨rfl, rfl⟩ := Naming.pure_eq.mp h
    -- no free variable is renamed
    refine ⟨rfl, fun kinds head hhead => ⟨head.1, hhead, ?_⟩⟩
    rw [← hrelevant _ (Expr.mem_freeOccs_of_mem_heads hhead)]
    refine rename_of_none ?_
    rw [Table.get?, List.isEmpty_iff.mp (Bool.and_eq_true_iff.mp hempty).1]
    rfl
  · have hrenames :=
      (runs_of_onExpr e h).renames (hs.of_get? fun n r hr => get?_of_get?_restrictTo hr)
    refine ⟨hrenames.size, fun kinds head' hhead' => ?_⟩
    obtain ⟨n, hn, hrename⟩ := hrenames.heads kinds head' hhead'
    exact ⟨n, hn, (hrelevant n (Expr.mem_freeOccs_of_mem_heads hn)).symm.trans hrename⟩

/-- Each of several expressions is renamed. -/
theorem applyAll_renames {es es' : List Expr} (h : s.applyAll es σ = (es', σ'))
    (hs : s.IsRenaming) : ∀ e' ∈ es', ∃ e ∈ es, s.RenamesTo e e' := by
  induction es generalizing σ es' with
  | nil =>
    obtain ⟨rfl, rfl⟩ := Naming.pure_eq.mp h
    exact List.forall_mem_nil _
  | cons e rest ih =>
    simp only [applyAll, Naming.bind_eq, Naming.pure_eq] at h
    obtain ⟨first', σ₁, hfirst, rest', σ₂, hrest, rfl, rfl⟩ := h
    rw [List.forall_mem_cons]
    refine ⟨⟨e, List.mem_cons_self, apply_renames hfirst hs⟩, fun e' he' => ?_⟩
    obtain ⟨e, he, hrenames⟩ := ih hrest e' he'
    exact ⟨e, List.mem_cons_of_mem _ he, hrenames⟩

/-- Binders that have been given other names, and the renaming in their scope. -/
structure Refreshes (s : Subst) (binders binders' : List Binder) : Prop where
  isRenaming : s.IsRenaming
  length_eq : binders'.length = binders.length
  outside : ∀ heads heads', s.RenamesHeads heads heads' →
    heads'.filter (·.1 ∉ binderNames binders') ⊆ heads.filter (·.1 ∉ binderNames binders)

/-- From the empty substitution on, entering binders only gives them other names. -/
theorem enterBinders_refreshes {types : Table Ty}
    (h : enterBinders captured { types } binders σ = ((s', binders'), σ')) :
    s'.Refreshes binders binders' := by
  obtain ⟨hrenaming, hlength, hbound, hother⟩ := enterBinders_renames h nofun fun _ _ _ => rfl
  refine ⟨hrenaming, hlength, fun heads heads' hrenames head' hhead' => ?_⟩
  have hentered : EnteredBinders { types } s' binders binders' (heads.map Prod.fst) :=
    ⟨hrenaming, hlength, hbound, fun n _ hfree => rename_congr (hother n (.inl hfree))⟩
  obtain ⟨n, hn, hrename⟩ := hentered.renamesHeads (List.Subset.refl _) hrenames head' hhead'
  rw [rename_of_none rfl] at hrename
  rwa [hrename] at hn

end Subst

/-! ## Descent -/

namespace Expr

theorem size_pos (e : Expr) : 0 < e.size := by cases e <;> simp only [size] <;> omega

variable {pattern : Pattern} {rhs : Expr} {alts : Alts}

/-- The heads of a right-hand side that its pattern does not bind are heads of the `case`. -/
theorem heads_subset_alts (h : (pattern, rhs) ∈ alts) :
    (rhs.heads []).filter (·.1 ∉ pattern.names) ⊆ headsAlts alts := by
  induction alts with
  | nil => cases h
  | cons alt rest ih =>
    rcases List.mem_cons.mp h with rfl | h
    · exact List.subset_append_left _ _
    · exact List.subset_append_of_subset_right _ (ih h)

theorem heads_subset_rhss {binds : Binds} (h : rhs ∈ Binds.rhss binds) :
    rhs.heads [] ⊆ headsRhss binds := by
  rw [← flatMap_heads_rhss]
  exact fun _ hmem => List.mem_flatMap.mpr ⟨rhs, h, hmem⟩

theorem size_le_sizeAlts (h : (pattern, rhs) ∈ alts) : rhs.size ≤ sizeAlts alts := by
  induction alts with
  | nil => cases h
  | cons alt rest ih =>
    rw [sizeAlts]
    rcases List.mem_cons.mp h with rfl | h
    · exact Nat.le_add_right _ _
    · exact Nat.le_add_left_of_le (ih h)

theorem size_le_sizeBinds {binds : Binds} (h : rhs ∈ Binds.rhss binds) :
    rhs.size ≤ sizeBinds binds := by
  induction binds with
  | nil => cases h
  | cons bind rest ih =>
    rw [sizeBinds]
    rcases List.mem_cons.mp h with rfl | h
    · exact Nat.le_add_right _ _
    · exact Nat.le_add_left_of_le (ih h)

end Expr

namespace Inline

/-- A variable and what it is applied to, where the functions before `limit` can be inlined: it is
none of the others, and a function gets the types that it takes before any value. -/
structure Resolves (mains : List FuncDecl) (limit : Nat) (head : Name × List ArgKind) : Prop where
  earlier : head.1 ∉ (mains.drop limit).map FuncDecl.name
  types : ∀ d ∈ mains, d.name = head.1 → TypesFirst d.typeParams.length head.2

/-- Functions that can be inlined: each refers to earlier ones only, and applies them to their
types. -/
structure InOrder (mains : List FuncDecl) : Prop where
  nodup : (mains.map FuncDecl.name).Nodup
  resolves : ∀ i d, mains[i]? = some d → ∀ h ∈ d.rhs.heads [], h.1 ∉ d.paramNames →
    Resolves mains i h

/-- What is inlined into an expression that is applied to such arguments: of the functions those
before `limit`. -/
structure Fits (mains : List FuncDecl) (limit : Nat) (ctx : Context) (kinds : List ArgKind)
    (e : Expr) : Prop where
  decls : ∀ n, ctx.decls.get? n = (Context.ofDecls mains).decls.get? n
  active : ctx.active ⊆ (mains.drop limit).map FuncDecl.name
  heads : ∀ h ∈ e.heads kinds, h.1 ∉ ctx.shadowed → Resolves mains limit h

/-- The nodes that inlining may come to. -/
def weight (mains : List FuncDecl) (limit : Nat) (e : Expr) : Nat :=
  e.size + rhsSizes (mains.take limit)

/-- A result that waits for arguments gets its types first. -/
def Pending.Awaits (kinds : List ArgKind) (p : Pending) : Prop :=
  (p.typeParams = [] ∧ p.params = []) ∨ TypesFirst p.typeParams.length kinds

section

variable {mains : List FuncDecl} {limit depth : Nat} {ctx : Context} {kinds kinds' : List ArgKind}
  {e e' : Expr}
variable {p : Pending} {s : Subst} {σ σ' : Session} {d : FuncDecl} {note : Note}

theorem Pending.Awaits.of_body (kinds : List ArgKind) (e' : Expr) :
    Pending.Awaits kinds { body := e' } := .inl ⟨rfl, rfl⟩

/-- A call that waits for nothing more can be closed. -/
theorem Pending.Awaits.close (h : p.Awaits []) : p.close.Succeeds fun _ => True := by
  have htypeParams : p.typeParams = [] := by
    rcases h with ⟨hnone, _⟩ | htypes
    · exact hnone
    · exact List.length_eq_zero_iff.mp htypes.of_nil
  rw [Pending.close, htypeParams]
  exact .pure trivial

/-- A call that waits for a value takes one. -/
theorem Pending.Awaits.applyValue (h : p.Awaits (.value :: kinds)) (note : Note) (arg : Expr) :
    (p.applyValue note arg).Succeeds (Pending.Awaits kinds) := by
  obtain ⟨typeParams, params, body⟩ := p
  rcases h with ⟨rfl, rfl⟩ | htypes
  · exact .pure (.of_body kinds _)
  · obtain ⟨hcount, hvalues⟩ := htypes.of_value
    obtain rfl := List.length_eq_zero_iff.mp hcount
    cases params with
    | nil => exact .pure (.of_body kinds _)
    | cons param params =>
      exact .bind (.lift (P := fun _ => True) fun _ _ _ _ => trivial) fun _ _ =>
        .pure (.inr hvalues)

/-- A call that waits for a type takes one. -/
theorem Pending.Awaits.applyType (h : p.Awaits (.type :: kinds)) (note : Note) (ty : Ty) :
    (p.applyType note ty).Succeeds (Pending.Awaits kinds) := by
  obtain ⟨typeParams, params, body⟩ := p
  rcases h with ⟨rfl, rfl⟩ | htypes
  · exact .pure (.of_body kinds _)
  · obtain ⟨rest, hcount, htypes'⟩ := htypes.of_type
    cases typeParams with
    | nil => cases hcount
    | cons typeVar typeParams =>
      obtain rfl := Nat.succ.inj hcount
      exact .bind (.lift (P := fun _ => True) fun _ _ _ _ => trivial) fun _ _ =>
        .pure (.inr htypes')

/-- A part with no other heads fits too. -/
theorem Fits.mono (h : Fits mains limit ctx kinds e) (hheads : e'.heads kinds' ⊆ e.heads kinds) :
    Fits mains limit ctx kinds' e' := ⟨h.decls, h.active, fun _ hmem => h.heads _ (hheads hmem)⟩

/-- Under binders. -/
theorem Fits.enter {binders binders' : List Binder} {whole : Expr}
    (h : Fits mains limit ctx kinds whole) (hbinders : s.Refreshes binders binders')
    (hrenames : s.RenamesTo e e')
    (hheads : (e.heads []).filter (·.1 ∉ binderNames binders) ⊆ whole.heads kinds) :
    Fits mains limit (ctx.shadow binders') [] e' := by
  refine ⟨h.decls, h.active, fun head hmem hshadowed => ?_⟩
  obtain ⟨hbinder, hshadowed'⟩ := not_or.mp (mt List.mem_append.mpr hshadowed)
  have houter :=
    hbinders.outside _ _ (hrenames.heads []) (List.mem_filter.mpr ⟨hmem, decide_eq_true hbinder⟩)
  exact h.heads head (hheads houter) hshadowed'

theorem values_ofDecls (hnodup : (mains.map FuncDecl.name).Nodup) :
    (Context.ofDecls mains).decls.values = mains := by
  have hkeys : ((mains.map fun d => (d.name, d)).map Prod.fst).Nodup := by rwa [List.map_map]
  rw [Table.values, Context.ofDecls, Table.entries_ofList hkeys, List.map_map]
  exact List.map_id _

theorem avoidCapture_succeeds (ctx : Context) (binders : List Binder) :
    Compile.Succeeds (liftM (ctx.avoidCapture binders)) fun entered =>
      entered.1.Refreshes binders entered.2 :=
  .lift fun _ _ _ hrun => Subst.enterBinders_refreshes hrun

/-- Renaming never fails. -/
theorem rename_succeeds (hs : s.IsRenaming) (e : Expr) :
    Compile.Succeeds (liftM (s.apply e)) (s.RenamesTo e) :=
  .lift fun _ _ _ hrun => Subst.apply_renames hrun hs

theorem length_freshTypeParams {s' : Subst} {params : List TypeParam} {names : List Name}
    (h : freshTypeParams s params σ = ((s', names), σ')) : names.length = params.length := by
  induction params generalizing s names σ with
  | nil =>
    obtain ⟨heq, rfl⟩ := Naming.pure_eq.mp h
    obtain ⟨rfl, rfl⟩ := Prod.mk.inj heq
    rfl
  | cons p rest ih =>
    simp only [freshTypeParams, Naming.bind_eq, Naming.pure_eq] at h
    obtain ⟨fresh, σ₁, _, ⟨s₂, rest'⟩, σ₂, hrest, heq, rfl⟩ := h
    obtain ⟨rfl, rfl⟩ := Prod.mk.inj heq
    exact congrArg (· + 1) (ih hrest)

/-- A function with fresh parameters. -/
theorem instantiate_renames (h : instantiate d σ = (p, σ')) :
    p.typeParams.length = d.typeParams.length ∧
      ∃ s : Subst, s.Refreshes d.params p.params ∧ s.RenamesTo d.rhs p.body := by
  simp only [instantiate, Naming.bind_eq, Naming.pure_eq] at h
  obtain ⟨⟨⟨exprs, types⟩, typeParams⟩, σ₁, htypes, ⟨s, params⟩, σ₂, henter, body, σ₃, hbody,
    rfl, rfl⟩ := h
  obtain ⟨hexprs, _⟩ := freshTypeParams_exprs htypes
  obtain rfl : exprs = {} := hexprs
  have hbinders := Subst.enterBinders_refreshes henter
  exact ⟨length_freshTypeParams htypes, s, hbinders, Subst.apply_renames hbody hbinders.isRenaming⟩

/-- Fresh parameters do not change the size of a right-hand side. -/
theorem instantiate_size (h : instantiate d σ = (p, σ')) :
    p.body.size = d.rhs.size := by
  obtain ⟨_, s, _, hrenames⟩ := instantiate_renames h
  exact hrenames.size

/-- Where a function is unfolded, its own size is left over from the sizes of the functions before
it. -/
theorem rhsSizes_take {i : Nat} (h : mains[i]? = some d) (hi : i < limit) :
    rhsSizes (mains.take i) + (d.rhs.size + 1) ≤ rhsSizes (mains.take limit) := by
  induction mains generalizing i limit with
  | nil => cases h
  | cons first rest ih =>
    obtain ⟨limit, rfl⟩ := Nat.exists_eq_add_one_of_ne_zero (Nat.ne_zero_of_lt hi)
    cases i with
    | zero =>
      obtain rfl := Option.some.inj h
      rw [List.take_zero, List.take_succ_cons, rhsSizes, rhsSizes]
      omega
    | succ i =>
      have hrest := ih h (Nat.lt_of_succ_lt_succ hi)
      rw [List.take_succ_cons, List.take_succ_cons, rhsSizes, rhsSizes]
      omega

/-- What an unfolded function refers to comes before it. -/
theorem Fits.unfold {i : Nat} {params : List Binder} {body : Expr} (horder : InOrder mains)
    (h : Fits mains limit ctx kinds (.var note d.name)) (hi : mains[i]? = some d)
    (hlimit : i < limit) (hbinders : s.Refreshes d.params params)
    (hrenames : s.RenamesTo d.rhs body) :
    Fits mains i { ctx.shadow params with active := d.name :: ctx.active } [] body := by
  have hname : d.name ∈ (mains.drop i).map FuncDecl.name :=
    List.mem_map_of_mem (List.mem_of_getElem? (i := 0) (by rwa [List.getElem?_drop]))
  have hdrop : (mains.drop limit).map FuncDecl.name ⊆ (mains.drop i).map FuncDecl.name :=
    ((List.drop_sublist_drop_left mains hlimit.le).map _).subset
  refine ⟨h.decls, List.cons_subset.mpr ⟨hname, List.Subset.trans h.active hdrop⟩,
    fun head hmem hshadowed => ?_⟩
  have hbinder := (not_or.mp (mt List.mem_append.mpr hshadowed)).1
  have houter :=
    hbinders.outside _ _ (hrenames.heads []) (List.mem_filter.mpr ⟨hmem, decide_eq_true hbinder⟩)
  exact horder.resolves i d hi head (List.mem_filter.mp houter).1
    (of_decide_eq_true (List.mem_filter.mp houter).2)

/-- What a name is unfolded to is one of the functions before the limit. -/
theorem exists_index {name : Name} (h : Fits mains limit ctx kinds (.var note name))
    (hdecl : ctx.decl? name = some d) :
    d.name = name ∧ name ∉ ctx.shadowed ∧ ∃ i < limit, mains[i]? = some d := by
  rw [Context.decl?] at hdecl
  split at hdecl
  · cases hdecl
  · next hshadowed =>
    rw [h.decls] at hdecl
    obtain ⟨d', hmem, heq⟩ := List.mem_map.mp (Table.mem_of_get?_ofList hdecl)
    obtain ⟨rfl, rfl⟩ := Prod.mk.inj heq
    obtain ⟨i, hi⟩ := List.mem_iff_getElem?.mp hmem
    refine ⟨rfl, hshadowed, i, Nat.lt_of_not_le fun hle => ?_, hi⟩
    -- from `limit` on there are only functions that the expression does not refer to
    have hresolves := h.heads _ (List.mem_singleton.mpr rfl) hshadowed
    refine hresolves.earlier (List.mem_map_of_mem (List.mem_of_getElem? (i := i - limit) ?_))
    rwa [List.getElem?_drop, Nat.add_sub_cancel' hle]

/-- The descent succeeds down to this depth. -/
def DescendSucceeds (mains : List FuncDecl) (depth : Nat) : Prop :=
  ∀ {limit : Nat} {ctx : Context} {kinds : List ArgKind} {e : Expr}, Fits mains limit ctx kinds e →
    weight mains limit e ≤ depth → (descend depth ctx e).Succeeds (Pending.Awaits kinds)

theorem DescendSucceeds.value (h : DescendSucceeds mains depth) (hfits : Fits mains limit ctx [] e)
    (hweight : weight mains limit e ≤ depth) :
    Compile.Succeeds (do (← descend depth ctx e).close) fun _ => True :=
  (h hfits hweight).bind fun _ hp => hp.close

/-- An alternative, or another part under binders. -/
theorem DescendSucceeds.under {binders binders' : List Binder} {whole : Expr}
    (h : DescendSucceeds mains depth) (hfits : Fits mains limit ctx kinds whole)
    (hweight : weight mains limit whole ≤ depth + 1) (hsize : e.size < whole.size)
    (hbinders : s.Refreshes binders binders') (hrenames : s.RenamesTo e e')
    (hheads : (e.heads []).filter (·.1 ∉ binderNames binders) ⊆ whole.heads kinds) :
    Compile.Succeeds (do (← descend depth (ctx.shadow binders') e').close) fun _ => True := by
  refine h.value (hfits.enter hbinders hrenames hheads) ?_
  rw [weight, hrenames.size]
  unfold weight at hweight
  omega

/-- A function is unfolded. -/
theorem DescendSucceeds.unfold (h : DescendSucceeds mains depth) (horder : InOrder mains)
    {name : Name} (hdecl : ctx.decl? name = some d)
    (hfits : Fits mains limit ctx kinds (.var note name))
    (hweight : weight mains limit (.var note name) ≤ depth + 1) :
    (descend (depth + 1) ctx (.var note name)).Succeeds (Pending.Awaits kinds) := by
  obtain ⟨rfl, hshadowed, i, hlimit, hi⟩ := exists_index hfits hdecl
  have hresolves := hfits.heads _ (List.mem_singleton.mpr rfl) hshadowed
  -- what is being unfolded comes after all that is referred to, so the function is not met inside
  -- of itself
  have hinactive : d.name ∉ ctx.active := fun hactive => hresolves.earlier (hfits.active hactive)
  rw [descend]
  simp only [hdecl, if_neg hinactive]
  refine .bind (.lift fun _ _ _ hrun => instantiate_renames hrun) fun p hp => ?_
  obtain ⟨hcount, s, hbinders, hrenames⟩ := hp
  have hbody : weight mains i p.body ≤ depth := by
    have hsizes := rhsSizes_take hi hlimit
    rw [weight, hrenames.size]
    simp only [weight, Expr.size] at hweight
    omega
  have htypes := hresolves.types d (List.mem_of_getElem? hi) rfl
  exact (h.value (hfits.unfold horder hi hlimit hbinders hrenames) hbody).bind fun _ _ =>
    .pure (.inr (hcount ▸ htypes))

/-- **Inlining succeeds.** By induction on the depth of the descent. -/
theorem descend_succeeds (horder : InOrder mains) (depth : Nat) : DescendSucceeds mains depth := by
  induction depth with
  | zero =>
    -- an expression has a node
    intro limit ctx kinds e _ hweight
    have hpos := e.size_pos
    unfold weight at hweight
    omega
  | succ depth ih =>
    intro limit ctx kinds e hfits hweight
    -- all parts have less weight, with the same functions in reach
    have hsmaller : ∀ {part : Expr}, part.size < e.size → weight mains limit part ≤ depth := by
      intro part hsize
      unfold weight at hweight ⊢
      omega
    cases e with
    -- only here the limit falls: a function refers to those before it
    | var note name =>
      cases hdecl : ctx.decl? name with
      | some d => exact ih.unfold horder hdecl hfits hweight
      | none =>
        rw [descend]
        simp only [hdecl]
        exact .pure (.of_body kinds _)
    | con note name | intLit note value | undefined note | error note message =>
      exact .pure (.of_body kinds _)
    | app note fn arg =>
      have hfn :=
        ih (hfits.mono (List.subset_append_left _ _)) (hsmaller (by rw [Expr.size]; omega))
      have harg :=
        ih.value (hfits.mono (List.subset_append_right _ _)) (hsmaller (by rw [Expr.size]; omega))
      rw [descend]
      exact hfn.bind fun p hp => harg.bind fun arg' _ => hp.applyValue note arg'
    | typeApp note fn ty =>
      have hfits' : Fits mains limit ctx (.type :: kinds) fn := hfits.mono (List.Subset.refl _)
      have hfn := ih hfits' (hsmaller (by rw [Expr.size]; omega))
      rw [descend]
      exact hfn.bind fun p hp => hp.applyType note ty
    | cond note test thenBranch elseBranch =>
      have htest :=
        ih.value (hfits.mono (List.subset_append_of_subset_left _ (List.subset_append_left _ _)))
          (hsmaller (by rw [Expr.size]; omega))
      have hthen :=
        ih.value (hfits.mono (List.subset_append_of_subset_left _ (List.subset_append_right _ _)))
          (hsmaller (by rw [Expr.size]; omega))
      have helse :=
        ih.value (hfits.mono (List.subset_append_right _ _)) (hsmaller (by rw [Expr.size]; omega))
      rw [descend]
      exact htest.bind fun _ _ => hthen.bind fun _ _ => helse.bind fun _ _ =>
        .pure (.of_body kinds _)
    -- under binders the expression is renamed first, which changes no weight
    | case note scrutinee alts =>
      have hscrutinee :=
        ih.value (hfits.mono (List.subset_append_left _ _)) (hsmaller (by rw [Expr.size]; omega))
      rw [descend]
      refine hscrutinee.bind fun _ _ =>
          .bind (.mapM (P := fun _ _ => True) fun alt halt => ?_) fun _ _ =>
        .pure (.of_body kinds _)
      obtain ⟨pattern, rhs⟩ := alt
      refine (avoidCapture_succeeds ctx pattern.binders).bind fun entered hbinders => ?_
      refine (rename_succeeds hbinders.isRenaming rhs).bind fun rhs' hrenames => ?_
      have hsize := Expr.size_le_sizeAlts halt
      refine (ih.under hfits hweight (by rw [Expr.size]; omega) hbinders hrenames ?_).bind
        fun _ _ => .pure trivial
      exact List.subset_append_of_subset_right _ (Expr.heads_subset_alts halt)
    | lam note params body =>
      rw [descend]
      refine (avoidCapture_succeeds ctx params).bind fun entered hbinders => ?_
      refine (rename_succeeds hbinders.isRenaming body).bind fun body' hrenames => ?_
      have hbody :=
        ih.under hfits hweight (by rw [Expr.size]; omega) hbinders hrenames (List.Subset.refl _)
      exact hbody.bind fun _ _ => .pure (.of_body kinds _)
    | letRec note binds body =>
      rw [descend]
      refine (avoidCapture_succeeds ctx (Binds.binders binds)).bind fun entered hbinders => ?_
      have hrename : Compile.Succeeds (liftM (entered.1.applyAll (Binds.rhss binds)))
          fun rhss => ∀ rhs' ∈ rhss, ∃ rhs ∈ Binds.rhss binds, entered.1.RenamesTo rhs rhs' :=
        .lift fun _ _ _ hrun => Subst.applyAll_renames hrun hbinders.isRenaming
      refine hrename.bind fun rhss hrhss =>
        (rename_succeeds hbinders.isRenaming body).bind fun body' hrenames => ?_
      refine .bind (.mapM (P := fun _ _ => True) fun rhs' hrhs' => ?_) fun _ _ => ?_
      · obtain ⟨rhs, hrhs, hrenames'⟩ := hrhss rhs' hrhs'
        have hsize := Expr.size_le_sizeBinds hrhs
        refine ih.under hfits hweight (by rw [Expr.size]; omega) hbinders hrenames'
          (List.filter_subset _ ?_)
        exact List.subset_append_of_subset_left _ (Expr.heads_subset_rhss hrhs)
      · refine (ih.under hfits hweight (by rw [Expr.size]; omega) hbinders hrenames ?_).bind
            fun _ _ =>
          .pure (.of_body kinds _)
        exact List.filter_subset _ (List.subset_append_right _ _)

end

end Inline

/-- **Inlining into a function** succeeds and keeps the number of its parameters. -/
theorem inlineDecl_succeeds {mains : List FuncDecl} (horder : Inline.InOrder mains) {d : FuncDecl}
    (htypes : ∀ h ∈ d.rhs.heads [], h.1 ∉ d.paramNames → ∀ main ∈ mains, main.name = h.1 →
      TypesFirst main.typeParams.length h.2) :
    (inlineDecl mains d).Succeeds fun d' => d'.params.length = d.params.length := by
  rw [inlineDecl]
  refine (Inline.avoidCapture_succeeds _ d.params).bind fun entered hbinders => ?_
  obtain ⟨s, params⟩ := entered
  refine (Inline.rename_succeeds hbinders.isRenaming d.rhs).bind fun rhs hrenames => ?_
  have hfits : Inline.Fits mains mains.length
      ((Inline.Context.ofDecls mains).shadow params) [] rhs := by
    refine ⟨fun _ => rfl, List.nil_subset _, fun h hmem hshadowed => ⟨?_, ?_⟩⟩
    · rw [List.drop_length]
      exact List.not_mem_nil
    · have hbinder := (not_or.mp (mt List.mem_append.mpr hshadowed)).1
      have houter :=
        hbinders.outside _ _ (hrenames.heads [])
          (List.mem_filter.mpr ⟨hmem, decide_eq_true hbinder⟩)
      exact htypes h (List.mem_filter.mp houter).1 (of_decide_eq_true (List.mem_filter.mp houter).2)
  -- the bound of the descent counts all functions, as the weight does
  have hweight : Inline.weight mains mains.length rhs ≤
      ((Inline.Context.ofDecls mains).shadow params).bound rhs := by
    rw [Inline.weight, List.take_length, Inline.Context.bound, Inline.Context.shadow,
      Inline.values_ofDecls horder.nodup]
  have hvalue := Inline.DescendSucceeds.value (Inline.descend_succeeds horder _) hfits hweight
  exact hvalue.bind fun _ _ => .pure hbinders.length_eq

end StructRec
