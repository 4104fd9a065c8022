import StructRec.Proofs.GroupOccurrences
import StructRec.Proofs.Helpers
import StructRec.Proofs.Restoring

/-!
# StructRec — splitting is undone by inlining

A helper takes the variables of the scopes around its `case` as parameters, and is called with just
these variables in the place of the `case`. So the main function is the original one with calls in
it that stand for the lifted cases (`Nameless.Restores`), and inlining the helpers gives back the
original right-hand side, up to the names of bound variables.

What a helper uses beside its parameters is defined in no scope around its call. That is what makes
the relation pass through the binders of the function (`Split.Restored`): another binder of the same
name somewhere else does not matter.
-/

namespace StructRec

variable {e : Expr}

namespace Expr

/-- No name in the expression has the mark of generated names. -/
def Unmarked (e : Expr) : Prop := e.Uses (·.isMarked = false) (·.isMarked = false)

theorem Unmarked.settled (h : e.Unmarked) (c : Counters) : e.Settled c :=
  Uses.imp h (fun _ hn => Counters.settled_of_unmarked hn) fun _ _ _ => trivial

theorem Unmarked.free (h : e.Unmarked) : ∀ n ∈ e.freeOccs, n.isMarked = false :=
  ((uses_iff e).mp h).1

theorem nameless_withNote (note : Note) (e : Expr) :
    (e.withNote note).nameless = e.nameless := by cases e <;> rfl

theorem applied_applyTypes {f : Name} {types : List Ty} {fn : Expr}
    (h : Nameless.Applied f types [] fn.nameless) (types' : List Ty) :
    Nameless.Applied f (types ++ types') [] (fn.applyTypes types').nameless := by
  induction types' generalizing types fn with
  | nil => rwa [List.append_nil]
  | cons ty rest ih =>
    have hfirst : Nameless.Applied f (types ++ [ty]) [] (fn.applyType ty).nameless := .type ty h
    have hrest := ih hfirst
    rwa [List.append_assoc] at hrest

/-- An application to variables is one in the nameless term. -/
theorem applied_apply {f : Name} {types : List Ty} {args : List Nameless.Variable} {fn : Expr}
    (h : Nameless.Applied f types args fn.nameless) (vars : List Binder) :
    Nameless.Applied f types (args ++ vars.map fun b => .free b.name)
      (fn.apply (vars.map Binder.toExpr)).nameless := by
  induction vars generalizing args fn with
  | nil => rwa [List.map_nil, List.append_nil]
  | cons b rest ih =>
    have hfirst : Nameless.Applied f types (args ++ [.free b.name])
        (fn.applyValue b.toExpr).nameless :=
      .value (.free b.name) h
    have hrest := ih hfirst
    rwa [List.append_assoc] at hrest

end Expr

namespace Split

variable {table : Name → Option FuncDecl} {scope : ScopeStack (Option Ty)} {t t' : Nameless}
  {d : FuncDecl} {param : Name} {σ σ' : Session}
variable {helpers : List Helper}

/-! ## Calls in a scope -/

/-- A term and the term with its calls put back, where the functions that are called use nothing
that the scope defines but what they are given. -/
structure Restored (table : Name → Option FuncDecl) (scope : ScopeStack (Option Ty))
    (t t' : Nameless) : Prop where
  restores : Nameless.Restores table t t'
  outside : ∀ f ∈ t.freeNames, ∀ d, table f = some d → ∀ n ∈ d.rhs.freeOccs, n ∉ d.paramNames →
    scope.isDefined n = false

def RestoredPart (table : Name → Option FuncDecl) (scope : ScopeStack (Option Ty))
    (part part' : Nat × Nameless) : Prop :=
  part.1 = part'.1 ∧ Restored table scope part.2 part'.2

namespace Restored

theorem of_none (h : ∀ n ∈ t.freeNames, table n = none) : Restored table scope t t := by
  refine ⟨.of_none h, fun f hf d hd => ?_⟩
  rw [h f hf] at hd
  cases hd

theorem part (h : Restored table scope t t') : RestoredPart table scope (0, t) (0, t') := ⟨rfl, h⟩

theorem node {parts parts' : List (Nat × Nameless)} (former : Former)
    (h : List.Forall₂ (RestoredPart table scope) parts parts') :
    Restored table scope (.node former parts) (.node former parts') := by
  have hsome : ∀ part ∈ parts, ∃ part', RestoredPart table scope part part' := by
    induction h with
    | nil => exact List.forall_mem_nil _
    | cons hpart _ ih => exact List.forall_mem_cons.mpr ⟨⟨_, hpart⟩, ih⟩
  refine ⟨.of_parts former (h.imp fun _ _ hpart => ⟨hpart.1, hpart.2.restores⟩), fun f hf => ?_⟩
  rw [Nameless.freeNames_node] at hf
  obtain ⟨part, hpart, hf⟩ := List.mem_flatMap.mp hf
  obtain ⟨part', _, hrestored⟩ := hsome part hpart
  exact hrestored.outside f hf

/-- **Under binders** the functions that are called do not use the names of the binders. -/
theorem under {binders : List Binder} (h : Restored table (enter scope binders) t t')
    (hbinders : ∀ n ∈ binderNames binders, table n = none) :
    RestoredPart table scope (t.under (binderNames binders)) (t'.under (binderNames binders)) := by
  have hdefined : ∀ n, (enter scope binders).isDefined n = false →
      n ∉ binderNames binders ∧ scope.isDefined n = false := by
    intro n hn
    rw [enter, ScopeStack.isDefined_enter, Bool.or_eq_false_iff, decide_eq_false_iff_not,
      List.map_map] at hn
    exact hn
  have hhide : Nameless.hide table (binderNames binders) = table := by
    funext n
    unfold Nameless.hide
    split
    · next hmem => exact (hbinders n hmem).symm
    · rfl
  refine ⟨rfl, ?_, fun f hf d hd n hn hparam => ?_⟩
  · refine Nameless.Restores.capture (hhide.symm ▸ h.restores) (fun f hf d hd n hn hparam => ?_) 0
    exact (hdefined n (h.outside f hf d hd n hn hparam)).1
  · rw [Nameless.freeNames_under] at hf
    exact (hdefined n (h.outside f (List.mem_filter.mp hf).1 d hd n hn hparam)).2

end Restored

/-! ## Helpers -/

/-- A helper of a function, apart from its name and its decreasing parameter. -/
structure Lifted (d : FuncDecl) (h : Helper) : Prop where
  typeParams : h.decl.typeParams = d.typeParams
  nodup : h.decl.paramNames.Nodup
  params : ∀ n ∈ h.decl.paramNames, n.isMarked = false
  rhs : h.decl.rhs.Unmarked

/-- **A lifted expression** is called with the variables that it uses. -/
theorem makeHelper_restored {returnTy : Option Ty} {vars : List (Name × Option Ty)}
    {body call : Expr} {helper : Helper} (hplain : ∀ n, n.isMarked = false → table n = none)
    (hparam : param ∈ vars.map Prod.fst) (hnodup : (vars.map Prod.fst).Nodup)
    (hvars : ∀ n ∈ vars.map Prod.fst, n.isMarked = false) (hbody : body.Unmarked)
    (hcover : ∀ n ∈ body.freeOccs, n ∉ vars.map Prod.fst → scope.isDefined n = false)
    (h : makeHelper d param returnTy vars body σ = ((helper, call), σ'))
    (htable : table helper.decl.name = some helper.decl) :
    σ.counters ≤ σ'.counters ∧ call.Settled σ'.counters ∧
      Restored table scope call.nameless body.nameless ∧
      Lifted d helper := by
  simp only [makeHelper, Naming.bind_eq, Naming.pure_eq, Session.modifyEnv_eq] at h
  obtain ⟨name, σ₁, hfresh, _, _, rfl, heq, rfl⟩ := h
  obtain ⟨rfl, rfl⟩ := Prod.mk.inj heq
  obtain ⟨_, hgrows, _, hsettled, _⟩ := freshName_spec hfresh
  have hnames : binderNames
      (vars.map fun x => { name := x.1, ty := x.2, span := body.span : Binder }) =
      vars.map Prod.fst :=
    List.map_map
  have hfree : (vars.map fun x => { name := x.1, ty := x.2, span := body.span : Binder }).map
      (fun b => .free b.name) = (vars.map Prod.fst).map Nameless.Variable.free := by
    rw [List.map_map, List.map_map]
    rfl
  have hhead : Nameless.Applied name [] [] (Expr.var {} name).nameless := .head
  -- the call passes every variable under its own name
  have happlied :=
    Expr.applied_apply (Expr.applied_applyTypes hhead (d.typeParams.map TypeParam.toTy))
      (vars.map fun x => { name := x.1, ty := x.2, span := body.span : Binder })
  rw [List.nil_append, List.nil_append, hfree] at happlied
  have hargs : ∀ n, .free n ∈ (vars.map Prod.fst).map Nameless.Variable.free → table n = none := by
    intro n hn
    obtain ⟨m, hm, heq⟩ := List.mem_map.mp hn
    obtain rfl := Nameless.Variable.free.inj heq
    exact hplain m (hvars m hm)
  rw [← hnames] at hnodup
  refine ⟨hgrows, ?_, ⟨?_, ?_⟩, ⟨rfl, hnodup, fun n hn => hvars n (hnames ▸ hn), hbody⟩⟩
  · refine Expr.uses_withNote
      (Expr.uses_apply ?_ (List.forall_mem_map.mpr fun b hb => Expr.settled_var _ ?_))
      (Expr.annotationUses_true _)
    · exact Expr.uses_applyTypes ⟨Expr.annotationUses_none, hsettled⟩ fun _ _ _ _ => trivial
    · have hmem := List.mem_map_of_mem (f := Binder.name) hb
      rw [← binderNames, hnames] at hmem
      exact Counters.settled_of_unmarked (hvars b.name hmem)
  · rw [Expr.nameless_withNote]
    have hcall := Nameless.Restores.call htable happlied (by simp) (by
      intro hnil
      rw [List.map_eq_nil_iff] at hnil
      rw [hnil] at hparam
      cases hparam) hargs
    -- every variable is passed as itself
    have hself : body.nameless.mapFree
        (Nameless.fill (vars.map Prod.fst) ((vars.map Prod.fst).map .free)) id 0 = body.nameless :=
      (Nameless.mapFree_congr (fun n _ depth => Nameless.fill_self _ depth n) fun _ _ => rfl).trans
        (Nameless.mapFree_self _ 0)
    rw [FuncDecl.paramNames, hnames, hself] at hcall
    exact hcall
  · -- free in the call are the helper and the variables passed, and only the helper stands for a
    -- body
    intro f hf d' hd' n hn hother
    rw [Expr.nameless_withNote] at hf
    rcases happlied.freeNames hf with rfl | hvar
    · rw [htable] at hd'
      obtain rfl := Option.some.inj hd'
      rw [FuncDecl.paramNames, hnames] at hother
      exact hcover n hn hother
    · rw [hargs f hvar] at hd'
      cases hd'

/-! ## Extraction -/

/-- What extraction makes of an expression. -/
structure Extracted (d : FuncDecl) (table : Name → Option FuncDecl) (scope : ScopeStack (Option Ty))
    (helpers : List Helper) (e e' : Expr) (c c' : Counters) : Prop where
  grows : c ≤ c'
  settled : e'.Settled c'
  restored : Restored table scope e'.nameless e.nameless
  lifted : ∀ h ∈ helpers, Lifted d h

theorem Extracted.refl (hplain : ∀ n, n.isMarked = false → table n = none) (he : e.Unmarked)
    (c : Counters) : Extracted d table scope [] e e c c :=
  ⟨le_rfl, he.settled c, .of_none fun n hn => hplain n (he.free n (Expr.freeNames_nameless e ▸ hn)),
    List.forall_mem_nil _⟩

mutual

/-- **Extraction** leaves calls that stand for what has been lifted. -/
theorem Lifts.restored (hplain : ∀ n, n.isMarked = false → table n = none)
    {scope returnTy e σ helpers e' σ'} (h : Lifts d param scope returnTy e σ helpers e' σ')
    (he : e.Unmarked) (htable : ∀ h ∈ helpers, table h.decl.name = some h.decl) :
    Extracted d table scope helpers e e' σ.counters σ'.counters := by
  cases h with
  | leaf => exact .refl hplain he _
  | @lift _ _ note scrutinee alts _ helper _ _ hcase hmake =>
    have hmem := Surface.mem_captured_iff scope (.case note scrutinee alts)
    have hnodup : ((captured scope (.case note scrutinee alts)).map Prod.fst).Nodup :=
      (ScopeStack.nodup_visible scope).sublist (List.filter_sublist.map _)
    -- a variable that the scopes define is captured if the case uses it
    obtain ⟨hgrows, hsettled, hrestored, hlifted⟩ :=
      makeHelper_restored hplain (param_mem_captured hcase) hnodup
        (fun n hn => Expr.Unmarked.free he n ((hmem n).mp hn).2) he
        (fun n hn hother => Bool.eq_false_iff.mpr fun hdefined =>
          hother ((hmem n).mpr ⟨hdefined, hn⟩))
        hmake (htable helper List.mem_cons_self)
    exact ⟨hgrows, hsettled, hrestored, List.forall_mem_singleton.mpr hlifted⟩
  -- no case on the parameter: both parts are gone through
  | case _ hscrutinee halts =>
    obtain ⟨htable₁, htable₂⟩ := List.forall_mem_append.mp htable
    obtain ⟨hgrows, hsettled, hrestored, hlifted⟩ := hscrutinee.restored hplain he.2.1 htable₁
    obtain ⟨hgrows', hsettled', hshapes, hparts, hlifted'⟩ := halts.restored hplain he.2.2 htable₂
    refine ⟨hgrows.trans hgrows',
      ⟨Expr.annotationUses_true _, hsettled.mono hgrows', hsettled'⟩, ?_,
      List.forall_mem_append.mpr ⟨hlifted, hlifted'⟩⟩
    rw [Expr.nameless, Expr.nameless, hshapes]
    exact .node _ (.cons hrestored.part hparts)
  | app hfn harg =>
    obtain ⟨htable₁, htable₂⟩ := List.forall_mem_append.mp htable
    obtain ⟨hgrows, hsettled, hrestored, hlifted⟩ := hfn.restored hplain he.2.1 htable₁
    obtain ⟨hgrows', hsettled', hrestored', hlifted'⟩ := harg.restored hplain he.2.2 htable₂
    exact ⟨hgrows.trans hgrows', ⟨Expr.annotationUses_true _, hsettled.mono hgrows', hsettled'⟩,
      .node _ (.cons hrestored.part (.cons hrestored'.part .nil)),
      List.forall_mem_append.mpr ⟨hlifted, hlifted'⟩⟩
  | @typeApp _ _ _ _ _ ty _ _ _ hfn =>
    obtain ⟨hgrows, hsettled, hrestored, hlifted⟩ := hfn.restored hplain he.2.1 htable
    exact ⟨hgrows, ⟨Expr.annotationUses_true _, hsettled, fun _ _ => trivial⟩,
      ⟨.typeApp ty hrestored.restores, hrestored.outside⟩, hlifted⟩
  | cond htest hthen helse =>
    obtain ⟨htable', htable₃⟩ := List.forall_mem_append.mp htable
    obtain ⟨htable₁, htable₂⟩ := List.forall_mem_append.mp htable'
    obtain ⟨hgrows₁, hsettled₁, hrestored₁, hlifted₁⟩ := htest.restored hplain he.2.1 htable₁
    obtain ⟨hgrows₂, hsettled₂, hrestored₂, hlifted₂⟩ := hthen.restored hplain he.2.2.1 htable₂
    obtain ⟨hgrows₃, hsettled₃, hrestored₃, hlifted₃⟩ := helse.restored hplain he.2.2.2 htable₃
    refine ⟨hgrows₁.trans (hgrows₂.trans hgrows₃), ⟨Expr.annotationUses_true _,
      hsettled₁.mono (hgrows₂.trans hgrows₃), hsettled₂.mono hgrows₃, hsettled₃⟩, ?_,
      List.forall_mem_append.mpr ⟨List.forall_mem_append.mpr ⟨hlifted₁, hlifted₂⟩, hlifted₃⟩⟩
    exact .node _ (.cons hrestored₁.part (.cons hrestored₂.part (.cons hrestored₃.part .nil)))
  -- binders of a source text are not named like helpers
  | lam hbody =>
    obtain ⟨hgrows, hsettled, hrestored, hlifted⟩ := hbody.restored hplain he.2.2 htable
    have hbinders := (binders_uses_iff.mp he.2.1).1
    refine ⟨hgrows, ⟨Expr.annotationUses_true _, ?_, hsettled⟩,
      .node _ (.cons (hrestored.under fun n hn => hplain n (hbinders n hn)) .nil), hlifted⟩
    exact Expr.binders_settled_iff.mpr fun n hn => Counters.settled_of_unmarked (hbinders n hn)
  | @letRec _ _ _ binds binds' _ _ _ _ _ _ _ hbinds hbody =>
    obtain ⟨htable₁, htable₂⟩ := List.forall_mem_append.mp htable
    obtain ⟨hgrows, hbinders', hsettled, hparts, hlifted⟩ :=
      hbinds.restored hplain he.2.2.1 htable₁
    obtain ⟨hgrows', hsettled', hrestored, hlifted'⟩ := hbody.restored hplain he.2.2.2 htable₂
    have hbinders := (binders_uses_iff.mp he.2.1).1
    -- the binders scope over all parts, so each part is restored under them
    have hnone : ∀ n ∈ binderNames (Binds.binders binds), table n = none :=
      fun n hn => hplain n (hbinders n hn)
    have hnames : Binds.names binds' = binderNames (Binds.binders binds) := by
      rw [← hbinders']
      rfl
    refine ⟨hgrows.trans hgrows', ⟨Expr.annotationUses_true _, ?_, ?_, hsettled'⟩, ?_,
      List.forall_mem_append.mpr ⟨hlifted, hlifted'⟩⟩
    · rw [hbinders']
      exact Expr.binders_settled_iff.mpr fun n hn => Counters.settled_of_unmarked (hbinders n hn)
    · exact Expr.usesRhss_iff.mpr fun rhs hrhs =>
        Expr.Settled.mono (Expr.usesRhss_iff.mp hsettled rhs hrhs) hgrows'
    · rw [Expr.nameless, Expr.nameless, Expr.namelessRhss_eq, Expr.namelessRhss_eq, hnames]
      refine .node _ (List.rel_append ?_ (.cons (hrestored.under hnone) .nil))
      rw [List.forall₂_map_left_iff, List.forall₂_map_right_iff]
      exact hparts.imp fun _ _ hrhs => hrhs.under hnone

/-- **Alternatives**, one after the other. -/
theorem LiftsAlts.restored (hplain : ∀ n, n.isMarked = false → table n = none)
    {scope alts σ helpers alts' σ'} (h : LiftsAlts d param scope alts σ helpers alts' σ')
    (halts : Expr.UsesAlts (·.isMarked = false) (·.isMarked = false) alts)
    (htable : ∀ h ∈ helpers, table h.decl.name = some h.decl) :
    σ.counters ≤ σ'.counters ∧ Expr.UsesAlts σ'.counters.Settled (fun _ => True) alts' ∧
      alts'.map (·.1.shape) = alts.map (·.1.shape) ∧
      List.Forall₂ (RestoredPart table scope) (Expr.namelessAlts alts') (Expr.namelessAlts alts) ∧
      ∀ h ∈ helpers, Lifted d h := by
  cases h with
  | nil => exact ⟨le_rfl, trivial, rfl, .nil, List.forall_mem_nil _⟩
  | @cons _ pattern _ _ _ _ _ _ _ _ _ hrhs hrest =>
    obtain ⟨htable₁, htable₂⟩ := List.forall_mem_append.mp htable
    obtain ⟨hgrows, hsettled, hrestored, hlifted⟩ := hrhs.restored hplain halts.2.1 htable₁
    obtain ⟨hgrows', hsettled', hshapes, hparts, hlifted'⟩ :=
      hrest.restored hplain halts.2.2 htable₂
    have hbinders := (binders_uses_iff.mp halts.1).1
    refine ⟨hgrows.trans hgrows', ⟨?_, hsettled.mono hgrows', hsettled'⟩,
      congrArg (pattern.shape :: ·) hshapes,
      .cons (hrestored.under fun n hn => hplain n (hbinders n hn)) hparts,
      List.forall_mem_append.mpr ⟨hlifted, hlifted'⟩⟩
    exact Expr.binders_settled_iff.mpr fun n hn => Counters.settled_of_unmarked (hbinders n hn)

/-- The bindings of a `let`. -/
theorem LiftsBinds.restored (hplain : ∀ n, n.isMarked = false → table n = none)
    {scope binds σ helpers binds' σ'} (h : LiftsBinds d param scope binds σ helpers binds' σ')
    (hbinds : Expr.UsesRhss (·.isMarked = false) (·.isMarked = false) binds)
    (htable : ∀ h ∈ helpers, table h.decl.name = some h.decl) :
    σ.counters ≤ σ'.counters ∧ Binds.binders binds' = Binds.binders binds ∧
      Expr.UsesRhss σ'.counters.Settled (fun _ => True) binds' ∧
      List.Forall₂ (fun rhs' rhs => Restored table scope rhs'.nameless rhs.nameless)
        (Binds.rhss binds') (Binds.rhss binds) ∧
      ∀ h ∈ helpers, Lifted d h := by
  cases h with
  | nil => exact ⟨le_rfl, rfl, trivial, .nil, List.forall_mem_nil _⟩
  | @cons _ b _ _ _ _ _ _ _ _ _ hrhs hrest =>
    obtain ⟨htable₁, htable₂⟩ := List.forall_mem_append.mp htable
    obtain ⟨hgrows, hsettled, hrestored, hlifted⟩ := hrhs.restored hplain hbinds.1 htable₁
    obtain ⟨hgrows', hbinders, hsettled', hparts, hlifted'⟩ :=
      hrest.restored hplain hbinds.2 htable₂
    exact ⟨hgrows.trans hgrows', congrArg (b :: ·) hbinders, ⟨hsettled.mono hgrows', hsettled'⟩,
      .cons hrestored hparts, List.forall_mem_append.mpr ⟨hlifted, hlifted'⟩⟩

end

/-! ## Functions -/

/-- The decreasing parameter of a helper is that of the function, where the environment says it
is. -/
theorem makeHelper_recorded {returnTy : Option Ty} {vars : List (Name × Option Ty)}
    {body call : Expr} {helper : Helper} (hparam : param ∈ vars.map Prod.fst)
    (h : makeHelper d param returnTy vars body σ = ((helper, call), σ')) :
    σ'.env.decreasing.get? helper.decl.name = some { index := helper.decreasing, name := param } ∧
      helper.decl.paramNames[helper.decreasing]? = some param := by
  obtain ⟨_, _, _, _, hnames, _, hindex, _⟩ := makeHelper_spec h
  refine ⟨?_, ?_⟩
  · simp only [makeHelper, Naming.bind_eq, Naming.pure_eq, Session.modifyEnv_eq] at h
    obtain ⟨name, σ₁, _, _, _, rfl, heq, rfl⟩ := h
    obtain ⟨rfl, rfl⟩ := Prod.mk.inj heq
    exact (Table.get?_insert _ _ _ _).trans (if_pos rfl)
  · rw [hnames, hindex, List.getElem?_eq_getElem (List.idxOf_lt_length_of_mem hparam),
      List.getElem_idxOf]

/-- The decreasing argument of a helper is recorded under its name. -/
theorem Makes.recorded (h : Makes d param σ helpers σ') : ∀ x ∈ helpers,
    σ'.env.decreasing.get? x.decl.name = some { index := x.decreasing, name := param } ∧
      x.decl.paramNames[x.decreasing]? = some param := by
  induction h with
  | nil σ => exact List.forall_mem_nil _
  | cons hparam hmade hrest ih =>
    obtain ⟨hget, hname⟩ := makeHelper_recorded hparam hmade
    obtain ⟨_, _, _, hsettled, _⟩ := makeHelper_spec hmade
    refine List.forall_mem_cons.mpr ⟨⟨?_, hname⟩, ih⟩
    -- later helpers have other names
    rw [hrest.registers.kept _ fun hmem => hrest.registers.draws.new _ hmem hsettled]
    exact hget

/-- **Splitting** leaves the function with calls in it that stand for the helpers. -/
theorem splitAt_restored {main : FuncDecl} (hplain : ∀ n, n.isMarked = false → table n = none)
    (hparam : param ∈ d.paramNames) (hparams : d.paramNames.Nodup)
    (hnames : ∀ n ∈ d.paramNames, n.isMarked = false) (hrhs : d.rhs.Unmarked)
    (h : splitAt d param σ = ((helpers, main), σ'))
    (htable : ∀ h ∈ helpers, table h.decl.name = some h.decl) :
    helpers ≠ [] ∧ Extracted d table (paramScope d) helpers d.rhs main.rhs σ.counters
      σ'.counters := by
  simp only [splitAt, Naming.bind_eq] at h
  obtain ⟨⟨helpers₁, rhs'⟩, σ₁, hextract, h⟩ := h
  split at h
  · simp only [Naming.bind_eq, Naming.pure_eq] at h
    obtain ⟨⟨helper, call⟩, σ₂, hmade, heq, rfl⟩ := h
    obtain ⟨rfl, rfl⟩ := Prod.mk.inj heq
    -- nothing was lifted, so the whole right-hand side becomes one helper
    have hvars : (d.params.map fun b => (b.name, b.ty)).map Prod.fst = d.paramNames := List.map_map
    have hcover : ∀ n ∈ d.rhs.freeOccs, n ∉ d.paramNames → (paramScope d).isDefined n = false :=
      fun n _ hother =>
      (isDefined_paramScope d n).trans (decide_eq_false hother)
    rw [← hvars] at hparam hparams hnames hcover
    obtain ⟨hgrows, hsettled, hrestored, hlifted⟩ :=
      makeHelper_restored hplain hparam hparams hnames hrhs hcover hmade
        (htable helper List.mem_cons_self)
    exact ⟨List.cons_ne_nil _ _,
      (lifts_of_extract d.rhs hextract).makes.registers.draws.le.trans hgrows, hsettled, hrestored,
      List.forall_mem_singleton.mpr hlifted⟩
  · next hne =>
    obtain ⟨heq, rfl⟩ := Naming.pure_eq.mp h
    obtain ⟨rfl, rfl⟩ := Prod.mk.inj heq
    exact ⟨fun hnil => hne (List.isEmpty_iff.mpr hnil),
      (lifts_of_extract d.rhs hextract).restored hplain hrhs htable⟩

/-- Helpers are inlined into the main function as functions that do not refer to each other. -/
theorem flat_of_lifted (hregisters : RegistersHelpers σ σ' helpers)
    (hlifted : ∀ h ∈ helpers, Lifted d h) (htypeParams : ∀ a ∈ d.typeParamNames, a.isMarked = false)
    (hplain : ∀ n, n.isMarked = false →
      (Inline.Context.ofDecls (helpers.map (·.decl))).decls.get? n = none) :
    (Inline.Context.ofDecls (helpers.map (·.decl))).Flat σ'.counters := by
  have hdecl : ∀ n d', (Inline.Context.ofDecls (helpers.map (·.decl))).decls.get? n = some d' →
      ∃ h ∈ helpers, h.decl = d' := by
    intro n d' hget
    obtain ⟨d'', hd'', heq⟩ := List.mem_map.mp (Table.mem_of_get?_ofList hget)
    exact List.mem_map.mp ((Prod.mk.inj heq).2 ▸ hd'')
  -- all names in helpers come from the source text, except for those of the helpers
  have hsettled : ∀ d' ∈ helpers.map (·.decl), d'.Settled σ'.counters := by
    refine List.forall_mem_map.mpr fun h hh =>
      ⟨hregisters.draws.settled _ (List.mem_map_of_mem hh), ?_, fun _ _ => .inl trivial, ?_⟩
    · refine binders_uses_iff.mpr ⟨fun n hn => ?_, fun _ _ => .inl trivial⟩
      exact Counters.settled_of_unmarked ((hlifted h hh).params n hn)
    · exact ((hlifted h hh).rhs.settled _).imp (fun _ hn => hn) fun _ _ _ => .inl trivial
  refine ⟨Inline.hygienic_ofDecls hsettled, fun n d' hget x hx _ => ?_, fun n d' hget a ha => ?_,
    fun n d' hget ty hty a ha => ?_⟩
  · obtain ⟨h, hh, rfl⟩ := hdecl n d' hget
    exact hplain x ((hlifted h hh).rhs.free x hx)
  · obtain ⟨h, hh, rfl⟩ := hdecl n d' hget
    rw [FuncDecl.typeParamNames, (hlifted h hh).typeParams] at ha
    exact Counters.settled_of_unmarked (htypeParams a ha)
  · obtain ⟨h, hh, rfl⟩ := hdecl n d' hget
    exact Counters.settled_of_unmarked (Expr.Uses.typeArgs _ (hlifted h hh).rhs ty hty a ha)

end Split

/-- **Splitting is undone by inlining the helpers**, up to the names of bound variables. The main
function is the original one but for its right-hand side, and every helper is registered with the
decreasing parameter of the function. -/
theorem FuncDecl.split_reassembles (d : FuncDecl) (position : Nat) (σ : Session)
    (hposition : position < d.arity) (hparams : d.paramNames.Nodup)
    (hnames : ∀ n ∈ d.paramNames ++ (d.rhs.freeOccs ++ d.rhs.boundNames), n.isMarked = false)
    (htypes : ∀ a ∈ d.typeParamNames ++ d.rhs.typeVarOccs, a.isMarked = false) :
    ∃ helpers main σ', d.split position σ = .ok (helpers, main) σ' ∧ helpers ≠ [] ∧
      (∃ e' τ, inlineExpr (helpers.map (·.decl)) main.rhs σ' = .ok e' τ ∧
        e'.nameless = d.rhs.nameless) ∧
      main = { d with rhs := main.rhs } ∧
      ∀ h ∈ helpers, h.decl.paramNames.Nodup ∧ h.decreasing < h.decl.arity ∧
        h.decl.paramNames[h.decreasing]? = some d.params[position].name ∧
        σ'.env.decreasing.get? h.decl.name =
          some { index := h.decreasing, name := d.params[position].name } := by
  obtain ⟨hparamNames, hrhsNames⟩ := List.forall_mem_append.mp hnames
  obtain ⟨hfree, hbound⟩ := List.forall_mem_append.mp hrhsNames
  obtain ⟨htypeParams, htypeVars⟩ := List.forall_mem_append.mp htypes
  have hrhs : d.rhs.Unmarked := (Expr.uses_iff d.rhs).mpr ⟨hfree, hbound, htypeVars⟩
  have hparam : d.params[position].name ∈ d.paramNames :=
    List.mem_map_of_mem (List.getElem_mem hposition)
  obtain ⟨helpers, main, σ', hsplit⟩ : ∃ helpers main σ',
      Split.splitAt d d.params[position].name σ = ((helpers, main), σ') :=
    ⟨_, _, _, rfl⟩
  obtain ⟨hmakes, rhs, rfl⟩ := Split.splitAt_makes hsplit hparam
  have hregisters := hmakes.registers
  -- the check of the helpers' positions passes, as each helper has the parameter
  have hrun : d.split position σ = .ok (helpers, { d with rhs }) σ' := by
    have hcaptured : (helpers.any fun h => h.decl.arity ≤ h.decreasing) = false := by
      rw [List.any_eq_false]
      intro h hh hle
      exact Nat.not_le_of_lt (hregisters.inRange h hh) (of_decide_eq_true hle)
    rw [FuncDecl.split, List.getElem?_eq_getElem hposition]
    refine Compile.bind_ok.mpr ⟨(helpers, { d with rhs }), σ', Compile.lift_ok.mpr hsplit, ?_⟩
    simp only [hcaptured]
    rfl
  -- the names of helpers are marked, and each stands for one helper
  have hnodup : ((helpers.map (·.decl)).map FuncDecl.name).Nodup := by
    rw [List.map_map]
    exact hregisters.draws.nodup
  have hget := fun n d' => Inline.get?_ofDecls hnodup (n := n) (d := d')
  have hplain : ∀ n, n.isMarked = false →
      (Inline.Context.ofDecls (helpers.map (·.decl))).decls.get? n = none := by
    intro n hn
    rw [Option.eq_none_iff_forall_ne_some]
    intro d' hd'
    obtain ⟨hmem, rfl⟩ := (hget n d').mp hd'
    obtain ⟨h, hh, rfl⟩ := List.mem_map.mp hmem
    exact hregisters.draws.new _ (List.mem_map_of_mem hh) (Counters.settled_of_unmarked hn)
  have hdecl : ∀ n, (Inline.Context.ofDecls (helpers.map (·.decl))).decl? n
      = (Inline.Context.ofDecls (helpers.map (·.decl))).decls.get? n :=
        fun n => if_neg List.not_mem_nil
  have hplain' : ∀ n, n.isMarked = false →
      (Inline.Context.ofDecls (helpers.map (·.decl))).decl? n = none := fun n hn =>
    (hdecl n).trans (hplain n hn)
  obtain ⟨hne, hextracted⟩ :=
    Split.splitAt_restored hplain' hparam hparams hparamNames hrhs hsplit fun h hh =>
      (hdecl _).trans ((hget _ _).mpr ⟨List.mem_map_of_mem hh, rfl⟩)
  refine ⟨helpers, _, σ', hrun, hne, ?_, rfl, fun h hh => ?_⟩
  · exact inlineExpr_restores (Split.flat_of_lifted hregisters hextracted.lifted htypeParams hplain)
      hextracted.settled hextracted.restored.restores
  · obtain ⟨hrecorded, hname⟩ := hmakes.recorded h hh
    exact ⟨(hextracted.lifted h hh).nodup, hregisters.inRange h hh, hname, hrecorded⟩

/-- Two cases on `xs`, one under a binder `go` and one that uses another `go`, and in it a `case` on
an inner `xs`. -/
theorem shadowed_case_reassembles :
    let var : Name → Expr := .var {}
    let d : FuncDecl :=
      { name := "f", typeParams := [{ name := "a" }], params := [{ name := "xs" }, { name := "k" }]
        rhs := .app {}
          (.lam {} [{ name := "go" }] (.case {} (var "xs") [(.con "Nil" [], var "k"),
            (.con "Cons" [{ name := "y" }, { name := "ys" }],
              .app {} (var "go")
                (.app {} (.app {} (.typeApp {} (var "f") (.var "a")) (var "ys")) (var "k")))]))
          (.case {} (var "xs") [(.con "Nil" [], var "go"),
            (.con "Cons" [{ name := "y" }, { name := "xs" }],
              .case {} (var "xs") [(.var { name := "k" }, var "k")])]) }
    (0 < d.arity ∧ d.paramNames.Nodup ∧
      (∀ n ∈ d.paramNames ++ (d.rhs.freeOccs ++ d.rhs.boundNames), n.isMarked = false) ∧
      ∀ a ∈ d.typeParamNames ++ d.rhs.typeVarOccs, a.isMarked = false) ∧
    ∃ helpers main σ', d.split 0 {} = .ok (helpers, main) σ' ∧
      ∃ e' τ, inlineExpr (helpers.map (·.decl)) main.rhs σ' = .ok e' τ ∧
        e'.nameless = d.rhs.nameless := by
  intro var d
  have hposition : 0 < d.arity := by decide
  have hparams : d.paramNames.Nodup := by decide
  have hnames : ∀ n ∈ d.paramNames ++ (d.rhs.freeOccs ++ d.rhs.boundNames),
    n.isMarked = false := by decide
  have htypes : ∀ a ∈ d.typeParamNames ++ d.rhs.typeVarOccs, a.isMarked = false := by decide
  obtain ⟨helpers, main, σ', hsplit, _, hinlined, _⟩ :=
    d.split_reassembles 0 {} hposition hparams hnames htypes
  exact ⟨⟨hposition, hparams, hnames, htypes⟩, helpers, main, σ', hsplit, hinlined⟩

end StructRec
