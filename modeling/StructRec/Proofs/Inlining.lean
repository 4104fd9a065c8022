import StructRec.Inline
import StructRec.Proofs.Substitution

/-!
# StructRec — inlining keeps expressions guarded

Inlining replaces the functions of a group by their right-hand sides. In the view before, such a
function must be called with a strict part of the decreasing parameter; so its right-hand side may
take its own decreasing parameter for a strict part (`Inline.MainGuarded`). What comes out is
guarded in the view after, in which the inlined functions are no longer in scope (`Inline.Inlines`).

A function that waits for arguments is guarded if its body is, with every parameter known as well as
the argument that will take its place (`Inline.Pending.Ready`). No local binder captures a free
variable of a right-hand side, so the view in which the right-hand sides are guarded holds
everywhere below.
-/

namespace StructRec

variable {names : List Name}

/-- What is known of the first arguments, and nothing of those that are missing. -/
def argSizes : Nat → List Size → List Size
  | 0, _ => []
  | count + 1, [] => .any :: argSizes count []
  | count + 1, size :: args => size :: argSizes count args

theorem length_argSizes (count : Nat) (args : List Size) :
    (argSizes count args).length = count := by
  fun_induction argSizes count args with
  | case1 => rfl
  | case2 count ih => exact congrArg (· + 1) ih
  | case3 count size args ih => exact congrArg (· + 1) ih

theorem argSizes_nil (count : Nat) : argSizes count [] = List.replicate count .any := by
  induction count with
  | zero => rfl
  | succ count ih => exact congrArg (Size.any :: ·) ih

/-- A parameter without an argument may be of any size. -/
theorem getElem?_argSizes {count i : Nat} (args : List Size) (h : i < count) :
    (argSizes count args)[i]? = some (args[i]?.getD .any) := by
  induction count generalizing i args with
  | zero => cases h
  | succ count ih =>
    cases args with
    | nil =>
      cases i with
      | zero => rfl
      | succ i => exact ih [] (Nat.lt_of_succ_lt_succ h)
    | cons size args =>
      cases i with
      | zero => rfl
      | succ i => exact ih args (Nat.lt_of_succ_lt_succ h)

/-- Nothing is lost by binding parameters to better known values. -/
theorem View.LeAt.binds_zip {v : View} {sizes sizes' : List Size}
    (h : List.Forall₂ (· ≤ ·) sizes sizes') (n : Name) :
    (v.binds (names.zip sizes)).LeAt (v.binds (names.zip sizes')) n := by
  suffices ∀ v' : View, v.LeAt v' n →
    (v.binds (names.zip sizes)).LeAt (v'.binds (names.zip sizes')) n from this v (.refl v n)
  induction h generalizing v names with
  | nil =>
    intro v' hle
    rwa [List.zip_nil_right]
  | cons hsize _ ih =>
    intro v' hle
    cases names with
    | nil => exact hle
    | cons m names =>
      refine ih _ fun k hk => ?_
      by_cases hn : n = m
      · obtain rfl := Option.some.inj ((if_pos hn).symm.trans hk)
        exact ⟨_, if_pos hn, .value hsize⟩
      · obtain ⟨k', hk', hkle⟩ := hle k ((if_neg hn).symm.trans hk)
        exact ⟨k', (if_neg hn).trans hk', hkle⟩

namespace Inline

variable {sizes : List Size} {d : FuncDecl}

/-! ## Functions that wait for arguments -/

/-- Under settled binders all names in scope are settled. -/
theorem settled_binds {c c' : Counters} {v : View} (hv : ∀ n k, v.facts n = some k → c.Settled n)
    (hc : c ≤ c') (hnames : ∀ n ∈ names, c'.Settled n) (hsizes : sizes.length = names.length)
    (n : Name) (k : Known) (hk : (v.binds (names.zip sizes)).facts n = some k) :
    c'.Settled n := by
  by_cases hn : n ∈ names
  · exact hnames n hn
  · rw [View.facts_binds_of_notMem v (by rwa [List.map_fst_zip hsizes.ge])] at hk
    exact (hv n k hk).mono hc

/-- An argument put in for a parameter, under the parameters that are left. It does not mention
those. -/
theorem single_maps {c : Counters} {v : View} {param : Binder} {params : List Binder} {size : Size}
    {arg : Expr} (hlength : sizes.length = params.length) (hparam : param.name ∉ binderNames params)
    (hnew : ∀ n ∈ binderNames params, v.facts n = none)
    (hv : ∀ n k, v.facts n = some k → c.Settled n) (hparams : ∀ n ∈ binderNames params, c.Settled n)
    (harg : Guarded c v arg []) (hsize : size ≤ v.sizeOf arg) (free : List Name) :
    (Subst.single param.name arg).Maps c
      ((v.bind param.name size).binds ((binderNames params).zip sizes))
      (v.binds ((binderNames params).zip sizes)) free := by
  have hget : ∀ n, (Subst.single param.name arg).exprs.get? n =
      if param.name = n then some arg else none :=
    fun n => Table.get?_insert _ _ _ _
  -- the argument mentions none of the parameters left, which are new
  have hleOn : v.LeOn (v.binds ((binderNames params).zip sizes)) arg.freeOccs := by
    refine ⟨fun n hn => ?_, fun m hm => by rwa [View.markers_binds]⟩
    obtain ⟨k, hk⟩ := (harg.scoped arg).free n hn
    refine .of_eq (Subst.facts_binds_zip_of_notMem v hlength fun hmem => ?_)
    cases hk.symm.trans (hnew n hmem)
  refine ⟨fun n _ r hr k hk => ?_, fun n _ hnone => ?_, ?_, fun m hm => ?_⟩
  · rw [hget] at hr
    split at hr
    · next hn =>
      subst hn
      obtain rfl := Option.some.inj hr
      rw [Subst.facts_binds_zip_of_notMem _ hlength hparam] at hk
      obtain rfl := Option.some.inj ((if_pos rfl).symm.trans hk)
      exact ⟨size, rfl, hsize.trans (View.sizeOf_mono hleOn), harg.mono le_rfl arg hleOn (.refl _)⟩
    · cases hr
  · rw [hget] at hnone
    split at hnone
    · cases hnone
    · next hn => exact .binds fun _ => .of_eq (if_neg (Ne.symm hn)).symm
  · exact settled_binds hv le_rfl hparams (by rw [hlength, length_binderNames])
  · rwa [View.markers_binds] at hm ⊢

/-- A function that waits for arguments of the given sizes will be guarded once it has them. -/
structure Pending.Ready (c : Counters) (v : View) (p : Pending) (args : List Size) : Prop where
  settled : ∀ n ∈ binderNames p.params, c.Settled n
  new : ∀ n ∈ binderNames p.params, v.facts n = none
  nodup : (binderNames p.params).Nodup
  body : Guarded c (v.binds ((binderNames p.params).zip (argSizes p.params.length args))) p.body
    (args.drop p.params.length)

namespace Pending.Ready

variable {c c' : Counters} {v : View} {p p' : Pending} {args : List Size} {σ σ' : Session}

theorem grow (h : p.Ready c v args) (hc : c ≤ c') : p.Ready c' v args :=
  ⟨fun n hn => (h.settled n hn).mono hc, h.new, h.nodup, h.body.grow hc⟩

/-- An expression that waits for nothing. -/
theorem of_guarded {e : Expr} (h : Guarded c v e args) : Pending.Ready c v { body := e } args :=
  ⟨nofun, nofun, List.nodup_nil, h⟩

/-- Used as a value, a function that waits for arguments becomes a lambda. -/
theorem close {e : Expr} (hrun : p.close σ = .ok e σ') (h : p.Ready c v []) :
    σ = σ' ∧ e = Expr.lambda p.params p.body ∧ Guarded c v e [] := by
  obtain ⟨typeParams, params, body⟩ := p
  cases typeParams with
  | cons typeVar rest => exact absurd hrun Compile.throw_ok
  | nil =>
    obtain ⟨rfl, rfl⟩ := Compile.pure_ok.mp hrun
    refine ⟨rfl, rfl, ?_⟩
    have hbody := h.body
    rw [argSizes_nil, View.binds_replicate v (length_binderNames params).symm,
      List.drop_nil] at hbody
    unfold Expr.lambda
    split
    · next hempty =>
      obtain rfl : params = [] := List.isEmpty_iff.mp hempty
      exact hbody
    · exact ⟨h.settled, hbody⟩

/-- An argument takes the place of the first parameter. -/
theorem applyValue {note : Note} {arg : Expr} {size : Size}
    (hrun : p.applyValue note arg σ = .ok p' σ')
    (hsettled : ∀ n k, v.facts n = some k → σ.counters.Settled n)
    (h : p.Ready σ.counters v (size :: args)) (harg : Guarded σ.counters v arg [])
    (hsize : size ≤ v.sizeOf arg) : σ.counters ≤ σ'.counters ∧ p'.Ready σ'.counters v args := by
  obtain ⟨typeParams, params, body⟩ := p
  cases typeParams with
  | cons typeVar rest => exact absurd hrun Compile.throw_ok
  | nil =>
    cases params with
    | nil =>
      obtain ⟨rfl, rfl⟩ := Compile.pure_ok.mp hrun
      exact ⟨le_rfl, of_guarded
        ⟨h.body.mono le_rfl body (.refl _ _) (.cons hsize (.refl args)), harg⟩⟩
    | cons param params =>
      simp only [Pending.applyValue, Compile.bind_ok, Compile.lift_ok, Compile.pure_ok] at hrun
      obtain ⟨body', σ₁, hsubst, rfl, rfl⟩ := hrun
      obtain ⟨hfirst, hnodup⟩ := List.nodup_cons.mp h.nodup
      have hnew : ∀ n ∈ binderNames params, v.facts n = none :=
        fun n hn => h.new n (List.mem_cons_of_mem _ hn)
      have hmaps := single_maps (length_argSizes params.length args) hfirst hnew hsettled
        (fun n hn => h.settled n (List.mem_cons_of_mem _ hn)) harg hsize body.freeOccs
      obtain ⟨hgrows, _, hbody⟩ := Subst.apply_guarded hsubst hmaps h.body
      exact ⟨hgrows, fun n hn => (h.settled n (List.mem_cons_of_mem _ hn)).mono hgrows, hnew,
        hnodup, hbody⟩

/-- A type argument changes annotations only. -/
theorem applyType {note : Note} {ty : Ty} (hrun : p.applyType note ty σ = .ok p' σ')
    (hsettled : ∀ n k, v.facts n = some k → σ.counters.Settled n) (h : p.Ready σ.counters v args) :
    σ.counters ≤ σ'.counters ∧ p'.Ready σ'.counters v args := by
  obtain ⟨typeParams, params, body⟩ := p
  cases typeParams with
  | nil =>
    cases params with
    | nil =>
      obtain ⟨rfl, rfl⟩ := Compile.pure_ok.mp hrun
      exact ⟨le_rfl, of_guarded h.body⟩
    | cons param params => exact absurd hrun Compile.throw_ok
  | cons typeVar typeParams =>
    simp only [Pending.applyType, Compile.bind_ok, Compile.lift_ok, Compile.pure_ok] at hrun
    obtain ⟨body', σ₁, hsubst, rfl, rfl⟩ := hrun
    -- replacing a type variable changes annotations only
    have hnames : ∀ s : Subst, binderNames (params.map fun b => { b with ty := b.ty.map s.applyTy })
        = binderNames params := by
      intro s
      rw [binderNames, List.map_map]
      rfl
    have hlength : (argSizes params.length args).length = (binderNames params).length := by
      rw [length_argSizes, length_binderNames]
    have hdom := settled_binds hsettled le_rfl h.settled hlength
    obtain ⟨hgrows, _, hbody⟩ :=
      Subst.apply_guarded hsubst (.of_no_exprs (fun _ => rfl) hdom) h.body
    refine ⟨hgrows, ?_, ?_, ?_, ?_⟩
    · rw [hnames]
      exact fun n hn => (h.settled n hn).mono hgrows
    · rw [hnames]
      exact h.new
    · rw [hnames]
      exact h.nodup
    · rw [hnames, List.length_map]
      exact hbody

end Pending.Ready

/-! ## The functions to inline -/

/-- A function that may be inlined where it gets a strict part at this position. -/
structure MainGuarded (c : Counters) (base : View) (d : FuncDecl) (position : Nat) : Prop where
  nodup : d.paramNames.Nodup
  settled : ∀ n ∈ d.paramNames, c.Settled n
  body : Guarded c (base.ofParams d.paramNames position .part) d.rhs []

theorem MainGuarded.grow {c c' : Counters} {base : View} {position : Nat}
    (h : MainGuarded c base d position) (hc : c ≤ c') : MainGuarded c' base d position :=
  ⟨h.nodup, fun n hn => (h.settled n hn).mono hc, h.body.grow hc⟩

/-- Renaming type parameters replaces no variable. -/
theorem freshTypeParams_exprs {s s' : Subst} {params : List TypeParam} {σ σ' : Session}
    (h : freshTypeParams s params σ = ((s', names), σ')) :
    s'.exprs = s.exprs ∧ σ.counters ≤ σ'.counters := by
  induction params generalizing s names σ with
  | nil =>
    obtain ⟨heq, rfl⟩ := Naming.pure_eq.mp h
    obtain ⟨rfl, rfl⟩ := Prod.mk.inj heq
    exact ⟨rfl, le_rfl⟩
  | cons p rest ih =>
    simp only [freshTypeParams, Naming.bind_eq, Naming.pure_eq] at h
    obtain ⟨fresh, σ₁, hfresh, ⟨s₁, names'⟩, σ₂, hrest, heq, rfl⟩ := h
    obtain ⟨rfl, rfl⟩ := Prod.mk.inj heq
    obtain ⟨_, hgrows, _⟩ := freshName_spec hfresh
    obtain ⟨hexprs, hgrows'⟩ := ih hrest
    exact ⟨hexprs, hgrows.trans hgrows'⟩

/-- **With fresh parameters** a function that gets a strict part at its position is guarded, each
parameter known as well as its argument. -/
theorem instantiate_guarded {p : Pending} {σ σ' : Session} {base : View} {position : Nat}
    {args : List Size} (h : instantiate d σ = (p, σ'))
    (hmain : MainGuarded σ.counters base d position)
    (hbase : ∀ n k, base.facts n = some k → σ.counters.Settled n)
    (hargs : args[position]? = some .part) :
    σ.counters ≤ σ'.counters ∧ (binderNames p.params).Nodup ∧
      (∀ n ∈ binderNames p.params, ¬ σ.counters.Settled n ∧ σ'.counters.Settled n) ∧
      Guarded σ'.counters (base.binds ((binderNames p.params).zip (argSizes p.params.length args)))
        p.body [] := by
  simp only [instantiate, Naming.bind_eq, Naming.pure_eq] at h
  obtain ⟨⟨renames, typeParams⟩, σ₁, htypes, ⟨renames', params⟩, σ₂, henter, body, σ₃, hbody,
    rfl, rfl⟩ := h
  obtain ⟨hexprs, hgrows₁⟩ := freshTypeParams_exprs htypes
  have hnone : ∀ n, renames.exprs.get? n = none := fun n => by rw [hexprs]; rfl
  have hentered :=
    (Subst.enters_of_enterBinders henter).entered fun n hn => (hmain.settled n hn).mono hgrows₁
  have hlength : (argSizes params.length args).length = d.params.length := by
    rw [length_argSizes, hentered.length_eq]
  -- each argument is known as well as the right-hand side takes its parameter to be
  have hsizes : List.Forall₂ (· ≤ ·) (paramSizes d.paramNames.length position .part)
      (argSizes params.length args) := by
    rw [List.forall₂_iff_get]
    have hcount : (paramSizes d.paramNames.length position .part).length =
        (argSizes params.length args).length := by
      rw [hlength, length_paramSizes, FuncDecl.paramNames, length_binderNames]
    refine ⟨hcount, fun i hi hi' => ?_⟩
    have hsize := getElem?_argSizes args (by rwa [length_argSizes] at hi' : i < params.length)
    rw [List.getElem?_eq_getElem hi', Option.some.injEq] at hsize
    rw [List.get_eq_getElem, List.get_eq_getElem, hsize, getElem_paramSizes]
    split
    · next hposition =>
      obtain rfl : i = position := hposition
      rw [hargs]
      exact le_rfl
    · exact Size.any_le _
  have hrhs : Guarded σ₂.counters
      (base.binds (d.paramNames.zip (argSizes params.length args))) d.rhs [] :=
    hmain.body.mono (hgrows₁.trans hentered.grows) d.rhs
      ⟨fun n _ => .binds_zip hsizes n, fun m hm => by rwa [View.markers_binds] at hm ⊢⟩ (.refl _)
  have hmaps :=
    hentered.maps_of_no_exprs hnone (fun n k hk => (hbase n k hk).mono hgrows₁) hlength
      d.rhs.freeOccs
  obtain ⟨hgrows₃, _, hbody'⟩ := Subst.apply_guarded hbody hmaps hrhs
  refine ⟨(hgrows₁.trans hentered.grows).trans hgrows₃, hentered.nodup hmain.nodup,
    fun n hn => ⟨fun hold => ?_, ?_⟩, hbody'⟩
  · -- every parameter is renamed
    rcases hentered.names n hn with ⟨hmem, hfree⟩ | hnew
    · exact hfree hmem
    · exact hnew (hold.mono hgrows₁)
  · exact (hentered.settled n hn).mono hgrows₃

/-! ## The views before and after -/

/-- The view in which the right-hand sides are guarded knows their free variables only, and none is
inlined itself. -/
def Context.Covers (ctx : Context) (base : View) : Prop :=
  ∀ n k, base.facts n = some k → n ∈ ctx.globals ∧ ctx.decls.get? n = none

/-- Inlining leads from one view to another: the functions to inline are known as such, other names
are known no less well afterwards, and so are the free variables of the right-hand sides. -/
structure Inlines (ctx : Context) (base : View) (c : Counters) (u u' : View) : Prop where
  inlined : ∀ n d, ctx.decl? n = some d → ∀ k, u.facts n = some k →
    ∃ position, k = .callee position ∧ MainGuarded c base d position
  kept : ∀ n, ctx.decl? n = none → u.LeAt u' n
  globals : ∀ n, base.LeAt u' n
  settledBefore : ∀ n k, u.facts n = some k → c.Settled n
  settledAfter : ∀ n k, u'.facts n = some k → c.Settled n
  markers : ∀ m, u.markers m → u'.markers m
  globalMarkers : ∀ m, base.markers m → u'.markers m

section views

variable {ctx : Context} {base u u' : View} {c c' : Counters} {binders binders' : List Binder}

theorem Inlines.grow (h : Inlines ctx base c u u') (hc : c ≤ c') : Inlines ctx base c' u u' where
  inlined n d hd k hk := by
    obtain ⟨position, hposition, hmain⟩ := h.inlined n d hd k hk
    exact ⟨position, hposition, hmain.grow hc⟩
  kept := h.kept
  globals := h.globals
  settledBefore n k hk := (h.settledBefore n k hk).mono hc
  settledAfter n k hk := (h.settledAfter n k hk).mono hc
  markers := h.markers
  globalMarkers := h.globalMarkers

/-- Which unfoldings we are inside of does not matter. -/
theorem Inlines.inside (h : Inlines ctx base c u u') (active : List Name) :
    Inlines { ctx with active } base c u u' :=
  ⟨h.inlined, h.kept, h.globals, h.settledBefore, h.settledAfter, h.markers, h.globalMarkers⟩

theorem Context.decl?_shadow (ctx : Context) (binders : List Binder) (n : Name) :
    (ctx.shadow binders).decl? n = if n ∈ binderNames binders then none else ctx.decl? n := by
  unfold decl? shadow
  by_cases h : n ∈ binderNames binders <;> simp [h]

/-- **Under binders** of which none has the name of a free variable of the right-hand sides. -/
theorem Inlines.shadow (h : Inlines ctx base c u u') (hc : c ≤ c')
    (hsettled : ∀ n ∈ binderNames binders, c'.Settled n)
    (hglobals : ∀ n k, base.facts n = some k → n ∉ binderNames binders)
    (hsizes : sizes.length = binders.length) :
    Inlines (ctx.shadow binders) base c' (u.binds ((binderNames binders).zip sizes))
      (u'.binds ((binderNames binders).zip sizes)) where
  inlined n d hd k hk := by
    -- a hidden name stands for no function, and other names for what they did
    rw [Context.decl?_shadow] at hd
    split at hd
    · cases hd
    · next hn =>
      rw [Subst.facts_binds_zip_of_notMem u hsizes hn] at hk
      obtain ⟨position, hposition, hmain⟩ := h.inlined n d hd k hk
      exact ⟨position, hposition, hmain.grow hc⟩
  kept n hd := by
    refine .binds fun hn => h.kept n ?_
    rw [Subst.map_fst_zip_names hsizes] at hn
    rwa [Context.decl?_shadow, if_neg hn] at hd
  globals n k hk := by
    rw [Subst.facts_binds_zip_of_notMem u' hsizes (hglobals n k hk)]
    exact h.globals n k hk
  settledBefore := settled_binds h.settledBefore hc hsettled (by rw [hsizes, length_binderNames])
  settledAfter := settled_binds h.settledAfter hc hsettled (by rw [hsizes, length_binderNames])
  markers m hm := by
    rw [View.markers_binds] at hm ⊢
    exact h.markers m hm
  globalMarkers m hm := by
    rw [View.markers_binds]
    exact h.globalMarkers m hm

/-- Renaming the binders that would capture a free variable of a right-hand side leaves the scope
guarded and ready for inlining. -/
theorem avoidCapture_spec {renames : Subst} {σ σ' : Session}
    (h : ctx.avoidCapture binders σ = ((renames, binders'), σ')) (hcovers : ctx.Covers base)
    (hinlines : Inlines ctx base σ.counters u u')
    (hsettled : ∀ n ∈ binderNames binders, σ.counters.Settled n)
    (hsizes : sizes.length = binders.length) :
    Subst.Entered ctx.globals {} renames binders binders' σ.counters σ'.counters ∧
      (∀ names, renames.Maps σ'.counters (u.binds ((binderNames binders).zip sizes))
        (u.binds ((binderNames binders').zip sizes)) names) ∧
      Inlines (ctx.shadow binders') base σ'.counters (u.binds ((binderNames binders').zip sizes))
        (u'.binds ((binderNames binders').zip sizes)) := by
  have hentered := (Subst.enters_of_enterBinders h).entered hsettled
  refine ⟨hentered, hentered.maps_of_no_exprs (fun _ => rfl) hinlines.settledBefore hsizes, ?_⟩
  refine hinlines.shadow hentered.grows hentered.settled (fun n k hk hmem => ?_)
    (hsizes.trans hentered.length_eq.symm)
  obtain ⟨k', hk', _⟩ := hinlines.globals n k hk
  rcases hentered.names n hmem with ⟨_, hfree⟩ | hnew
  · exact hfree (hcovers n k hk).1
  · exact hnew (hinlines.settledAfter n k' hk')

/-- The same for binders of which the same is known. -/
theorem avoidCapture_bindAll {renames : Subst} {σ σ' : Session}
    (h : ctx.avoidCapture binders σ = ((renames, binders'), σ')) (hcovers : ctx.Covers base)
    (hinlines : Inlines ctx base σ.counters u u')
    (hsettled : ∀ n ∈ binderNames binders, σ.counters.Settled n) (size : Size) :
    Subst.Entered ctx.globals {} renames binders binders' σ.counters σ'.counters ∧
      (∀ names, renames.Maps σ'.counters (u.bindAll (binderNames binders) size)
        (u.bindAll (binderNames binders') size) names) ∧
      Inlines (ctx.shadow binders') base σ'.counters (u.bindAll (binderNames binders') size)
        (u'.bindAll (binderNames binders') size) := by
  obtain ⟨hentered, hmaps, hinlines'⟩ := avoidCapture_spec h hcovers hinlines hsettled
    (List.length_replicate (n := binders.length) (a := size))
  have hlength := hentered.length_eq.symm.trans (length_binderNames binders').symm
  rw [View.binds_replicate u (length_binderNames binders).symm,
    View.binds_replicate u hlength] at hmaps
  rw [View.binds_replicate u hlength, View.binds_replicate u' hlength] at hinlines'
  exact ⟨hentered, hmaps, hinlines'⟩

end views

/-! ## The descent -/

/-- What a descent of this depth yields is ready for the arguments that follow. -/
def DescendReady (depth : Nat) : Prop :=
  ∀ {ctx : Context} {e : Expr} {p : Pending} {σ σ' : Session} {base u u' : View} {args : List Size},
    descend depth ctx e σ = .ok p σ' → ctx.Covers base → Inlines ctx base σ.counters u u' →
      Guarded σ.counters u e args →
        σ.counters ≤ σ'.counters ∧ p.Ready σ'.counters u' args ∧
          u.sizeOf e ≤ u'.sizeOf (Expr.lambda p.params p.body)

section descent

variable {depth : Nat} {ctx : Context} {base u u' : View}
variable {σ σ' : Session}

/-- Inlining into an expression that is used as a value. -/
theorem DescendReady.value (h : DescendReady depth) {e e' : Expr} {p : Pending} {σ₁ : Session}
    (hrun : descend depth ctx e σ = .ok p σ₁) (hclose : p.close σ₁ = .ok e' σ')
    (hcovers : ctx.Covers base) (hinlines : Inlines ctx base σ.counters u u')
    (hguarded : Guarded σ.counters u e []) :
    σ.counters ≤ σ'.counters ∧ u.sizeOf e ≤ u'.sizeOf e' ∧ Guarded σ'.counters u' e' [] := by
  obtain ⟨hgrows, hready, hsize⟩ := h hrun hcovers hinlines hguarded
  obtain ⟨rfl, rfl, he'⟩ := hready.close hclose
  exact ⟨hgrows, hsize, he'⟩

/-- Right-hand sides of a `let`, one after the other. -/
theorem DescendReady.values (h : DescendReady depth) {es es' : List Expr}
    (hrun : Compile.MapRun (fun e => do (← descend depth ctx e).close) es σ es' σ')
    (hcovers : ctx.Covers base) (hinlines : Inlines ctx base σ.counters u u')
    (hguarded : ∀ e ∈ es, Guarded σ.counters u e []) :
    σ.counters ≤ σ'.counters ∧ es'.length = es.length ∧ ∀ e ∈ es', Guarded σ'.counters u' e [] := by
  induction hrun with
  | nil σ => exact ⟨le_rfl, rfl, List.forall_mem_nil _⟩
  | cons hfirst _ ih =>
    simp only [Compile.bind_ok] at hfirst
    obtain ⟨p, σ₁, hdescend, hclose⟩ := hfirst
    obtain ⟨hhead, htail⟩ := List.forall_mem_cons.mp hguarded
    obtain ⟨hgrows, _, hfirst'⟩ := h.value hdescend hclose hcovers hinlines hhead
    obtain ⟨hgrows', hlength, hrest'⟩ :=
      ih (hinlines.grow hgrows) fun e he => (htail e he).grow hgrows
    exact ⟨hgrows.trans hgrows', congrArg (· + 1) hlength,
      List.forall_mem_cons.mpr ⟨hfirst'.grow hgrows', hrest'⟩⟩

/-- Inlining into the alternatives of a case. -/
theorem DescendReady.alts (h : DescendReady depth) {alts alts' : Alts}
    {σ σ' : Session} {size : Size}
    (hrun : Compile.MapRun (fun (alt : Pattern × Expr) => (do
      let (renames, binders) ← (ctx.avoidCapture alt.1.binders : Naming (Subst × List Binder))
      let rhs ← (renames.apply alt.2 : Naming Expr)
      let rhs ← (do (← descend depth (ctx.shadow binders) rhs).close)
      return (alt.1.withBinders binders, rhs) : Compile (Pattern × Expr))) alts σ alts' σ')
    (hcovers : ctx.Covers base) (hinlines : Inlines ctx base σ.counters u u')
    (hguarded : GuardedAlts σ.counters u size alts) :
    σ.counters ≤ σ'.counters ∧ GuardedAlts σ'.counters u' size alts' := by
  induction hrun with
  | nil σ => exact ⟨le_rfl, trivial⟩
  | @cons alt _ _ _ _ _ _ hfirst _ ih =>
    obtain ⟨pattern, rhs⟩ := alt
    simp only [Compile.bind_ok, Compile.lift_ok, Compile.pure_ok] at hfirst
    obtain ⟨⟨renames, binders'⟩, σ₁, hcapture, rhs₁, σ₂, hrename, rhs', σ₃,
      ⟨p, σ₄, hdescend, hclose⟩, rfl, rfl⟩ := hfirst
    -- the names of the pattern have the sizes that the scrutinee gives them
    obtain ⟨hentered, hmaps, hinlines'⟩ :=
      avoidCapture_bindAll hcapture hcovers hinlines hguarded.1 (pattern.size size)
    obtain ⟨hgrows₂, _, hrenamed⟩ :=
      Subst.apply_guarded hrename (hmaps _) (hguarded.2.1.grow hentered.grows)
    obtain ⟨hgrows₃, _, hrhs'⟩ := h.value hdescend hclose hcovers (hinlines'.grow hgrows₂) hrenamed
    have hgrows := (hentered.grows.trans hgrows₂).trans hgrows₃
    obtain ⟨hgrows', hrest'⟩ := ih (hinlines.grow hgrows) (hguarded.2.2.grow hgrows)
    refine ⟨hgrows.trans hgrows', ?_⟩
    rw [GuardedAlts, Pattern.names_withBinders hentered.length_eq, Pattern.size_withBinders]
    exact ⟨fun n hn => (hentered.settled n hn).mono ((hgrows₂.trans hgrows₃).trans hgrows'),
      hrhs'.grow hgrows', hrest'⟩

/-- A reference to a function to inline becomes its right-hand side under fresh parameters. -/
theorem DescendReady.unfold (h : DescendReady depth) {note : Note} {name : Name}
    (hdecl : ctx.decl? name = some d) {p : Pending} {args : List Size}
    (hrun : descend (depth + 1) ctx (.var note name) σ = .ok p σ') (hcovers : ctx.Covers base)
    (hinlines : Inlines ctx base σ.counters u u')
    (hguarded : Guarded σ.counters u (.var note name) args) :
    σ.counters ≤ σ'.counters ∧ p.Ready σ'.counters u' args ∧ u.sizeOf (.var note name) = .any := by
  obtain ⟨k, hk, hadmits⟩ := hguarded
  obtain ⟨position, rfl, hmain⟩ := hinlines.inlined name d hdecl k hk
  rw [descend] at hrun
  simp only [hdecl] at hrun
  split at hrun
  · simp only [Compile.bind_ok] at hrun
    obtain ⟨_, _, hfail, _⟩ := hrun
    exact absurd hfail Compile.throw_ok
  · simp only [Compile.bind_ok, Compile.lift_ok, Compile.pure_ok] at hrun
    obtain ⟨unfolded, σ₁, hinstantiate, body', σ₂, ⟨p₁, σ₃, hdescend, hclose⟩, rfl, rfl⟩ := hrun
    have hbase : ∀ n k, base.facts n = some k → ∃ k',
        u'.facts n = some k' ∧ σ.counters.Settled n := by
      intro n k hk
      obtain ⟨k', hk', _⟩ := hinlines.globals n k hk
      exact ⟨k', hk', hinlines.settledAfter n k' hk'⟩
    obtain ⟨hgrows, hnodup, hnew, hbody⟩ := instantiate_guarded hinstantiate hmain
      (fun n k hk => (hbase n k hk).elim fun _ hsettled => hsettled.2) hadmits
    -- inside the right-hand side nothing is left to inline: the view before is that of its free
    -- variables
    have hinner : Inlines ctx base σ₁.counters base u' := by
      refine ⟨fun n d' hd' k hk => ?_, fun n _ => hinlines.globals n, hinlines.globals,
        fun n k hk => ?_,
        fun n k hk => (hinlines.settledAfter n k hk).mono hgrows, hinlines.globalMarkers,
          hinlines.globalMarkers⟩
      · rw [Context.decl?] at hd'
        split at hd'
        · cases hd'
        · rw [(hcovers n k hk).2] at hd'
          cases hd'
      · obtain ⟨_, _, hsettled⟩ := hbase n k hk
        exact hsettled.mono hgrows
    have hshadow := hinner.shadow le_rfl (fun n hn => (hnew n hn).2)
      (fun n k hk hmem => (hbase n k hk).elim fun _ hsettled => (hnew n hmem).1 hsettled.2)
      (length_argSizes unfolded.params.length args)
    obtain ⟨hgrows', _, hbody'⟩ := h.value hdescend hclose hcovers (hshadow.inside _) hbody
    refine ⟨hgrows.trans hgrows', ⟨fun n hn => (hnew n hn).2.mono hgrows', fun n hn => ?_, hnodup,
      hbody'.mono le_rfl body' (.refl _ _) (.nil _)⟩, by rw [View.sizeOf_var, hk]; rfl⟩
    cases hfacts : u'.facts n with
    | none => rfl
    | some k' => exact absurd (hinlines.settledAfter n k' hfacts) (hnew n hn).1

/-- **Inlining keeps expressions guarded.** By induction on the depth of the descent. -/
theorem descend_ready (depth : Nat) : DescendReady depth := by
  -- the depth bounds the recursion into parts and into unfolded bodies alike
  induction depth with
  | zero =>
    intro ctx e p σ σ' base u u' args hrun
    exact absurd hrun Compile.throw_ok
  | succ depth ih =>
    intro ctx e p σ σ' base u u' args hrun hcovers hinlines hguarded
    cases e with
    | var note name =>
      cases hdecl : ctx.decl? name with
      | some d =>
        obtain ⟨hgrows, hready, hsize⟩ := ih.unfold hdecl hrun hcovers hinlines hguarded
        exact ⟨hgrows, hready, hsize ▸ Size.any_le _⟩
      | none =>
        rw [descend] at hrun
        simp only [hdecl, Compile.pure_ok] at hrun
        obtain ⟨rfl, rfl⟩ := hrun
        -- a name that stays is known after inlining as well as before
        have hle : u.LeOn u' (Expr.var note name).freeOccs :=
          ⟨fun n hn => hinlines.kept n (List.mem_singleton.mp hn ▸ hdecl), hinlines.markers⟩
        exact ⟨le_rfl, .of_guarded (hguarded.mono le_rfl _ hle (.refl args)), View.sizeOf_mono hle⟩
    | con note name | intLit note value =>
      obtain ⟨rfl, rfl⟩ := Compile.pure_ok.mp hrun
      exact ⟨le_rfl, .of_guarded trivial, Size.any_le _⟩
    | undefined note | error note message =>
      obtain ⟨rfl, rfl⟩ := Compile.pure_ok.mp hrun
      exact ⟨le_rfl, .of_guarded (hinlines.markers _ hguarded), Size.any_le _⟩
    | app note fn arg =>
      simp only [descend, Compile.bind_ok] at hrun
      obtain ⟨p₁, σ₁, hfn, arg', σ₂, ⟨p₂, σ₃, hdescend, hclose⟩, happly⟩ := hrun
      obtain ⟨hgrows₁, hready, _⟩ := ih hfn hcovers hinlines hguarded.1
      obtain ⟨hgrows₂, hsize, harg'⟩ :=
        ih.value hdescend hclose hcovers (hinlines.grow hgrows₁) (hguarded.2.grow hgrows₁)
      have hgrows := hgrows₁.trans hgrows₂
      -- the size of the argument is what the unfolded function is guarded for
      obtain ⟨hgrows₃, hready'⟩ :=
        (hready.grow hgrows₂).applyValue happly (hinlines.grow hgrows).settledAfter harg' hsize
      exact ⟨hgrows.trans hgrows₃, hready', Size.any_le _⟩
    | typeApp note fn ty =>
      simp only [descend, Compile.bind_ok] at hrun
      obtain ⟨p₁, σ₁, hfn, happly⟩ := hrun
      obtain ⟨hgrows₁, hready, _⟩ := ih hfn hcovers hinlines hguarded
      obtain ⟨hgrows₂, hready'⟩ := hready.applyType happly (hinlines.grow hgrows₁).settledAfter
      exact ⟨hgrows₁.trans hgrows₂, hready', Size.any_le _⟩
    | cond note test thenBranch elseBranch =>
      simp only [descend, Compile.bind_ok, Compile.pure_ok] at hrun
      obtain ⟨test', σ₁, ⟨p₁, _, htest, hclose₁⟩, then', σ₂, ⟨p₂, _, hthen, hclose₂⟩, else', σ₃,
        ⟨p₃, _, helse, hclose₃⟩, rfl, rfl⟩ := hrun
      obtain ⟨hgrows₁, _, htest'⟩ := ih.value htest hclose₁ hcovers hinlines hguarded.1
      obtain ⟨hgrows₂, _, hthen'⟩ :=
        ih.value hthen hclose₂ hcovers (hinlines.grow hgrows₁) (hguarded.2.1.grow hgrows₁)
      have hgrows := hgrows₁.trans hgrows₂
      obtain ⟨hgrows₃, _, helse'⟩ :=
        ih.value helse hclose₃ hcovers (hinlines.grow hgrows) (hguarded.2.2.grow hgrows)
      exact ⟨hgrows.trans hgrows₃,
        .of_guarded ⟨htest'.grow (hgrows₂.trans hgrows₃), hthen'.grow hgrows₃, helse'⟩,
          Size.any_le _⟩
    | case note scrutinee alts =>
      simp only [descend, Compile.bind_ok, Compile.pure_ok] at hrun
      obtain ⟨scrutinee', σ₁, ⟨p₁, _, hscrutinee, hclose⟩, alts', σ₂, halts, rfl, rfl⟩ := hrun
      obtain ⟨hgrows, hsize, hscrutinee'⟩ := ih.value hscrutinee hclose hcovers hinlines hguarded.1
      obtain ⟨hgrows', halts'⟩ := ih.alts (Compile.mapM_ok halts) hcovers (hinlines.grow hgrows)
        (hguarded.2.mono hgrows alts (.refl _ _) hsize)
      exact ⟨hgrows.trans hgrows', .of_guarded ⟨hscrutinee'.grow hgrows', halts'⟩, Size.any_le _⟩
    | lam note params body =>
      simp only [descend, Compile.bind_ok, Compile.lift_ok, Compile.pure_ok] at hrun
      obtain ⟨⟨renames, params'⟩, σ₁, hcapture, body₁, σ₂, hrename, body', σ₃,
        ⟨p₁, _, hdescend, hclose⟩, rfl, rfl⟩ := hrun
      -- no binder captures a name of an unfolded body
      obtain ⟨hentered, hmaps, hinlines'⟩ :=
        avoidCapture_bindAll hcapture hcovers hinlines hguarded.1 .any
      obtain ⟨hgrows₂, _, hrenamed⟩ :=
        Subst.apply_guarded hrename (hmaps _) (hguarded.2.grow hentered.grows)
      obtain ⟨hgrows₃, _, hbody'⟩ :=
        ih.value hdescend hclose hcovers (hinlines'.grow hgrows₂) hrenamed
      exact ⟨(hentered.grows.trans hgrows₂).trans hgrows₃,
        .of_guarded ⟨fun n hn => (hentered.settled n hn).mono (hgrows₂.trans hgrows₃), hbody'⟩,
          Size.any_le _⟩
    | letRec note binds body =>
      simp only [descend, Compile.bind_ok, Compile.lift_ok, Compile.pure_ok] at hrun
      obtain ⟨⟨renames, binders'⟩, σ₁, hcapture, rhss₁, σ₂, hrenames, body₁, σ₃, hrename, rhss', σ₄,
        hrhss, body', σ₅, ⟨p₁, _, hdescend, hclose⟩, rfl, rfl⟩ := hrun
      obtain ⟨hentered, hmaps, hinlines'⟩ :=
        avoidCapture_bindAll hcapture hcovers hinlines hguarded.1 .any
      obtain ⟨hgrows₂, hlength₁, hrhss₁⟩ := Subst.applyAll_guarded hrenames (hmaps _)
        fun e he => (guardedRhss_iff.mp hguarded.2.1 e he).grow hentered.grows
      obtain ⟨hgrows₃, _, hbody₁⟩ := Subst.apply_guarded hrename ((hmaps _).mono hgrows₂)
        (hguarded.2.2.grow (hentered.grows.trans hgrows₂))
      obtain ⟨hgrows₄, hlength₂, hrhss'⟩ := ih.values (Compile.mapM_ok hrhss) hcovers
        (hinlines'.grow (hgrows₂.trans hgrows₃)) fun e he => (hrhss₁ e he).grow hgrows₃
      obtain ⟨hgrows₅, _, hbody'⟩ := ih.value hdescend hclose hcovers
        (hinlines'.grow ((hgrows₂.trans hgrows₃).trans hgrows₄)) (hbody₁.grow hgrows₄)
      -- renaming and inlining keep the bindings in step with their binders
      have hlength : rhss'.length = binders'.length := by
        rw [hlength₂, hlength₁, hentered.length_eq, Binds.rhss, Binds.binders, List.length_map,
          List.length_map]
      have hgrows := ((hgrows₂.trans hgrows₃).trans hgrows₄).trans hgrows₅
      refine ⟨hentered.grows.trans hgrows, .of_guarded ?_, Size.any_le _⟩
      rw [Guarded, Binds.names_zip hlength, guardedRhss_iff, Binds.rhss_zip hlength]
      exact ⟨fun n hn => (hentered.settled n hn).mono hgrows,
        fun e he => (hrhss' e he).grow hgrows₅, hbody'⟩

end descent

end Inline

/-- **Inlining into a function** keeps it guarded on the parameter at the same position. -/
theorem inlineDecl_guarded {mains : List FuncDecl} {d d' : FuncDecl} {σ σ' : Session}
    {base u u' : View} {own : Nat} (h : inlineDecl mains d σ = .ok d' σ')
    (hcovers : (Inline.Context.ofDecls mains).Covers base)
    (hinlines : Inline.Inlines (.ofDecls mains) base σ.counters u u')
    (hsettled : ∀ n ∈ d.paramNames, σ.counters.Settled n)
    (hguarded : Guarded σ.counters (u.ofParams d.paramNames own .whole) d.rhs []) :
    σ.counters ≤ σ'.counters ∧ d'.name = d.name ∧
      Guarded σ'.counters (u'.ofParams d'.paramNames own .whole) d'.rhs [] := by
  simp only [inlineDecl, Inline.Context.inline, Compile.bind_ok, Compile.lift_ok,
    Compile.pure_ok] at h
  obtain ⟨⟨renames, params'⟩, σ₁, hcapture, rhs₁, σ₂, hrename, rhs', σ₃, ⟨p, _, hdescend, hclose⟩,
    rfl, rfl⟩ := h
  -- the parameters are entered like binders, each with its size
  have hlength : (paramSizes d.paramNames.length own .whole).length = d.params.length := by
    rw [length_paramSizes, FuncDecl.paramNames, length_binderNames]
  obtain ⟨hentered, hmaps, hinlines'⟩ :=
    Inline.avoidCapture_spec hcapture hcovers hinlines hsettled hlength
  obtain ⟨hgrows₂, _, hrenamed⟩ :=
    Subst.apply_guarded hrename (hmaps _) (hguarded.grow hentered.grows)
  obtain ⟨hgrows₃, _, hrhs'⟩ :=
    Inline.DescendReady.value (Inline.descend_ready _) hdescend hclose hcovers
      (hinlines'.grow hgrows₂) hrenamed
  refine ⟨(hentered.grows.trans hgrows₂).trans hgrows₃, rfl, ?_⟩
  have hcount : (binderNames params').length = d.paramNames.length := by
    rw [FuncDecl.paramNames, length_binderNames, length_binderNames, hentered.length_eq]
  rwa [View.ofParams, FuncDecl.paramNames, hcount]

/-- Inlining into a function keeps its name and its number of parameters. -/
theorem inlineDecl_kept {mains : List FuncDecl} {d d' : FuncDecl} {σ σ' : Session}
    (h : inlineDecl mains d σ = .ok d' σ') :
    d'.name = d.name ∧ d'.params.length = d.params.length := by
  simp only [inlineDecl, Compile.bind_ok, Compile.lift_ok, Compile.pure_ok] at h
  obtain ⟨⟨s, params⟩, σ₁, henter, rhs, σ₂, _, rhs', σ₃, _, rfl, rfl⟩ := h
  exact ⟨rfl, Subst.length_enterBinders henter⟩

end StructRec
