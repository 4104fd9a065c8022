import StructRec.Proofs.Extraction
import StructRec.Proofs.Inlining

/-!
# StructRec — splitting keeps functions guarded

Outside of the cases on its decreasing parameter a function knows no strict part of it, so a guarded
function cannot call its group there (`Split.Surface`). All calls stand inside the cases that are
lifted into helpers. A helper takes the variables that its case uses, among them the decreasing
parameter, and is guarded on that (`Split.HelperGuarded`). The main function that remains passes its
parameters on to its helpers: it is guarded if its decreasing parameter is a strict part of another
value (`Split.MainReady`), as it is where the function is inlined.
-/

namespace StructRec

variable {e : Expr} {args : List Size}

/-! ## Applications -/

theorem guarded_withNote {c : Counters} {v : View} (note : Note) :
    Guarded c v (e.withNote note) args ↔ Guarded c v e args := by
  cases e <;> rfl

theorem guarded_applyTypes {c : Counters} {v : View} {fn : Expr} (types : List Ty) :
    Guarded c v (fn.applyTypes types) args ↔ Guarded c v fn args := by
  induction types generalizing fn with
  | nil => rfl
  | cons ty rest ih => exact ih

/-- An application is guarded if the function admits the arguments and each is guarded. -/
theorem guarded_apply {c : Counters} {v : View} {fn : Expr} (es : List Expr) :
    Guarded c v (fn.apply es) args ↔
      Guarded c v fn (es.map v.sizeOf ++ args) ∧ ∀ e ∈ es, Guarded c v e [] := by
  induction es generalizing fn with
  | nil => simp [Expr.apply]
  | cons e rest ih =>
    change Guarded c v ((fn.applyValue e).apply rest) args ↔ _
    rw [ih, Expr.applyValue, Guarded, List.map_cons, List.cons_append,
      List.forall_mem_cons, and_assoc]

/-! ## Parameters known by name -/

namespace View

variable {names : List Name}

theorem map_fst_zip_paramSizes (names : List Name) (own : Nat) (size : Size) :
    (names.zip (paramSizes names.length own size)).map Prod.fst = names :=
  List.map_fst_zip (length_paramSizes _ _ _).ge

/-- In a list without repetitions the parameter at a position is known by its name. -/
theorem facts_ofParams (v : View) (hnodup : names.Nodup) {own : Nat} {param : Name}
    (hparam : names[own]? = some param) (size : Size) (n : Name) :
    (v.ofParams names own size).facts n
      = if n ∈ names then some (.value (if n = param then size else .any)) else v.facts n := by
  split
  · next hn =>
    obtain ⟨size', hmem, hfacts, _⟩ :=
      facts_binds_of_mem v v ((map_fst_zip_paramSizes names own size).symm ▸ hn)
    rw [ofParams, hfacts]
    obtain ⟨i, hi⟩ := List.mem_iff_getElem?.mp hmem
    obtain ⟨hname, hsize⟩ := List.getElem?_zip_eq_some.mp hi
    obtain ⟨hlt, hsize⟩ := List.getElem?_eq_some_iff.mp hsize
    rw [getElem_paramSizes] at hsize
    -- different parameters have different names
    have hiff : i = own ↔ n = param := by
      constructor
      · rintro rfl
        exact Option.some.inj (hname.symm.trans hparam)
      · rintro rfl
        exact (List.getElem?_inj (List.getElem?_eq_some_iff.mp hname).1 hnodup).mp
          (hname.trans hparam.symm)
    obtain rfl : _ = size' := hsize
    simp only [hiff]
  · next hn => exact facts_binds_of_notMem v ((map_fst_zip_paramSizes names own size).symm ▸ hn)

theorem markers_ofParams (v : View) (names : List Name) (own : Nat) (size : Size) :
    (v.ofParams names own size).markers = v.markers := markers_binds v _

end View

namespace Split

variable {helpers' : List Helper} {returnTy : Option Ty} {call : Expr} {helper : Helper}

/-! ## Helpers -/

/-- A helper is guarded on its decreasing parameter. -/
structure HelperGuarded (c : Counters) (g : View) (h : Helper) : Prop where
  settled : ∀ n ∈ h.decl.paramNames, c.Settled n
  body : Guarded c (g.ofParams h.decl.paramNames h.decreasing .whole) h.decl.rhs []

/-- The helpers that were made between two states of a session: their names are new and differ. -/
structure HelpersGuarded (g : View) (σ σ' : Session) (helpers : List Helper) : Prop where
  grows : σ.counters ≤ σ'.counters
  pragmas : σ'.env.pragmas = σ.env.pragmas
  new : ∀ h ∈ helpers, ¬ σ.counters.Settled h.decl.name ∧ σ'.counters.Settled h.decl.name
  nodup : (helpers.map (·.decl.name)).Nodup
  guarded : ∀ h ∈ helpers, HelperGuarded σ'.counters g h

theorem HelperGuarded.grow {c c' : Counters} {g : View} {h : Helper} (hh : HelperGuarded c g h)
    (hc : c ≤ c') : HelperGuarded c' g h :=
  ⟨fun n hn => (hh.settled n hn).mono hc, hh.body.grow hc⟩

theorem HelpersGuarded.nil (g : View) (σ : Session) : HelpersGuarded g σ σ [] :=
  ⟨le_rfl, rfl, nofun, List.nodup_nil, nofun⟩

/-- The helpers of one part after those of another. -/
theorem HelpersGuarded.append {g : View} {σ σ₁ σ' : Session} {helpers : List Helper}
    (h : HelpersGuarded g σ σ₁ helpers) (h' : HelpersGuarded g σ₁ σ' helpers') :
    HelpersGuarded g σ σ' (helpers ++ helpers') where
  grows := h.grows.trans h'.grows
  pragmas := h'.pragmas.trans h.pragmas
  new x hx := by
    rcases List.mem_append.mp hx with hx | hx
    · exact ⟨(h.new x hx).1, (h.new x hx).2.mono h'.grows⟩
    · exact ⟨fun hold => (h'.new x hx).1 (hold.mono h.grows), (h'.new x hx).2⟩
  nodup := by
    rw [List.map_append]
    refine h.nodup.append h'.nodup fun n hn hn' => ?_
    obtain ⟨x, hx, rfl⟩ := List.mem_map.mp hn
    obtain ⟨x', hx', heq⟩ := List.mem_map.mp hn'
    exact (h'.new x' hx').1 (heq ▸ (h.new x hx).2)
  guarded x hx := by
    rcases List.mem_append.mp hx with hx | hx
    · exact (h.guarded x hx).grow h'.grows
    · exact h'.guarded x hx

/-- The helpers are known as functions to be called with a strict part. -/
def Calls (v : View) (helpers : List Helper) : Prop :=
  ∀ h ∈ helpers, v.facts h.decl.name = some (.callee h.decreasing)

theorem Calls.left {v : View} {helpers : List Helper} (h : Calls v (helpers ++ helpers')) :
    Calls v helpers :=
  fun x hx => h x (List.mem_append_left _ hx)

theorem Calls.right {v : View} {helpers : List Helper} (h : Calls v (helpers ++ helpers')) :
    Calls v helpers' :=
  fun x hx => h x (List.mem_append_right _ hx)

/-- Binders with settled names hide no helper. -/
theorem Calls.bindAll {v : View} {helpers : List Helper} {c : Counters} {names : List Name}
    (h : Calls v helpers) (hnew : ∀ h ∈ helpers, ¬ c.Settled h.decl.name)
    (hnames : ∀ n ∈ names, c.Settled n) (size : Size) : Calls (v.bindAll names size) helpers := by
  intro x hx
  rw [View.facts_bindAll, if_neg fun hmem => hnew x hx (hnames _ hmem)]
  exact h x hx

/-- The call that stands in the place of a lifted expression is guarded where the decreasing
parameter is a strict part and the other captured variables are values. -/
theorem call_guarded {c : Counters} {v : View} {name param : Name} {types : List Ty}
    {vars : List Binder} {note : Note} (hparam : param ∈ binderNames vars)
    (hcallee : v.facts name = some (.callee ((binderNames vars).idxOf param)))
    (hvars : ∀ n ∈ binderNames vars, ∃ size, v.facts n = some (.value size))
    (hpart : v.facts param = some (.value .part)) (args : List Size) :
    Guarded c v
      ((((Expr.var {} name).applyTypes types).apply (vars.map Binder.toExpr)).withNote note)
      args := by
  rw [guarded_withNote, guarded_apply, guarded_applyTypes]
  refine ⟨⟨_, hcallee, ?_⟩, fun e he => ?_⟩
  · have hlt : (binderNames vars).idxOf param < vars.length := by
      rw [← length_binderNames]
      exact List.idxOf_lt_length_of_mem hparam
    -- the decreasing argument of the call is the parameter, a part of the one of the caller
    have hget : (binderNames vars)[(binderNames vars).idxOf param]? = some param := by
      rw [List.getElem?_eq_getElem (List.idxOf_lt_length_of_mem hparam), List.getElem_idxOf]
    change (((vars.map Binder.toExpr).map v.sizeOf) ++ args)[(binderNames vars).idxOf param]? =
      some Size.part
    rw [List.getElem?_append_left (by simpa using hlt), List.map_map]
    rw [binderNames, List.getElem?_map, Option.map_eq_some_iff] at hget
    obtain ⟨b, hb, hname⟩ := hget
    rw [List.getElem?_map]
    change Option.map _ vars[(List.map Binder.name vars).idxOf param]? = _
    rw [hb, Option.map_some, Function.comp_apply, Binder.toExpr, View.sizeOf_var, hname, hpart]
    rfl
  · obtain ⟨b, hb, rfl⟩ := List.mem_map.mp he
    obtain ⟨size, hsize⟩ := hvars b.name (List.mem_map_of_mem hb)
    exact ⟨_, hsize, trivial⟩

/-- **What making a helper does**: a new name, the captured variables as parameters, and a call with
them. -/
theorem makeHelper_spec {d : FuncDecl} {param : Name} {vars : List (Name × Option Ty)} {body : Expr}
    {σ σ' : Session} (h : makeHelper d param returnTy vars body σ = ((helper, call), σ')) :
    σ.counters ≤ σ'.counters ∧ σ'.env.pragmas = σ.env.pragmas ∧
      ¬ σ.counters.Settled helper.decl.name ∧
      σ'.counters.Settled helper.decl.name ∧ helper.decl.paramNames = vars.map Prod.fst ∧
        helper.decl.rhs = body ∧
      helper.decreasing = (vars.map Prod.fst).idxOf param ∧
      ∀ (c : Counters) (v : View) (args : List Size), param ∈ vars.map Prod.fst →
        v.facts helper.decl.name = some (.callee helper.decreasing) →
        (∀ n ∈ vars.map Prod.fst, ∃ size, v.facts n = some (.value size)) →
        v.facts param = some (.value .part) → Guarded c v call args := by
  simp only [makeHelper, Naming.bind_eq, Naming.pure_eq, Session.modifyEnv_eq] at h
  obtain ⟨name, σ₁, hfresh, _, _, rfl, heq, rfl⟩ := h
  obtain ⟨rfl, rfl⟩ := Prod.mk.inj heq
  obtain ⟨henv, hgrows, hnew, hsettled, _⟩ := freshName_spec hfresh
  have hpragmas : σ₁.env.pragmas = σ.env.pragmas := by rw [henv]
  have hnames : binderNames
      (vars.map fun x => { name := x.1, ty := x.2, span := body.span : Binder }) =
      vars.map Prod.fst := by
    rw [binderNames, List.map_map]
    rfl
  refine ⟨hgrows, hpragmas, hnew, hsettled, hnames, rfl, congrArg (List.idxOf param) hnames, ?_⟩
  intro c v args hparam hcallee hvars hpart
  rw [← hnames] at hparam hvars
  exact call_guarded hparam hcallee hvars hpart args

/-! ## The surface of a function -/

/-- At a point outside of the cases on the decreasing parameter: of the variables in scope nothing
is known, but that the decreasing parameter is itself as long as no binder hides it. Other names are
as outside of the function. -/
structure Surface (c : Counters) (g : View) (param : Name) (scope : ScopeStack (Option Ty))
    (v : View) : Prop where
  defined : ∀ n, scope.isDefined n = true →
    v.facts n =
      some (.value (if n = param ∧ scope.refersToBottom param = true then .whole else .any))
  outer : ∀ n, scope.isDefined n = false → v.facts n = g.facts n
  settled : ∀ n, scope.isDefined n = true → c.Settled n
  markers : v.markers = g.markers

/-- Outside of all functions nothing is known of any value. -/
def Blank (g : View) : Prop := ∀ n size, g.facts n = some (.value size) → size = .any

namespace Surface

variable {c c' : Counters} {g v : View} {param : Name} {scope : ScopeStack (Option Ty)}

theorem grow (h : Surface c g param scope v) (hc : c ≤ c') : Surface c' g param scope v :=
  ⟨h.defined, h.outer, fun n hn => (h.settled n hn).mono hc, h.markers⟩

/-- On the surface only the decreasing parameter is known, and it is known whole. -/
theorem size_eq (h : Surface c g param scope v) (hg : Blank g) {n : Name} {size : Size}
    (hsize : v.facts n = some (.value size)) :
    size = if n = param ∧ scope.refersToBottom param = true then .whole else .any := by
  by_cases hdefined : scope.isDefined n = true
  · exact Known.value.inj (Option.some.inj (hsize.symm.trans (h.defined n hdefined)))
  · rw [Bool.not_eq_true] at hdefined
    rw [hg n size ((h.outer n hdefined).symm.trans hsize), if_neg]
    rintro ⟨rfl, hbottom⟩
    rw [ScopeStack.isDefined_of_refersToBottom hbottom] at hdefined
    cases hdefined

/-- Only the decreasing parameter itself is known to be anything. -/
theorem sizeOf_eq (h : Surface c g param scope v) (hg : Blank g) (e : Expr) :
    v.sizeOf e = if isDecreasingCase param scope e = true then .whole else .any := by
  cases e with
  | var note n =>
    rw [View.sizeOf_var, isDecreasingCase]
    cases hk : v.facts n with
    | none =>
      rw [if_neg]
      · rfl
      · rw [Bool.and_eq_true]
        rintro ⟨hn, hbottom⟩
        obtain rfl : n = param := Option.some.inj (of_decide_eq_true hn)
        rw [h.defined n (ScopeStack.isDefined_of_refersToBottom hbottom)] at hk
        cases hk
    | some k =>
      cases k with
      | value size =>
        change size = _
        rw [h.size_eq hg hk]
        simp [Expr.asVar?]
      -- a function of the group is not the parameter
      | callee position =>
        rw [if_neg]
        · rfl
        · rw [Bool.and_eq_true]
          rintro ⟨hn, hbottom⟩
          obtain rfl : n = param := Option.some.inj (of_decide_eq_true hn)
          rw [h.defined n (ScopeStack.isDefined_of_refersToBottom hbottom)] at hk
          cases hk
  | _ => simp [View.sizeOf, isDecreasingCase, Expr.asVar?]

theorem sizeOf_ne_part (h : Surface c g param scope v) (hg : Blank g) (e : Expr) :
    v.sizeOf e ≠ .part := by
  rw [h.sizeOf_eq hg]
  split <;> nofun

/-- **Under binders**: the parameter may be hidden, and nothing becomes known. -/
theorem enter (h : Surface c g param scope v) (binders : List Binder)
    (hsettled : ∀ n ∈ binderNames binders, c.Settled n) :
    Surface c g param (enter scope binders) (v.bindAll (binderNames binders) .any) := by
  have hnames : (binders.map fun b => (b.name, b.ty)).map Prod.fst = binderNames binders := by
    rw [List.map_map]
    rfl
  have hdefined : ∀ n, (Split.enter scope binders).isDefined n =
      (decide (n ∈ binderNames binders) || scope.isDefined n) := by
    intro n
    rw [Split.enter, ScopeStack.isDefined_enter, hnames]
  have hbottom : (Split.enter scope binders).refersToBottom param
      = (scope.refersToBottom param && decide (param ∉ binderNames binders)) := by
    rw [Split.enter, ScopeStack.refersToBottom_enter, hnames]
  refine ⟨fun n hn => ?_, fun n hn => ?_, fun n hn => ?_, h.markers⟩
  · rw [View.facts_bindAll, hbottom]
    rw [hdefined] at hn
    -- a binder hides the parameter if it has its name
    by_cases hmem : n ∈ binderNames binders
    · rw [if_pos hmem, if_neg]
      rintro ⟨rfl, hfree⟩
      simp [hmem] at hfree
    · rw [if_neg hmem, h.defined n (by simpa [hmem] using hn)]
      by_cases hparam : n = param
      · subst hparam
        simp [hmem]
      · simp [hparam]
  · rw [hdefined, Bool.or_eq_false_iff] at hn
    rw [View.facts_bindAll, if_neg (of_decide_eq_false hn.1)]
    exact h.outer n hn.2
  · rw [hdefined, Bool.or_eq_true] at hn
    exact hn.elim (fun hmem => hsettled n (of_decide_eq_true hmem)) (h.settled n)

/-- A helper captures the local variables of its body. -/
theorem mem_captured_iff (scope : ScopeStack (Option Ty)) (e : Expr) (n : Name) :
    n ∈ (captured scope e).map Prod.fst ↔ scope.isDefined n = true ∧ n ∈ e.freeOccs := by
  rw [captured, ← ScopeStack.mem_visible_iff]
  simp only [List.mem_map, List.mem_filter, decide_eq_true_eq, Expr.mem_freeVars]
  constructor
  · rintro ⟨entry, ⟨hmem, hused⟩, rfl⟩
    exact ⟨⟨entry, hmem, rfl⟩, hused⟩
  · rintro ⟨⟨entry, hmem, rfl⟩, hused⟩
    exact ⟨entry, ⟨hmem, hused⟩, rfl⟩

/-- **A lifted expression** is guarded in the view of a helper that takes the variables it uses. -/
theorem lift (h : Surface c g param scope v) (hbottom : scope.refersToBottom param = true)
    (hparam : param ∈ e.freeOccs) (hguarded : Guarded c v e []) :
    Guarded c (g.ofParams ((captured scope e).map Prod.fst)
      (((captured scope e).map Prod.fst).idxOf param) .whole) e [] := by
  have hmem : param ∈ (captured scope e).map Prod.fst :=
    (mem_captured_iff scope e param).mpr ⟨ScopeStack.isDefined_of_refersToBottom hbottom, hparam⟩
  have hnodup : ((captured scope e).map Prod.fst).Nodup :=
    (ScopeStack.nodup_visible scope).sublist (List.filter_sublist.map _)
  have hget : ((captured scope e).map Prod.fst)[((captured scope e).map Prod.fst).idxOf param]? =
      some param := by
    rw [List.getElem?_eq_getElem (List.idxOf_lt_length_of_mem hmem), List.getElem_idxOf]
  refine hguarded.mono le_rfl e
    ⟨fun n hn => ?_, fun m hm => by rwa [View.markers_ofParams, ← h.markers]⟩ (.refl _)
  refine .of_eq ?_
  rw [View.facts_ofParams g hnodup hget]
  by_cases hdefined : scope.isDefined n = true
  · rw [if_pos ((mem_captured_iff scope e n).mpr ⟨hdefined, hn⟩), h.defined n hdefined]
    simp [hbottom]
  · rw [if_neg fun hmem => hdefined ((mem_captured_iff scope e n).mp hmem).1,
      h.outer n (by simpa using hdefined)]

end Surface

/-! ## Extraction -/

/-- All values are known as well as where the function is inlined: there its decreasing parameter is
a strict part of another value. -/
structure Raised (v v' : View) : Prop where
  values : ∀ n size, v.facts n = some (.value size) → ∃ size',
    v'.facts n = some (.value size') ∧ size.field ≤ size'
  markers : ∀ m, v.markers m → v'.markers m

/-- **Under binders** of a `case`, whose fields may be parts. -/
theorem Raised.bindAll {v v' : View} (h : Raised v v') (names : List Name) (size : Size) :
    Raised (v.bindAll names .any) (v'.bindAll names size) where
  values n size' hsize := by
    rw [View.facts_bindAll] at hsize ⊢
    by_cases hn : n ∈ names
    · rw [if_pos hn] at hsize ⊢
      obtain rfl := Known.value.inj (Option.some.inj hsize)
      exact ⟨size, rfl, Size.any_le size⟩
    · rw [if_neg hn] at hsize ⊢
      exact h.values n size' hsize
  markers := h.markers

/-- What remains after extraction is guarded where the function is inlined, whatever it is applied
to. -/
def MainReady (v : View) (helpers : List Helper) (c : Counters) (e : Expr) : Prop :=
  ∀ (v' : View) (c' : Counters), c ≤ c' → Raised v v' → Calls v' helpers → ∀ args,
    Guarded c' v' e args

section extract

variable {d : FuncDecl} {param : Name} {g : View}

/-- An expression in which the decreasing parameter is itself, lifted over variables that include
it. -/
theorem makeHelper_guarded {v : View} {vars : List (Name × Option Ty)} {body : Expr}
    {σ σ' : Session} (h : makeHelper d param returnTy vars body σ = ((helper, call), σ'))
    (hparam : param ∈ vars.map Prod.fst) (hsettled : ∀ n ∈ vars.map Prod.fst, σ.counters.Settled n)
    (hvalues : ∀ n ∈ vars.map Prod.fst, ∃ size, v.facts n = some (.value size))
    (hwhole : v.facts param = some (.value .whole))
    (hbody : Guarded σ.counters
      (g.ofParams (vars.map Prod.fst) ((vars.map Prod.fst).idxOf param) .whole) body []) :
    HelpersGuarded g σ σ' [helper] ∧ MainReady v [helper] σ'.counters call := by
  obtain ⟨hgrows, hpragmas, hnew, hname, hparams, hrhs, hposition, hcall⟩ := makeHelper_spec h
  constructor
  · refine ⟨hgrows, hpragmas, fun x hx => ?_, List.nodup_singleton _, fun x hx => ?_⟩
    · obtain rfl := List.mem_singleton.mp hx
      exact ⟨hnew, hname⟩
    · obtain rfl := List.mem_singleton.mp hx
      refine ⟨fun n hn => (hsettled n (hparams ▸ hn)).mono hgrows, ?_⟩
      rw [hparams, hposition, hrhs]
      exact hbody.grow hgrows
  · -- where the function is inlined, the helper is called with a strict part
    intro v' c' _ hraised hcalls args
    refine hcall c' v' args hparam (hcalls helper (List.mem_singleton.mpr rfl)) (fun n hn => ?_) ?_
    · obtain ⟨size, hsize⟩ := hvalues n hn
      obtain ⟨size', hsize', _⟩ := hraised.values n size hsize
      exact ⟨size', hsize'⟩
    · obtain ⟨size, hsize, hle⟩ := hraised.values param _ hwhole
      rw [hsize, Size.eq_part_of_le hle]

/-- A case on the decreasing parameter is lifted as a whole. -/
theorem lift_guarded {scope : ScopeStack (Option Ty)} {v : View} {σ σ' : Session}
    (hbottom : scope.refersToBottom param = true) (hparam : param ∈ e.freeOccs)
    (h : makeHelper d param returnTy (captured scope e) e σ = ((helper, call), σ'))
    (hsurface : Surface σ.counters g param scope v) (hguarded : Guarded σ.counters v e []) :
    HelpersGuarded g σ σ' [helper] ∧ MainReady v [helper] σ'.counters call := by
  have hdefined : scope.isDefined param = true := ScopeStack.isDefined_of_refersToBottom hbottom
  have hcaptured := Surface.mem_captured_iff scope e
  refine makeHelper_guarded h ((hcaptured param).mpr ⟨hdefined, hparam⟩) (fun n hn => ?_)
    (fun n hn => ?_) ?_ (hsurface.lift hbottom hparam hguarded)
  · exact hsurface.settled n ((hcaptured n).mp hn).1
  · exact ⟨_, hsurface.defined n ((hcaptured n).mp hn).1⟩
  · rw [hsurface.defined param hdefined, if_pos ⟨rfl, hbottom⟩]

mutual

/-- **Extraction.** Helpers are guarded, and what remains is guarded where the function is
inlined. -/
theorem Lifts.guarded (hg : Blank g) {scope returnTy e σ helpers e' σ'}
    (h : Lifts d param scope returnTy e σ helpers e' σ') {v : View} {args : List Size}
    (hsurface : Surface σ.counters g param scope v) (hguarded : Guarded σ.counters v e args)
    (hargs : .part ∉ args) :
    HelpersGuarded g σ σ' helpers ∧ MainReady v helpers σ'.counters e' := by
  cases h with
  | leaf hleaf =>
    cases e with
    | app | typeApp | cond | case | lam | letRec => cases hleaf
    | con | intLit => exact ⟨.nil _ _, fun _ _ _ _ _ _ => trivial⟩
    | undefined | error => exact ⟨.nil _ _, fun _ _ _ hraised _ _ => hraised.markers _ hguarded⟩
    | var note n =>
      refine ⟨.nil _ _, fun v' c' _ hraised _ args' => ?_⟩
      obtain ⟨k, hk, hadmits⟩ := hguarded
      cases k with
      | value size =>
        obtain ⟨size', hsize', _⟩ := hraised.values n size hk
        exact ⟨_, hsize', trivial⟩
      | callee position =>
        -- on the surface no argument is a strict part, so the group is not called
        exact absurd (List.mem_of_getElem? hadmits) hargs
  | @app _ _ _ _ _ arg _ _ _ _ _ _ hfn harg =>
    have hnotPart : Size.part ∉ v.sizeOf arg :: args := by
      rw [List.mem_cons, not_or]
      exact ⟨(hsurface.sizeOf_ne_part hg arg).symm, hargs⟩
    obtain ⟨hhelpers₁, hfn'⟩ := hfn.guarded hg hsurface hguarded.1 hnotPart
    obtain ⟨hhelpers₂, harg'⟩ := harg.guarded hg (hsurface.grow hhelpers₁.grows)
      (hguarded.2.grow hhelpers₁.grows) List.not_mem_nil
    refine ⟨hhelpers₁.append hhelpers₂, fun v' c' hc hraised hcalls args' => ?_⟩
    exact ⟨hfn' v' c' (hhelpers₂.grows.trans hc) hraised hcalls.left _,
      harg' v' c' hc hraised hcalls.right _⟩
  | typeApp hfn =>
    obtain ⟨hhelpers, hfn'⟩ := hfn.guarded hg hsurface hguarded hargs
    exact ⟨hhelpers, fun v' c' hc hraised hcalls args' => hfn' v' c' hc hraised hcalls args'⟩
  | cond htest hthen helse =>
    obtain ⟨hhelpers₁, htest'⟩ := htest.guarded hg hsurface hguarded.1 List.not_mem_nil
    obtain ⟨hhelpers₂, hthen'⟩ := hthen.guarded hg (hsurface.grow hhelpers₁.grows)
      (hguarded.2.1.grow hhelpers₁.grows) List.not_mem_nil
    have hhelpers := hhelpers₁.append hhelpers₂
    obtain ⟨hhelpers₃, helse'⟩ := helse.guarded hg (hsurface.grow hhelpers.grows)
      (hguarded.2.2.grow hhelpers.grows) List.not_mem_nil
    refine ⟨hhelpers.append hhelpers₃, fun v' c' hc hraised hcalls args' => ?_⟩
    have hc₂ := hhelpers₃.grows.trans hc
    exact ⟨htest' v' c' (hhelpers₂.grows.trans hc₂) hraised hcalls.left.left _,
      hthen' v' c' hc₂ hraised hcalls.left.right _, helse' v' c' hc hraised hcalls.right _⟩
  | lift hcase hmake =>
    rw [isDecreasingCase, Bool.and_eq_true, decide_eq_true_eq] at hcase
    have hparam := Expr.mem_freeOccs_of_asVar? hcase.1
    exact lift_guarded hcase.2 (List.mem_append_left _ hparam) hmake hsurface hguarded
  | @case _ _ _ scrutinee _ _ _ _ _ _ _ _ hcase hscrutinee halts =>
    -- another scrutinee is not known to be anything, so its alternatives are on the surface too
    have hsize : v.sizeOf scrutinee = .any := by rw [hsurface.sizeOf_eq hg, if_neg hcase]
    obtain ⟨hhelpers₁, hscrutinee'⟩ := hscrutinee.guarded hg hsurface hguarded.1 List.not_mem_nil
    obtain ⟨hhelpers₂, halts'⟩ := halts.guarded hg (hsurface.grow hhelpers₁.grows)
      (hsize ▸ hguarded.2.grow hhelpers₁.grows)
    refine ⟨hhelpers₁.append hhelpers₂, fun v' c' hc hraised hcalls args' => ?_⟩
    exact ⟨hscrutinee' v' c' (hhelpers₂.grows.trans hc) hraised hcalls.left _,
      halts' v' c' hc hraised hcalls.right _⟩
  | lam hbody =>
    obtain ⟨hhelpers, hbody'⟩ :=
      hbody.guarded hg (hsurface.enter _ hguarded.1) hguarded.2 List.not_mem_nil
    refine ⟨hhelpers, fun v' c' hc hraised hcalls args' => ?_⟩
    have hcalls' := hcalls.bindAll (fun x hx => (hhelpers.new x hx).1) hguarded.1
    exact ⟨fun n hn => (hguarded.1 n hn).mono (hhelpers.grows.trans hc),
      hbody' _ c' hc (hraised.bindAll _ _) (hcalls' _) _⟩
  | @letRec _ _ _ binds _ _ _ _ _ _ _ _ hbinds hbody =>
    have hinner := hsurface.enter (Binds.binders binds) hguarded.1
    obtain ⟨hhelpers₁, hnames, hbinds'⟩ := hbinds.guarded hg hinner hguarded.2.1
    obtain ⟨hhelpers₂, hbody'⟩ := hbody.guarded hg (hinner.grow hhelpers₁.grows)
      (hguarded.2.2.grow hhelpers₁.grows) List.not_mem_nil
    have hhelpers := hhelpers₁.append hhelpers₂
    refine ⟨hhelpers, fun v' c' hc hraised hcalls args' => ?_⟩
    have hcalls' := hcalls.bindAll (fun x hx => (hhelpers.new x hx).1) hguarded.1 .any
    rw [Guarded, hnames]
    exact ⟨fun n hn => (hguarded.1 n hn).mono (hhelpers.grows.trans hc),
      hbinds' _ c' (hhelpers₂.grows.trans hc) (hraised.bindAll _ _) hcalls'.left,
      hbody' _ c' hc (hraised.bindAll _ _) hcalls'.right _⟩

/-- The alternatives of a `case` that stays. -/
theorem LiftsAlts.guarded (hg : Blank g) {scope alts σ helpers alts' σ'}
    (h : LiftsAlts d param scope alts σ helpers alts' σ') {v : View}
    (hsurface : Surface σ.counters g param scope v)
    (hguarded : GuardedAlts σ.counters v .any alts) :
    HelpersGuarded g σ σ' helpers ∧
      ∀ (v' : View) (c' : Counters), σ'.counters ≤ c' → Raised v v' → Calls v' helpers →
        ∀ size, GuardedAlts c' v' size alts' := by
  cases h with
  | nil => exact ⟨.nil _ _, fun _ _ _ _ _ _ => trivial⟩
  | @cons _ pattern _ _ _ _ _ _ _ _ _ hrhs hrest =>
    have hany : pattern.size .any = .any := by cases pattern <;> rfl
    obtain ⟨hsettled, hfirst, hlater⟩ := hguarded
    rw [hany] at hfirst
    obtain ⟨hhelpers₁, hrhs'⟩ :=
      hrhs.guarded hg (hsurface.enter _ hsettled) hfirst List.not_mem_nil
    obtain ⟨hhelpers₂, hrest'⟩ := hrest.guarded hg (hsurface.grow hhelpers₁.grows)
      (hlater.grow hhelpers₁.grows)
    refine ⟨hhelpers₁.append hhelpers₂, fun v' c' hc hraised hcalls size => ?_⟩
    exact ⟨fun n hn => (hsettled n hn).mono ((hhelpers₁.grows.trans hhelpers₂.grows).trans hc),
      hrhs' _ c' (hhelpers₂.grows.trans hc) (hraised.bindAll _ _)
        (hcalls.left.bindAll (fun x hx => (hhelpers₁.new x hx).1) hsettled _) _,
      hrest' v' c' hc hraised hcalls.right size⟩

/-- The bindings of a `let`. -/
theorem LiftsBinds.guarded (hg : Blank g) {scope binds σ helpers binds' σ'}
    (h : LiftsBinds d param scope binds σ helpers binds' σ') {v : View}
    (hsurface : Surface σ.counters g param scope v) (hguarded : GuardedRhss σ.counters v binds) :
    HelpersGuarded g σ σ' helpers ∧ Binds.names binds' = Binds.names binds ∧
      ∀ (v' : View) (c' : Counters), σ'.counters ≤ c' → Raised v v' → Calls v' helpers →
        GuardedRhss c' v' binds' := by
  cases h with
  | nil => exact ⟨.nil _ _, rfl, fun _ _ _ _ _ => trivial⟩
  | @cons _ b _ _ _ _ _ _ _ _ _ hrhs hrest =>
    obtain ⟨hhelpers₁, hrhs'⟩ := hrhs.guarded hg hsurface hguarded.1 List.not_mem_nil
    obtain ⟨hhelpers₂, hnames, hrest'⟩ := hrest.guarded hg (hsurface.grow hhelpers₁.grows)
      (hguarded.2.grow hhelpers₁.grows)
    refine ⟨hhelpers₁.append hhelpers₂, congrArg (b.name :: ·) hnames, ?_⟩
    intro v' c' hc hraised hcalls
    exact ⟨hrhs' v' c' (hhelpers₂.grows.trans hc) hraised hcalls.left _,
      hrest' v' c' hc hraised hcalls.right⟩

end

end extract

/-! ## Functions -/

/-- A function with distinct parameters that is guarded on the parameter at a position. -/
structure FuncGuarded (c : Counters) (g : View) (d : FuncDecl) (position : Nat) : Prop where
  nodup : d.paramNames.Nodup
  settled : ∀ n ∈ d.paramNames, c.Settled n
  body : Guarded c (g.ofParams d.paramNames position .whole) d.rhs []

theorem FuncGuarded.grow {c c' : Counters} {g : View} {d : FuncDecl} {position : Nat}
    (h : FuncGuarded c g d position) (hc : c ≤ c') : FuncGuarded c' g d position :=
  ⟨h.nodup, fun n hn => (h.settled n hn).mono hc, h.body.grow hc⟩

section function

variable {c : Counters} {g : View} {d : FuncDecl} {position : Nat} {param : Name}
variable {helpers : List Helper} {σ σ' : Session} {main : FuncDecl}

theorem isDefined_paramScope (d : FuncDecl) (n : Name) :
    (paramScope d).isDefined n = decide (n ∈ d.paramNames) := by
  rw [paramScope, ScopeStack.isDefined_bindAll, List.map_map]
  exact Bool.or_false _

/-- A function begins on the surface. -/
theorem paramScope_surface (h : FuncGuarded c g d position)
    (hparam : d.paramNames[position]? = some param) :
    Surface c g param (paramScope d) (g.ofParams d.paramNames position .whole) := by
  have hfacts := View.facts_ofParams g h.nodup hparam .whole
  have hbottom : ∀ n, (paramScope d).refersToBottom n = decide (n ∈ d.paramNames) := by
    intro n
    rw [← isDefined_paramScope, paramScope,
      ScopeStack.refersToBottom_eq_isDefined (ScopeStack.inner_bindAll_eq_nil rfl _)]
  refine ⟨fun n hn => ?_, fun n hn => ?_, fun n hn => ?_, View.markers_ofParams g _ _ _⟩
  · rw [isDefined_paramScope, decide_eq_true_eq] at hn
    rw [hfacts, if_pos hn]
    simp [hbottom, List.mem_of_getElem? hparam]
  · rw [isDefined_paramScope, decide_eq_false_iff_not] at hn
    rw [hfacts, if_neg hn]
  · rw [isDefined_paramScope, decide_eq_true_eq] at hn
    exact h.settled n hn

/-- Where the function is inlined its parameters are values, and the decreasing one is a strict
part. -/
theorem Raised.ofParams {base : View} (h : Raised g base) (hnodup : d.paramNames.Nodup)
    (hparam : d.paramNames[position]? = some param) :
    Raised (g.ofParams d.paramNames position .whole)
      (base.ofParams d.paramNames position .part) where
  values n size hsize := by
    rw [View.facts_ofParams _ hnodup hparam] at hsize ⊢
    by_cases hn : n ∈ d.paramNames
    · rw [if_pos hn] at hsize ⊢
      obtain rfl := Known.value.inj (Option.some.inj hsize)
      refine ⟨_, rfl, ?_⟩
      split
      · exact le_rfl
      · exact Size.any_le _
    · rw [if_neg hn] at hsize ⊢
      exact h.values n size hsize
  markers m hm := by
    rw [View.markers_ofParams] at hm ⊢
    exact h.markers m hm

theorem Calls.ofParams {base : View} (h : Calls base helpers)
    (hnew : ∀ h ∈ helpers, ¬ c.Settled h.decl.name) (hnodup : d.paramNames.Nodup)
    (hsettled : ∀ n ∈ d.paramNames, c.Settled n) (hparam : d.paramNames[position]? = some param)
    (size : Size) : Calls (base.ofParams d.paramNames position size) helpers := by
  intro x hx
  rw [View.facts_ofParams _ hnodup hparam, if_neg fun hmem => hnew x hx (hsettled _ hmem)]
  exact h x hx

/-- A main function that may be inlined as soon as its helpers are known. -/
def MainOf (g : View) (helpers : List Helper) (c : Counters) (main : FuncDecl) (position : Nat) :
    Prop :=
  ∀ (base : View) (c' : Counters), c ≤ c' → Raised g base → Calls base helpers →
    Inline.MainGuarded c' base main position

/-- A function with no case on its decreasing parameter becomes its own helper. -/
theorem makeHelper_whole (hd : FuncGuarded σ.counters g d position)
    (hparam : d.paramNames[position]? = some param)
    (h : makeHelper d param d.returnTy (d.params.map fun b => (b.name, b.ty)) d.rhs σ =
      ((helper, call), σ')) :
    HelpersGuarded g σ σ' [helper] ∧
      MainReady (g.ofParams d.paramNames position .whole) [helper] σ'.counters call := by
  have hvars : (d.params.map fun b => (b.name, b.ty)).map Prod.fst = d.paramNames := by
    rw [List.map_map]
    rfl
  have hindex : d.paramNames.idxOf param = position := by
    obtain ⟨hlt, rfl⟩ := List.getElem?_eq_some_iff.mp hparam
    exact hd.nodup.idxOf_getElem position hlt
  have hmem := List.mem_of_getElem? hparam
  have hfacts := View.facts_ofParams g hd.nodup hparam .whole
  refine makeHelper_guarded h ?_ ?_ ?_ ?_ ?_
  · rwa [hvars]
  · rw [hvars]
    exact hd.settled
  · rw [hvars]
    exact fun n hn => ⟨_, (hfacts n).trans (if_pos hn)⟩
  · rw [hfacts, if_pos hmem, if_pos rfl]
  · rw [hvars, hindex]
    exact hd.body

/-- **Splitting a function** gives guarded helpers and a main function that calls them. -/
theorem splitAt_guarded (hg : Blank g) (hd : FuncGuarded σ.counters g d position)
    (hparam : d.paramNames[position]? = some param)
    (h : splitAt d param σ = ((helpers, main), σ')) :
    HelpersGuarded g σ σ' helpers ∧ helpers ≠ [] ∧ main.name = d.name ∧
      MainOf g helpers σ'.counters main position := by
  simp only [splitAt, Naming.bind_eq] at h
  obtain ⟨⟨helpers₁, rhs'⟩, σ₁, hextract, h⟩ := h
  obtain ⟨hhelpers₁, hrhs'⟩ :=
    (lifts_of_extract d.rhs hextract).guarded hg (paramScope_surface hd hparam) hd.body
      List.not_mem_nil
  -- both branches replace the right-hand side only
  have hmain : ∀ (helpers : List Helper) (rhs : Expr) (σ' : Session),
      HelpersGuarded g σ σ' helpers →
      MainReady (g.ofParams d.paramNames position .whole) helpers σ'.counters rhs →
        MainOf g helpers σ'.counters { d with rhs } position := by
    intro helpers rhs σ' hhelpers hready base c' hc hraised hcalls
    refine ⟨hd.nodup, fun n hn => (hd.settled n hn).mono (hhelpers.grows.trans hc), ?_⟩
    exact hready _ c' hc (hraised.ofParams hd.nodup hparam)
      (hcalls.ofParams (fun x hx => (hhelpers.new x hx).1) hd.nodup hd.settled hparam .part) []
  split at h
  · next hempty =>
    simp only [Naming.bind_eq, Naming.pure_eq] at h
    obtain ⟨⟨helper, call⟩, σ₂, hmake, heq, rfl⟩ := h
    obtain ⟨rfl, rfl⟩ := Prod.mk.inj heq
    obtain rfl : helpers₁ = [] := List.isEmpty_iff.mp hempty
    obtain ⟨hhelper, hready⟩ := makeHelper_whole (hd.grow hhelpers₁.grows) hparam hmake
    have hhelpers := hhelpers₁.append hhelper
    exact ⟨hhelpers, List.cons_ne_nil _ _, rfl, hmain _ _ _ hhelpers hready⟩
  · next hempty =>
    simp only [Naming.pure_eq] at h
    obtain ⟨heq, rfl⟩ := h
    obtain ⟨rfl, rfl⟩ := Prod.mk.inj heq
    exact ⟨hhelpers₁, mt List.isEmpty_iff.mpr hempty, rfl, hmain _ _ _ hhelpers₁ hrhs'⟩

/-- A function is split on the parameter at the position, which every helper takes. -/
theorem split_ok (h : d.split position σ = .ok (helpers, main) σ') :
    ∃ param, d.params[position]? = some param ∧ splitAt d param.name σ = ((helpers, main), σ') ∧
      ∀ x ∈ helpers, x.decreasing < x.decl.arity := by
  unfold FuncDecl.split at h
  cases hparam : d.params[position]? with
  | none =>
    simp only [hparam] at h
    exact absurd h Compile.throw_ok
  | some param =>
    simp only [hparam, Compile.bind_ok, Compile.lift_ok] at h
    obtain ⟨⟨helpers', main'⟩, σ₁, hsplit, hcheck⟩ := h
    split at hcheck
    · exact absurd hcheck Compile.throw_ok
    · next hcaptured =>
      obtain ⟨heq, rfl⟩ := Compile.pure_ok.mp hcheck
      obtain ⟨rfl, rfl⟩ := Prod.mk.inj heq
      refine ⟨param, rfl, hsplit, fun x hx => ?_⟩
      rw [Bool.not_eq_true, List.any_eq_false] at hcaptured
      exact Nat.lt_of_not_le fun hle => hcaptured x hx (decide_eq_true hle)

/-- **One function** of a group that is guarded. -/
theorem split_guarded (hg : Blank g) (hd : FuncGuarded σ.counters g d position)
    (h : d.split position σ = .ok (helpers, main) σ') :
    HelpersGuarded g σ σ' helpers ∧ helpers ≠ [] ∧ main.name = d.name ∧
      MainOf g helpers σ'.counters main position := by
  obtain ⟨param, hparam, hsplit, _⟩ := split_ok h
  refine splitAt_guarded hg hd ?_ hsplit
  rw [FuncDecl.paramNames, binderNames, List.getElem?_map, hparam]
  rfl

end function

/-- **Functions split in order.** The helpers are guarded, and the main functions may be inlined. -/
theorem splitAll_guarded {g : View} (hg : Blank g) {decls : List (FuncDecl × Nat)}
    {helpers : List Helper} {mains : List FuncDecl} {σ σ' : Session}
    (hdecls : ∀ p ∈ decls, FuncGuarded σ.counters g p.1 p.2)
    (h : splitAll decls σ = .ok (helpers, mains) σ') :
    HelpersGuarded g σ σ' helpers ∧ (decls ≠ [] → helpers ≠ []) ∧
      mains.map FuncDecl.name = decls.map (·.1.name) ∧
      ∀ main ∈ mains, ∃ p ∈ decls,
        main.name = p.1.name ∧ MainOf g helpers σ'.counters main p.2 := by
  induction decls generalizing σ helpers mains with
  | nil =>
    obtain ⟨heq, rfl⟩ := Compile.pure_ok.mp h
    obtain ⟨rfl, rfl⟩ := Prod.mk.inj heq
    exact ⟨.nil _ _, nofun, rfl, nofun⟩
  | cons p rest ih =>
    simp only [splitAll, Compile.bind_ok, Compile.pure_ok] at h
    obtain ⟨⟨helpers₁, main⟩, σ₁, hsplit, ⟨helpers₂, mains'⟩, σ₂, hrest, heq, rfl⟩ := h
    obtain ⟨rfl, rfl⟩ := Prod.mk.inj heq
    obtain ⟨hhelpers₁, hsome, hname, hmain⟩ := split_guarded hg (hdecls p List.mem_cons_self) hsplit
    obtain ⟨hhelpers₂, _, hnames, hmains⟩ := ih
      (fun p hp => (hdecls p (List.mem_cons_of_mem _ hp)).grow hhelpers₁.grows) hrest
    -- a function calls helpers of its own only
    refine ⟨hhelpers₁.append hhelpers₂, fun _ => List.append_ne_nil_of_left_ne_nil hsome _, ?_,
      List.forall_mem_cons.mpr ⟨⟨p, List.mem_cons_self, hname, ?_⟩, ?_⟩⟩
    · rw [List.map_cons, List.map_cons, hname, hnames]
    · intro base c' hc hraised hcalls
      exact hmain base c' (hhelpers₂.grows.trans hc) hraised hcalls.left
    · intro main' hmem
      obtain ⟨p', hp', hname', hmain'⟩ := hmains main' hmem
      exact ⟨p', List.mem_cons_of_mem _ hp', hname', fun base c' hc hraised hcalls =>
        hmain' base c' hc hraised hcalls.right⟩

end Split

end StructRec
