import StructRec.Proofs.Conversions
import StructRec.Proofs.DefinitionOrder

/-!
# StructRec — no module brings about a fault

A conversion fails with an error of the module or with a fault of its own (`Bug`). Every fault
stands where something is looked up that must be there; that it is there is an invariant of its own
in each case, and none depends on the module being well formed.
-/

namespace StructRec

variable {α β : Type}
variable {decls : List FuncDecl}

/-! ## Runs without a fault -/

namespace Compile

/-- A run ends with a result or with an error of the module. -/
def Faultless (x : Compile α) (s : Session) : Prop := ∀ bug s', x s ≠ .error (.bug bug) s'

namespace Faultless

variable {x : Compile α} {s : Session}

theorem pure (a : α) (s : Session) : Faultless (Pure.pure a) s := fun _ _ h => by cases h

/-- What follows has to be faultless only where the first part has succeeded. -/
theorem bind {f : α → Compile β} (hx : x.Faultless s)
    (hf : ∀ a s', x s = .ok a s' → (f a).Faultless s') : (x >>= f).Faultless s := by
  intro bug s'' h
  simp only [Bind.bind, EStateM.bind] at h
  cases hrun : x s with
  | ok a s' =>
    rw [hrun] at h
    exact hf a s' hrun bug s'' h
  | error failure s' =>
    rw [hrun] at h
    obtain ⟨rfl, rfl⟩ := EStateM.Result.error.inj h
    exact hx bug s' hrun

theorem lift (x : Naming α) (s : Session) : Faultless (liftM x) s := fun _ _ h => by cases h

/-- What follows a computation that generates names. -/
theorem lift_bind {x : Naming α} {f : α → Compile β}
    (hf : ∀ a s', x s = (a, s') → (f a).Faultless s') : Faultless (liftM x >>= f) s :=
  (lift x s).bind fun a s' hrun => hf a s' (lift_ok.mp hrun)

theorem error (d : Diagnostic) (s : Session) :
    Faultless (throw (.error d) : Compile α) s := fun _ _ h => by cases h

/-- What follows an error is not reached. -/
theorem error_bind {d : Diagnostic} {f : α → Compile β} :
    Faultless (throw (.error d) >>= f) s := fun _ _ h => by cases h

/-- What is looked up must be there. -/
theorem expect {bug : Bug} {o : Option α} {a : α} (h : o = some a) (s : Session) :
    Faultless (expect bug o) s := by
  subst h
  exact .pure a s

theorem isolated (hx : x.Faultless s) : (isolated x).Faultless s := by
  unfold Faultless Compile.isolated at *
  cases hrun : x s <;> grind

theorem transaction (hx : x.Faultless s) : (transaction x).Faultless s := by
  unfold Faultless Compile.transaction at *
  cases hrun : x s <;> grind

theorem locate {span : Span} (hx : x.Faultless s) : (locate span x).Faultless s := by
  unfold Faultless Compile.locate at *
  cases hrun : x s with
  | ok a s' => grind
  | error failure s' => cases failure <;> grind

/-- Passing over an error passes over no fault. -/
theorem attempt (hx : x.Faultless s) : (attempt x).Faultless s := by
  unfold Faultless Compile.attempt at *
  cases hrun : x s with
  | ok a s' => grind
  | error failure s' => cases failure <;> grind

/-- Faultless steps, from whatever state. -/
theorem mapM {f : α → Compile β} {xs : List α} (h : ∀ a ∈ xs, ∀ s, (f a).Faultless s)
    (s : Session) : (xs.mapM f).Faultless s := by
  induction xs generalizing s with
  | nil =>
    rw [List.mapM_nil]
    exact .pure [] s
  | cons a rest ih =>
    rw [List.forall_mem_cons] at h
    rw [List.mapM_cons]
    exact (h.1 s).bind fun b s₁ _ => (ih h.2 s₁).bind fun later s₂ _ => .pure _ s₂

theorem forM {f : α → Compile PUnit} {xs : List α} (h : ∀ a ∈ xs, ∀ s, (f a).Faultless s)
    (s : Session) : (xs.forM f).Faultless s := by
  induction xs generalizing s with
  | nil => exact .pure _ s
  | cons a rest ih =>
    rw [List.forall_mem_cons] at h
    exact (h.1 s).bind fun _ s₁ _ => ih h.2 s₁

end Faultless

end Compile

/-! ## Inlining -/

namespace Inline

/-- The nodes of the functions that may still be unfolded. -/
def remaining (ctx : Context) : Nat := rhsSizes (ctx.decls.values.filter (·.name ∉ ctx.active))

theorem rhsSizes_le_of_sublist {xs ys : List FuncDecl} (h : xs.Sublist ys) :
    rhsSizes xs ≤ rhsSizes ys := by
  induction h with
  | slnil => exact le_rfl
  | cons d _ ih =>
    rw [rhsSizes]
    omega
  | cons_cons d _ ih =>
    rw [rhsSizes, rhsSizes]
    omega

/-- Without a function the sizes are smaller by its own. -/
theorem rhsSizes_filter_ne {d : FuncDecl} (hd : d ∈ decls) :
    d.rhs.size + 1 + rhsSizes (decls.filter (·.name ≠ d.name)) ≤ rhsSizes decls := by
  induction decls with
  | nil => cases hd
  | cons first rest ih =>
    have hrest := rhsSizes_le_of_sublist (List.filter_sublist (l := rest) (p := (·.name ≠ d.name)))
    rw [rhsSizes, List.filter_cons]
    by_cases hname : first.name = d.name
    · -- `first` need not be `d`: a later declaration may have the same name
      rw [if_neg (by simpa using hname)]
      rcases List.mem_cons.mp hd with rfl | hd
      · omega
      · have := ih hd
        omega
    · rw [if_pos (by simpa using hname), rhsSizes]
      have hd : d ∈ rest := (List.mem_cons.mp hd).resolve_left fun heq => hname (heq ▸ rfl)
      have := ih hd
      omega

/-- A function that is unfolded leaves less to unfold, by its own size. -/
theorem remaining_unfold {ctx inner : Context} {d : FuncDecl}
    (hget : ctx.decls.get? d.name = some d) (hinactive : d.name ∉ ctx.active)
    (hdecls : inner.decls = ctx.decls) (hactive : inner.active = d.name :: ctx.active) :
    d.rhs.size + 1 + remaining inner ≤ remaining ctx := by
  have hd : d ∈ ctx.decls.values.filter (·.name ∉ ctx.active) :=
    List.mem_filter.mpr ⟨Table.mem_values_of_get? hget, decide_eq_true hinactive⟩
  have hfilter : ctx.decls.values.filter (·.name ∉ d.name :: ctx.active)
      = (ctx.decls.values.filter (·.name ∉ ctx.active)).filter (·.name ≠ d.name) := by
    rw [List.filter_filter]
    refine List.filter_congr fun e _ => ?_
    rw [← Bool.decide_and, decide_eq_decide, List.mem_cons, not_or]
  rw [remaining, remaining, hdecls, hactive, hfilter]
  exact rhsSizes_filter_ne hd

theorem Pending.close_faultless (p : Pending) (s : Session) : p.close.Faultless s := by
  unfold Pending.close
  split
  · exact .error _ s
  · exact .pure _ s

theorem Pending.applyValue_faultless (p : Pending) (note : Note) (arg : Expr) (s : Session) :
    (p.applyValue note arg).Faultless s := by
  unfold Pending.applyValue
  split
  · exact .error _ s
  · exact .pure _ s
  · exact .lift_bind fun _ s' _ => .pure _ s'

theorem Pending.applyType_faultless (p : Pending) (note : Note) (ty : Ty) (s : Session) :
    (p.applyType note ty).Faultless s := by
  unfold Pending.applyType
  split
  · exact .pure _ s
  · exact .error _ s
  · exact .lift_bind fun _ s' _ => .pure _ s'

/-- The declarations stand under their own names. -/
def Context.IsNamed (ctx : Context) : Prop := ∀ n d, ctx.decls.get? n = some d → d.name = n

/-- Functions are listed under their names. -/
theorem Context.isNamed_ofDecls (decls : List FuncDecl) : (Context.ofDecls decls).IsNamed := by
  intro n d hget
  obtain ⟨e, _, heq⟩ := List.mem_map.mp (Table.mem_of_get?_ofList hget)
  obtain ⟨rfl, rfl⟩ := Prod.mk.inj heq
  rfl

/-- The descent reaches no fault down to this depth. -/
def DescendFaultless (depth : Nat) : Prop :=
  ∀ {ctx : Context} {e : Expr}, ctx.IsNamed → e.size + remaining ctx ≤ depth → ∀ s,
    (descend depth ctx e).Faultless s

section Descent

variable {depth : Nat} {ctx : Context} {e e' whole : Expr}

/-- A descent whose result is closed. -/
theorem DescendFaultless.value (h : DescendFaultless depth) (hnamed : ctx.IsNamed)
    (hsize : e.size + remaining ctx ≤ depth) (s : Session) :
    Compile.Faultless (do (← descend depth ctx e).close) s :=
  (h hnamed hsize s).bind fun p s' _ => p.close_faultless s'

/-- A part of an expression under binders, some of which are renamed. -/
theorem DescendFaultless.under {renames : Subst} (h : DescendFaultless depth) (hnamed : ctx.IsNamed)
    (hwhole : whole.size + remaining ctx ≤ depth + 1) (hpart : e.size < whole.size)
    (hrenames : renames.RenamesTo e e') (binders : List Binder) (s : Session) :
    Compile.Faultless (do (← descend depth (ctx.shadow binders) e').close) s := by
  have hshadow : (ctx.shadow binders).IsNamed := hnamed
  refine h.value hshadow ?_ s
  have hsame : remaining (ctx.shadow binders) = remaining ctx := rfl
  rw [hrenames.size, hsame]
  omega

/-- A reference, which is unfolded or stays. -/
theorem DescendFaultless.reference (h : DescendFaultless depth) (hnamed : ctx.IsNamed) (note : Note)
    (name : Name) (hsize : 1 + remaining ctx ≤ depth + 1) (s : Session) :
    (descend (depth + 1) ctx (.var note name)).Faultless s := by
  rw [descend]
  cases hdecl : ctx.decl? name with
  | none => exact .pure _ s
  | some d =>
    have hget : ctx.decls.get? name = some d := by
      unfold Context.decl? at hdecl
      split at hdecl
      · cases hdecl
      · exact hdecl
    by_cases hactive : name ∈ ctx.active
    · simp only [if_pos hactive]
      exact .error_bind
    · simp only [if_neg hactive]
      refine .lift_bind fun p s' hrun => ?_
      obtain rfl := hnamed name d hget
      have hinner : Context.IsNamed
        { ctx.shadow p.params with active := d.name :: ctx.active } := hnamed
      have hless : d.rhs.size + 1 +
          remaining { ctx.shadow p.params with active := d.name :: ctx.active } ≤ remaining ctx :=
        remaining_unfold hget hactive rfl rfl
      -- the new right-hand side is as large as what is no longer to be unfolded, so the bound still
      -- holds for it
      refine (h.value hinner ?_ s').bind fun _ s'' _ => .pure _ s''
      rw [instantiate_size hrun]
      omega

/-- **The bound on the descent is not exceeded.** What may still be unfolded counts as part of the
expression. -/
theorem descend_faultless (depth : Nat) : DescendFaultless depth := by
  induction depth with
  | zero =>
    -- an expression has a node, so the bound is not met at depth zero
    intro ctx e _ hsize
    have hpos := e.size_pos
    omega
  | succ depth ih =>
    intro ctx e hnamed hsize s
    cases e with
    | var note name => exact ih.reference hnamed note name hsize s
    | con note name | intLit note value | undefined note | error note message => exact .pure _ s
    | app note fn arg =>
      rw [Expr.size] at hsize
      rw [descend]
      refine (ih hnamed (by omega) s).bind fun p s₁ _ => ?_
      exact (ih.value hnamed (by omega) s₁).bind fun arg' s₂ _ =>
        p.applyValue_faultless note arg' s₂
    | typeApp note fn ty =>
      rw [Expr.size] at hsize
      rw [descend]
      exact (ih hnamed (by omega) s).bind fun p s₁ _ => p.applyType_faultless note ty s₁
    | cond note test thenBranch elseBranch =>
      rw [Expr.size] at hsize
      rw [descend]
      refine (ih.value hnamed (by omega) s).bind fun _ s₁ _ =>
        (ih.value hnamed (by omega) s₁).bind fun _ s₂ _ => ?_
      exact (ih.value hnamed (by omega) s₂).bind fun _ s₃ _ => .pure _ s₃
    -- renaming under binders does not change the size that the depth has to cover
    | case note scrutinee alts =>
      rw [descend]
      have hscrutinee : scrutinee.size + remaining ctx ≤ depth := by
        rw [Expr.size] at hsize
        omega
      refine (ih.value hnamed hscrutinee s).bind fun _ s₁ _ =>
        .bind (.mapM (fun alt halt s => ?_) s₁) fun _ s₂ _ => .pure _ s₂
      obtain ⟨pattern, rhs⟩ := alt
      have hrhs := Expr.size_le_sizeAlts halt
      refine .lift_bind fun entered s' henter => .lift_bind fun rhs' s'' hrun => ?_
      have hrenames := Subst.apply_renames hrun (Subst.enterBinders_refreshes henter).isRenaming
      exact (ih.under hnamed hsize (by rw [Expr.size]; omega) hrenames _ s'').bind
        fun _ s₃ _ => .pure _ s₃
    | lam note params body =>
      rw [descend]
      refine .lift_bind fun entered s₁ henter => .lift_bind fun body' s₂ hrun => ?_
      have hrenames := Subst.apply_renames hrun (Subst.enterBinders_refreshes henter).isRenaming
      exact (ih.under hnamed hsize (by rw [Expr.size]; omega) hrenames _ s₂).bind
        fun _ s₃ _ => .pure _ s₃
    | letRec note binds body =>
      rw [descend]
      refine .lift_bind fun entered s₁ henter => .lift_bind fun rhss s₂ hrhss =>
        .lift_bind fun body' s₃ hrun => ?_
      have hrenaming := (Subst.enterBinders_refreshes henter).isRenaming
      refine .bind (.mapM (fun rhs' hrhs' s => ?_) s₃) fun _ s₄ _ => ?_
      · obtain ⟨rhs, hrhs, hrenames⟩ := Subst.applyAll_renames hrhss hrenaming rhs' hrhs'
        have hrhs := Expr.size_le_sizeBinds hrhs
        exact ih.under hnamed hsize (by rw [Expr.size]; omega) hrenames _ s
      · have hrenames := Subst.apply_renames hrun hrenaming
        exact (ih.under hnamed hsize (by rw [Expr.size]; omega) hrenames _ s₄).bind
          fun _ s₅ _ => .pure _ s₅

end Descent

/-- **Inlining never runs out of depth**: the limit is above all sizes. -/
theorem inline_faultless (decls : List FuncDecl) (params : List Binder) (e : Expr) (s : Session) :
    (((Context.ofDecls decls).shadow params).inline e).Faultless s := by
  have hnamed : ((Context.ofDecls decls).shadow params).IsNamed := Context.isNamed_ofDecls decls
  refine DescendFaultless.value (descend_faultless _) hnamed (Nat.add_le_add_left ?_ _) s
  exact rhsSizes_le_of_sublist List.filter_sublist

end Inline

theorem inlineDecl_faultless (decls : List FuncDecl) (d : FuncDecl) (s : Session) :
    (inlineDecl decls d).Faultless s := by
  refine .lift_bind fun entered s₁ _ => .lift_bind fun rhs s₂ _ => ?_
  exact (Inline.inline_faultless decls entered.2 rhs s₂).bind fun _ s₃ _ => .pure _ s₃

/-! ## Splitting -/

namespace Split

variable {d : FuncDecl} {param : Name} {helpers : List Helper} {s σ σ' : Session}

/-- A function is split at one of its parameters. -/
theorem split_faultless {position : Nat} (h : position < d.arity) (s : Session) :
    (d.split position).Faultless s := by
  have hget : d.params[position]? = some d.params[position] := List.getElem?_eq_getElem h
  unfold FuncDecl.split
  rw [hget]
  refine .lift_bind fun result s' hrun => ?_
  obtain ⟨helpers, main⟩ := result
  obtain ⟨hmakes, _⟩ := splitAt_makes hrun (List.mem_map_of_mem (List.getElem_mem h))
  -- the body of a helper takes the parameter apart, so the parameter is captured
  have hcaptured : (helpers.any fun x => x.decl.arity ≤ x.decreasing) = false := by
    rw [List.any_eq_false]
    intro x hx
    simpa using hmakes.registers.inRange x hx
  simp only [hcaptured]
  exact .pure _ s'

theorem splitAll_faultless {decls : List (FuncDecl × Nat)} (h : ∀ p ∈ decls, p.2 < p.1.arity)
    (s : Session) : (splitAll decls).Faultless s := by
  induction decls generalizing s with
  | nil => exact .pure _ s
  | cons p rest ih =>
    rw [List.forall_mem_cons] at h
    refine (split_faultless h.1 s).bind fun first s₁ _ => ?_
    exact (ih h.2 s₁).bind fun later s₂ _ => .pure _ s₂

/-- The decreasing argument of a helper has been registered. -/
theorem toBody_faultless {h : Helper} {inlined : FuncDecl} (hfinds : FindsHelper s.env h inlined) :
    (toBody inlined).Faultless s := by
  obtain ⟨param, hget⟩ := hfinds.registered
  refine .lift_bind fun env s₁ hrun => ?_
  obtain ⟨rfl, rfl⟩ := Session.getEnv_eq.mp hrun
  refine .bind (.expect hget _) fun registered s₂ hfound => .bind ?_ fun _ s₃ _ => .pure _ s₃
  obtain ⟨hregistered, _⟩ := Compile.expect_ok.mp hfound
  obtain rfl := Option.some.inj (hget.symm.trans hregistered)
  exact .expect (List.getElem?_eq_getElem hfinds.inRange) s₂

/-- All helpers are found, one by one. -/
theorem toBodies_faultless {inlined : List FuncDecl}
    (h : List.Forall₂ (FindsHelper s.env) helpers inlined) : (inlined.mapM toBody).Faultless s := by
  induction h with
  | nil =>
    rw [List.mapM_nil]
    exact .pure _ s
  | cons hfirst _ ih =>
    rw [List.mapM_cons]
    refine (toBody_faultless hfirst).bind fun b s₁ hrun => ?_
    obtain ⟨_, rfl⟩ := (toBody_ok hfirst).mp hrun
    exact ih.bind fun later s₂ _ => .pure _ s₂

/-- **Splitting a group** on parameters of its functions. -/
theorem toSentences_faultless {positions : List Nat}
    (h : List.Forall₂ (fun d position => position < d.arity) decls positions) (s : Session) :
    (toSentences decls positions).Faultless s := by
  have hpositions : ∀ p ∈ decls.zip positions, p.2 < p.1.arity :=
    fun p hp => (List.forall₂_iff_zip.mp h).2 hp
  refine (splitAll_faultless hpositions s).bind fun result s₁ hsplit => ?_
  obtain ⟨helpers, mains⟩ := result
  have hinlines :=
    Compile.Faultless.mapM
      (fun (x : Helper) (_ : x ∈ helpers) s => inlineDecl_faultless mains x.decl s) s₁
  refine hinlines.isolated.bind fun inlined s₂ hrun => ?_
  obtain ⟨s₃, hinline, rfl⟩ := Compile.isolated_ok.mp hrun
  -- the environment is that of the split again, where the helpers are registered
  have hfinds := findsHelpers hsplit hinline
  refine (toBodies_faultless (s := { s₃ with env := s₁.env }) hfinds).bind fun bodies s₄ _ => ?_
  refine .bind (.forM (fun _ _ s => .lift _ s) s₄) fun _ s₅ _ => ?_
  exact .bind (.forM (fun _ _ s => .lift _ s) s₅) fun _ s₆ _ => .pure _ s₆

end Split

/-! ## Groups -/

namespace Hoist

theorem registerInner_faultless (positions : List Nat) (d inner : FuncDecl) (s : Session) :
    (registerInner positions d inner).Faultless s := by
  refine .lift_bind fun _ s₁ _ => .lift_bind fun env s₂ _ => ?_
  split
  · exact .error _ s₂
  · exact .pure _ s₂
  · exact .lift _ s₂

/-- **Hoisting the constant parameters** of a group. -/
theorem toSentences_faultless {decls : List FuncDecl} (h : decls ≠ []) (s : Session) :
    (toSentences decls (constantPositions decls)).Faultless s := by
  have hfirst : decls.head? = some (decls.head h) := List.head?_eq_some_head h
  obtain ⟨vars, hvars⟩ := sectionVariables?_isSome hfirst
  refine .bind (.expect hvars s) fun vars s₁ _ => .lift_bind fun entries s₂ _ => ?_
  refine .bind (.expect hfirst s₂) fun first s₃ _ => .lift_bind fun name s₄ _ =>
    .lift_bind fun previous s₅ _ => ?_
  refine .bind (.forM (fun p _ s => registerInner_faultless _ p.1 p.2 s) s₅) fun _ s₆ _ =>
    .lift_bind fun env s₇ _ => ?_
  dsimp only
  split
  · next chosen hchoose =>
    refine .bind (.pure chosen s₇) fun chosen' s₈ hrun => ?_
    obtain ⟨rfl, rfl⟩ := Compile.pure_ok.mp hrun
    -- the choice is one of parameters that the inner functions have kept
    have hpositions := (Decreasing.choose_ok hchoose).1.imp fun _ _ hallows => hallows.lt_arity
    refine (Split.toSentences_faultless hpositions s₇).bind fun sentences s₈ _ => ?_
    refine .bind (.forM (fun _ _ s => .lift _ s) s₈) fun _ s₉ _ => ?_
    refine .bind (.forM (fun _ _ s => .lift _ s) s₉) fun _ s₁₀ _ => ?_
    exact .bind (.expect (wrapper?_isSome _ rfl).choose_spec s₁₀) fun _ s₁₁ _ => .pure _ s₁₁
  · exact .error_bind

end Hoist

/-- **A group of functions** is converted or reports an error. -/
theorem groupToSentences_faultless (h : decls ≠ []) (s : Session) :
    (groupToSentences decls).Faultless s := by
  unfold groupToSentences
  split
  · refine .lift_bind fun env s₁ _ => ?_
    split
    · next positions hchoose =>
      exact Split.toSentences_faultless
        ((Decreasing.choose_ok hchoose).1.imp fun _ _ hallows => hallows.lt_arity) s₁
    · exact .error _ s₁
  · exact Hoist.toSentences_faultless h s

theorem Component.funcsToSentences_faultless {c : Component FuncDecl}
    (hc : c ∈ Dependency.components decls) (s : Session) : c.funcsToSentences.Faultless s := by
  cases c with
  | single d => exact .pure _ s
  | recursive group =>
    exact (groupToSentences_faultless (Dependency.ne_nil_of_recursive hc) s).locate

namespace TypeGroup

/-- A recursive group of types has a declaration to report an error at. -/
theorem recursiveToSentences_faultless {decls : List TypeDecl} (h : decls ≠ []) (s : Session) :
    (recursiveToSentences decls).Faultless s := by
  unfold recursiveToSentences
  split
  · next hempty => exact absurd (List.isEmpty_iff.mp hempty) h
  · dsimp only
    split
    · exact .error_bind
    · refine .lift_bind fun amongSynonyms s₁ _ => ?_
      split
      · exact .error_bind
      · exact .lift_bind fun _ s₂ _ => .lift_bind fun _ s₃ _ => .lift_bind fun _ s₄ _ => .pure _ s₄

theorem toSentences_faultless {decls : List TypeDecl} {c : Component TypeDecl}
    (hc : c ∈ Dependency.components decls) (s : Session) :
    (toSentences c).Faultless s := by
  cases c with
  | single d =>
    cases d with
    | data d => exact .lift_bind fun _ s₁ _ => .pure _ s₁
    | synonym d => exact .lift_bind fun _ s₁ _ => .pure _ s₁
  | recursive group => exact recursiveToSentences_faultless (Dependency.ne_nil_of_recursive hc) s

end TypeGroup

/-! ## Modules -/

theorem Module.registerPragma_faultless (m : Module) (p : Pragma) (s : Session) :
    (m.registerPragma p).Faultless s := by
  unfold Module.registerPragma
  split
  · exact .error_bind
  · refine .lift_bind fun env s₁ _ => ?_
    split
    · exact .lift_bind fun _ s₂ _ => .lift _ s₂
    · exact .lift _ s₁

/-- If no component meets a fault, no run over them does. -/
theorem convertComponents_faultless [Declaration α] (keepGoing : Bool)
    {convert : Component α → Compile (List Sentence)} {components : List (Component α)}
    (h : ∀ c ∈ components, ∀ s, (convert c).Faultless s) (s : Session) :
    (convertComponents keepGoing convert components).Faultless s := by
  induction components generalizing s with
  | nil => exact .pure _ s
  | cons c rest ih =>
    rw [List.forall_mem_cons] at h
    refine (h.1 s).transaction.attempt.bind fun result s₁ _ => ?_
    split
    · exact (ih h.2 s₁).bind fun later s₂ _ => .pure _ s₂
    · split
      · exact .error_bind
      · exact .lift_bind fun _ s₂ _ => (ih h.2 s₂).bind fun later s₃ _ => .pure _ s₃

theorem Module.prepare_faultless (m : Module) (s : Session) : m.prepare.Faultless s := by
  refine .lift_bind fun ordered s₁ _ => .bind (.lift_bind fun _ s₂ _ => ?_) fun _ s₃ _ =>
    .lift_bind fun _ s₄ _ => .pure _ s₄
  exact .forM (fun p _ s => ordered.source.registerPragma_faultless p s) s₂

/-! ## What is read without a check

The graph of declarations and the tables of a section are read at places that must be there. -/

/-- The classes of a graph are emitted once each, with the positions of all declarations, each in
one class. -/
structure Dependency.Graph.WellListed (g : Graph) : Prop where
  edges : g.Bounded
  /-- No counter is lowered below zero. -/
  lowered : ∀ steps, ∀ next ∈ (g.emission g.classes steps).ready,
    ∀ user ∈ (g.waiting g.classes).usersOf next.id,
      user < g.classes.length ∧ 0 < (g.emission g.classes steps).pendingOf user
  /-- The emission ends when no class is ready. -/
  ended : (g.emission g.classes g.classes.length).ready = []
  complete : g.order.length = g.classes.length
  distinct : g.order.Nodup
  nonempty : ∀ members ∈ g.order, members ≠ []
  disjoint : g.order.flatten.Nodup
  inRange : ∀ members ∈ g.order, ∀ i ∈ members, i < g.size

/-- **The classes of the dependency graph are listed completely.** -/
theorem Dependency.Graph.wellListed_ofDecls [Declaration α] (decls : List α) :
    (Graph.ofDecls decls).WellListed := by
  have hbounded := bounded_ofDecls decls
  -- the order is a permutation of the classes, and these hold every position once
  have hperm := (order_spec hbounded).1
  have hflatten := hperm.flatten.trans (flatten_classes hbounded)
  refine ⟨hbounded, fun _ _ hnext _ huser => pendingOf_emission_pos hbounded (.refl _) hnext huser,
    ready_emission_eq_nil hbounded (.refl _), hperm.length_eq,
      hperm.nodup_iff.mpr (nodup_classes _), fun members hmem => ?_,
    hflatten.nodup_iff.mpr List.nodup_range, fun members hmem i hi => ?_⟩
  · exact nonempty_of_mem_classes (hperm.mem_iff.mp hmem)
  · exact List.mem_range.mp (hflatten.mem_iff.mp (List.mem_flatten.mpr ⟨members, hmem, hi⟩))

/-- Every function of a group has its inner function, its hoisted type parameters and its position
in a choice. A position moves down by no more than there is below it. -/
structure Hoist.Indexed (decls : List FuncDecl) : Prop where
  inner : ∀ s, ∀ d ∈ decls, ((Table.ofList (freshInnerNames decls s).1).get? d.name).isSome = true
  hoistedTypes : ∀ s typeVars n, ((Table.ofList (freshInnerNames decls s).1).get? n).isSome = true →
    ((Table.ofList (decls.map fun d => (d.name, hoistedTypePositions typeVars d))).get? n).isSome =
      true
  shift : ∀ i, ((constantPositions decls).filter (· < i)).length ≤ i
  choice : ∀ options, options.length = decls.length → ∀ choice ∈ Decreasing.choices options,
    choice.length = decls.length

/-- A choice takes one of the options of every function. -/
theorem Decreasing.length_of_mem_choices {options : List (List Nat)} {choice : List Nat}
    (h : choice ∈ choices options) : choice.length = options.length := by
  induction options generalizing choice with
  | nil =>
    obtain rfl := List.mem_singleton.mp h
    rfl
  | cons first rest ih =>
    obtain ⟨k, _, hk⟩ := List.mem_flatMap.mp h
    obtain ⟨later, hlater, rfl⟩ := List.mem_map.mp hk
    exact congrArg (· + 1) (ih hlater)

/-- **Nothing is missing** when a group is hoisted. -/
theorem Hoist.indexed (decls : List FuncDecl) : Indexed decls := by
  have hinner : ∀ s n, ((Table.ofList (freshInnerNames decls s).1).get? n).isSome = true ↔
      n ∈ decls.map FuncDecl.name := by
    intro s n
    have hkeys := (freshInnerNames_spec (rfl : freshInnerNames decls s = (_, _))).2.2.1
    rw [Table.isSome_get?_ofList, hkeys]
  refine ⟨fun s d hd => (hinner s d.name).mpr (List.mem_map_of_mem hd),
    fun s typeVars n hn => ?_, fun i => ?_,
    fun options hlength choice hmem => (Decreasing.length_of_mem_choices hmem).trans hlength⟩
  · rw [Table.isSome_get?_ofList, List.map_map]
    exact (hinner s n).mp hn
  · -- the constant positions below `i` are distinct
    have hnodup : (constantPositions decls).Nodup := List.nodup_range.filter _
    have hsub : (constantPositions decls).filter (· < i) ⊆ List.range i := fun k hk =>
      List.mem_range.mpr (of_decide_eq_true (List.mem_filter.mp hk).2)
    exact ((hnodup.filter _).subperm hsub).length_le.trans_eq List.length_range

/-- **No module brings about a fault**, whatever its declarations and pragmas are. Nor is anything
read that is not there. -/
theorem convertModule_faultless (keepGoing : Bool) (m : Module) :
    (∀ bug s', convertModule keepGoing m {} ≠ .error (.bug bug) s') ∧
      (∀ decls : List TypeDecl, (Dependency.Graph.ofDecls decls).WellListed) ∧
      (∀ decls : List FuncDecl, (Dependency.Graph.ofDecls decls).WellListed) ∧
      ∀ decls : List FuncDecl, Hoist.Indexed decls := by
  refine ⟨?_, Dependency.Graph.wellListed_ofDecls, Dependency.Graph.wellListed_ofDecls,
    Hoist.indexed⟩
  change (convertModule keepGoing m).Faultless {}
  rw [convertModule_eq]
  refine (m.prepare_faultless {}).bind fun ordered s₁ hprepare => ?_
  obtain ⟨rfl, _⟩ := Module.prepare_ok hprepare
  refine .bind
    (convertComponents_faultless keepGoing (fun c hc s => TypeGroup.toSentences_faultless hc s) s₁)
    fun _ s₂ _ => ?_
  exact .bind
    (convertComponents_faultless keepGoing (fun c hc s => c.funcsToSentences_faultless hc s) s₂)
    fun _ s₃ _ => .pure _ s₃

end StructRec
