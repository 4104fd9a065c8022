import StructRec.Proofs.Conversions
import StructRec.Proofs.DecreasingCases

/-!
# StructRec — conversions in which inlining does not fail

Inlining reports an error if a function would be inlined into itself, or does not get the types that
it takes. In a module without pragmas neither happens, as long as functions of a component give each
other their types. The decreasing parameters are a valid choice then, so no main function refers to
its group. The inner functions of a section lose types and arguments together.

The names of inner functions are generated without a look at the variables of the group, though. A
variable that is spelled like one refers to the inner function afterwards, and need not give it its
types (`capturing_unresolved`).
-/

namespace StructRec

variable {α : Type}

/-- No function has a pragma. -/
def Environment.WithoutPragmas (env : Environment) : Prop := ∀ n, env.pragmas.get? n = none

theorem Environment.WithoutPragmas.of_eq {env env' : Environment} (h : env.WithoutPragmas)
    (heq : env'.pragmas = env.pragmas) : env'.WithoutPragmas := fun n => heq ▸ h n

/-- The failure is not one of inlining. -/
def Failure.Resolved : Failure → Prop
  | .error d => d.kind ≠ .unresolvedReference
  | .bug _ => True

/-- A run leaves no pragmas, and if it fails, then not in inlining. -/
abbrev Compile.Resolves (x : Compile α) (s : Session) : Prop :=
  x.Ends s (fun _ s' => s'.env.WithoutPragmas) Failure.Resolved

/-! ## Groups in which nothing is captured -/

/-- Where parameters are hoisted, no free variable but a parameter that stays is spelled like a name
generated for a function of the group. -/
def Hoist.Uncaptured (decls : List FuncDecl) : Prop :=
  constantPositions decls ≠ [] → ∀ d ∈ decls, ∀ n ∈ d.rhs.freeOccs,
    n ∉ binderNames (dropAt (constantPositions decls) d.params) →
    ∀ g ∈ decls, ∀ k, n ≠ Name.numbered g.name k

/-- A group in which inlining has what it needs: functions give each other their types, and no
variable is captured. -/
structure Resolvable (decls : List FuncDecl) : Prop where
  nonempty : decls ≠ []
  nodup : (decls.map FuncDecl.name).Nodup
  unmarked : ∀ d ∈ decls, d.name.isMarked = false
  types : TypesApplied decls
  uncaptured : Hoist.Uncaptured decls

variable {decls : List FuncDecl}

theorem Hoist.uncaptured_of_unmarked (h : ∀ d ∈ decls, ∀ n ∈ d.rhs.freeOccs, n.isMarked = false) :
    Uncaptured decls := by
  intro _ d hd n hn _ g _ k heq
  have hunmarked := h d hd n hn
  rw [heq, Name.isMarked_numbered] at hunmarked
  cases hunmarked

/-- Redirected references are the only ones to inner functions. -/
theorem Resolvable.notMem_entries (h : Resolvable decls) (hconstant : constantPositions decls ≠ [])
    {s s₁ : Session} {entries : List (Name × Name)}
    (hfresh : Hoist.freshInnerNames decls s = (entries, s₁)) {d : FuncDecl} (hd : d ∈ decls)
    {n : Name} (hn : n ∈ d.rhs.freeOccs)
    (hparam : n ∉ binderNames (Hoist.dropAt (constantPositions decls) d.params)) :
    n ∉ entries.map Prod.snd := by
  intro hmem
  obtain ⟨g, hg, k, hnumbered⟩ := Hoist.freshInnerNames_numbered hfresh n hmem
  rw [Name.root_of_unmarked (h.unmarked g hg)] at hnumbered
  exact h.uncaptured hconstant d hd n hn hparam g hg k hnumbered

/-! ## The choice of decreasing parameters -/

theorem Decreasing.resolved_of_choose_error {env : Environment} (h : env.WithoutPragmas)
    {report : Diagnostic} (hchoose : choose env decls = .error report) :
    (Failure.error report).Resolved := by
  have hkind := kind_of_choose_error (fun d _ => ⟨none, by rw [ofPragma, h d.name]⟩) hchoose
  rw [Failure.Resolved, hkind]
  exact ErrorKind.noConfusion


/-- **Splitting a group on the chosen parameters.** -/
theorem Split.toSentences_resolves {positions : List Nat} {s : Session} (hne : decls ≠ [])
    (hready : Ready s.counters decls positions) (hs : s.env.WithoutPragmas)
    (hchoose : Decreasing.choose s.env decls = .ok positions) :
    (toSentences decls positions).Resolves s := by
  obtain ⟨d, hd⟩ := List.exists_mem_of_ne_nil decls hne
  have hvalid := (Decreasing.choose_ok hchoose).2 ⟨d, hd, hs d.name⟩
  obtain ⟨sentences, s', hrun, hkept⟩ := hready.succeeds_of_valid hvalid
  exact .of_ok hrun (hs.of_eq hkept)

/-! ## Constant parameters -/

namespace Hoist

variable {s : Session}

/-- Registering an inner function of a function without a pragma. -/
theorem registerInner_resolves {c : Counters} (positions : List Nat) (d inner : FuncDecl)
    (hs : s.env.WithoutPragmas ∧ s.counters = c) :
    (registerInner positions d inner).Ends s (fun _ s' => s'.env.WithoutPragmas ∧ s'.counters = c)
      Failure.Resolved := by
  refine .lift_bind fun _ s₁ hregister => .lift_bind fun env s₂ hget => ?_
  have hs₁ : s₁.env.WithoutPragmas ∧ s₁.counters = c := by
    obtain rfl := Session.modifyEnv_eq.mp hregister
    exact hs
  obtain ⟨rfl, rfl⟩ := Session.getEnv_eq.mp hget
  have hnone : innerPragma s₁.env positions d = .ok none := by rw [innerPragma, hs₁.1 d.name]
  rw [hnone]
  exact .pure hs₁

/-- **Hoisting the constant parameters of a group.** -/
theorem toSentences_resolves (h : Resolvable decls) (hconstant : constantPositions decls ≠ [])
    (hs : s.env.WithoutPragmas) : (toSentences decls (constantPositions decls)).Resolves s := by
  refine .expect_bind trivial fun vars hvars => .lift_bind fun entries s₁ hfresh => ?_
  refine .expect_bind trivial fun first hfirst => .lift_bind fun name s₂ hname =>
    .lift_bind fun previous s₃ hopen => ?_
  let plan : Plan :=
    { positions := constantPositions decls, vars, typeVars := typeVarsOf vars
      innerNames := Table.ofList entries
      hoistedTypes :=
        Table.ofList (decls.map fun d => (d.name, hoistedTypePositions (typeVarsOf vars) d)) }
  have hplan : PlanFor s.counters s₂.counters decls entries plan :=
    planFor_of_run hfresh hname rfl rfl hvars hfirst
  obtain ⟨hcounters, hopened⟩ := openSection_ok hopen
  -- drawing names adds no pragma, and opening the section draws no name
  have hs₃ : s₃.env.WithoutPragmas :=
    hs.of_eq (by rw [hopened, (freshName_spec hname).1, (freshInnerNames_spec hfresh).1])
  refine .bind (.forM (fun p _ s hs => registerInner_resolves _ p.1 p.2 hs) ⟨hs₃, hcounters⟩)
    fun _ s₄ hs₄ => ?_
  refine .lift_bind fun env s₅ hget => ?_
  obtain ⟨rfl, rfl⟩ := Session.getEnv_eq.mp hget
  dsimp only
  split
  next chosen hchoose =>
    have hchosen := (Decreasing.choose_ok hchoose).1.imp fun _ _ hallows => hallows.lt_arity
    have htypes : TypesApplied (decls.map plan.reduce) :=
      hplan.typesApplied h.nodup rfl
        (fun d hd n hn hparam => h.notMem_entries hconstant hfresh hd hn hparam) h.types
    have hready : Split.Ready s₄.counters (decls.map plan.reduce) chosen :=
      hs₄.2 ▸ hplan.reduced_ready h.nodup htypes hchosen
    have hne : decls.map plan.reduce ≠ [] :=
      List.ne_nil_of_mem (List.mem_map_of_mem hplan.nonempty.choose_spec)
    rw [pure_bind]
    refine (Split.toSentences_resolves hne hready hs₄.1 hchoose).bind fun sentences s₅ hs₅ => ?_
    -- closing the section leaves the pragmas alone
    refine .bind
      (.forM (I := fun s => s.env.WithoutPragmas) (fun entry _ s hs => .modifyEnv ?_) hs₅)
      fun _ s₆ hs₆ => ?_
    · exact hs.of_eq (s.env.pragmas_unshadow entry.1 entry.2)
    refine .bind (.forM (I := fun s => s.env.WithoutPragmas) (fun d _ s hs => .modifyEnv ?_) hs₆)
      fun _ s₇ hs₇ => ?_
    · exact hs.of_eq (pragmas_closeOver _ _ d.name s.env)
    exact .expect_bind trivial fun wrappers _ => .pure hs₇
  next report hchoose => exact .throw_bind (Decreasing.resolved_of_choose_error hs₄.1 hchoose)

end Hoist

/-! ## Groups -/

/-- **A group** is converted, or the failure is a resolved one. -/
theorem groupToSentences_resolves (h : Resolvable decls) {s : Session} (hs : s.env.WithoutPragmas) :
    (groupToSentences decls).Resolves s := by
  unfold groupToSentences
  split
  next =>
    refine .lift_bind fun env s₁ hget => ?_
    obtain ⟨rfl, rfl⟩ := Session.getEnv_eq.mp hget
    split
    next positions hchoose =>
      have hpositions := (Decreasing.choose_ok hchoose).1.imp fun _ _ hallows => hallows.lt_arity
      have hsettled : ∀ d ∈ decls, s.counters.Settled d.name :=
        fun d hd => Counters.settled_of_unmarked (h.unmarked d hd)
      exact Split.toSentences_resolves h.nonempty
        ⟨h.nodup, hsettled, h.types, hpositions⟩ hs hchoose
    next report hchoose => exact .throw (Decreasing.resolved_of_choose_error hs hchoose)
  next hconstant => exact Hoist.toSentences_resolves h hconstant hs

/-- **Components of functions.** -/
theorem Component.funcsToSentences_resolves {c : Component FuncDecl}
    (h : ∀ group, c = .recursive group → Resolvable group) {s : Session}
    (hs : s.env.WithoutPragmas) :
    c.funcsToSentences.Resolves s := by
  cases c with
  | single d => exact .pure hs
  | recursive group => exact (groupToSentences_resolves (h group rfl) hs).locate fun _ hd => hd

namespace TypeGroup

/-- The only error is a cycle of synonyms. -/
theorem recursiveToSentences_resolves (decls : List TypeDecl) (s : Session) :
    (recursiveToSentences decls).Ends s (fun _ _ => True) Failure.Resolved := by
  have hcycle : ∀ span names,
      (Failure.error (.ofCauseAt span (.synonymCycle names))).Resolved := fun _ _ =>
    ErrorKind.noConfusion
  unfold recursiveToSentences
  split
  next => exact .throw_bind trivial
  next =>
    dsimp only
    split
    next => exact .throw_bind (hcycle _ _)
    next =>
      refine .lift_bind fun amongSynonyms s₁ _ => ?_
      split
      next => exact .throw_bind (hcycle _ _)
      next =>
        exact .lift_bind fun _ s₂ _ => .lift_bind fun _ s₃ _ =>
          .lift_bind fun _ s₄ _ => .pure trivial

/-- **Components of types.** -/
theorem toSentences_resolves (c : Component TypeDecl) {s : Session} (hs : s.env.WithoutPragmas) :
    (toSentences c).Resolves s := by
  have hends : (toSentences c).Ends s (fun _ _ => True) Failure.Resolved := by
    cases c with
    | single d =>
      cases d with
      | data d => exact .lift_bind fun _ s₁ _ => .pure trivial
      | synonym d => exact .lift_bind fun _ s₁ _ => .pure trivial
    | recursive decls => exact recursiveToSentences_resolves decls s
  exact hends.of_results fun sentences s' hrun => hs.of_eq (toSentences_ok hrun).1

end TypeGroup

/-! ## Modules -/

/-- **An invariant of the environment** that every component keeps is kept by a conversion, and
every collected error is one of a component. -/
theorem convertComponents_ends [Declaration α] (keepGoing : Bool) {I : Environment → Prop}
    {Q : Failure → Prop} {convert : Component α → Compile (List Sentence)}
    {components : List (Component α)}
    (h : ∀ c ∈ components, ∀ s, I s.env → (convert c).Ends s (fun _ s' => I s'.env) Q) {s : Session}
    (hs : I s.env) :
    (convertComponents keepGoing convert components).Ends s
      (fun conversion s' => I s'.env ∧ ∀ d ∈ conversion.errors, Q (.error d)) Q := by
  induction components generalizing s with
  | nil => exact .pure ⟨hs, List.forall_mem_nil _⟩
  | cons c rest ih =>
    rw [List.forall_mem_cons] at h
    refine (h.1 s hs).attempt_transaction.bind fun result s₁ hresult => ?_
    rcases hresult with ⟨sentences, rfl, hs₁⟩ | ⟨d, rfl, hd, henv⟩
    · exact (ih h.2 hs₁).bind fun later s₂ hlater => .pure hlater
    · cases keepGoing with
      | false => exact .throw_bind hd
      | true =>
        refine .lift_bind fun _ s₂ hwarn => ?_
        obtain rfl := (Prod.mk.inj hwarn).2
        exact (ih h.2 (henv ▸ hs)).bind fun later s₃ hlater =>
          .pure ⟨hlater.1, List.forall_mem_cons.mpr ⟨hd, hlater.2⟩⟩

/-- **Preparing a module** without pragmas refers to nothing unknown. -/
theorem Module.prepare_resolves {m : Module} (hpragmas : m.pragmas = []) {s : Session}
    (hs : s.env.WithoutPragmas) :
    m.prepare.Ends s (fun ordered s' => ordered = m.ordered ∧ s'.env.WithoutPragmas)
      Failure.Resolved := by
  refine .lift_bind fun ordered s₁ horder => ?_
  obtain ⟨rfl, henv⟩ := Module.order_eq horder
  refine .bind (R := fun _ s' => s'.env.WithoutPragmas) (.lift_bind fun _ s₂ hregister => ?_)
    fun _ s₃ hs₃ => ?_
  · -- there are no pragmas to register
    obtain rfl := Session.modifyEnv_eq.mp hregister
    change Compile.Ends (m.pragmas.forM m.registerPragma) _ _ _
    rw [hpragmas]
    refine .pure (hs.of_eq ?_)
    exact (Environment.pragmas_foldl (f := fun env d => env.addFunc (.ofDecl d)) (fun _ _ => rfl)
      _ s₁.env).trans (congrArg Environment.pragmas henv)
  · refine .lift_bind fun _ s₄ hclassify => .pure ⟨rfl, ?_⟩
    obtain rfl := Session.modifyEnv_eq.mp hclassify
    exact hs₃.of_eq (pragmas_classifyAll s₃.env _)

/-- **Without pragmas inlining does not fail.** In a module whose functions have distinct unmarked
names and give each other their types, where no variable is spelled like a name generated for an
inner function, neither the result of the conversion nor any collected error is one of inlining. -/
theorem convertModule_resolves (keepGoing : Bool) {m : Module} {s : Session}
    (hs : s.env.WithoutPragmas)
    (hpragmas : m.pragmas = []) (hnodup : (m.funcDecls.map FuncDecl.name).Nodup)
    (hunmarked : ∀ d ∈ m.funcDecls, d.name.isMarked = false)
    (htypes : ∀ group, .recursive group ∈ Dependency.components m.funcDecls → TypesApplied group)
    (huncaptured : ∀ group, .recursive group ∈ Dependency.components m.funcDecls →
      Hoist.Uncaptured group) :
    (∀ d s', convertModule keepGoing m s = .error (.error d) s' → d.kind ≠ .unresolvedReference) ∧
      ∀ conversion s', convertModule keepGoing m s = .ok conversion s' →
        ∀ d ∈ conversion.errors, d.kind ≠ .unresolvedReference := by
  have hresolvable : ∀ group, .recursive group ∈ Dependency.components m.funcDecls →
      Resolvable group := fun group hgroup =>
    ⟨Dependency.ne_nil_of_recursive hgroup, Dependency.nodup_names_of_mem_components hnodup hgroup,
      fun d hd => hunmarked d (Dependency.mem_of_mem_components hgroup hd), htypes group hgroup,
        huncaptured group hgroup⟩
  have hends : (convertModule keepGoing m).Ends s
      (fun conversion _ => ∀ d ∈ conversion.errors, (Failure.error d).Resolved)
      Failure.Resolved := by
    -- the three phases one after the other: preparation, types, functions
    rw [convertModule_eq]
    refine (m.prepare_resolves hpragmas hs).bind fun ordered s₁ hprepared => ?_
    obtain ⟨rfl, hs₁⟩ := hprepared
    refine (convertComponents_ends keepGoing
      (fun c _ s hs => TypeGroup.toSentences_resolves c hs) hs₁).bind fun types s₂ htypes => ?_
    refine (convertComponents_ends keepGoing (fun c hc s hs =>
      Component.funcsToSentences_resolves (fun group heq => hresolvable group (heq ▸ hc)) hs)
        htypes.1).bind
      fun funcs s₃ hfuncs => ?_
    exact .pure (List.forall_mem_append.mpr ⟨htypes.2, hfuncs.2⟩)
  exact ⟨fun d s' hrun => hends.error hrun, fun conversion s' hrun => hends.ok hrun⟩

/-- A function over a constant `c` whose type the section takes over, and a function that decreases
on nothing. -/
def lastOrLoop : Module where
  name := "LastOrLoop"
  funcDecls := [
    { name := "last", typeParams := [{ name := "a" }, { name := "b" }]
      params := [{ name := "c", ty := some (.var "a") }, { name := "xs" }]
      rhs := .case {} (.var {} "xs") [(.con "Nil" [], .var {} "c"),
        (.con "Cons" [{ name := "y" }, { name := "ys" }],
          .app {}
            (.app {} (.typeApp {} (.typeApp {} (.var {} "last") (.var "a")) (.var "b"))
              (.var {} "c")) (.var {} "ys"))] },
    { name := "loop", params := [{ name := "x" }], rhs := .app {} (.var {} "loop") (.var {} "x") }]

/-- Where the conversion keeps going, the second function is skipped with an error of its own. -/
theorem lastOrLoop_resolves :
    (lastOrLoop.funcDecls.map FuncDecl.name).Nodup ∧
      (∀ d ∈ lastOrLoop.funcDecls, d.name.isMarked = false) ∧
      TypesApplied lastOrLoop.funcDecls ∧ ∃ conversion s',
        convertModule true lastOrLoop {} = .ok conversion s' ∧
        conversion.errors ≠ [] ∧ ∀ d ∈ conversion.errors, d.kind ≠ .unresolvedReference := by
  have hnodup : (lastOrLoop.funcDecls.map FuncDecl.name).Nodup := by decide
  have hunmarked : ∀ d ∈ lastOrLoop.funcDecls, d.name.isMarked = false := by decide
  have htypes : TypesApplied lastOrLoop.funcDecls := by decide
  have hfree : ∀ d ∈ lastOrLoop.funcDecls, ∀ n ∈ d.rhs.freeOccs, n.isMarked = false := by decide
  obtain ⟨conversion, s', hrun, herrors⟩ :=
    Compile.exists_of_succeedsWith (p := fun conversion => !conversion.isOk)
      (x := convertModule true lastOrLoop) (s := {}) (by decide +kernel)
  refine ⟨hnodup, hunmarked, htypes, conversion, s', hrun,
    by simpa [Conversion.isOk] using herrors, ?_⟩
  refine (convertModule_resolves true (fun _ => rfl) rfl hnodup hunmarked (fun group hgroup => ?_)
    fun group hgroup => ?_).2 conversion s' hrun
  · exact htypes.mono fun _ => Dependency.mem_of_mem_components hgroup
  · exact Hoist.uncaptured_of_unmarked fun d hd =>
      hfree d (Dependency.mem_of_mem_components hgroup hd)

/-- A function over a constant `c`, next to a free variable `f@0`. -/
def capturing : Module where
  name := "Capturing"
  funcDecls :=
    [{ name := "f", typeParams := [{ name := "a" }], params := [{ name := "c" }, { name := "x" }]
       rhs := .case {} (.var {} "x") [(.con "Nil" [], .var {} "c"),
         (.con "Cons" [{ name := "y" }, { name := "ys" }],
           .app {} (.app {} (.con {} "Pair")
             (.app {} (.app {} (.typeApp {} (.var {} "f") (.var "a")) (.var {} "c"))
               (.var {} "ys")))
             (.app {} (.var {} "f@0") (.var {} "ys")))] }]

/-- The inner function is named `f@0`, takes a type and gets none from what was another variable. -/
theorem capturing_unresolved :
    (capturing.funcDecls.map FuncDecl.name).Nodup ∧
      (∀ d ∈ capturing.funcDecls, d.name.isMarked = false) ∧
      (∀ d ∈ capturing.funcDecls, d.paramNames.Nodup) ∧ capturing.pragmas = [] ∧
      (∀ group, .recursive group ∈ Dependency.components capturing.funcDecls → TypesApplied group) ∧
      ∃ d s', convertModule false capturing {} = .error (.error d) s' ∧
        d.kind = .unresolvedReference := by
  have htypes : TypesApplied capturing.funcDecls := by decide
  refine ⟨by decide, by decide, by decide, rfl, fun group hgroup => ?_, ?_⟩
  · exact htypes.mono fun _ => Dependency.mem_of_mem_components hgroup
  · obtain ⟨d, s', hrun, hkind⟩ :=
      Compile.exists_of_failsWith (p := fun d => d.kind = .unresolvedReference)
      (x := convertModule false capturing) (s := {}) (by decide +kernel)
    exact ⟨d, s', hrun, of_decide_eq_true hkind⟩

end StructRec
