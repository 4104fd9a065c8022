import StructRec.Proofs.Conversions

/-!
# StructRec — the environment after a conversion

After a module is converted, the environment says of every emitted function what its declaration
says, as seen from outside of all sections, and of no other name that it is a function, unless the
module declares it. This holds whether components fail or not: a failed component leaves the
environment alone.

Sections are what it depends on. One with two variables of one name does not close properly, and one
with a variable named like a function in it takes that function away when it closes.
-/

namespace StructRec

variable {sentences : List Sentence} {env env' : Environment} {m : Module}

/-! ## Components -/

/-- **A component** emits its functions, helpers included. -/
theorem Component.funcsToSentences_emits {c : Component FuncDecl} {σ σ' : Session}
    (h : c.funcsToSentences σ = .ok sentences σ') (hnodup : (c.decls.map FuncDecl.name).Nodup)
    (hshapes : ∀ d ∈ c.decls, σ.env.shape? d.name = some (.func d.signature))
    (hdecreasing : ∀ d ∈ c.decls, σ.env.decreasing.get? d.name = none)
    (hdistinct : ∀ sentence ∈ sentences, sentence.SectionDistinct) :
    Emits (c.decls.map FuncDecl.name) sentences σ.env σ'.env := by
  cases c with
  | single d =>
    obtain ⟨rfl, rfl⟩ := Compile.pure_ok.mp h
    have hdefinition : Emits ([d].map FuncDecl.name) ([d].map .definition) σ.env σ.env :=
      .definitions hnodup hshapes hdecreasing
    exact hdefinition
  | recursive decls =>
    exact groupToSentences_emits (Compile.locate_ok.mp h) hnodup hshapes hdecreasing hdistinct

/-- **The function components of a module** define functions of the module, and others with new
names. -/
theorem Processed.emits {components : List (Component FuncDecl)} {s s' : Session}
    (h : Processed Component.funcsToSentences components s sentences s')
    (hnodup : ((components.flatMap Component.decls).map FuncDecl.name).Nodup)
    (hshapes : ∀ d ∈ components.flatMap Component.decls,
      s.env.shape? d.name = some (.func d.signature))
    (hdecreasing : ∀ d ∈ components.flatMap Component.decls, s.env.decreasing.get? d.name = none)
    (hdistinct : ∀ sentence ∈ sentences, sentence.SectionDistinct) :
    Emits ((components.flatMap Component.decls).map FuncDecl.name) sentences s.env s'.env := by
  induction h with
  | nil s => exact .nil _ s.env
  | @converted c rest s s₁ s' sentences later hconvert _ ih =>
    rw [List.flatMap_cons, List.map_append, List.nodup_append'] at hnodup
    rw [List.flatMap_cons, List.forall_mem_append] at hshapes hdecreasing
    rw [List.forall_mem_append] at hdistinct
    obtain ⟨hnodup, hnodup', hdisjoint⟩ := hnodup
    have hemits := c.funcsToSentences_emits hconvert hnodup hshapes.1 hdecreasing.1 hdistinct.1
    -- functions of later components are registered already, so this one does not touch them
    have hlater : ∀ d ∈ rest.flatMap Component.decls, d.name ∉ Sentence.funcNames sentences := by
      intro d hd
      refine hemits.notMem_of_registered (fun hmem => hdisjoint hmem (List.mem_map_of_mem hd)) ?_
      rw [hshapes.2 d hd]
      nofun
    have hemits' := ih hnodup' (fun d hd => (hemits.kept _ (hlater d hd)).trans (hshapes.2 d hd))
      (fun d hd => (hemits.keptDecreasing _ (hlater d hd)).trans (hdecreasing.2 d hd)) hdistinct.2
    rw [List.flatMap_cons, List.map_append]
    refine hemits.append hemits' fun n hn hmem => ?_
    obtain ⟨d, hd, rfl⟩ := List.mem_map.mp hmem
    exact hlater d hd hn
  | @skipped c rest s s₁ s' later henv _ ih =>
    rw [List.flatMap_cons, List.map_append] at hnodup ⊢
    rw [List.flatMap_cons, List.forall_mem_append, ← henv] at hshapes hdecreasing
    rw [← henv]
    have hemits := ih (List.nodup_append'.mp hnodup).2.1 hshapes.2 hdecreasing.2 hdistinct
    exact hemits.mono (List.subset_append_right _ _)

/-! ## Modules -/

/-- The environment corresponds to the sentences that a module becomes. -/
structure Corresponds (m : Module) (sentences : List Sentence) (env : Environment) : Prop where
  /-- The functions are those of the module and the emitted ones. -/
  functions : ∀ n, (env.func? n).isSome = true ↔
    n ∈ m.funcDecls.map FuncDecl.name ∨ n ∈ Sentence.funcNames sentences
  /-- No variable of a section is left. -/
  noVars : ∀ n entry, env.values.get? n ≠ some (.var entry)
  /-- Emitted functions are registered as they are declared. -/
  signatures : ∀ e ∈ Sentence.emittedOfAll sentences, ∃ entry,
    env.func? e.name = some entry ∧ entry.signature = e.signature
  /-- The bodies of fixpoints have decreasing parameters, and nothing else has. -/
  decreasing : ∀ n p, env.decreasing.get? n = some p ↔
    ∃ e ∈ Sentence.emittedOfAll sentences, e.name = n ∧ e.decreasing = some p

theorem Environment.shape?_eq_func_iff {n : Name} {signature : Signature} :
    env.shape? n = some (.func signature) ↔
      ∃ entry, env.func? n = some entry ∧ entry.signature = signature := by
  rw [shape?, Option.map_eq_some_iff]
  constructor
  · rintro ⟨value, hget, hshape⟩
    cases value with
    | func entry => exact ⟨entry, func?_eq_some_iff.mpr hget, Shape.func.inj hshape⟩
    | constructor entry | var entry => cases hshape
  · rintro ⟨entry, hfunc, rfl⟩
    exact ⟨.func entry, func?_eq_some_iff.mp hfunc, rfl⟩

theorem AddsConstructors.shape? {names : List Name} (h : AddsConstructors names env env')
    (n : Name) :
    env'.shape? n = env.shape? n ∨ n ∈ names ∧ env'.shape? n = some .constructor := by
  rw [Environment.shape?, Environment.shape?]
  rcases h.values n with hkept | ⟨hn, entry, hadded⟩
  · exact .inl (by rw [hkept])
  · refine .inr ⟨hn, ?_⟩
    rw [hadded]
    rfl

/-- Functions are registered as declared, and no name stands for a variable. -/
structure Module.Registered (m : Module) (env : Environment) : Prop where
  own : ∀ d ∈ m.funcDecls, env.shape? d.name = some (.func d.signature)
  other : ∀ n, n ∉ m.funcDecls.map FuncDecl.name →
    env.shape? n = none ∨ env.shape? n = some .constructor
  decreasing : ∀ n, env.decreasing.get? n = none

/-- **The types of a module** leave its functions registered. -/
theorem Module.registered_of_types {pragmas : Table PragmaEntry} {s s' : Session}
    (hfunctions : (m.funcDecls.map FuncDecl.name).Nodup)
    (hconstructors : ∀ d ∈ m.typeDecls, ∀ n ∈ d.constructorNames, n ∉ m.funcDecls.map FuncDecl.name)
    (hregistered : s.env = m.registered {} pragmas)
    (htypes : Processed TypeGroup.toSentences (Dependency.components m.typeDecls) s sentences s') :
    m.Registered s'.env := by
  obtain ⟨hadds, _⟩ := htypes.types
  rw [hregistered] at hadds
  have hother : ∀ n ∈ m.funcDecls.map FuncDecl.name,
      s'.env.shape? n = (m.registered {} pragmas).shape? n := by
    intro n hn
    refine (hadds.shape? n).resolve_right fun hadded => ?_
    obtain ⟨d, hd, hname⟩ := List.mem_flatMap.mp hadded.1
    exact hconstructors d
      ((Dependency.flatMap_components_perm m.typeDecls).mem_iff.mp hd) n hname hn
  refine ⟨fun d hd => ?_, fun n hn => ?_, fun n => ?_⟩
  · have hname : d.name ∈ m.funcDecls.map FuncDecl.name := List.mem_map_of_mem hd
    obtain ⟨d', hd', hsame, hshape⟩ := m.shape?_registered_of_mem {} pragmas hname
    rw [hother _ hname, hshape, List.inj_on_of_nodup_map hfunctions hd' hd hsame]
  · refine (hadds.shape? n).imp (fun hkept => ?_) fun hadded => hadded.2
    rw [hkept, m.shape?_registered_of_notMem {} pragmas hn]
    rfl
  · rw [hadds.decreasing, m.decreasing_registered]
    rfl

/-- Sentences that define types define and register no function. -/
theorem Emits.types (h : ∀ s ∈ sentences, s.DefinesTypes) (env : Environment) :
    Emits [] sentences env env := by
  have hnames : Sentence.funcNames sentences = [] := by
    rw [Sentence.funcNames, Sentence.funcDeclsOfAll_types h]
    rfl
  have hemitted : Sentence.emittedOfAll sentences = [] := by
    rw [← List.map_eq_nil_iff, Sentence.names_emittedOfAll, hnames]
  refine ⟨?_, ?_, ?_, ?_, fun _ _ => rfl, fun _ _ => rfl⟩
  · rw [hnames]
    exact List.nodup_nil
  · rw [hnames]
    exact List.forall_mem_nil _
  · rw [hemitted]
    exact List.forall_mem_nil _
  · rw [hemitted]
    exact List.forall_mem_nil _

/-- After the components, a name stands for an emitted function, for a function of the module as
declared, or for none. -/
theorem Emits.shape?_cases (henv : m.Registered env)
    (h : Emits (m.funcDecls.map FuncDecl.name) sentences env env') (n : Name) :
    (n ∈ Sentence.funcNames sentences ∧ ∃ e ∈ Sentence.emittedOfAll sentences, e.name = n ∧
        env'.shape? n = some (.func e.signature)) ∨
      (n ∉ Sentence.funcNames sentences ∧ ∃ d ∈ m.funcDecls,
        d.name = n ∧ env'.shape? n = some (.func d.signature)) ∨
      (n ∉ Sentence.funcNames sentences ∧ n ∉ m.funcDecls.map FuncDecl.name ∧
        (env'.shape? n = none ∨ env'.shape? n = some .constructor)) := by
  by_cases hn : n ∈ Sentence.funcNames sentences
  · have hmem := hn
    rw [← Sentence.names_emittedOfAll] at hmem
    obtain ⟨e, he, rfl⟩ := List.mem_map.mp hmem
    exact .inl ⟨hn, e, he, rfl, h.shapes e he⟩
  · rw [h.kept n hn]
    by_cases hown : n ∈ m.funcDecls.map FuncDecl.name
    · obtain ⟨d, hd, rfl⟩ := List.mem_map.mp hown
      exact .inr (.inl ⟨hn, d, hd, rfl, henv.own d hd⟩)
    · exact .inr (.inr ⟨hn, hown, henv.other n hown⟩)

/-- What components define from there on is what the environment comes to say. -/
theorem Emits.corresponds (henv : m.Registered env)
    (h : Emits (m.funcDecls.map FuncDecl.name) sentences env env') :
    Corresponds m sentences env' := by
  have hfunc : ∀ n, (env'.func? n).isSome = true ↔
      ∃ signature, env'.shape? n = some (.func signature) := by
    intro n
    rw [Option.isSome_iff_exists]
    simp only [Environment.shape?_eq_func_iff]
    exact ⟨fun ⟨entry, hentry⟩ => ⟨_, entry, hentry, rfl⟩,
      fun ⟨_, entry, hentry, _⟩ => ⟨entry, hentry⟩⟩
  refine ⟨fun n => ?_, fun n entry hvar => ?_,
    fun e he => Environment.shape?_eq_func_iff.mp (h.shapes e he), fun n p => ⟨fun hget => ?_, ?_⟩⟩
  · rw [hfunc]
    -- a name is emitted, or is a function of the module, or has nothing to do with either
    rcases h.shape?_cases henv n with
      ⟨hn, e, _, _, hshape⟩ | ⟨_, d, hd, rfl, hshape⟩ | ⟨hn, hown, hshape⟩
    · exact iff_of_true ⟨_, hshape⟩ (.inr hn)
    · exact iff_of_true ⟨_, hshape⟩ (.inl (List.mem_map_of_mem hd))
    · refine iff_of_false ?_ (not_or.mpr ⟨hown, hn⟩)
      rintro ⟨signature, hsome⟩
      rcases hshape with hnone | hconstructor
      · cases hnone.symm.trans hsome
      · cases hconstructor.symm.trans hsome
  · have hsome : env'.shape? n = some .var := by
      rw [Environment.shape?, hvar]
      rfl
    rcases h.shape?_cases henv n with
      ⟨_, _, _, _, hshape⟩ | ⟨_, _, _, _, hshape⟩ | ⟨_, _, hnone | hconstructor⟩
    · cases hshape.symm.trans hsome
    · cases hshape.symm.trans hsome
    · cases hnone.symm.trans hsome
    · cases hconstructor.symm.trans hsome
  · -- before the run no decreasing argument is recorded
    by_cases hn : n ∈ Sentence.funcNames sentences
    · rw [← Sentence.names_emittedOfAll] at hn
      obtain ⟨e, he, rfl⟩ := List.mem_map.mp hn
      exact ⟨e, he, rfl, (h.decreasing e he).symm.trans hget⟩
    · rw [h.keptDecreasing n hn, henv.decreasing n] at hget
      cases hget
  · rintro ⟨e, he, rfl, hp⟩
    exact (h.decreasing e he).trans hp

/-- **The environment corresponds to the sentences** after every conversion, with failed components
or without, in which the variables of each section are distinct and named like none of its
functions. -/
theorem convertModule_corresponds {m : Module} {keepGoing : Bool} {conversion : Conversion}
    {s' : Session}
    (hfunctions : (m.funcDecls.map FuncDecl.name).Nodup)
    (hconstructors : ∀ d ∈ m.typeDecls, ∀ n ∈ d.constructorNames, n ∉ m.funcDecls.map FuncDecl.name)
    (h : convertModule keepGoing m {} = .ok conversion s')
    (hdistinct : ∀ sentence ∈ conversion.sentences, sentence.SectionDistinct) :
    Corresponds m conversion.sentences s'.env := by
  generalize hsentences : conversion.sentences = sentences at hdistinct ⊢
  have hrun := convertModule_ok h
  rw [hsentences] at hrun
  obtain @⟨pragmas, s₁, s₂, _, types, funcs, hregistered, htypes, hfuncs⟩ := hrun
  have hmodule := m.registered_of_types hfunctions hconstructors hregistered htypes
  have hperm := Dependency.flatMap_components_perm m.funcDecls
  have hemits := hfuncs.emits ((hperm.map FuncDecl.name).nodup_iff.mpr hfunctions)
    (fun d hd => hmodule.own d (hperm.mem_iff.mp hd)) (fun d _ => hmodule.decreasing d.name)
    (fun sentence hmem => hdistinct sentence (List.mem_append_right _ hmem))
  have hown := hemits.mono (hperm.map FuncDecl.name).subset
  -- sentences for types emit no functions
  have htypeSentences : Emits [] types s₂.env s₂.env := .types htypes.types.2 s₂.env
  refine (htypeSentences.append hown fun n hn => ?_).corresponds hmodule
  rw [Sentence.funcNames, Sentence.funcDeclsOfAll_types htypes.types.2] at hn
  cases hn

/-- The length of a list plus a constant, and a function that does not end. The section of the first
takes over the constant with its type; the second is skipped. -/
def lengthPlus : Module where
  name := "LengthPlus"
  typeDecls := [
    .data
      { name := "Nat", typeParams := []
        constructors := [{ name := "Zero", fields := [] },
          { name := "Succ", fields := [.con "Nat"] }] }]
  funcDecls := [
    { name := "f", typeParams := [{ name := "a" }]
      params := [{ name := "c", ty := some (.var "a") }, { name := "x" }]
      rhs := .case {} (.var {} "x") [(.con "Nil" [], .var {} "c"),
        (.con "Cons" [{ name := "y" }, { name := "ys" }],
          .app {} (.con {} "Succ") (.app {}
            (.app {} (.typeApp {} (.var {} "f") (.var "a")) (.var {} "c")) (.var {} "ys")))] },
    { name := "loop", params := [{ name := "x" }], rhs := .app {} (.var {} "loop") (.var {} "x") }]

/-- `loop` is skipped with the only error. -/
theorem lengthPlus_corresponds :
    (lengthPlus.funcDecls.map FuncDecl.name).Nodup ∧
      (∀ d ∈ lengthPlus.typeDecls, ∀ n ∈ d.constructorNames,
        n ∉ lengthPlus.funcDecls.map FuncDecl.name) ∧
      ∃ conversion s', convertModule true lengthPlus {} = .ok conversion s' ∧
        conversion.errors.length = 1 ∧
        (∀ sentence ∈ conversion.sentences, sentence.SectionDistinct) ∧
        Corresponds lengthPlus conversion.sentences s'.env := by
  have hfunctions : (lengthPlus.funcDecls.map FuncDecl.name).Nodup := by decide
  have hconstructors : ∀ d ∈ lengthPlus.typeDecls, ∀ n ∈ d.constructorNames,
      n ∉ lengthPlus.funcDecls.map FuncDecl.name := by
    decide
  obtain ⟨conversion, s', h, hcheck⟩ := Compile.exists_of_succeedsWith
    (p := fun conversion : Conversion => decide (conversion.errors.length = 1 ∧
      ∀ sentence ∈ conversion.sentences, sentence.SectionDistinct))
    (x := convertModule true lengthPlus) (s := {}) (by decide +kernel)
  obtain ⟨herrors, hdistinct⟩ := of_decide_eq_true hcheck
  exact ⟨hfunctions, hconstructors, conversion, s', h, herrors, hdistinct,
    convertModule_corresponds hfunctions hconstructors h hdistinct⟩

/-- Two functions that refer to each other by markers only. No call passes anything else on, so both
of their first parameters are constant, and both have one name. -/
def repeatedConstant : Module where
  name := "RepeatedConstant"
  funcDecls := [
    { name := "error", params := [{ name := "x" }, { name := "x" }, { name := "y" }],
      rhs := .undefined {} },
    { name := "undefined", params := [{ name := "x" }, { name := "x" }, { name := "z" }],
      rhs := .error {} "boom" }]

/-- A function with a constant that has the name of its inner function. -/
def innerLikeConstant : Module where
  name := "InnerLikeConstant"
  funcDecls := [{ name := "f", params := [{ name := "f@0" }, { name := "x" }]
                  rhs := .case {} (.var {} "x") [(.con "Nil" [], .con {} "Zero"),
                    (.con "Cons" [{ name := "y" }, { name := "ys" }],
                      .app {} (.app {} (.var {} "f") (.var {} "f@0")) (.var {} "ys"))] }]

/-- A variable of the section of `repeatedConstant` is left in the environment, and the function
`f@0` that `innerLikeConstant` becomes is missing from it. -/
theorem sections_not_corresponding :
    ((∀ d ∈ repeatedConstant.funcDecls, d.name.isMarked = false) ∧
        ∃ conversion s', convertModule false repeatedConstant {} = .ok conversion s' ∧
          ¬ Corresponds repeatedConstant conversion.sentences s'.env) ∧
      ((∀ d ∈ innerLikeConstant.funcDecls, d.name.isMarked = false) ∧
        ∃ conversion s', convertModule false innerLikeConstant {} = .ok conversion s' ∧
          ¬ Corresponds innerLikeConstant conversion.sentences s'.env) := by
  refine ⟨⟨by decide, ?_⟩, by decide, ?_⟩
  · obtain ⟨conversion, s', h, hcheck⟩ := Compile.exists_of_endsWith
      (p := fun _ env => decide (env.shape? "x" = some .var))
      (x := convertModule false repeatedConstant) (s := {}) (by decide +kernel)
    refine ⟨conversion, s', h, fun hcorresponds => ?_⟩
    obtain ⟨value, hget, hshape⟩ := Option.map_eq_some_iff.mp (of_decide_eq_true hcheck)
    cases value with
    | var entry => exact hcorresponds.noVars "x" entry hget
    | constructor entry | func entry => cases hshape
  · obtain ⟨conversion, s', h, hcheck⟩ := Compile.exists_of_endsWith
      (p :=
        fun conversion env =>
          decide ("f@0" ∈ Sentence.funcNames conversion.sentences ∧ env.func? "f@0" = none))
      (x := convertModule false innerLikeConstant) (s := {}) (by decide +kernel)
    refine ⟨conversion, s', h, fun hcorresponds => ?_⟩
    obtain ⟨hemitted, hnone⟩ := of_decide_eq_true hcheck
    have hsome := (hcorresponds.functions "f@0").mpr (.inr hemitted)
    rw [hnone] at hsome
    cases hsome

end StructRec
