import StructRec.Proofs.Growth
import StructRec.Proofs.TargetSpelling

/-!
# StructRec — every function is defined once

The sentences of a component end with one definition for each of its functions. What stands before
them defines functions under generated names (`EmittedFor`), which are new to the counters and
spelled like nothing that is registered. A component that fails draws names too; the counters keep
them, so they do not come back in a later component.
-/

namespace StructRec

/-! ## Names of sentences -/

namespace Sentence

mutual

/-- The types and constructors a sentence defines, also inside a section. -/
def dataNames : Sentence → List Name
  | dataTypes decls => decls.flatMap fun d => d.name :: d.constructors.map Constructor.name
  | synonym decl => [decl.name]
  | definition _ | fixpoint _ => []
  | shared _ _ _ sentences => dataNamesOfAll sentences

def dataNamesOfAll : List Sentence → List Name
  | [] => []
  | s :: rest => s.dataNames ++ dataNamesOfAll rest

end

theorem dataNamesOfAll_append (xs ys : List Sentence) :
    dataNamesOfAll (xs ++ ys) = dataNamesOfAll xs ++ dataNamesOfAll ys := by
  induction xs with
  | nil => rfl
  | cons s rest ih => rw [List.cons_append, dataNamesOfAll, dataNamesOfAll, ih, List.append_assoc]

theorem dataNamesOfAll_definitions (decls : List FuncDecl) :
    dataNamesOfAll (decls.map definition) = [] := by
  induction decls with
  | nil => rfl
  | cons d rest ih => exact ih

theorem dataNamesOfAll_synonyms (decls : List SynonymDecl) :
    dataNamesOfAll (decls.map synonym) = decls.flatMap fun d => [d.name] := by
  induction decls with
  | nil => rfl
  | cons d rest ih => rw [List.map_cons, dataNamesOfAll, ih, List.flatMap_cons, dataNames]

theorem funcNames_section (name : Name) (typeVars : List TypeParam) (vars : List Binder)
    (sentences : List Sentence) :
    funcNames [shared name typeVars vars sentences] = funcNames sentences := by
  rw [funcNames_cons, funcDecls]
  exact List.append_nil _

/-- One sentence defines a function of this name: a definition outside of any section. -/
def DefinesOnce (name : Name) (sentences : List Sentence) : Prop :=
  ∃ before main after, sentences = before ++ definition main :: after ∧ main.name = name ∧
    name ∉ funcNames before ∧ name ∉ funcNames after

/-- A definition among different ones is the only one of its name. -/
theorem definesOnce_of_mem {main : FuncDecl} {sentences : List Sentence}
    (hnodup : (funcNames sentences).Nodup) (h : definition main ∈ sentences) :
    DefinesOnce main.name sentences := by
  obtain ⟨before, after, rfl⟩ := List.append_of_mem h
  refine ⟨before, main, after, rfl, rfl, ?_⟩
  rw [funcNames_append, funcNames_cons, funcDecls, List.map_singleton,
    List.singleton_append] at hnodup
  obtain ⟨_, hafter, hdisjoint⟩ := List.nodup_append.mp hnodup
  exact ⟨fun hmem => hdisjoint _ hmem _ List.mem_cons_self rfl, (List.nodup_cons.mp hafter).1⟩

end Sentence

/-! ## What becomes of components -/

/-- What becomes of a component. -/
inductive Outcome (α : Type) where
  | converted (component : Component α) (sentences : List Sentence)
  | skipped (component : Component α) (error : Diagnostic)

namespace Outcome

variable {α : Type}

def component : Outcome α → Component α
  | converted component _ | skipped component _ => component

def sentences : Outcome α → List Sentence
  | converted _ sentences => sentences
  | skipped _ _ => []

/-- The functions of a component that was converted. -/
def convertedDecls : Outcome α → List α
  | converted component _ => component.decls
  | skipped _ _ => []

/-- The functions of a component that has failed. -/
def skippedDecls : Outcome α → List α
  | converted _ _ => []
  | skipped component _ => component.decls

end Outcome

section components

variable {α : Type} [Declaration α]

/-- What becomes of components that are converted in order, as transactions. -/
def outcomes (convert : Component α → Compile (List Sentence)) :
    List (Component α) → Session → List (Outcome α)
  | [], _ => []
  | c :: rest, s =>
    match Compile.attempt (Compile.transaction (convert c)) s with
    | .ok (.ok sentences) s' => .converted c sentences :: outcomes convert rest s'
    | .ok (.error d) s' =>
        .skipped c d :: outcomes convert rest (Session.warn (.skipped c.names d) s').2
    | .error _ _ => []

/-- A run over components collects what becomes of them. -/
theorem sentences_eq_outcomes {keepGoing : Bool} {convert : Component α → Compile (List Sentence)}
    {components : List (Component α)} {s s' : Session} {conversion : Conversion}
    (h : convertComponents keepGoing convert components s = .ok conversion s') :
    (outcomes convert components s).map Outcome.component = components ∧
      conversion.sentences = (outcomes convert components s).flatMap Outcome.sentences := by
  induction components generalizing s conversion with
  | nil =>
    obtain ⟨rfl, rfl⟩ := Compile.pure_ok.mp h
    exact ⟨rfl, rfl⟩
  | cons c rest ih =>
    unfold convertComponents at h
    obtain ⟨outcome, s₁, houtcome, h⟩ := Compile.bind_ok.mp h
    unfold outcomes
    rw [houtcome]
    cases outcome with
    | ok sentences =>
      obtain ⟨later, s₂, hlater, h⟩ := Compile.bind_ok.mp h
      obtain ⟨rfl, rfl⟩ := Compile.pure_ok.mp h
      obtain ⟨hcomponents, hsentences⟩ := ih hlater
      exact ⟨congrArg (c :: ·) hcomponents, congrArg (sentences ++ ·) hsentences⟩
    -- the run stops here, or warns and goes on without the component
    | error diagnostic =>
      simp only at h
      split at h
      · simp only [Compile.bind_ok] at h
        obtain ⟨_, _, hthrow, _⟩ := h
        exact absurd hthrow Compile.throw_ok
      · simp only [Compile.bind_ok, Compile.pure_ok, Compile.lift_ok] at h
        obtain ⟨_, s₂, hwarn, later, s₃, hlater, rfl, rfl⟩ := h
        obtain ⟨hcomponents, hsentences⟩ := ih hlater
        rw [← (Prod.mk.inj hwarn).2] at hcomponents hsentences
        exact ⟨congrArg (c :: ·) hcomponents, hsentences⟩

end components

/-! ## One component -/

/-- The sentences of a component: what defines functions under new names, then a definition for each
of its functions. -/
inductive EmittedFor (σ σ' : Session) (names : List Name) : List Sentence → Prop where
  | intro (leading : List Sentence) {mains : List FuncDecl}
      (hmains : mains.map FuncDecl.name = names)
      (hdraws : σ.counters.Draws σ'.counters (Sentence.funcNames leading))
      (hunused : ∀ g ∈ Sentence.funcNames leading, ∀ n ∈ σ.env.names, n.target ≠ g.target)
      (hdata : Sentence.dataNamesOfAll leading = []) :
      EmittedFor σ σ' names (leading ++ mains.map .definition)

theorem EmittedFor.definition_mem {σ σ' : Session} {names : List Name} {sentences : List Sentence}
    (h : EmittedFor σ σ' names sentences) {n : Name} (hn : n ∈ names) :
    ∃ main, main.name = n ∧ .definition main ∈ sentences := by
  obtain ⟨leading, rfl, _, _, _⟩ := h
  obtain ⟨main, hmain, rfl⟩ := List.mem_map.mp hn
  exact ⟨main, rfl, List.mem_append_right _ (List.mem_map_of_mem hmain)⟩

/-- Names stay registered if types and values do. -/
theorem Environment.names_subset {env env' : Environment} (htypes : env'.types = env.types)
    (hvalues : ∀ n, env.Registers [n] → env'.Registers [n]) : env.names ⊆ env'.names := by
  unfold Environment.names
  rw [htypes]
  refine List.append_subset.mpr
    ⟨List.subset_append_left _ _, fun n hn => List.mem_append_right _ ?_⟩
  rw [← Table.contains_iff_mem_keys] at hn ⊢
  exact hvalues n (List.forall_mem_singleton.mpr hn) n List.mem_cons_self

/-- **A split** emits the helpers and the main functions of the group. -/
theorem Split.toSentences_emitted {decls : List FuncDecl} {positions : List Nat}
    {sentences : List Sentence} {σ σ' : Session}
    (h : toSentences decls positions σ = .ok sentences σ')
    (hlength : positions.length = decls.length) :
    EmittedFor σ σ' (decls.map FuncDecl.name) sentences := by
  obtain @⟨helpers, mains, inlined, bodies, σ₁, σ₂, hsplit, hinline, hbodies⟩ := toSentences_ok.mp h
  obtain ⟨hregisters, _⟩ := splitAll_registers hsplit
  have hsame := bodies_signature (inlineAll_signature (Compile.mapM_ok hinline)) hbodies
  have hhelpers : Sentence.funcNames [.fixpoint bodies] = helpers.map (·.decl.name) := by
    rw [Sentence.funcNames_cons, Sentence.funcDecls, List.map_map,
      show Sentence.funcNames [] = [] from rfl, List.append_nil]
    exact hsame.flip.map_eq_map fun _ _ hboth => hboth.1
  have hgrows :=
    (Compile.Grows.mapM (fun x : Helper => inlineDecl_grows mains x.decl) helpers).of_ok hinline
  have hdraws := hregisters.draws.append (.nil hgrows.counters)
  rw [List.append_nil, ← hhelpers] at hdraws
  have hunused : ∀ g ∈ Sentence.funcNames [.fixpoint bodies], ∀ n ∈ σ.env.names,
      n.target ≠ g.target := by
    rw [hhelpers]
    exact List.forall_mem_map.mpr hregisters.unused
  exact .intro [.fixpoint bodies] (names_mains hlength (splitAll_adds hsplit).2) hdraws hunused rfl

namespace Hoist

theorem freshInnerNames_draws {decls : List FuncDecl} {entries : List (Name × Name)}
    {σ σ' : Session} (h : freshInnerNames decls σ = (entries, σ')) :
    σ.counters.Draws σ'.counters (entries.map Prod.snd) := by
  obtain ⟨_, hle, _, hnodup, hnew⟩ := freshInnerNames_spec h
  exact ⟨hle, fun n hn => (hnew n hn).1, fun n hn => (hnew n hn).2.1, hnodup⟩

/-- **Hoisting** emits the inner functions and their helpers in a section, and the functions of the
group after it. -/
theorem toSentences_emitted {decls : List FuncDecl} {sentences : List Sentence} {σ σ' : Session}
    (h : toSentences decls (constantPositions decls) σ = .ok sentences σ')
    (hnodup : (decls.map FuncDecl.name).Nodup) :
    EmittedFor σ σ' (decls.map FuncDecl.name) sentences := by
  obtain @⟨plan, entries, first, name, previous, chosen, inner, wrappers, σ₁, σ₂, σ₃, σ₄, σ₅,
    hpositions, hvars, _, hnames, _,
    hfresh, hfirst, hname, hopen, hregister, hchoose, hsplit, hwrappers⟩ := toSentences_ok.mp h
  have hplan := planFor_of_run hfresh hname hnames hpositions hvars hfirst
  obtain ⟨henv, _, _, _, hentries⟩ := freshInnerNames_spec hfresh
  -- the inner functions are named first, their helpers when the section is open
  have hopened := openSection_grows plan.vars σ₂
  rw [hopen] at hopened
  have hregistered :=
    (Compile.Grows.forM
      (fun p : FuncDecl × FuncDecl => registerInner_grows plan.positions p.1 p.2) _).of_ok
    hregister
  have hopening := hopened.trans hregistered
  have hinside : σ.env.names ⊆ σ₄.env.names := by
    have henv' : σ₂.env = σ.env := (freshName_spec hname).1.trans henv
    refine Environment.names_subset (henv' ▸ hopening.types) fun n hn => ?_
    exact registerAll_registers hregister (openSection_registers hopen (henv' ▸ hn)).1
  obtain @⟨leading, mains, hmains, hdraws, hunused, hdata⟩ :=
    Split.toSentences_emitted hsplit (Decreasing.length_of_choose hchoose)
  rw [hplan.reduced_names hnodup] at hmains
  have hinner : Sentence.funcNames [.shared name (plan.typeVars.map ({ name := · })) plan.vars
      (leading ++ mains.map .definition)] = Sentence.funcNames leading ++ entries.map Prod.snd := by
    rw [Sentence.funcNames_section, Sentence.funcNames_append,
      Sentence.funcNames_definitions, hmains]
  have hdrawn :=
    ((freshInnerNames_draws hfresh).append
      (.nil ((freshName_draws hname).le.trans hopening.counters))).append hdraws
  rw [List.append_nil] at hdrawn
  refine .intro [_]
    ((wrappers_signature hwrappers).flip.map_eq_map fun _ _ hsame => hsame.1) ?_ ?_ ?_
  · rw [hinner]
    exact hdrawn.perm List.perm_append_comm
  · rw [hinner]
    -- helpers avoid what is registered in the section, inner functions what was registered before
    -- it
    refine List.forall_mem_append.mpr
      ⟨fun g hg n hn => hunused g hg n (hinside hn), fun g hg n hn heq => ?_⟩
    exact List.any_eq_false.mp (hentries g hg).2.2 n hn (decide_eq_true heq)
  · rw [Sentence.dataNamesOfAll, Sentence.dataNames, Sentence.dataNamesOfAll_append, hdata,
      Sentence.dataNamesOfAll_definitions]
    rfl

end Hoist

theorem groupToSentences_names {decls : List FuncDecl} {sentences : List Sentence} {σ σ' : Session}
    (h : groupToSentences decls σ = .ok sentences σ') : σ.env.names ⊆ σ'.env.names := by
  -- what a group prints does not matter here, only that a registered name stays registered
  have hN : ∀ n, Supplies [n] fun _ => True := fun _ _ _ _ _ _ _ => trivial
  refine Environment.names_subset ((groupToSentences_grows decls).of_ok h).types fun n hn => ?_
  exact (groupToSentences_uses (hN n) h
    (fun d _ => FuncDecl.forall_printedNames_iff.mp fun _ _ => trivial) hn).1

/-- **A component** emits new functions and a definition for each of its own. What is registered
stays so. -/
theorem Component.funcsToSentences_emitted {c : Component FuncDecl} {sentences : List Sentence}
    {σ σ' : Session} (h : c.funcsToSentences σ = .ok sentences σ') (hnodup : c.names.Nodup) :
    EmittedFor σ σ' c.names sentences ∧ σ.env.names ⊆ σ'.env.names := by
  cases c with
  | single d =>
    obtain ⟨rfl, rfl⟩ := Compile.pure_ok.mp h
    have hemitted : EmittedFor σ σ [d.name] ([] ++ [d].map .definition) :=
      .intro [] rfl (.nil le_rfl) (List.forall_mem_nil _) rfl
    exact ⟨hemitted, List.Subset.refl _⟩
  | recursive decls =>
    have hgroup := Compile.locate_ok.mp h
    refine ⟨?_, groupToSentences_names hgroup⟩
    cases groupToSentences_ok.mp hgroup with
    | split _ hchoose hrun =>
      exact Split.toSentences_emitted hrun (Decreasing.length_of_choose hchoose)
    | hoist _ hrun => exact Hoist.toSentences_emitted hrun hnodup

/-! ## Components in order -/

/-- What outcomes define: the functions of the converted components, and other functions under new
names. -/
structure Defined (s : Session) (outcomes : List (Outcome FuncDecl)) (generated : List Name) :
    Prop where
  draws : ∃ c, s.counters.Draws c generated
  unused : ∀ g ∈ generated, ∀ n ∈ s.env.names, n.target ≠ g.target
  names : (Sentence.funcNames (outcomes.flatMap Outcome.sentences)).Perm
    (generated ++ (outcomes.flatMap Outcome.convertedDecls).map FuncDecl.name)
  definitions : ∀ o ∈ outcomes, ∀ d ∈ o.convertedDecls, ∃ main,
    main.name = d.name ∧ .definition main ∈ o.sentences
  data : Sentence.dataNamesOfAll (outcomes.flatMap Outcome.sentences) = []

namespace Defined

variable {s s₁ : Session} {outcomes : List (Outcome FuncDecl)} {generated : List Name}

theorem nil (s : Session) : Defined s [] [] :=
  ⟨⟨s.counters, .nil le_rfl⟩, List.forall_mem_nil _, .refl _, List.forall_mem_nil _, rfl⟩

/-- A component is converted. -/
theorem converted {c : Component FuncDecl} {sentences : List Sentence}
    (h : Defined s₁ outcomes generated) (hemitted : EmittedFor s s₁ c.names sentences)
    (hnames : s.env.names ⊆ s₁.env.names) :
    ∃ leading, Defined s (.converted c sentences :: outcomes) (leading ++ generated) := by
  have hdefinitions : ∀ d ∈ c.decls, ∃ main,
      main.name = d.name ∧ .definition main ∈ sentences := fun d hd =>
    hemitted.definition_mem (List.mem_map_of_mem hd)
  obtain ⟨leading, hmains, hdraws, hunused, hdata⟩ := hemitted
  obtain ⟨c', hlater⟩ := h.draws
  refine ⟨Sentence.funcNames leading, ⟨c', hdraws.append hlater⟩, ?_, ?_,
    List.forall_mem_cons.mpr ⟨hdefinitions, h.definitions⟩, ?_⟩
  · exact List.forall_mem_append.mpr ⟨hunused, fun g hg n hn => h.unused g hg n (hnames hn)⟩
  · -- the names of this component stand between its generated ones and the later ones
    rw [List.flatMap_cons, List.flatMap_cons, Outcome.sentences, Outcome.convertedDecls,
      Sentence.funcNames_append,
      Sentence.funcNames_append, Sentence.funcNames_definitions, hmains, List.map_append,
        List.append_assoc, List.append_assoc]
    exact .append_left _ ((h.names.append_left _).trans (List.perm_append_comm_assoc _ _ _))
  · rw [List.flatMap_cons, Outcome.sentences, Sentence.dataNamesOfAll_append,
      Sentence.dataNamesOfAll_append, hdata, Sentence.dataNamesOfAll_definitions, h.data]
    rfl

/-- A component is skipped. The names that it has drawn are not drawn again. -/
theorem skipped {c : Component FuncDecl} {d : Diagnostic} (h : Defined s₁ outcomes generated)
    (hcounters : s.counters ≤ s₁.counters) (henv : s₁.env = s.env) :
    Defined s (.skipped c d :: outcomes) generated := by
  obtain ⟨c', hlater⟩ := h.draws
  have hdraws := Counters.Draws.append (.nil hcounters) hlater
  exact ⟨⟨c', hdraws⟩, henv ▸ h.unused, h.names,
    List.forall_mem_cons.mpr ⟨List.forall_mem_nil _, h.definitions⟩, h.data⟩

/-- The names that are defined are spelled apart. -/
theorem nodup_target (h : Defined s outcomes generated)
    (hnodup : ((outcomes.flatMap Outcome.convertedDecls).map FuncDecl.name).Nodup)
    (hunmarked : ∀ n ∈ (outcomes.flatMap Outcome.convertedDecls).map FuncDecl.name,
      n.isMarked = false)
    (hregistered : (outcomes.flatMap Outcome.convertedDecls).map FuncDecl.name ⊆ s.env.names) :
    ((Sentence.funcNames (outcomes.flatMap Outcome.sentences)).map Name.target).Nodup := by
  obtain ⟨c, hdraws⟩ := h.draws
  rw [(h.names.map Name.target).nodup_iff, List.map_append, List.nodup_append]
  refine ⟨hdraws.nodup_target, hnodup.map_on fun x hx y hy heq => ?_,
    fun spelled hleft spelled' hright heq => ?_⟩
  · -- unmarked names are spelled as they are
    rwa [Name.target_of_unmarked (hunmarked x hx), Name.target_of_unmarked (hunmarked y hy)] at heq
  · obtain ⟨g, hg, rfl⟩ := List.mem_map.mp hleft
    obtain ⟨n, hn, rfl⟩ := List.mem_map.mp hright
    exact h.unused g hg n (hregistered hn) heq.symm

end Defined

/-- **A run over components**, whether they fail or not. -/
theorem outcomes_defined {components : List (Component FuncDecl)}
    (hnodup : ∀ c ∈ components, c.names.Nodup) (s : Session) :
    ∃ generated, Defined s (outcomes Component.funcsToSentences components s) generated := by
  induction components generalizing s with
  | nil => exact ⟨[], .nil s⟩
  | cons c rest ih =>
    rw [List.forall_mem_cons] at hnodup
    unfold outcomes
    split
    · next sentences s₁ hrun =>
      obtain ⟨generated, hrest⟩ := ih hnodup.2 s₁
      rw [Compile.attempt_ok, Compile.transaction_ok] at hrun
      obtain ⟨hemitted, hnames⟩ := c.funcsToSentences_emitted hrun hnodup.1
      obtain ⟨leading, hall⟩ := hrest.converted hemitted hnames
      exact ⟨leading ++ generated, hall⟩
    · next d s₁ hrun =>
      obtain ⟨generated, hrest⟩ := ih hnodup.2 (Session.warn (.skipped c.names d) s₁).2
      have hcounters := c.funcsToSentences_grows.counters_of_skipped hrun
      have henv := Compile.attempt_transaction_error hrun
      exact ⟨generated, hrest.skipped hcounters henv⟩
    · -- a fault ends the run
      exact ⟨[], .nil s⟩

/-- Each function is one of a converted or of a failed component. -/
theorem Outcome.flatMap_decls_perm {α : Type} (outcomes : List (Outcome α)) :
    (outcomes.flatMap convertedDecls ++ outcomes.flatMap skippedDecls).Perm
      ((outcomes.map component).flatMap Component.decls) := by
  induction outcomes with
  | nil => exact .refl _
  | cons o rest ih =>
    cases o with
    | converted c sentences =>
      change (c.decls ++ rest.flatMap convertedDecls ++ rest.flatMap skippedDecls).Perm
        (c.decls ++ _)
      rw [List.append_assoc]
      exact ih.append_left c.decls
    | skipped c d => exact (List.perm_append_comm_assoc _ _ _).trans (ih.append_left c.decls)

/-! ## Types -/

namespace Environment

variable {env : Environment} {n : Name}

theorem mem_names_addType {entry : TypeEntry} :
    n ∈ (env.addType entry).names ↔ n = entry.name ∨ n ∈ env.names := by
  unfold names addType
  rw [List.mem_append, List.mem_append, Table.mem_keys_insert, or_assoc]

/-- A loop that registers names. -/
theorem mem_names_foldl {α : Type} {f : Environment → α → Environment} {names : α → List Name}
    (hf : ∀ env x, n ∈ (f env x).names ↔ n ∈ names x ∨ n ∈ env.names) {xs : List α} :
    n ∈ (xs.foldl f env).names ↔ n ∈ xs.flatMap names ∨ n ∈ env.names := by
  induction xs generalizing env with
  | nil => rw [List.foldl_nil, List.flatMap_nil, or_iff_right List.not_mem_nil]
  | cons x rest ih =>
    rw [List.foldl_cons, ih, hf, List.flatMap_cons, List.mem_append, or_left_comm, or_assoc]

/-- A data type brings its name and those of its constructors. -/
theorem mem_names_addData {d : DataDecl} :
    n ∈ (env.addData d).names ↔
      n ∈ d.name :: d.constructors.map Constructor.name ∨ n ∈ env.names := by
  have hvalue : ∀ (env : Environment) (entry : ValueEntry),
      n ∈ (env.addValue entry).names ↔ n ∈ [entry.name] ∨ n ∈ env.names := fun env entry => by
    rw [mem_names_addValue, List.mem_singleton]
  have hconstructors : d.constructors.map Constructor.name = d.constructors.flatMap fun c =>
    [c.name] := List.map_eq_flatMap
  unfold addData
  rw [mem_names_addType, mem_names_foldl hvalue, List.flatMap_map, hconstructors,
    List.mem_cons, or_assoc]
  rfl

theorem mem_names_addSynonym {d : SynonymDecl} :
    n ∈ (env.addSynonym d).names ↔ n ∈ [d.name] ∨ n ∈ env.names := by
  rw [addSynonym, mem_names_addType, List.mem_singleton]
  rfl

end Environment

/-- The types and constructors of emitted types are registered, and what was registered stays so. -/
theorem TypeGroup.toSentences_names {c : Component TypeDecl} {sentences : List Sentence}
    {s s' : Session} (h : toSentences c s = .ok sentences s') {n : Name}
    (hn : n ∈ Sentence.dataNamesOfAll sentences ∨ n ∈ s.env.names) : n ∈ s'.env.names := by
  cases c with
  | single d =>
    cases d with
    | data d =>
      simp only [toSentences, Compile.bind_ok, Compile.lift_ok, Compile.pure_ok,
        Session.modifyEnv_eq] at h
      obtain ⟨_, _, rfl, rfl, rfl⟩ := h
      refine Environment.mem_names_addData.mpr (hn.imp_left fun hn => ?_)
      simpa [Sentence.dataNamesOfAll, Sentence.dataNames] using hn
    | synonym d =>
      simp only [toSentences, Compile.bind_ok, Compile.lift_ok, Compile.pure_ok,
        Session.modifyEnv_eq] at h
      obtain ⟨_, _, rfl, rfl, rfl⟩ := h
      refine Environment.mem_names_addSynonym.mpr (hn.imp_left fun hn => ?_)
      simpa [Sentence.dataNamesOfAll, Sentence.dataNames] using hn
  -- synonyms and data types are registered one by one
  | recursive decls =>
    obtain ⟨_, expanded, _, rfl, henv⟩ := recursiveToSentences_ok h
    rw [henv, Environment.mem_names_foldl (f := Environment.addData) fun _ _ =>
      Environment.mem_names_addData,
      Environment.mem_names_foldl (f := Environment.addSynonym) fun _ _ =>
        Environment.mem_names_addSynonym]
    rw [Sentence.dataNamesOfAll, Sentence.dataNames, Sentence.dataNamesOfAll_synonyms,
      List.mem_append, or_assoc] at hn
    exact hn

/-- Every type and constructor of a run is registered. -/
theorem Processed.dataNames {components : List (Component TypeDecl)} {s s' : Session}
    {sentences : List Sentence} (h : Processed TypeGroup.toSentences components s sentences s')
    {n : Name} (hn : n ∈ Sentence.dataNamesOfAll sentences ∨ n ∈ s.env.names) :
    n ∈ s'.env.names := by
  induction h with
  | nil s => exact hn.resolve_left List.not_mem_nil
  | converted hconvert _ ih =>
    rw [Sentence.dataNamesOfAll_append, List.mem_append, or_assoc, or_left_comm] at hn
    exact ih (hn.imp_right (TypeGroup.toSentences_names hconvert))
  | skipped henv _ ih => exact ih (henv ▸ hn)

/-! ## Modules -/

/-- What becomes of the function components of a module. -/
def Module.funcOutcomes (m : Module) (keepGoing : Bool) : List (Outcome FuncDecl) :=
  let types := do
    let ordered ← m.prepare
    convertComponents keepGoing TypeGroup.toSentences ordered.typeComponents
  match types {} with
  | .ok _ s => outcomes Component.funcsToSentences (Dependency.components m.funcDecls) s
  | .error _ _ => []

/-- A run for a module: sentences that define types, then what becomes of the function
components. -/
theorem convertModule_outcomes {m : Module} {keepGoing : Bool} {conversion : Conversion}
    {s' : Session} (h : convertModule keepGoing m {} = .ok conversion s') :
    ∃ types s, m.funcOutcomes keepGoing =
      outcomes Component.funcsToSentences (Dependency.components m.funcDecls) s ∧
      (m.funcOutcomes keepGoing).map Outcome.component = Dependency.components m.funcDecls ∧
      conversion.sentences = types ++ (m.funcOutcomes keepGoing).flatMap Outcome.sentences ∧
      Sentence.funcNames types = [] ∧
        Sentence.dataNamesOfAll types ++ m.funcDecls.map FuncDecl.name ⊆ s.env.names := by
  rw [convertModule_eq] at h
  simp only [OrderedModule.convert, Compile.bind_ok, Compile.pure_ok] at h
  obtain ⟨ordered, s₁, hprepare, types, s₂, hconvertTypes, funcs, _, hconvertFuncs, rfl, rfl⟩ := h
  obtain ⟨rfl, pragmas, hregistered⟩ := Module.prepare_ok hprepare
  -- functions are converted in the state in which the types leave the session
  have houtcomes : m.funcOutcomes keepGoing
      = outcomes Component.funcsToSentences (Dependency.components m.funcDecls) s₂ := by
    have hrun := (Compile.bind_ok (x := m.prepare)
      (f :=
        fun ordered =>
          convertComponents keepGoing TypeGroup.toSentences ordered.typeComponents)).mpr
        ⟨_, s₁, hprepare, hconvertTypes⟩
    unfold Module.funcOutcomes
    simp only [hrun]
  obtain ⟨hcomponents, hsentences⟩ := sentences_eq_outcomes hconvertFuncs
  have htypes := processed_of_run hconvertTypes
  rw [houtcomes]
  refine ⟨types.sentences, s₂, rfl, hcomponents, congrArg (types.sentences ++ ·) hsentences, ?_, ?_⟩
  · rw [Sentence.funcNames, Sentence.funcDeclsOfAll_types htypes.types.2]
    rfl
  · refine List.append_subset.mpr
      ⟨fun n hn => htypes.dataNames (.inl hn), fun n hn => htypes.dataNames (.inr ?_)⟩
    have hfunctions := hregistered ▸ m.registers_registered {} pragmas
    exact List.mem_append_right _ ((Table.contains_iff_mem_keys _ _).mp (hfunctions n hn))

/-- The functions of a module are defined once each, except those of failed components, and no name
is spelled like another. -/
structure Module.DefinesFunctions (m : Module) (outcomes : List (Outcome FuncDecl))
    (sentences : List Sentence) : Prop where
  components : outcomes.map Outcome.component = Dependency.components m.funcDecls
  emitted : ∃ types, Sentence.funcNames types = [] ∧
    sentences = types ++ outcomes.flatMap Outcome.sentences
  distinct : ((Sentence.funcNames sentences).map Name.target).Nodup
  once : ∀ c emitted, .converted c emitted ∈ outcomes → ∀ d ∈ c.decls,
    Sentence.DefinesOnce d.name sentences
  missing : ∀ c error, .skipped c error ∈ outcomes → ∀ d ∈ c.decls,
    d.name ∉ Sentence.funcNames sentences
  /-- A function that is none of the module is not spelled like a type or a constructor either. -/
  apart : ∀ g ∈ Sentence.funcNames sentences, g ∉ m.funcDecls.map FuncDecl.name →
    ∀ n ∈ Sentence.dataNamesOfAll sentences, n.target ≠ g.target

/-- **Every function of a module is defined once**, under a name of its own, whether other
components fail or not. -/
theorem convertModule_defines_once {m : Module} {keepGoing : Bool} {conversion : Conversion}
    {s' : Session} (hnames : (m.funcDecls.map FuncDecl.name).Nodup)
    (hunmarked : ∀ d ∈ m.funcDecls, d.name.isMarked = false)
    (h : convertModule keepGoing m {} = .ok conversion s') :
    m.DefinesFunctions (m.funcOutcomes keepGoing) conversion.sentences := by
  obtain ⟨types, s, houtcomes, hcomponents, hsentences, htypes, hregistered⟩ :=
    convertModule_outcomes h
  obtain ⟨hdata, hfunctions⟩ := List.append_subset.mp hregistered
  obtain ⟨generated, hdefined⟩ :=
    outcomes_defined (fun c hc => Dependency.nodup_names_of_mem_components hnames hc) s
  rw [← houtcomes] at hdefined
  generalize m.funcOutcomes keepGoing = os at hcomponents hsentences hdefined ⊢
  have hfuncNames : Sentence.funcNames conversion.sentences =
      Sentence.funcNames (os.flatMap Outcome.sentences) := by
    rw [hsentences, Sentence.funcNames_append, htypes, List.nil_append]
  -- every function of the module is one of a converted or of a failed component, but not of both
  have hdecls :=
    (Outcome.flatMap_decls_perm os).trans
      (hcomponents ▸ Dependency.flatMap_components_perm m.funcDecls)
  have hnodup := (hdecls.map FuncDecl.name).nodup_iff.mpr hnames
  rw [List.map_append] at hnodup
  obtain ⟨hconverted, _, hdisjoint⟩ := List.nodup_append.mp hnodup
  have hown : ∀ d ∈ os.flatMap Outcome.convertedDecls, d ∈ m.funcDecls := fun d hd =>
    hdecls.mem_iff.mp (List.mem_append_left _ hd)
  have htargets := hdefined.nodup_target hconverted
    (List.forall_mem_map.mpr fun d hd => hunmarked d (hown d hd))
    (List.forall_mem_map.mpr fun d hd => hfunctions (List.mem_map_of_mem (hown d hd)))
  rw [← hfuncNames] at htargets
  refine ⟨hcomponents, ⟨types, htypes, hsentences⟩, htargets, fun c emitted hc d hd => ?_,
    fun c error hc d hd hmem => ?_, fun g hg hother n hn => ?_⟩
  · obtain ⟨main, hname, hmain⟩ := hdefined.definitions _ hc d hd
    rw [← hname]
    refine Sentence.definesOnce_of_mem (.of_map _ htargets) ?_
    rw [hsentences]
    exact List.mem_append_right _ (List.mem_flatMap.mpr ⟨_, hc, hmain⟩)
  · have hskipped : d ∈ os.flatMap Outcome.skippedDecls := List.mem_flatMap.mpr ⟨_, hc, hd⟩
    have hregistered : d.name ∈ s.env.names :=
      hfunctions (List.mem_map_of_mem (hdecls.mem_iff.mp (List.mem_append_right _ hskipped)))
    rw [hfuncNames, hdefined.names.mem_iff, List.mem_append] at hmem
    -- a generated name is not that of a registered function, and the other names are of converted
    -- components
    rcases hmem with hgenerated | hmem
    · exact hdefined.unused _ hgenerated d.name hregistered rfl
    · exact hdisjoint _ hmem _ (List.mem_map_of_mem hskipped) rfl
  · rw [hsentences, Sentence.dataNamesOfAll_append, hdefined.data, List.append_nil] at hn
    rw [hfuncNames, hdefined.names.mem_iff, List.mem_append] at hg
    -- the function is generated, and the types were registered before the functions were converted
    refine hdefined.unused g (hg.resolve_right fun hmem => ?_) n (hdata hn)
    obtain ⟨d, hd, rfl⟩ := List.mem_map.mp hmem
    exact hother (List.mem_map_of_mem (hown d hd))

/-- A function, a type and a constructor are spelled like names that are generated for `f` and `g`.
The function `f_helper` fails after a name of the same root has been drawn for it. -/
def mixture : Module where
  name := "Mixture"
  typeDecls := [
    .data
      { name := "List", typeParams := [{ name := "a" }]
        constructors := [{ name := "Nil", fields := [] },
          { name := "Cons", fields := [.var "a", .app (.con "List") (.var "a")] }] },
    .data
      { name := "f_helper_2", typeParams := []
        constructors := [{ name := "g_0", fields := [] }] }]
  funcDecls := [
    { name := "f_helper", params := [{ name := "c" }, { name := "x" }],
      rhs := .app {} (.app {} (.var {} "f_helper") (.var {} "c")) (.var {} "x") },
    { name := "f", params := [{ name := "x" }],
      rhs := .case {} (.var {} "x") [(.con "Nil" [], .var {} "f_helper_0"),
        (.con "Cons" [{ name := "y" }, { name := "ys" }], .app {} (.var {} "f") (.var {} "ys"))] },
    { name := "f_helper_0", params := [], rhs := .con {} "g_0" },
    { name := "g", params := [{ name := "c" }, { name := "x" }],
      rhs := .case {} (.var {} "x") [(.con "Nil" [], .var {} "c"),
        (.con "Cons" [{ name := "y" }, { name := "ys" }],
          .app {} (.app {} (.var {} "g") (.var {} "c")) (.var {} "ys"))] }]

/-- Helpers and inner functions are defined once as well. -/
theorem mixture_defines_once :
    (mixture.funcDecls.map FuncDecl.name).Nodup ∧
      (∀ d ∈ mixture.funcDecls, d.name.isMarked = false) ∧
      ∃ conversion s', convertModule true mixture {} = .ok conversion s' ∧
        conversion.errors.length = 1 ∧
        Sentence.funcNames conversion.sentences =
          ["f_helper_0", "f_helper@3", "f", "g_helper@0", "g@1", "g"] ∧
        mixture.DefinesFunctions (mixture.funcOutcomes true) conversion.sentences := by
  have hnames : (mixture.funcDecls.map FuncDecl.name).Nodup := by decide
  have hunmarked : ∀ d ∈ mixture.funcDecls, d.name.isMarked = false := by decide
  obtain ⟨conversion, s', h, hcheck⟩ := Compile.exists_of_succeedsWith
    (p :=
      fun conversion : Conversion =>
        decide (conversion.errors.length = 1 ∧ Sentence.funcNames conversion.sentences
      = ["f_helper_0", "f_helper@3", "f", "g_helper@0", "g@1", "g"]))
    (x := convertModule true mixture) (s := {}) (by decide +kernel)
  obtain ⟨herrors, hdefined⟩ := of_decide_eq_true hcheck
  exact ⟨hnames, hunmarked, conversion, s', h, herrors, hdefined,
    convertModule_defines_once hnames hunmarked h⟩

end StructRec
