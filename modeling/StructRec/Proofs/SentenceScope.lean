import StructRec.Proofs.Hoisting
import StructRec.Proofs.TypeOrder

/-!
# StructRec — function sentences are well scoped

Sentences are read in order. A function may refer to functions defined earlier, to the other bodies
of its fixpoint, to the variables of the section around it, and to names outside of the module that
the module refers to (`Sentence.WellScoped`). A definition does not refer to itself.

A component refers to itself and to earlier components. A component that is not recursive is defined
as it stands. For a recursive group scope is what guardedness says once sizes are forgotten: a
guarded expression knows all its free variables, and a main function does not know the functions of
its group.
-/

namespace StructRec

namespace Sentence

mutual

/-- What the functions of a sentence refer to is in scope. The names outside of the module, the
variables of the sections around and the functions defined so far are given. -/
def WellScoped (outside : List Name) : (vars defined : List Name) → Sentence → Prop
  | _, _, dataTypes _ | _, _, synonym _ => True
  | vars, defined, definition d =>
    d.name ∉ d.references ∧ ∀ n ∈ d.references, n ∈ defined ∨ n ∈ vars ∨ n ∈ outside
  | vars, defined, fixpoint bodies =>
    ∀ b ∈ bodies, ∀ n ∈ b.decl.references,
      n ∈ defined ∨ n ∈ bodies.map (·.decl.name) ∨ n ∈ vars ∨ n ∈ outside
  | vars, defined, shared _ _ own sentences =>
      WellScopedAll outside (vars ++ binderNames own) defined sentences

/-- Sentences in order, each of which may refer to the functions of those before it. -/
def WellScopedAll (outside : List Name) : (vars defined : List Name) → List Sentence → Prop
  | _, _, [] => True
  | vars, defined, s :: rest =>
    WellScoped outside vars defined s ∧
      WellScopedAll outside vars (defined ++ s.funcDecls.map FuncDecl.name) rest

end

mutual

/-- Scope can be checked. -/
def decidableWellScoped (outside : List Name) :
    (vars defined : List Name) → (s : Sentence) → Decidable (WellScoped outside vars defined s)
  | _, _, dataTypes _ | _, _, synonym _ => .isTrue trivial
  | vars, defined, definition d =>
    inferInstanceAs
      (Decidable (d.name ∉ d.references ∧ ∀ n ∈ d.references, n ∈ defined ∨ n ∈ vars ∨ n ∈ outside))
  | vars, defined, fixpoint bodies =>
    inferInstanceAs (Decidable (∀ b ∈ bodies, ∀ n ∈ b.decl.references,
      n ∈ defined ∨ n ∈ bodies.map (·.decl.name) ∨ n ∈ vars ∨ n ∈ outside))
  | vars, defined, shared _ _ own sentences =>
      decidableWellScopedAll outside (vars ++ binderNames own) defined sentences

def decidableWellScopedAll (outside : List Name) :
    (vars defined : List Name) → (sentences : List Sentence) →
      Decidable (WellScopedAll outside vars defined sentences)
  | _, _, [] => .isTrue trivial
  | vars, defined, s :: rest =>
    match decidableWellScoped outside vars defined s,
      decidableWellScopedAll outside vars (defined ++ s.funcDecls.map FuncDecl.name) rest with
    | .isTrue hs, .isTrue hrest => .isTrue ⟨hs, hrest⟩
    | .isFalse hs, _ => .isFalse fun h => hs h.1
    | _, .isFalse hrest => .isFalse fun h => hrest h.2

end

instance (outside vars defined : List Name) (sentences : List Sentence) :
    Decidable (WellScopedAll outside vars defined sentences) :=
  decidableWellScopedAll outside vars defined sentences

/-- The names of the functions that sentences define. -/
def funcNames (sentences : List Sentence) : List Name :=
  (funcDeclsOfAll sentences).map FuncDecl.name

variable {outside vars defined : List Name}

theorem funcNames_cons (s : Sentence) (rest : List Sentence) :
    funcNames (s :: rest) = s.funcDecls.map FuncDecl.name ++ funcNames rest := by
  rw [funcNames, funcDeclsOfAll, List.map_append]
  rfl

theorem funcNames_append (xs ys : List Sentence) :
    funcNames (xs ++ ys) = funcNames xs ++ funcNames ys := by
  induction xs with
  | nil => rfl
  | cons s rest ih =>
    rw [List.cons_append, funcNames_cons, funcNames_cons, ih, List.append_assoc]

theorem funcNames_definitions (decls : List FuncDecl) :
    funcNames (decls.map definition) = decls.map FuncDecl.name := by
  induction decls with
  | nil => rfl
  | cons d rest ih => exact congrArg (d.name :: ·) ih

/-- Later sentences may use what earlier ones define. -/
theorem wellScopedAll_append (xs ys : List Sentence) :
    WellScopedAll outside vars defined (xs ++ ys) ↔
      WellScopedAll outside vars defined xs ∧
        WellScopedAll outside vars (defined ++ funcNames xs) ys := by
  induction xs generalizing defined with
  | nil =>
    rw [List.nil_append, show funcNames [] = [] from rfl, List.append_nil]
    exact (and_iff_right trivial).symm
  | cons s rest ih =>
    rw [List.cons_append, WellScopedAll, WellScopedAll, ih, and_assoc, List.append_assoc,
      funcNames_cons]

theorem wellScopedAll_definitions {decls : List FuncDecl}
    (h : ∀ d ∈ decls, d.name ∉ d.references ∧ ∀ n ∈ d.references,
      n ∈ defined ∨ n ∈ vars ∨ n ∈ outside) :
    WellScopedAll outside vars defined (decls.map definition) := by
  induction decls generalizing defined with
  | nil => trivial
  | cons d rest ih =>
    rw [List.forall_mem_cons] at h
    refine ⟨h.1, ih fun d' hd' => ⟨(h.2 d' hd').1, fun n hn => ?_⟩⟩
    exact ((h.2 d' hd').2 n hn).imp_left (List.mem_append_left _)

/-- A sentence that defines types. -/
def DefinesTypes : Sentence → Prop
  | dataTypes _ | synonym _ => True
  | definition _ | fixpoint _ | shared _ _ _ _ => False

theorem wellScopedAll_types {sentences : List Sentence} (h : ∀ s ∈ sentences, s.DefinesTypes)
    (outside vars defined : List Name) :
    WellScopedAll outside vars defined sentences ∧ funcNames sentences = [] := by
  induction sentences generalizing defined with
  | nil => exact ⟨trivial, rfl⟩
  | cons s rest ih =>
    rw [List.forall_mem_cons] at h
    obtain ⟨hrest, hnone⟩ := ih h.2 (defined ++ s.funcDecls.map FuncDecl.name)
    rw [funcNames_cons, hnone]
    cases s with
    | dataTypes | synonym => exact ⟨⟨trivial, hrest⟩, rfl⟩
    | definition | fixpoint | shared => exact h.1.elim

end Sentence

/-! ## Groups -/

/-- A guarded function refers to bodies, to other names of the group and to admitted markers. -/
theorem Guarded.references {c : Counters} {bodies : List FixpointBody} {refs : List Name}
    {markers : Name → Prop} {d : FuncDecl} {own : Nat} {size : Size}
    (h : Guarded c ((View.ofBodies bodies refs markers).ofParams d.paramNames own size) d.rhs [])
    {n : Name} (hn : n ∈ d.references) :
    n ∈ bodies.map (·.decl.name) ∨ n ∈ refs ∨ markers n := by
  have hscoped := h.scoped d.rhs
  rcases FuncDecl.mem_references_iff.mp hn with ⟨hfree, hparam⟩ | hmarker
  · obtain ⟨k, hk⟩ := hscoped.free n hfree
    rw [View.ofParams, View.facts_binds_of_notMem _
      ((View.map_fst_zip_paramSizes _ _ _).symm ▸ hparam)] at hk
    refine (View.mem_of_facts_ofGroup hk).imp (fun hmem => ?_) .inl
    rwa [List.map_map] at hmem
  · have hadmitted := hscoped.markers n hmarker
    rw [View.markers_ofParams] at hadmitted
    exact .inr (.inr hadmitted)

section group

variable {c : Counters} {refs outside vars defined : List Name} {markers : Name → Prop}
  {decls mains : List FuncDecl} {bodies : List FixpointBody}

/-- The functions of a group are its main functions; its bodies have other names. -/
theorem Split.IsSplit.main_notMem (h : IsSplit c refs markers decls bodies mains)
    (hgroup : GroupScoped c refs markers decls) {main : FuncDecl} (hmain : main ∈ mains) :
    main.name ∉ bodies.map (·.decl.name) ∧ main.name ∉ refs := by
  have hmem : main.name ∈ decls.map FuncDecl.name := h.names ▸ List.mem_map_of_mem hmain
  constructor
  · intro hbody
    obtain ⟨b, hb, hname⟩ := List.mem_map.mp hbody
    obtain ⟨d, hd, hname'⟩ := List.mem_map.mp hmem
    exact h.new b hb (hname ▸ hname' ▸ hgroup.settled d hd)
  · exact fun hrefs => (hgroup.others _ hrefs).2 hmem

/-- **The sentences of a group** are well scoped where its other names are. -/
theorem Split.IsSplit.wellScoped (h : IsSplit c refs markers decls bodies mains)
    (hgroup : GroupScoped c refs markers decls) (hmarkers : ∀ m, markers m → m ∈ refs)
    (hrefs : ∀ n ∈ refs, n ∈ defined ∨ n ∈ vars ∨ n ∈ outside) :
    Sentence.WellScopedAll outside vars defined (.fixpoint bodies :: mains.map .definition) := by
  obtain ⟨c₁, hbodies⟩ := h.guarded
  obtain ⟨c₂, hmains⟩ := h.mainsGuarded
  refine ⟨fun b hb n hn => ?_, Sentence.wellScopedAll_definitions fun main hmain => ?_⟩
  · rcases (hbodies b hb).references hn with hbody | hother
    · exact .inr (.inl hbody)
    · exact (hrefs n (hother.elim id (hmarkers n))).imp_right .inr
  · obtain ⟨position, hguarded⟩ := hmains main hmain
    have hreferences : ∀ n ∈ main.references, n ∈ bodies.map (·.decl.name) ∨ n ∈ refs := fun n hn =>
      (hguarded.references hn).imp_right fun hother => hother.elim id (hmarkers n)
    obtain ⟨hbody, hother⟩ := h.main_notMem hgroup hmain
    refine ⟨fun hself => (hreferences _ hself).elim hbody hother, fun n hn => ?_⟩
    rcases hreferences n hn with hn | hn
    · refine .inl (List.mem_append_right _ ?_)
      rwa [Sentence.funcDecls, List.map_map]
    · exact (hrefs n hn).imp_left (List.mem_append_left _)

/-- The sentences of a recursive group define its functions and are well scoped where its other
names are. -/
theorem GroupConverted.wellScoped {sentences : List Sentence}
    (h : GroupConverted c refs markers decls sentences) (hgroup : GroupScoped c refs markers decls)
    (hmarkers : ∀ m, markers m → m ∈ refs) (hrefs : ∀ n ∈ refs, n ∈ defined ∨ n ∈ outside) :
    Sentence.WellScopedAll outside [] defined sentences ∧
      ∀ n ∈ decls.map FuncDecl.name, n ∈ Sentence.funcNames sentences := by
  cases h with
  | @split bodies mains hsplit =>
    refine ⟨hsplit.wellScoped hgroup hmarkers fun n hn => (hrefs n hn).imp_right .inr,
      fun n hn => ?_⟩
    rw [Sentence.funcNames_cons, Sentence.funcNames_definitions, hsplit.names]
    exact List.mem_append_right _ hn
  | @hoisted name typeVars own bodies mains wrappers hhoisted =>
    obtain ⟨c', inner, hinner, hsplit⟩ := hhoisted.split
    refine ⟨⟨?_, Sentence.wellScopedAll_definitions fun w hw =>
      ⟨fun hself => ?_, fun n hn => .inl ?_⟩⟩, fun n hn => ?_⟩
    · refine hsplit.wellScoped hinner (fun m hm => List.mem_append_left _ (hmarkers m hm))
        fun n hn => ?_
      exact (List.mem_append.mp hn).elim (fun hn => (hrefs n hn).imp_right .inr) fun hn =>
        .inr (.inl hn)
    · -- the functions of the group were there before the inner functions
      obtain ⟨d, hd, hname⟩ := List.mem_map.mp (hhoisted.names ▸ List.mem_map_of_mem hw)
      exact hhoisted.new _ (hhoisted.references w hw _ hself) (hname ▸ hgroup.settled d hd)
    · refine List.mem_append_right _ ?_
      change n ∈ Sentence.funcNames (.fixpoint bodies :: mains.map .definition)
      rw [Sentence.funcNames_cons, Sentence.funcNames_definitions]
      exact List.mem_append_right _ (hhoisted.references w hw n hn)
    · rw [Sentence.funcNames_cons, Sentence.funcNames_definitions, hhoisted.names]
      exact List.mem_append_right _ hn

end group

/-! ## Modules -/

/-- A module of distinct functions with distinct parameters and no marked names. No recursive group
holds a marker with the name of one of its own functions. -/
structure Module.WellNamed (m : Module) : Prop where
  functions : (m.funcDecls.map FuncDecl.name).Nodup
  params : ∀ d ∈ m.funcDecls, d.paramNames.Nodup
  unmarked : ∀ d ∈ m.funcDecls, ∀ n ∈ d.names, n.isMarked = false
  markers : ∀ c ∈ Dependency.components m.funcDecls, c.isRecursive = true →
    ∀ d ∈ c.decls, ∀ d' ∈ c.decls, d'.name ∉ d.rhs.markers

section module

variable {m : Module} {s s' : Session} {sentences : List Sentence} {defined : List Name}

/-- What a component refers to beside its own functions is defined earlier or outside of the
module. -/
theorem mem_defined_or_outerNames {pre post : List (Component FuncDecl)}
    {component : Component FuncDecl}
    (hcomponents : Dependency.components m.funcDecls = pre ++ component :: post)
    (hdefined : ∀ n ∈ pre.flatMap Component.names, n ∈ defined) {d : FuncDecl}
    (hd : d ∈ component.decls) {n : Name} (hn : n ∈ d.references) (hother : n ∉ component.names) :
    n ∈ defined ∨ n ∈ outerNames m.funcDecls := by
  by_cases hdeclared : n ∈ m.funcDecls.map FuncDecl.name
  · exact .inl (hdefined n
      ((Dependency.components_earlier hcomponents hd hn hdeclared).resolve_left hother))
  · have hmem : component ∈ Dependency.components m.funcDecls := hcomponents ▸ by simp
    have hd' := Dependency.mem_of_mem_components hmem hd
    exact .inr (List.mem_filter.mpr ⟨List.mem_flatMap.mpr ⟨d, hd', hn⟩, decide_eq_true hdeclared⟩)

/-- **One component.** -/
theorem Component.funcsToSentences_wellScoped (hm : m.WellNamed)
    {pre post : List (Component FuncDecl)} {component : Component FuncDecl}
    (hcomponents : Dependency.components m.funcDecls = pre ++ component :: post)
    (hdefined : ∀ n ∈ pre.flatMap Component.names, n ∈ defined)
    (hs : ∀ n, s.env.pragmas.get? n = none) (h : component.funcsToSentences s = .ok sentences s') :
    (∀ n, s'.env.pragmas.get? n = none) ∧
      Sentence.WellScopedAll (outerNames m.funcDecls) [] defined sentences ∧
      ∀ n ∈ component.names, n ∈ Sentence.funcNames sentences := by
  have hmem : component ∈ Dependency.components m.funcDecls := hcomponents ▸ by simp
  have hsub : ∀ d ∈ component.decls, d ∈ m.funcDecls :=
    fun d hd => Dependency.mem_of_mem_components hmem hd
  have hscope := fun {d n} => mem_defined_or_outerNames (d := d) (n := n) hcomponents hdefined
  cases component with
  | single d =>
    obtain ⟨rfl, rfl⟩ := Compile.pure_ok.mp h
    have hself : d.name ∉ d.references := Dependency.declared_notMem_references hm.functions hmem
    refine ⟨hs, ⟨⟨hself, fun n hn => ?_⟩, trivial⟩, fun n hn => hn⟩
    refine (hscope List.mem_cons_self hn fun hown => ?_).imp_right .inr
    obtain rfl : n = d.name := List.mem_singleton.mp hown
    exact hself hn
  | recursive decls =>
    have hnodup : (decls.map FuncDecl.name).Nodup :=
      Dependency.nodup_names_of_mem_components hm.functions hmem
    -- names of a source text are unmarked, and no function is named like a marker of the group
    have hgroup : GroupScoped s.counters (outerNames decls) (· ∈ outerNames decls) decls := by
      refine .of_unmarked hnodup (fun d hd => hm.params d (hsub d hd))
        (fun d hd => hm.unmarked d (hsub d hd)) fun d hd n hn => ?_
      refine List.mem_filter.mpr
        ⟨List.mem_flatMap.mpr ⟨d, hd, FuncDecl.mem_references_iff.mpr (.inr hn)⟩, ?_⟩
      refine decide_eq_true fun hown => ?_
      obtain ⟨d', hd', rfl⟩ := List.mem_map.mp hown
      exact hm.markers _ hmem rfl d hd d' hd' hn
    obtain ⟨d, hd⟩ := List.exists_mem_of_ne_nil decls (Dependency.ne_nil_of_recursive hmem)
    obtain ⟨hkept, hconverted⟩ :=
      groupToSentences_sound (Compile.locate_ok.mp h) hgroup ⟨d, hd, hs _⟩ fun n _ _ => hs n
    refine ⟨hkept hs, hconverted.wellScoped hgroup (fun _ hn => hn) fun n hn => ?_⟩
    obtain ⟨hreferences, hother⟩ := List.mem_filter.mp hn
    obtain ⟨d, hd, hn⟩ := List.mem_flatMap.mp hreferences
    exact hscope hd hn (of_decide_eq_true hother)

/-- All components from some point on. -/
theorem Converted.wellScoped (hm : m.WellNamed) {rest : List (Component FuncDecl)}
    (h : Converted Component.funcsToSentences rest s sentences s') :
    ∀ pre defined, Dependency.components m.funcDecls = pre ++ rest →
      (∀ n ∈ pre.flatMap Component.names, n ∈ defined) →
      (∀ n, s.env.pragmas.get? n = none) →
        Sentence.WellScopedAll (outerNames m.funcDecls) [] defined sentences ∧
          ∀ n ∈ rest.flatMap Component.names, n ∈ Sentence.funcNames sentences := by
  induction h with
  | nil => exact fun _ _ _ _ _ => ⟨trivial, nofun⟩
  | @cons component rest s s₁ s' sentences later hconvert _ ih =>
    intro pre defined hcomponents hdefined hs
    obtain ⟨hs₁, hfirst, hown⟩ :=
      component.funcsToSentences_wellScoped hm hcomponents hdefined hs hconvert
    have hdefined' : ∀ n ∈ (pre ++ [component]).flatMap Component.names,
        n ∈ defined ++ Sentence.funcNames sentences := by
      intro n hn
      rw [List.flatMap_append, List.flatMap_singleton, List.mem_append] at hn
      exact List.mem_append.mpr (hn.imp (hdefined n) (hown n))
    obtain ⟨hlater, hothers⟩ :=
      ih (pre ++ [component]) _ (by rw [List.append_assoc, hcomponents]; rfl) hdefined' hs₁
    refine ⟨(Sentence.wellScopedAll_append _ _).mpr ⟨hfirst, hlater⟩, fun n hn => ?_⟩
    rw [Sentence.funcNames_append, List.mem_append]
    rw [List.flatMap_cons, List.mem_append] at hn
    exact hn.imp (hown n) (hothers n)

/-- Conversion of types leaves the pragmas alone. -/
theorem TypeGroup.toSentences_ok {component : Component TypeDecl}
    (h : TypeGroup.toSentences component s = .ok sentences s') :
    s'.env.pragmas = s.env.pragmas ∧ ∀ sentence ∈ sentences, sentence.DefinesTypes := by
  cases component with
  | single d =>
    cases d with
    | data d =>
      simp only [TypeGroup.toSentences, Compile.bind_ok, Compile.lift_ok, Compile.pure_ok,
        Session.modifyEnv_eq] at h
      obtain ⟨_, _, rfl, rfl, rfl⟩ := h
      exact ⟨s.env.pragmas_addData d, List.forall_mem_singleton.mpr trivial⟩
    | synonym d =>
      simp only [TypeGroup.toSentences, Compile.bind_ok, Compile.lift_ok, Compile.pure_ok,
        Session.modifyEnv_eq] at h
      obtain ⟨_, _, rfl, rfl, rfl⟩ := h
      exact ⟨rfl, List.forall_mem_singleton.mpr trivial⟩
  | recursive decls =>
    obtain ⟨_, expanded, _, rfl, henv⟩ := TypeGroup.recursiveToSentences_ok h
    rw [henv, Environment.pragmas_foldl Environment.pragmas_addData,
      Environment.pragmas_foldl (f := Environment.addSynonym) fun _ _ => rfl]
    refine ⟨rfl, List.forall_mem_cons.mpr ⟨trivial, List.forall_mem_map.mpr fun d _ => trivial⟩⟩

theorem Converted.types_ok {components : List (Component TypeDecl)}
    (h : Converted TypeGroup.toSentences components s sentences s') :
    s'.env.pragmas = s.env.pragmas ∧ ∀ sentence ∈ sentences, sentence.DefinesTypes := by
  induction h with
  | nil => exact ⟨rfl, nofun⟩
  | cons hconvert _ ih =>
    obtain ⟨hpragmas, htypes⟩ := TypeGroup.toSentences_ok hconvert
    refine ⟨ih.1.trans hpragmas, fun sentence hmem => ?_⟩
    exact (List.mem_append.mp hmem).elim (htypes sentence) (ih.2 sentence)

theorem pragmas_classifyAll (env : Environment) (components : List (Component FuncDecl)) :
    (Partiality.classifyAll env components).pragmas = env.pragmas :=
  Environment.pragmas_foldl (fun env _ =>
    Environment.pragmas_foldl (fun env name => env.pragmas_updateFunc name _) _ env) _ env

/-- **Function sentences are well scoped and in dependency order.** A module without pragmas that
converts without error defines all its functions, and every function refers to what its place
allows. -/
theorem convertModule_wellScoped {keepGoing : Bool} {conversion : Conversion} (hm : m.WellNamed)
    (hpragmas : m.pragmas = []) (h : convertModule keepGoing m {} = .ok conversion s')
    (herrors : conversion.errors = []) :
    Sentence.WellScopedAll (outerNames m.funcDecls) [] [] conversion.sentences ∧
      ∀ d ∈ m.funcDecls, d.name ∈ Sentence.funcNames conversion.sentences := by
  -- registering and classifying functions and converting types leave the pragmas alone
  simp only [convertModule, Module.order, OrderedModule.register, OrderedModule.classify,
    OrderedModule.convert,
    Compile.bind_ok, Compile.lift_ok, Naming.bind_eq, Naming.pure_eq, Session.modifyEnv_eq,
      Compile.pure_ok] at h
  obtain ⟨_, s₁, ⟨typeComponents, s₀, htypes, funcComponents, _, hfuncs, rfl, rfl⟩, _, s₂,
    ⟨_, _, rfl, hregister⟩, _, _, rfl,
    types, s₃, hconvertTypes, funcs, _, hconvertFuncs, rfl, rfl⟩ := h
  obtain ⟨rfl, henv₀⟩ := arrangeDecls_eq htypes
  obtain ⟨rfl, henv₁⟩ := arrangeDecls_eq hfuncs
  simp only [hpragmas] at hregister
  obtain ⟨_, rfl⟩ := Compile.pure_ok.mp hregister
  obtain ⟨herrorsTypes, herrorsFuncs⟩ := List.append_eq_nil_iff.mp herrors
  obtain ⟨hkept, hdefinesTypes⟩ := (converted_of_no_errors hconvertTypes herrorsTypes).types_ok
  have hnone : ∀ n, s₃.env.pragmas.get? n = none := by
    intro n
    rw [hkept, pragmas_classifyAll]
    rw [Environment.pragmas_foldl (f := fun env d => env.addFunc (.ofDecl d)) fun _ _ =>
      rfl, henv₁, henv₀]
    rfl
  obtain ⟨hscoped, hdefined⟩ :=
    (converted_of_no_errors hconvertFuncs herrorsFuncs).wellScoped hm [] [] rfl
      (List.forall_mem_nil _) hnone
  obtain ⟨htypesScoped, hnoFuncs⟩ :=
    Sentence.wellScopedAll_types hdefinesTypes (outerNames m.funcDecls) [] []
  rw [Sentence.wellScopedAll_append, Sentence.funcNames_append, hnoFuncs]
  refine ⟨⟨htypesScoped, hscoped⟩, fun d hd => hdefined d.name ?_⟩
  obtain ⟨component, hmem, hd'⟩ := List.mem_flatMap.mp
    ((Dependency.flatMap_components_perm m.funcDecls).mem_iff.mpr hd)
  exact List.mem_flatMap.mpr ⟨component, hmem, List.mem_map_of_mem hd'⟩

end module

/-- A sum of doubled elements over a constant `f`, which fails for the empty list. `double` is
declared after its use, and `plus` is not declared at all. -/
def summation : Module where
  name := "Summation"
  funcDecls := [
    { name := "sum", params := [{ name := "f" }, { name := "xs" }]
      rhs := .case {} (.var {} "xs") [(.con "Nil" [], .error {} "empty"),
        (.con "Cons" [{ name := "y" }, { name := "ys" }],
          .app {} (.app {} (.var {} "plus") (.app {} (.var {} "double") (.var {} "y")))
            (.app {} (.app {} (.var {} "sum") (.var {} "f")) (.var {} "ys")))] },
    { name := "double", params := [{ name := "x" }]
      rhs := .app {} (.app {} (.var {} "plus") (.var {} "x")) (.var {} "x") }]

/-- It is converted without errors. -/
theorem summation_wellScoped :
    summation.WellNamed ∧ ∃ conversion s',
      convertModule false summation {} = .ok conversion s' ∧ conversion.errors = [] ∧
      Sentence.WellScopedAll (outerNames summation.funcDecls) [] [] conversion.sentences ∧
      ∀ d ∈ summation.funcDecls, d.name ∈ Sentence.funcNames conversion.sentences := by
  have hm : summation.WellNamed := ⟨by decide, by decide, by decide, by decide +kernel⟩
  obtain ⟨conversion, s', h, herrors⟩ := Compile.exists_of_succeedsWith (p := Conversion.isOk)
    (x := convertModule false summation) (s := {}) (by decide +kernel)
  rw [Conversion.isOk, List.isEmpty_iff] at herrors
  exact ⟨hm, conversion, s', h, herrors, convertModule_wellScoped hm rfl h herrors⟩

/-- A recursive function named `error` that holds the marker `error`. -/
def markerFunction : Module where
  name := "MarkerFunction"
  funcDecls := [{ name := "error", params := [{ name := "x" }]
                  rhs := .case {} (.var {} "x") [(.con "Nil" [], .error {} "boom"),
                    (.con "Cons" [{ name := "y" }, { name := "ys" }],
                      .app {} (.var {} "error") (.var {} "ys"))] }]

/-- Its helper still holds the marker, but refers to no earlier function, no other helper and
nothing outside of the module: the only function named `error` is defined after it. -/
theorem markerFunction_not_wellScoped :
    (markerFunction.funcDecls.map FuncDecl.name).Nodup ∧
      (∀ d ∈ markerFunction.funcDecls, d.paramNames.Nodup) ∧
      (∀ d ∈ markerFunction.funcDecls, ∀ n ∈ d.names, n.isMarked = false) ∧
        markerFunction.pragmas = [] ∧
      ∃ conversion s', convertModule false markerFunction {} = .ok conversion s' ∧
        conversion.errors = [] ∧
        ¬ Sentence.WellScopedAll (outerNames markerFunction.funcDecls) [] []
          conversion.sentences := by
  refine ⟨by decide, by decide, by decide, rfl, ?_⟩
  obtain ⟨conversion, s', h, hcheck⟩ := Compile.exists_of_succeedsWith
    (p := fun conversion => conversion.isOk &&
      decide
        (¬ Sentence.WellScopedAll (outerNames markerFunction.funcDecls) [] [] conversion.sentences))
    (x := convertModule false markerFunction) (s := {}) (by decide +kernel)
  rw [Bool.and_eq_true, Conversion.isOk, List.isEmpty_iff, decide_eq_true_eq] at hcheck
  exact ⟨conversion, s', h, hcheck⟩

end StructRec
