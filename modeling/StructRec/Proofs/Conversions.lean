import StructRec.Proofs.GroupOccurrences
import StructRec.Proofs.Registration

/-!
# StructRec — runs of module conversions

A run of a conversion taken apart, also where components fail: a failed component is skipped and
leaves the environment as it was (`Processed`). Before the components are converted, all functions
of the module are registered and classified (`ModuleRun`); the type components then add constructors
and nothing else that concerns functions (`AddsConstructors`).
-/

namespace StructRec

variable {α : Type}

/-! ## Runs over components -/

/-- Components are converted one after the other. One that fails is skipped, and the environment is
as before it. -/
inductive Processed (convert : Component α → Compile (List Sentence)) :
    List (Component α) → Session → List Sentence → Session → Prop where
  | nil (s : Session) : Processed convert [] s [] s
  | converted {c : Component α} {rest : List (Component α)} {s s₁ s' : Session}
      {sentences later : List Sentence}
      (hconvert : convert c s = .ok sentences s₁) (hrest : Processed convert rest s₁ later s') :
      Processed convert (c :: rest) s (sentences ++ later) s'
  | skipped {c : Component α} {rest : List (Component α)} {s s₁ s' : Session}
      {later : List Sentence} (henv : s₁.env = s.env) (hrest : Processed convert rest s₁ later s') :
      Processed convert (c :: rest) s later s'

/-- A failed transaction leaves the environment alone. -/
theorem Compile.attempt_transaction_error {x : Compile α} {d : Diagnostic} {s s' : Session}
    (h : attempt (transaction x) s = .ok (.error d) s') : s'.env = s.env := by
  unfold attempt transaction at h
  cases hx : x s with
  | ok a s₁ =>
    rw [hx] at h
    cases h
  | error e s₁ =>
    rw [hx] at h
    cases e with
    | error diagnostic =>
      cases h
      rfl
    | bug b => cases h

/-- **A run over components**, one after the other. -/
theorem processed_of_run [Declaration α] {keepGoing : Bool}
    {convert : Component α → Compile (List Sentence)} {components : List (Component α)}
    {s s' : Session} {conversion : Conversion}
    (h : convertComponents keepGoing convert components s = .ok conversion s') :
    Processed convert components s conversion.sentences s' := by
  induction components generalizing s conversion with
  | nil =>
    unfold convertComponents at h
    obtain ⟨rfl, rfl⟩ := Compile.pure_ok.mp h
    exact .nil s
  | cons c rest ih =>
    unfold convertComponents at h
    obtain ⟨outcome, s₁, houtcome, h⟩ := Compile.bind_ok.mp h
    cases outcome with
    | ok sentences =>
      rw [Compile.attempt_ok, Compile.transaction_ok] at houtcome
      obtain ⟨later, s₂, hlater, h⟩ := Compile.bind_ok.mp h
      obtain ⟨rfl, rfl⟩ := Compile.pure_ok.mp h
      exact .converted houtcome (ih hlater)
    | error diagnostic =>
      have henv := Compile.attempt_transaction_error houtcome
      simp only at h
      split at h
      · simp only [Compile.bind_ok] at h
        obtain ⟨_, _, hthrow, _⟩ := h
        exact absurd hthrow Compile.throw_ok
      · simp only [Compile.bind_ok, Compile.pure_ok, Compile.lift_ok] at h
        obtain ⟨_, s₂, hwarn, later, s₃, hlater, rfl, rfl⟩ := h
        -- a warning is all that is left of the component
        have hwarned : s₂.env = s₁.env := by rw [← (Prod.mk.inj hwarn).2]
        have hrest : Processed convert rest s₂ later.sentences s₃ := ih hlater
        exact .skipped (hwarned.trans henv) hrest

/-! ## Type components -/

/-- The constructors that a type declaration declares. -/
def TypeDecl.constructorNames : TypeDecl → List Name
  | data d => d.constructors.map Constructor.name
  | synonym _ => []

/-- Among values only constructors of these names are new, and no function got or lost a decreasing
parameter. -/
structure AddsConstructors (names : List Name) (env env' : Environment) : Prop where
  values : ∀ n, env'.values.get? n = env.values.get? n ∨
    n ∈ names ∧ ∃ entry, env'.values.get? n = some (.constructor entry)
  decreasing : env'.decreasing = env.decreasing

namespace AddsConstructors

variable {names names' : List Name} {env env' env'' : Environment}

theorem refl (names : List Name) (env : Environment) : AddsConstructors names env env :=
  ⟨fun _ => .inl rfl, rfl⟩

theorem trans (h : AddsConstructors names env env') (h' : AddsConstructors names env' env'') :
    AddsConstructors names env env'' := by
  refine ⟨fun n => ?_, h'.decreasing.trans h.decreasing⟩
  rcases h'.values n with hkept | hadded
  · rw [hkept]
    exact h.values n
  · exact .inr hadded

theorem mono (h : AddsConstructors names env env') (hsub : names ⊆ names') :
    AddsConstructors names' env env' :=
  ⟨fun n => (h.values n).imp_right fun hadded => ⟨hsub hadded.1, hadded.2⟩, h.decreasing⟩

theorem foldl {f : Environment → α → Environment} {xs : List α}
    (hf : ∀ env, ∀ x ∈ xs, AddsConstructors names env (f env x)) (env : Environment) :
    AddsConstructors names env (xs.foldl f env) := by
  induction xs generalizing env with
  | nil => exact .refl names env
  | cons x rest ih =>
    rw [List.foldl_cons]
    exact (hf env x List.mem_cons_self).trans
      (ih (fun env y hy => hf env y (List.mem_cons_of_mem _ hy)) _)

theorem addValue (env : Environment) {entry : ConstructorEntry} (h : entry.name ∈ names) :
    AddsConstructors names env (env.addValue (.constructor entry)) := by
  refine ⟨fun n => ?_, rfl⟩
  have hget : (env.addValue (.constructor entry)).values.get? n
      = if entry.name = n then some (.constructor entry) else env.values.get? n :=
        Table.get?_insert _ _ _ _
  rw [hget]
  split
  · next heq => exact .inr ⟨heq ▸ h, entry, rfl⟩
  · exact .inl rfl

/-- A data type adds its constructors. -/
theorem addData (env : Environment) (d : DataDecl) :
    AddsConstructors (d.constructors.map Constructor.name) env (env.addData d) := by
  have hadd : ∀ env, ∀ entry ∈ d.constructors.map fun c => ValueEntry.constructor
      { name := c.name, span := c.span, dataType := d.name, fieldTys := c.fields },
      AddsConstructors (d.constructors.map Constructor.name) env (env.addValue entry) := by
    intro env entry hentry
    obtain ⟨c, hc, rfl⟩ := List.mem_map.mp hentry
    exact addValue env (List.mem_map_of_mem hc)
  have hconstructors := foldl hadd env
  exact ⟨hconstructors.values, hconstructors.decreasing⟩

/-- Constructors take no functions away. -/
theorem registers {functions : List Name} (h : AddsConstructors names env env')
    (henv : env.Registers functions) : env'.Registers functions := by
  intro f hf
  rw [Table.contains]
  rcases h.values f with hkept | ⟨_, entry, hadded⟩
  · rw [hkept]
    exact henv f hf
  · rw [hadded]
    rfl

end AddsConstructors

namespace TypeGroup

variable {s s' : Session} {sentences : List Sentence}

theorem constructorNames_expandFields (expand : Ty → Ty) (d : DataDecl) :
    (expandFields expand d).constructors.map Constructor.name =
      d.constructors.map Constructor.name := by
  unfold expandFields
  rw [List.map_map]
  rfl

/-- **A component of types** adds the constructors of its data types. -/
theorem toSentences_adds {component : Component TypeDecl}
    (h : toSentences component s = .ok sentences s') :
    AddsConstructors (component.decls.flatMap TypeDecl.constructorNames) s.env s'.env := by
  cases component with
  | single d =>
    cases d with
    | data d =>
      simp only [toSentences, Compile.bind_ok, Compile.lift_ok, Compile.pure_ok,
        Session.modifyEnv_eq] at h
      obtain ⟨_, _, rfl, rfl, rfl⟩ := h
      refine (AddsConstructors.addData s.env d).mono fun n hn => ?_
      exact List.mem_flatMap.mpr ⟨.data d, List.mem_singleton.mpr rfl, hn⟩
    | synonym d =>
      simp only [toSentences, Compile.bind_ok, Compile.lift_ok, Compile.pure_ok,
        Session.modifyEnv_eq] at h
      obtain ⟨_, _, rfl, rfl, rfl⟩ := h
      exact ⟨fun _ => .inl rfl, rfl⟩
  -- synonyms come first and add nothing, then data types with expanded fields
  | recursive decls =>
    obtain ⟨_, expanded, hexpanded, rfl, henv⟩ := recursiveToSentences_ok h
    rw [henv]
    have hsynonyms :=
      AddsConstructors.foldl (f := Environment.addSynonym)
        (fun env d (_ : d ∈ synonymDecls decls) =>
      (⟨fun _ => .inl rfl, rfl⟩ :
        AddsConstructors (decls.flatMap TypeDecl.constructorNames) env (env.addSynonym d))) s.env
    refine hsynonyms.trans (AddsConstructors.foldl (fun env d hd => ?_) _)
    rw [hexpanded] at hd
    obtain ⟨d', hd', rfl⟩ := List.mem_map.mp hd
    refine (AddsConstructors.addData env _).mono ?_
    rw [constructorNames_expandFields]
    exact fun n hn => List.mem_flatMap.mpr ⟨.data d', mem_dataDecls.mp hd', hn⟩

end TypeGroup

/-- **The type components of a module** add constructors, and their sentences define no
functions. -/
theorem Processed.types {components : List (Component TypeDecl)} {s s' : Session}
    {sentences : List Sentence} (h : Processed TypeGroup.toSentences components s sentences s') :
    AddsConstructors ((components.flatMap Component.decls).flatMap TypeDecl.constructorNames)
      s.env s'.env ∧
      ∀ sentence ∈ sentences, sentence.DefinesTypes := by
  induction h with
  | nil s => exact ⟨.refl _ s.env, nofun⟩
  | @converted c rest s s₁ s' sentences later hconvert _ ih =>
    rw [List.flatMap_cons, List.flatMap_append]
    refine ⟨((TypeGroup.toSentences_adds hconvert).mono (List.subset_append_left _ _)).trans
      (ih.1.mono (List.subset_append_right _ _)), List.forall_mem_append.mpr ⟨?_, ih.2⟩⟩
    exact (TypeGroup.toSentences_ok hconvert).2
  | @skipped c rest s s₁ s' later henv _ ih =>
    rw [List.flatMap_cons, List.flatMap_append, ← henv]
    exact ⟨ih.1.mono (List.subset_append_right _ _), ih.2⟩

theorem Sentence.funcDeclsOfAll_types {sentences : List Sentence}
    (h : ∀ s ∈ sentences, s.DefinesTypes) : funcDeclsOfAll sentences = [] :=
  List.map_eq_nil_iff.mp (wellScopedAll_types h [] [] []).2

/-! ## Modules -/

/-- The environment in which the components of a module are converted: its functions are registered
and classified. -/
def Module.registered (m : Module) (env : Environment) (pragmas : Table PragmaEntry) :
    Environment :=
  Partiality.classifyAll
    { m.funcDecls.foldl (fun env d => env.addFunc (.ofDecl d)) env with pragmas }
    (Dependency.components m.funcDecls)

/-- A run for a module: functions and pragmas are registered, then the components are converted,
types first. -/
inductive ModuleRun (m : Module) (s : Session) : List Sentence → Session → Prop where
  | intro {pragmas : Table PragmaEntry} {s₁ s₂ s' : Session} {types funcs : List Sentence}
      (hregistered : s₁.env = m.registered s.env pragmas)
      (htypes : Processed TypeGroup.toSentences (Dependency.components m.typeDecls) s₁ types s₂)
      (hfuncs : Processed Component.funcsToSentences (Dependency.components m.funcDecls)
        s₂ funcs s') :
      ModuleRun m s (types ++ funcs) s'

/-- Pragmas are kept apart from everything else. -/
theorem registerPragma_ok {m : Module} {p : Pragma} {u : Unit} {s s' : Session}
    (h : m.registerPragma p s = .ok u s') : ∃ pragmas, s'.env = { s.env with pragmas } := by
  unfold Module.registerPragma at h
  split at h
  · obtain ⟨_, _, hfail, _⟩ := Compile.bind_ok.mp h
    exact absurd hfail Compile.throw_ok
  · simp only [Compile.bind_ok, Compile.lift_ok, Session.getEnv_eq] at h
    obtain ⟨_, _, ⟨rfl, rfl⟩, h⟩ := h
    split at h
    · simp only [Compile.bind_ok, Compile.lift_ok, Session.modifyEnv_eq] at h
      obtain ⟨_, s₁, hwarn, rfl⟩ := h
      obtain rfl := (Prod.mk.inj hwarn).2
      exact ⟨_, rfl⟩
    · simp only [Compile.lift_ok, Session.modifyEnv_eq] at h
      subst h
      exact ⟨_, rfl⟩

theorem registerPragmas_ok {m : Module} {pragmas : List Pragma} {u : Unit} {s s' : Session}
    (h : (pragmas.forM m.registerPragma) s = .ok u s') :
    ∃ pragmas, s'.env = { s.env with pragmas } := by
  induction pragmas generalizing s with
  | nil =>
    obtain ⟨_, rfl⟩ := Compile.pure_ok.mp h
    exact ⟨s.env.pragmas, rfl⟩
  | cons p rest ih =>
    change (m.registerPragma p >>= fun _ => rest.forM m.registerPragma) s = .ok u s' at h
    obtain ⟨_, s₁, hfirst, hrest⟩ := Compile.bind_ok.mp h
    obtain ⟨_, henv⟩ := registerPragma_ok hfirst
    obtain ⟨pragmas, henv'⟩ := ih hrest
    exact ⟨pragmas, by rw [henv', henv]⟩

/-- What stands before the conversion of the components: the declarations are ordered, functions and
pragmas are registered, and the functions are classified. -/
def Module.prepare (m : Module) : Compile OrderedModule := do
  let ordered ← m.order
  ordered.register
  ordered.classify
  return ordered

/-- A module is prepared, then its components are converted. -/
theorem convertModule_eq (keepGoing : Bool) (m : Module) :
    convertModule keepGoing m = m.prepare >>= fun ordered => ordered.convert keepGoing := by
  simp only [convertModule, Module.prepare, bind_assoc, pure_bind]

/-- A module with its declarations ordered into components. -/
def Module.ordered (m : Module) : OrderedModule where
  source := m
  typeComponents := Dependency.components m.typeDecls
  funcComponents := Dependency.components m.funcDecls

theorem Module.order_eq {m : Module} {ordered : OrderedModule} {s s' : Session}
    (h : m.order s = (ordered, s')) : ordered = m.ordered ∧ s'.env = s.env := by
  simp only [order, Naming.bind_eq, Naming.pure_eq] at h
  obtain ⟨typeComponents, s₀, htypes, funcComponents, _, hfuncs, rfl, rfl⟩ := h
  obtain ⟨rfl, henv₀⟩ := arrangeDecls_eq htypes
  obtain ⟨rfl, henv₁⟩ := arrangeDecls_eq hfuncs
  exact ⟨rfl, henv₁.trans henv₀⟩

/-- **Preparing a module** registers its functions and arranges its declarations. -/
theorem Module.prepare_ok {m : Module} {ordered : OrderedModule} {s s' : Session}
    (h : m.prepare s = .ok ordered s') :
    ordered = m.ordered ∧ ∃ pragmas, s'.env = m.registered s.env pragmas := by
  simp only [prepare, OrderedModule.register, OrderedModule.classify, Compile.bind_ok,
    Compile.lift_ok, Session.modifyEnv_eq, Compile.pure_ok] at h
  obtain ⟨_, s₁, horder, _, s₂, ⟨_, _, rfl, hregister⟩, _, _, rfl, rfl, rfl⟩ := h
  obtain ⟨rfl, henv⟩ := Module.order_eq horder
  obtain ⟨pragmas, hpragmas⟩ := registerPragmas_ok hregister
  refine ⟨rfl, pragmas, ?_⟩
  change Partiality.classifyAll s₂.env (Dependency.components m.funcDecls) =
    m.registered s.env pragmas
  rw [hpragmas, henv, registered]
  rfl

/-- **A run for a module**: it is prepared, then its types and its functions are converted. -/
theorem convertModule_ok {m : Module} {keepGoing : Bool} {conversion : Conversion} {s s' : Session}
    (h : convertModule keepGoing m s = .ok conversion s') :
    ModuleRun m s conversion.sentences s' := by
  rw [convertModule_eq] at h
  simp only [OrderedModule.convert, Compile.bind_ok, Compile.pure_ok] at h
  obtain ⟨ordered, s₁, hprepare, types, s₂, hconvertTypes, funcs, _, hconvertFuncs, rfl, rfl⟩ := h
  obtain ⟨rfl, pragmas, hregistered⟩ := Module.prepare_ok hprepare
  exact .intro hregistered (processed_of_run hconvertTypes) (processed_of_run hconvertFuncs)

/-! ## Registered functions -/

namespace Environment

theorem shape?_setPartial (env : Environment) (name : Name) (isPartial : Bool) (n : Name) :
    (env.setPartial name isPartial).shape? n = env.shape? n := by
  have hsame : ∀ entry : FuncEntry,
    ({ entry with isPartial } : FuncEntry).signature = id entry.signature := fun _ => rfl
  rw [setPartial, env.shape?_updateFunc name hsame n]
  split
  · cases env.shape? n with
    | none => rfl
    | some shape => cases shape <;> rfl
  · rfl

/-- Classifying functions changes no shape. -/
theorem shape?_classifyAll (env : Environment) (components : List (Component FuncDecl)) (n : Name) :
    (Partiality.classifyAll env components).shape? n = env.shape? n := by
  refine part_foldl (shape? · n) (f := Partiality.classify) (fun env component => ?_) components env
  exact part_foldl (shape? · n) (fun env name => env.shape?_setPartial name _ n) component.names env

theorem decreasing_classifyAll (env : Environment) (components : List (Component FuncDecl)) :
    (Partiality.classifyAll env components).decreasing = env.decreasing := by
  refine part_foldl decreasing (f := Partiality.classify) (fun env component => ?_) components env
  exact part_foldl decreasing (fun env name => Hoist.decreasing_updateFunc env name _)
    component.names env

/-- Other names stand for what they did. -/
theorem shape?_foldl_addFunc_of_notMem {decls : List FuncDecl} (env : Environment) {n : Name}
    (h : n ∉ decls.map FuncDecl.name) :
    (decls.foldl (fun env d => env.addFunc (.ofDecl d)) env).shape? n = env.shape? n := by
  induction decls generalizing env with
  | nil => rfl
  | cons d rest ih =>
    rw [List.map_cons, List.mem_cons, not_or] at h
    rw [List.foldl_cons, ih _ h.2, shape?_addFunc]
    exact if_neg fun heq => h.1 heq.symm

/-- The last declaration of a name counts. -/
theorem shape?_foldl_addFunc_of_mem {decls : List FuncDecl} (env : Environment) {n : Name}
    (h : n ∈ decls.map FuncDecl.name) :
    ∃ d ∈ decls, d.name = n ∧
      (decls.foldl (fun env d => env.addFunc (.ofDecl d)) env).shape? n =
        some (.func d.signature) := by
  induction decls generalizing env with
  | nil => cases h
  | cons d rest ih =>
    rw [List.foldl_cons]
    by_cases hrest : n ∈ rest.map FuncDecl.name
    · obtain ⟨d', hd', hlast⟩ := ih (env.addFunc (.ofDecl d)) hrest
      exact ⟨d', List.mem_cons_of_mem _ hd', hlast⟩
    · have hname : n = d.name := (List.mem_cons.mp h).resolve_right hrest
      refine ⟨d, List.mem_cons_self, hname.symm, ?_⟩
      rw [shape?_foldl_addFunc_of_notMem _ hrest, shape?_addFunc]
      exact if_pos hname.symm

end Environment

namespace Module

variable (m : Module) (env : Environment) (pragmas : Table PragmaEntry) {n : Name}

/-- A function of the module is registered with its signature. -/
theorem shape?_registered_of_mem (h : n ∈ m.funcDecls.map FuncDecl.name) :
    ∃ d ∈ m.funcDecls, d.name = n ∧
      (m.registered env pragmas).shape? n = some (.func d.signature) := by
  obtain ⟨d, hd, hname, hshape⟩ := Environment.shape?_foldl_addFunc_of_mem env h
  refine ⟨d, hd, hname, ?_⟩
  rw [registered, Environment.shape?_classifyAll]
  exact hshape

theorem shape?_registered_of_notMem (h : n ∉ m.funcDecls.map FuncDecl.name) :
    (m.registered env pragmas).shape? n = env.shape? n := by
  rw [registered, Environment.shape?_classifyAll]
  exact Environment.shape?_foldl_addFunc_of_notMem env h

theorem decreasing_registered : (m.registered env pragmas).decreasing = env.decreasing := by
  rw [registered, Environment.decreasing_classifyAll]
  exact Environment.part_foldl Environment.decreasing (f := fun env d => env.addFunc (.ofDecl d))
    (fun _ _ => rfl) _ env

/-- The functions of the module are registered before any component is converted. -/
theorem registers_registered :
    (m.registered env pragmas).Registers (m.funcDecls.map FuncDecl.name) := by
  intro n hn
  obtain ⟨d, _, _, hshape⟩ := m.shape?_registered_of_mem env pragmas hn
  obtain ⟨entry, hentry, _⟩ := Option.map_eq_some_iff.mp hshape
  rw [Table.contains, hentry]
  rfl

end Module

end StructRec
