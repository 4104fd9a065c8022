import StructRec.Proofs.Components
import StructRec.Proofs.Runs
import StructRec.Proofs.SynonymExpansion

/-!
# StructRec — the order of type sentences

`TypesInOrder` says that every type constructor a sentence mentions is defined before it, or by the
same data types. For a component that is not recursive this follows from the order of components. In
a recursive component the synonyms are expanded in the data types, which therefore mention none of
them (`mentioned_of_recursive`), and then defined in the order of the source. So the sentences are
in order exactly if that order suits the synonyms (`typesInOrder_iff`): none of them mentions one
that comes after it in the same component.
-/

namespace StructRec

variable {declared : List Name} {s s' : Session} {all : List TypeDecl} {sentences : List Sentence}
  {d : SynonymDecl} {env : Environment}

/-! ## Statements -/

/-- The type constructors that the definitions of types in a sentence mention. -/
def Sentence.mentionedTypes : Sentence → List Name
  | dataTypes decls => decls.flatMap fun d => d.constructors.flatMap fun c =>
      c.fields.flatMap Ty.conOccs
  | synonym decl => decl.rhs.conOccs
  | definition _ | fixpoint _ | shared _ _ _ _ => []

/-- The types that a sentence may mention because it defines them itself. -/
def Sentence.ownTypes : Sentence → List Name
  | dataTypes decls => decls.map DataDecl.name
  | synonym _ | definition _ | fixpoint _ | shared _ _ _ _ => []

/-- Every declared type that a sentence mentions is defined earlier, or by the same data types. -/
def TypesInOrder (declared : List Name) : List Name → List Sentence → Prop
  | _, [] => True
  | earlier, s :: rest =>
    (∀ name ∈ s.mentionedTypes, name ∈ earlier ∨ name ∈ s.ownTypes ∨ name ∉ declared) ∧
      TypesInOrder declared (earlier ++ s.definedNames) rest

/-- The number of parameters of each declared synonym. -/
def synonymArity (decls : List TypeDecl) (name : Name) : Option Nat :=
  ((TypeGroup.synonymDecls decls).find? (·.name = name)).map (·.typeParams.length)

/-- Every synonym that a declaration mentions is applied to exactly as many arguments as it has
parameters. -/
def TypeDecl.Saturated (arity : Name → Option Nat) : TypeDecl → Prop
  | data d => ∀ c ∈ d.constructors, ∀ t ∈ c.fields, t.Saturated arity 0
  | synonym d => d.rhs.Saturated arity 0

/-- Synonyms in an order that suits them: none mentions one that comes later. -/
def SynonymsInOrder (synonyms : List SynonymDecl) : Prop :=
  synonyms.Pairwise fun a b => b.name ∉ a.rhs.conOccs

/-! ## Sentences in order -/

theorem TypesInOrder.congr {earlier earlier' : List Name}
    (h : ∀ name, name ∈ earlier ↔ name ∈ earlier') (sentences : List Sentence) :
    TypesInOrder declared earlier sentences ↔ TypesInOrder declared earlier' sentences := by
  induction sentences generalizing earlier earlier' with
  | nil => exact Iff.rfl
  | cons s rest ih =>
    refine and_congr (forall₂_congr fun name _ => or_congr_left (h name)) (ih fun name => ?_)
    rw [List.mem_append, List.mem_append, h name]

theorem typesInOrder_append {earlier : List Name} {xs ys : List Sentence} :
    TypesInOrder declared earlier (xs ++ ys) ↔
      TypesInOrder declared earlier xs ∧
        TypesInOrder declared (earlier ++ Sentence.definedNamesOfAll xs) ys := by
  induction xs generalizing earlier with
  | nil => simp [TypesInOrder, Sentence.definedNamesOfAll]
  | cons s rest ih =>
    simp only [List.cons_append, TypesInOrder, Sentence.definedNamesOfAll, ih,
      List.append_assoc, and_assoc]

theorem definedNamesOfAll_synonyms (synonyms : List SynonymDecl) :
    Sentence.definedNamesOfAll (synonyms.map .synonym) = synonyms.map SynonymDecl.name := by
  induction synonyms with
  | nil => rfl
  | cons d rest ih => simp [Sentence.definedNamesOfAll, Sentence.definedNames, ih]

/-- Synonyms that mention earlier types and each other are in order exactly if none mentions a later
one. -/
theorem typesInOrder_synonyms (declared : List Name) (synonyms : List SynonymDecl) :
    ∀ earlier, (synonyms.map SynonymDecl.name).Nodup →
      (∀ d ∈ synonyms, d.name ∈ declared ∧ d.name ∉ earlier ∧ d.name ∉ d.rhs.conOccs) →
      (∀ d ∈ synonyms, ∀ name ∈ d.rhs.conOccs, name ∈ declared →
        name ∈ earlier ∨ name ∈ synonyms.map SynonymDecl.name) →
      (TypesInOrder declared earlier (synonyms.map .synonym) ↔ SynonymsInOrder synonyms) := by
  induction synonyms with
  | nil => intro _ _ _ _; exact ⟨fun _ => .nil, fun _ => trivial⟩
  | cons d rest ih =>
    intro earlier hnodup hown hmentions
    rw [List.map_cons, List.nodup_cons] at hnodup
    -- the rest comes after this synonym, which is none of them
    have hrest : TypesInOrder declared (earlier ++ [d.name]) (rest.map .synonym) ↔
        SynonymsInOrder rest := by
      refine ih (earlier ++ [d.name]) hnodup.2 (fun b hb => ?_) (fun b hb name hname hdecl => ?_)
      · obtain ⟨hdecl, hearlier, hself⟩ := hown b (List.mem_cons_of_mem _ hb)
        refine ⟨hdecl, fun hmem => ?_, hself⟩
        rcases List.mem_append.mp hmem with h | h
        · exact hearlier h
        · exact hnodup.1 (List.mem_singleton.mp h ▸ List.mem_map_of_mem hb)
      · rcases hmentions b (List.mem_cons_of_mem _ hb) name hname hdecl with h | h
        · exact .inl (List.mem_append.mpr (.inl h))
        · rcases List.mem_cons.mp h with rfl | h
          · exact .inl (List.mem_append.mpr (.inr (by simp)))
          · exact .inr h
    -- a declared type that is neither earlier nor this one is defined by a later synonym
    have hhead :
        (∀ name ∈ d.rhs.conOccs, name ∈ earlier ∨ name ∈ ([] : List Name) ∨ name ∉ declared) ↔
        ∀ b ∈ rest, b.name ∉ d.rhs.conOccs := by
      constructor
      · intro h b hb hmem
        obtain ⟨hdecl, hearlier, _⟩ := hown b (List.mem_cons_of_mem _ hb)
        rcases h b.name hmem with h | h | h
        · exact hearlier h
        · cases h
        · exact h hdecl
      · intro h name hname
        by_cases hdecl : name ∈ declared
        · refine .inl ?_
          rcases hmentions d (by simp) name hname hdecl with h' | h'
          · exact h'
          · rcases List.mem_cons.mp h' with rfl | h'
            · exact absurd hname (hown d (by simp)).2.2
            · obtain ⟨b, hb, rfl⟩ := List.mem_map.mp h'
              exact absurd hname (h b hb)
        · exact .inr (.inr hdecl)
    unfold SynonymsInOrder at hrest ⊢
    rw [List.pairwise_cons]
    exact and_congr hhead hrest

/-! ## Registered synonyms -/

/-- The entry under which a synonym is registered. -/
def SynonymDecl.entry (d : SynonymDecl) : SynonymEntry :=
  { name := d.name, span := d.span, typeParams := d.typeParams.map TypeParam.name, rhs := d.rhs }

namespace Environment

variable {synonyms : List SynonymDecl}

theorem types_foldl_addValue (entries : List ValueEntry) (env : Environment) :
    (entries.foldl addValue env).types = env.types := by
  induction entries generalizing env with
  | nil => rfl
  | cons entry rest ih => rw [List.foldl_cons, ih]; rfl

theorem get?_addSynonyms_of_notMem {name : Name} (h : name ∉ synonyms.map SynonymDecl.name)
    (env : Environment) :
    (synonyms.foldl addSynonym env).types.get? name = env.types.get? name := by
  induction synonyms generalizing env with
  | nil => rfl
  | cons d rest ih =>
    rw [List.map_cons, List.mem_cons, not_or] at h
    rw [List.foldl_cons, ih h.2]
    change (env.types.insert d.name _).get? name = _
    rw [Table.get?_insert, if_neg (Ne.symm h.1)]

/-- A synonym is registered under its name. -/
theorem get?_addSynonyms (hnodup : (synonyms.map SynonymDecl.name).Nodup) (hd : d ∈ synonyms)
    (env : Environment) :
    (synonyms.foldl addSynonym env).types.get? d.name = some (.synonym d.entry) := by
  induction synonyms generalizing env with
  | nil => cases hd
  | cons e rest ih =>
    rw [List.map_cons, List.nodup_cons] at hnodup
    rw [List.foldl_cons]
    rcases List.mem_cons.mp hd with rfl | hd
    · rw [get?_addSynonyms_of_notMem hnodup.1]
      change (env.types.insert d.name _).get? d.name = _
      rw [Table.get?_insert, if_pos rfl]
      rfl
    · exact ih hnodup.2 hd _

/-- The synonyms of an environment are the registered ones. -/
theorem mem_synonyms_iff {syn : SynonymEntry} :
    syn ∈ env.synonyms ↔ env.types.get? syn.name = some (.synonym syn) := by
  rw [← Table.mem_entries_iff]
  unfold synonyms
  rw [List.mem_filterMap]
  constructor
  · rintro ⟨⟨key, entry⟩, hmem, hentry⟩
    cases entry with
    | data e => cases hentry
    | synonym e =>
      obtain rfl : e = syn := by simpa using hentry
      have hname : e.name = key := env.typesNamed _ hmem
      exact hname ▸ hmem
  · intro hmem
    exact ⟨_, hmem, rfl⟩

/-- Once the synonyms of a component are registered, those with their names are exactly they. -/
theorem mem_local_synonyms (hnodup : (synonyms.map SynonymDecl.name).Nodup) {syn : SynonymEntry} :
    syn ∈
      ((synonyms.foldl addSynonym env).synonyms.filter fun syn =>
        synonyms.any (·.name = syn.name)) ↔
      ∃ d ∈ synonyms, syn = d.entry := by
  rw [List.mem_filter, mem_synonyms_iff, List.any_eq_true]
  constructor
  · rintro ⟨hget, d, hd, hname⟩
    rw [← of_decide_eq_true hname, get?_addSynonyms hnodup hd] at hget
    cases hget
    exact ⟨d, hd, rfl⟩
  · rintro ⟨d, hd, rfl⟩
    exact ⟨get?_addSynonyms hnodup hd env, d, hd, by simp [SynonymDecl.entry]⟩

end Environment

/-! ## One component -/

/-- Arranging declarations gives warnings, but changes nothing else. -/
theorem arrangeDecls_eq {α : Type} [Declaration α] {decls : List α} {cs : List (Component α)}
    (h : Dependency.arrangeDecls decls s = (cs, s')) :
    Dependency.components decls = cs ∧ s'.env = s.env := by
  have hwarn : ∀ (names : List Name) (s : Session),
      (((names.forM fun name => Session.warn (.duplicateDeclaration name) : Naming Unit) s).2).env =
        s.env := by
    intro names
    induction names with
    | nil => intro s; rfl
    | cons name rest ih => intro s; exact ih _
  unfold Dependency.arrangeDecls at h
  obtain ⟨u, s₁, hforM, h⟩ := Naming.bind_eq.mp h
  obtain ⟨rfl, rfl⟩ := Naming.pure_eq.mp h
  have henv := hwarn (Dependency.Graph.ofDecls decls).duplicates s
  rw [hforM] at henv
  exact ⟨rfl, henv⟩

namespace TypeGroup

variable {decls : List TypeDecl}

theorem mem_synonymDecls :
    d ∈ synonymDecls decls ↔ TypeDecl.synonym d ∈ decls := by
  unfold synonymDecls
  rw [List.mem_filterMap]
  constructor
  · rintro ⟨e, he, hd⟩
    cases e with
    | data e => cases hd
    | synonym e => obtain rfl : e = d := by simpa using hd
                   exact he
  · intro hd
    exact ⟨_, hd, rfl⟩

theorem mem_dataDecls {d : DataDecl} : d ∈ dataDecls decls ↔ TypeDecl.data d ∈ decls := by
  unfold dataDecls
  rw [List.mem_filterMap]
  constructor
  · rintro ⟨e, he, hd⟩
    cases e with
    | data e => obtain rfl : e = d := by simpa using hd
                exact he
    | synonym e => cases hd
  · intro hd
    exact ⟨_, hd, rfl⟩

/-- Synonyms of a component have different names. -/
theorem nodup_synonymDecls (h : (decls.map TypeDecl.name).Nodup) :
    ((synonymDecls decls).map SynonymDecl.name).Nodup := by
  have hsub : ((synonymDecls decls).map SynonymDecl.name).Sublist (decls.map TypeDecl.name) := by
    induction decls with
    | nil => exact .slnil
    | cons d rest ih =>
      rw [List.map_cons, List.nodup_cons] at h
      cases d with
      | data d => exact (ih h.2).cons _
      | synonym d => exact (ih h.2).cons_cons _
  exact h.sublist hsub

/-- A run of the conversion of a recursive component: the synonyms have no cycle among themselves,
they are registered, expanded in the data types, and defined after them. -/
theorem recursiveToSentences_ok (h : recursiveToSentences decls s = .ok sentences s') :
    (∀ c ∈ Dependency.components ((synonymDecls decls).map TypeDecl.synonym),
      c.isRecursive = false) ∧
      ∃ expanded, expanded = (dataDecls decls).map (expandFields
          (((synonymDecls decls).foldl Environment.addSynonym s.env).expandWhere
            fun name => (synonymDecls decls).any (·.name = name))) ∧
        sentences = .dataTypes expanded :: (synonymDecls decls).map .synonym ∧
        s'.env = expanded.foldl Environment.addData
          ((synonymDecls decls).foldl Environment.addSynonym s.env) := by
  -- none of the checks may have failed: there are data types, and no synonym leads to itself
  have hfail : ∀ {ds : List TypeDecl} {a : Unit} {s₁ s₂ : Session}, ¬ failCycle ds s₁ = .ok a s₂ :=
    fun hcycle => Compile.throw_ok hcycle
  unfold recursiveToSentences at h
  simp only at h
  split at h
  · obtain ⟨_, _, hempty, _⟩ := Compile.bind_ok.mp h
    exact absurd hempty Compile.throw_ok
  split at h
  · obtain ⟨_, _, hcycle, _⟩ := Compile.bind_ok.mp h
    exact absurd hcycle hfail
  · obtain ⟨among, s₁, hamong, h⟩ := Compile.bind_ok.mp h
    obtain ⟨rfl, henv⟩ := arrangeDecls_eq (Compile.lift_ok.mp hamong)
    cases hfind : (Dependency.components ((synonymDecls decls).map TypeDecl.synonym)).find?
        Component.isRecursive with
    | some cycle =>
      rw [hfind] at h
      obtain ⟨_, _, hcycle, _⟩ := Compile.bind_ok.mp h
      exact absurd hcycle hfail
    | none =>
      rw [hfind] at h
      simp only [Compile.bind_ok, Compile.lift_ok, Compile.pure_ok, Session.modifyEnv_eq,
        Session.getEnv_eq] at h
      obtain ⟨_, _, rfl, _, _, ⟨rfl, rfl⟩, _, _, rfl, rfl, rfl⟩ := h
      rw [henv]
      refine ⟨fun c hc => ?_, _, rfl, rfl, rfl⟩
      simpa using List.find?_eq_none.mp hfind c hc

theorem synonymArity_of_mem (h : (decls.map TypeDecl.name).Nodup)
    (hd : TypeDecl.synonym d ∈ decls) :
    synonymArity decls d.name = some d.typeParams.length := by
  have hmem := mem_synonymDecls.mpr hd
  cases hfind : (synonymDecls decls).find? (·.name = d.name) with
  | none => exact absurd (List.find?_eq_none.mp hfind d hmem) (by simp)
  | some e =>
    have hname : e.name = d.name := by simpa using List.find?_some hfind
    have heq :=
      List.inj_on_of_nodup_map (nodup_synonymDecls h) (List.mem_of_find?_eq_some hfind) hmem hname
    rw [synonymArity, hfind, heq, Option.map_some]

/-- **Synonyms are gone from the data types of a recursive component.** What an expanded data type
mentions is no synonym of the component, and some declaration of the component mentions it. -/
theorem mentioned_of_recursive (hall : (all.map TypeDecl.name).Nodup)
    (hsub : ∀ d ∈ decls, d ∈ all) (hnodup : (decls.map TypeDecl.name).Nodup)
    (hsat : ∀ d ∈ all, d.Saturated (synonymArity all))
    (hacyclic : ∀ c ∈ Dependency.components ((synonymDecls decls).map TypeDecl.synonym),
      c.isRecursive = false)
    {name : Name}
    (h : name ∈ (Sentence.dataTypes ((dataDecls decls).map (expandFields
      (((synonymDecls decls).foldl Environment.addSynonym env).expandWhere
        fun name => (synonymDecls decls).any (·.name = name))))).mentionedTypes) :
    name ∉ (synonymDecls decls).map SynonymDecl.name ∧ ∃ d ∈ decls, name ∈ d.references := by
  have hsyn := nodup_synonymDecls hnodup
  generalize havailable : ((synonymDecls decls).foldl Environment.addSynonym env).synonyms.filter
    (fun syn => (synonymDecls decls).any (·.name = syn.name)) = available
  have hlocal : ∀ syn, syn ∈ available ↔ ∃ d ∈ synonymDecls decls, syn = d.entry := by
    rw [← havailable]
    exact fun syn => Environment.mem_local_synonyms hsyn
  have hnamed : ∀ n, synonymNamed? available n ≠ none ↔
      n ∈ (synonymDecls decls).map SynonymDecl.name := by
    intro n
    constructor
    · intro hn
      obtain ⟨syn, hfound⟩ := Option.ne_none_iff_exists'.mp hn
      obtain ⟨hmem, rfl⟩ := synonymNamed?_some hfound
      obtain ⟨d, hd, rfl⟩ := (hlocal syn).mp hmem
      exact List.mem_map_of_mem hd
    · intro hn
      obtain ⟨d, hd, rfl⟩ := List.mem_map.mp hn
      exact synonymNamed?_ne_none ((hlocal d.entry).mpr ⟨d, hd, rfl⟩)
  -- the declarations of the component are saturated with respect to its own synonyms
  have harity : ∀ n k, arityAmong available n = some k → synonymArity all n = some k := by
    intro n k hk
    obtain ⟨syn, hfound, rfl⟩ := Option.map_eq_some_iff.mp hk
    obtain ⟨hmem, rfl⟩ := synonymNamed?_some hfound
    obtain ⟨d, hd, rfl⟩ := (hlocal syn).mp hmem
    rw [show d.entry.name = d.name from rfl,
      synonymArity_of_mem hall (hsub _ (mem_synonymDecls.mp hd))]
    simp [SynonymDecl.entry]
  have hrhs : ∀ syn ∈ available, syn.rhs.Saturated (arityAmong available) 0 := by
    intro syn hmem
    obtain ⟨d, hd, rfl⟩ := (hlocal syn).mp hmem
    exact Ty.Saturated.mono harity (hsat _ (hsub _ (mem_synonymDecls.mp hd)))
  have hdeclared : ((synonymDecls decls).map TypeDecl.synonym).map Declaration.declared
      = (synonymDecls decls).map SynonymDecl.name := List.map_map
  obtain ⟨rank, hbound, hfalls⟩ := Dependency.exists_rank (hdeclared ▸ hsyn) hacyclic
  have hdesc : Descending available rank := by
    intro syn hmem n hn hsome
    obtain ⟨d, hd, rfl⟩ := (hlocal syn).mp hmem
    refine hfalls _ (List.mem_map_of_mem hd) n (List.mem_eraseDups.mpr hn) ?_
    rw [hdeclared]
    exact (hnamed n).mp hsome
  -- a mention stands in an expanded field
  obtain ⟨e, he, hmention⟩ := List.mem_flatMap.mp h
  obtain ⟨d, hd, rfl⟩ := List.mem_map.mp he
  obtain ⟨c', hc', hmention⟩ := List.mem_flatMap.mp hmention
  obtain ⟨c, hc, rfl⟩ := List.mem_map.mp hc'
  obtain ⟨t', ht', hmention⟩ := List.mem_flatMap.mp hmention
  obtain ⟨t, ht, rfl⟩ := List.mem_map.mp ht'
  have hdecl := mem_dataDecls.mp hd
  have htsat : t.Saturated (arityAmong available) 0 :=
    Ty.Saturated.mono harity (hsat _ (hsub _ hdecl) c hc t ht)
  rw [Environment.expandWhere, havailable] at hmention
  obtain ⟨hnone, horigin⟩ :=
    Ty.mem_conOccs_expand hdesc (fun n => Nat.lt_succ_of_le (hbound n)) hrhs htsat hmention
  refine ⟨fun hn => (hnamed name).mpr hn hnone, ?_⟩
  rcases horigin with hfield | ⟨syn, hmem, hin⟩
  · refine ⟨_, hdecl, List.mem_eraseDups.mpr (List.mem_flatMap.mpr ⟨c, hc, ?_⟩)⟩
    exact List.mem_flatMap.mpr ⟨t, ht, hfield⟩
  · obtain ⟨e, he, rfl⟩ := (hlocal syn).mp hmem
    exact ⟨_, mem_synonymDecls.mp he, List.mem_eraseDups.mpr hin⟩

end TypeGroup

/-- The synonyms of a recursive component are in an order that suits them. -/
def Component.SynonymsInOrder : Component TypeDecl → Prop
  | single _ => True
  | recursive decls => StructRec.SynonymsInOrder (TypeGroup.synonymDecls decls)

/-- What the conversion of a component has to do with the order of its sentences. -/
structure ComponentSpec (declared : List Name) (c : Component TypeDecl)
    (sentences : List Sentence) : Prop where
  defined : ∀ name, name ∈ Sentence.definedNamesOfAll sentences ↔ name ∈ c.names
  inOrder : ∀ earlier, (∀ name ∈ c.names, name ∉ earlier) →
    (∀ d ∈ c.decls, ∀ name ∈ d.references, name ∈ declared → name ∈ c.names ∨ name ∈ earlier) →
    (TypesInOrder declared earlier sentences ↔ c.SynonymsInOrder)

namespace TypeGroup

/-- A data type on its own, which may mention itself. -/
theorem single_data_spec (declared : List Name) (d : DataDecl) :
    ComponentSpec declared (.single (.data d)) [.dataTypes [d]] where
  defined _ := Iff.rfl
  inOrder := by
    intro earlier _ hrefs
    refine ⟨fun _ => trivial, fun _ => ⟨fun name hname => ?_, trivial⟩⟩
    by_cases hdecl : name ∈ declared
    · have hname : name ∈ (TypeDecl.data d).references := by
        simpa [Sentence.mentionedTypes, TypeDecl.references] using hname
      rcases hrefs (.data d) (by simp [Component.decls]) name hname hdecl with h | h
      · exact .inr (.inl h)
      · exact .inl h
    · exact .inr (.inr hdecl)

/-- A synonym on its own. -/
theorem single_synonym_spec (hself : d.name ∉ (TypeDecl.synonym d).references) :
    ComponentSpec declared (.single (.synonym d)) [.synonym d] where
  defined _ := Iff.rfl
  inOrder := by
    intro earlier _ hrefs
    refine ⟨fun _ => trivial, fun _ => ⟨fun name hname => ?_, trivial⟩⟩
    by_cases hdecl : name ∈ declared
    · have hname : name ∈ (TypeDecl.synonym d).references := List.mem_eraseDups.mpr hname
      rcases hrefs (.synonym d) (by simp [Component.decls]) name hname hdecl with h | h
      · have hsame : name = d.name := List.mem_singleton.mp h
        exact absurd (hsame ▸ hname) hself
      · exact .inl h
    · exact .inr (.inr hdecl)

/-- Synonyms without a cycle among themselves do not mention themselves. -/
theorem name_notMem_rhs {synonyms : List SynonymDecl}
    (hnodup : (synonyms.map SynonymDecl.name).Nodup)
    (hacyclic : ∀ c ∈ Dependency.components (synonyms.map TypeDecl.synonym), c.isRecursive = false)
    (hd : d ∈ synonyms) : d.name ∉ d.rhs.conOccs := by
  have hdeclared : (synonyms.map TypeDecl.synonym).map Declaration.declared
      = synonyms.map SynonymDecl.name := List.map_map
  obtain ⟨c, hc, hdc⟩ := List.mem_flatMap.mp
    ((Dependency.flatMap_components_perm (synonyms.map TypeDecl.synonym)).mem_iff.mpr
      (List.mem_map_of_mem hd))
  cases c with
  | recursive ds => cases hacyclic _ hc
  | single d' =>
    obtain rfl : TypeDecl.synonym d = d' := by simpa [Component.decls] using hdc
    intro hself
    exact Dependency.declared_notMem_references (hdeclared ▸ hnodup) hc
      (List.mem_eraseDups.mpr hself)

/-- **A recursive component**: the data types come first, then the synonyms. -/
theorem recursive_spec {decls : List TypeDecl} (hall : (all.map TypeDecl.name).Nodup)
    (hsub : ∀ d ∈ decls, d ∈ all) (hnodup : (decls.map TypeDecl.name).Nodup)
    (hsat : ∀ d ∈ all, d.Saturated (synonymArity all))
    (h : recursiveToSentences decls s = .ok sentences s') :
    ComponentSpec (all.map TypeDecl.name) (.recursive decls) sentences := by
  obtain ⟨hacyclic, expanded, hexpanded, rfl, henv'⟩ := recursiveToSentences_ok h
  have hdatas : expanded.map DataDecl.name = (dataDecls decls).map DataDecl.name := by
    rw [hexpanded, List.map_map]
    rfl
  have hsyn := nodup_synonymDecls hnodup
  have hnames : ∀ name, name ∈ decls.map TypeDecl.name ↔
      name ∈ (dataDecls decls).map DataDecl.name ∨
        name ∈ (synonymDecls decls).map SynonymDecl.name := by
    intro name
    simp only [List.mem_map, mem_dataDecls, mem_synonymDecls]
    constructor
    · rintro ⟨d, hd, rfl⟩
      cases d with
      | data d => exact .inl ⟨d, hd, rfl⟩
      | synonym d => exact .inr ⟨d, hd, rfl⟩
    · rintro (⟨d, hd, rfl⟩ | ⟨d, hd, rfl⟩)
      · exact ⟨_, hd, rfl⟩
      · exact ⟨_, hd, rfl⟩
  refine ⟨fun name => ?_, fun earlier hfresh hrefs => ?_⟩
  · rw [Sentence.definedNamesOfAll, definedNamesOfAll_synonyms, Sentence.definedNames, hdatas,
      List.mem_append]
    exact (hnames name).symm
  · -- expanded fields mention no synonym of the component
    have hfirst : ∀ name ∈ (Sentence.dataTypes expanded).mentionedTypes,
        name ∈ earlier ∨ name ∈ (Sentence.dataTypes expanded).ownTypes ∨
          name ∉ all.map TypeDecl.name := by
      intro name hname
      by_cases hdecl : name ∈ all.map TypeDecl.name
      · rw [hexpanded] at hname
        obtain ⟨hnot, d, hd, href⟩ := mentioned_of_recursive hall hsub hnodup hsat hacyclic hname
        rcases hrefs d hd name href hdecl with hown | hearlier
        · refine .inr (.inl ?_)
          rw [Sentence.ownTypes, hdatas]
          exact ((hnames name).mp hown).resolve_right hnot
        · exact .inl hearlier
      · exact .inr (.inr hdecl)
    have hrest := typesInOrder_synonyms (all.map TypeDecl.name) (synonymDecls decls)
      (earlier ++ expanded.map DataDecl.name) hsyn
    refine Iff.trans (and_iff_right hfirst)
      (hrest (fun d hd => ⟨?_, ?_, ?_⟩) fun d hd name hname hdecl => ?_)
    · exact List.mem_map_of_mem (hsub _ (mem_synonymDecls.mp hd))
    · -- a synonym's name is not that of a data type of the component
      rw [hdatas, List.mem_append, not_or]
      refine ⟨hfresh _ (List.mem_map_of_mem (mem_synonymDecls.mp hd)), fun hmem => ?_⟩
      obtain ⟨e, he, hname⟩ := List.mem_map.mp hmem
      have := List.inj_on_of_nodup_map hnodup (mem_dataDecls.mp he) (mem_synonymDecls.mp hd) hname
      cases this
    · exact name_notMem_rhs hsyn hacyclic hd
    · rw [hdatas, List.mem_append]
      rcases hrefs _ (mem_synonymDecls.mp hd) name (List.mem_eraseDups.mpr hname) hdecl with
        hown | hearlier
      · rcases (hnames name).mp hown with h | h
        · exact .inl (.inr h)
        · exact .inr h
      · exact .inl (.inl hearlier)

/-- A run of the conversion of a component. -/
theorem toSentences_spec (hall : (all.map TypeDecl.name).Nodup)
    (hsat : ∀ d ∈ all, d.Saturated (synonymArity all)) {c : Component TypeDecl}
    (hc : c ∈ Dependency.components all) (h : toSentences c s = .ok sentences s') :
    ComponentSpec (all.map TypeDecl.name) c sentences := by
  have hsub : ∀ d ∈ c.decls, d ∈ all := fun d hd => Dependency.mem_of_mem_components hc hd
  cases c with
  | single d =>
    cases d with
    | data d =>
      unfold toSentences at h
      simp only [Compile.bind_ok, Compile.lift_ok, Compile.pure_ok, Session.modifyEnv_eq] at h
      obtain ⟨_, _, rfl, rfl, rfl⟩ := h
      exact single_data_spec _ d
    | synonym d =>
      unfold toSentences at h
      simp only [Compile.bind_ok, Compile.lift_ok, Compile.pure_ok, Session.modifyEnv_eq] at h
      obtain ⟨_, _, rfl, rfl, rfl⟩ := h
      exact single_synonym_spec (Dependency.declared_notMem_references hall hc)
  | recursive decls =>
    have hnodup : (decls.map TypeDecl.name).Nodup :=
      Dependency.nodup_names_of_mem_components hall hc
    exact recursive_spec hall hsub hnodup hsat h

end TypeGroup

/-! ## All components -/

/-- **A run over components** puts the types in order if each component does. -/
theorem Converted.typesInOrder (hall : (all.map TypeDecl.name).Nodup)
    (hsat : ∀ d ∈ all, d.Saturated (synonymArity all)) {comps : List (Component TypeDecl)}
    (h : Converted TypeGroup.toSentences comps s sentences s') :
    ∀ pre, Dependency.components all = pre ++ comps →
      (TypesInOrder (all.map TypeDecl.name) (pre.flatMap Component.names) sentences ↔
        ∀ c ∈ comps, c.SynonymsInOrder) := by
  induction h with
  | nil s =>
    intro _ _
    exact ⟨fun _ => by simp, fun _ => trivial⟩
  | @cons c rest s s₁ s' sentences later hconvert hrest ih =>
    intro pre hsplit
    have hc : c ∈ Dependency.components all := by rw [hsplit]; simp
    have hspec := TypeGroup.toSentences_spec hall hsat hc hconvert
    have hnames := (Dependency.flatMap_names_perm all).nodup_iff.mpr hall
    have hfirst : TypesInOrder (all.map TypeDecl.name) (pre.flatMap Component.names) sentences ↔
        c.SynonymsInOrder := by
      refine hspec.inOrder _ (fun name hname hbefore => ?_) fun d hd name hname hdecl => ?_
      · rw [hsplit, List.flatMap_append, List.flatMap_cons] at hnames
        exact List.disjoint_of_nodup_append hnames hbefore (List.mem_append.mpr (.inl hname))
      · exact Dependency.components_earlier hsplit hd hname hdecl
    -- later components see the types of this one as earlier ones
    have hlater : TypesInOrder (all.map TypeDecl.name)
        (pre.flatMap Component.names ++ Sentence.definedNamesOfAll sentences) later ↔
          ∀ c ∈ rest, c.SynonymsInOrder := by
      rw [← ih (pre ++ [c]) (by simpa using hsplit)]
      refine TypesInOrder.congr (fun name => ?_) later
      simp [hspec.defined name]
    rw [typesInOrder_append, hfirst, hlater, List.forall_mem_cons]

/-- **When type sentences are in dependency order.** Type components that convert without error give
sentences that define every type before it is mentioned exactly if no synonym of a recursive
component mentions one that is declared after it in the same component. -/
theorem typesInOrder_iff (m : Module) (hnames : (m.typeDecls.map TypeDecl.name).Nodup)
    (hsat : ∀ d ∈ m.typeDecls, d.Saturated (synonymArity m.typeDecls)) (keepGoing : Bool)
    (s s' : Session)
    (conversion : Conversion)
    (h : convertComponents keepGoing TypeGroup.toSentences (Dependency.components m.typeDecls) s
      = .ok conversion s')
    (herrors : conversion.errors = []) :
    TypesInOrder (m.typeDecls.map TypeDecl.name) [] conversion.sentences ↔
      ∀ decls, Component.recursive decls ∈ Dependency.components m.typeDecls →
        SynonymsInOrder (TypeGroup.synonymDecls decls) := by
  have hconverted := converted_of_no_errors h herrors
  have hiff := hconverted.typesInOrder hnames hsat [] (by simp)
  rw [List.flatMap_nil] at hiff
  rw [hiff]
  constructor
  · intro hall decls hmem
    exact hall _ hmem
  · intro hall c hc
    cases c with
    -- a synonym on its own is always in order
    | single d => trivial
    | recursive decls => exact hall decls hc

/-- `type A = B`, `type B = T` and `data T = MkT A`: a recursive component whose synonyms form a
chain that is declared from its end. -/
def chainedSynonyms : Module where
  name := "Chained"
  typeDecls := [.synonym { name := "A", typeParams := [], rhs := .con "B" },
    .synonym { name := "B", typeParams := [], rhs := .con "T" },
    .data
      { name := "T", typeParams := [], constructors := [{ name := "MkT", fields := [.con "A"] }] }]

/-- The chain is converted without error, but `A` is defined before the `B` that it mentions. -/
theorem chainedSynonyms_out_of_order :
    ∃ conversion s', convertComponents false TypeGroup.toSentences
        (Dependency.components chainedSynonyms.typeDecls) {} = .ok conversion s' ∧
      conversion.errors = [] ∧
      conversion.sentences.tail = [.synonym { name := "A", typeParams := [], rhs := .con "B" },
        .synonym { name := "B", typeParams := [], rhs := .con "T" }] ∧
      ¬ TypesInOrder (chainedSynonyms.typeDecls.map TypeDecl.name) [] conversion.sentences := by
  refine ⟨_, _, rfl, rfl, rfl, fun hordered => ?_⟩
  have hsat : ∀ d ∈ chainedSynonyms.typeDecls,
      d.Saturated (synonymArity chainedSynonyms.typeDecls) := by
    simp [chainedSynonyms, TypeDecl.Saturated, Ty.Saturated, synonymArity, TypeGroup.synonymDecls]
  have hinOrder := (typesInOrder_iff chainedSynonyms (by decide) hsat false {} _ _
    rfl rfl).mp hordered
  have hpairs := hinOrder chainedSynonyms.typeDecls (List.mem_singleton.mpr rfl)
  exact List.rel_of_pairwise_cons hpairs (List.mem_singleton.mpr rfl) (List.mem_singleton.mpr rfl)

end StructRec
