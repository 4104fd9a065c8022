import StructRec.Proofs.TypeOrder

/-!
# StructRec — cycles of type synonyms

Types may refer to each other through data types in any way. Synonyms that mention each other in a
cycle, without a data type in between, have no meaning, and they are the only declarations of types
that cannot be converted (`convertTypes_cycle_iff`).

Such a cycle may be hidden in a component that also holds data types. So two graphs are involved:
the one of all declarations and, for each component, the one of its synonyms.

* **`exists_cycle`** — the declarations of a recursive component mention each other in a cycle;
* **`exists_recursive_of_cycle`** — a cycle does not leave its component;
* **`recursiveToSentences_ends`** — so a component fails exactly for the cycles of its own synonyms.
-/

namespace StructRec

variable {β : Type}

open Relation

/-! ## Cycles of declarations -/

/-- The steps of a cycle lead from and to what `a` reaches and is reached from. -/
theorem transGen_linked {r : β → β → Prop} {a : β} (h : TransGen r a a) :
    TransGen
      (fun x y => r x y ∧ (ReflTransGen r a x ∧ ReflTransGen r x a) ∧ ReflTransGen r a y ∧
        ReflTransGen r y a)
      a a := by
  have hpath : ∀ {b}, ReflTransGen r a b → ReflTransGen r b a → ReflTransGen (fun x y => r x y ∧
      (ReflTransGen r a x ∧ ReflTransGen r x a) ∧ ReflTransGen r a y ∧ ReflTransGen r y a) a b := by
    intro b hab
    induction hab with
    | refl => exact fun _ => .refl
    | tail hac hcb ih =>
      intro hba
      have hca := hba.head hcb
      exact (ih hca).tail ⟨hcb, ⟨hac, hca⟩, hac.tail hcb, hba⟩
  obtain ⟨b, hab, hba⟩ := TransGen.tail'_iff.mp h
  exact .tail' (hpath hab (.single hba)) ⟨hba, ⟨hab, .single hba⟩, .refl, .refl⟩

/-- A path is followed step by step between what its points stand for. -/
theorem transGen_followed {γ : Type} {r : β → β → Prop} {q : γ → γ → Prop} {stands : β → γ → Prop}
    (hstep : ∀ x y a, r x y → stands x a → ∃ b, stands y b ∧ q a b) {x y : β} (h : TransGen r x y)
    {a : γ} (ha : stands x a) :
    ∃ b, stands y b ∧ TransGen q a b := by
  induction h with
  | single hxy =>
    obtain ⟨b, hb, hab⟩ := hstep _ _ _ hxy ha
    exact ⟨b, hb, .single hab⟩
  | tail _ hyz ih =>
    obtain ⟨b, hb, hab⟩ := ih
    obtain ⟨c, hc, hbc⟩ := hstep _ _ _ hyz hb
    exact ⟨c, hc, hab.tail hbc⟩

namespace Dependency

variable {α : Type} [Declaration α] {decls group : List α} {d e : α}

/-- One of some declarations mentions the name of another. -/
def Mentions (decls : List α) (d e : α) : Prop :=
  d ∈ decls ∧ e ∈ decls ∧ Declaration.declared e ∈ Declaration.references d

/-- The declarations of a recursive component mention each other in a cycle. -/
theorem exists_cycle (h : Component.recursive group ∈ components decls) :
    ∃ d, TransGen (Mentions group) d d := by
  obtain ⟨a, ha⟩ := List.mem_iff_getElem?.mp h
  obtain ⟨members, hmembers, hclass⟩ := exists_class ha
  have harr := isArrangement_order decls
  have hmem := List.mem_of_getElem? hmembers
  -- one position of the class leads back to itself
  obtain ⟨i, hi, hcycle⟩ : ∃ i ∈ members, TransGen (Refers decls) i i := by
    rcases hclass.recursive_iff.mp rfl with hlength | ⟨i, rfl, hself⟩
    · obtain ⟨i, hi⟩ := List.exists_mem_of_ne_nil _ (harr.nonempty members hmem)
      obtain ⟨k, hk, hne⟩ := exists_other (harr.ascending members hmem) hlength i
      obtain ⟨hik, hki⟩ := (harr.linked members hmem i hi k).mp hk
      rcases reflTransGen_iff_eq_or_transGen.mp hik with heq | hik
      · exact absurd heq hne
      · exact ⟨i, hi, hik.trans_left hki⟩
    · exact ⟨i, List.mem_singleton.mpr rfl, .single hself⟩
  -- so do the declarations, and all of them are in the component
  have hstep : ∀ x y d, Refers decls x y ∧ (Leads decls i x ∧ Leads decls x i) ∧ Leads decls i y ∧
      Leads decls y i → decls[x]? = some d → ∃ e, decls[y]? = some e ∧ Mentions group d e := by
    rintro x y d ⟨⟨d', e, hd', he, hmention, _⟩, hx, hy⟩ hd
    obtain rfl := Option.some.inj (hd'.symm.trans hd)
    refine ⟨e, he, hclass.mem_decls.mpr ⟨x, ?_, hd⟩, hclass.mem_decls.mpr ⟨y, ?_, he⟩, hmention⟩
    · exact (harr.linked members hmem i hi x).mpr hx
    · exact (harr.linked members hmem i hi y).mpr hy
  have hlt := harr.lt_length hmem hi
  obtain ⟨e, he, hpath⟩ :=
    transGen_followed hstep (transGen_linked hcycle) (List.getElem?_eq_getElem hlt)
  obtain rfl := Option.some.inj ((List.getElem?_eq_getElem hlt).symm.trans he)
  exact ⟨_, hpath⟩

/-- Where names are declared once, mentions are references from position to position. -/
theorem leads_of_mentions (hnodup : (decls.map Declaration.declared).Nodup)
    (h : ReflTransGen (Mentions decls) d e) {i j : Nat} (hd : decls[i]? = some d)
    (he : decls[j]? = some e) :
    Leads decls i j := by
  have hposition : ∀ {i j : Nat} {d e : α}, decls[i]? = some d → decls[j]? = some e →
      Declaration.declared d = Declaration.declared e → i = j := by
    intro i j d e hd he heq
    have hi : i < (decls.map Declaration.declared).length := by
      simpa using (List.getElem?_eq_some_iff.mp hd).1
    refine (List.getElem?_inj hi hnodup).mp ?_
    rw [List.getElem?_map, List.getElem?_map, hd, he, Option.map_some, Option.map_some, heq]
  induction h generalizing j with
  | refl => exact hposition hd he rfl ▸ ReflTransGen.refl
  | tail _ hce ih =>
    obtain ⟨hc, _, hmention⟩ := hce
    obtain ⟨k, hk⟩ := List.mem_iff_getElem?.mp hc
    refine (ih hk).tail ⟨_, _, hk, he, hmention, fun k' hk' e' he' heq => ?_⟩
    exact Nat.ne_of_lt hk' (hposition he' he heq)

/-- **A cycle does not leave its component**, which therefore is recursive. -/
theorem exists_recursive_of_cycle {f : β → α} {r : β → β → Prop} {b : β}
    (hnodup : (decls.map Declaration.declared).Nodup)
    (hr : ∀ x y, r x y → Mentions decls (f x) (f y)) (h : TransGen r b b) :
    ∃ group, Component.recursive group ∈ components decls ∧
      TransGen (fun x y => r x y ∧ f x ∈ group ∧ f y ∈ group) b b := by
  obtain ⟨b', hb, _⟩ := TransGen.head'_iff.mp h
  obtain ⟨c, hc, hbc⟩ :=
    List.mem_flatMap.mp ((flatMap_components_perm decls).mem_iff.mpr (hr _ _ hb).1)
  obtain ⟨a, ha⟩ := List.mem_iff_getElem?.mp hc
  obtain ⟨members, hmembers, hclass⟩ := exists_class ha
  have harr := isArrangement_order decls
  have hmem := List.mem_of_getElem? hmembers
  obtain ⟨i, hi, hbi⟩ := hclass.mem_decls.mp hbc
  have hinside : ∀ {x}, f x ∈ decls → ReflTransGen r b x ∧ ReflTransGen r x b → f x ∈ c.decls := by
    intro x hx hlinked
    obtain ⟨j, hj⟩ := List.mem_iff_getElem?.mp hx
    refine hclass.mem_decls.mpr ⟨j, (harr.linked members hmem i hi j).mpr ⟨?_, ?_⟩, hj⟩
    · exact leads_of_mentions hnodup (hlinked.1.lift f hr) hbi hj
    · exact leads_of_mentions hnodup (hlinked.2.lift f hr) hj hbi
  have hcycle : TransGen (fun x y => r x y ∧ f x ∈ c.decls ∧ f y ∈ c.decls) b b := by
    refine (transGen_linked h).lift id fun x y hstep => ?_
    obtain ⟨hxy, hx, hy⟩ := hstep
    exact ⟨hxy, hinside (hr x y hxy).1 hx, hinside (hr x y hxy).2.1 hy⟩
  cases c with
  | single d =>
    -- the cycle would be of one declaration, which would mention itself
    obtain ⟨y, ⟨hxy, hx, hy⟩, _⟩ := TransGen.head'_iff.mp hcycle
    obtain ⟨_, _, hmention⟩ := hr _ _ hxy
    rw [List.mem_singleton.mp hx, List.mem_singleton.mp hy] at hmention
    exact absurd hmention (declared_notMem_references hnodup hc)
  | recursive group => exact ⟨group, hc, hcycle⟩

end Dependency

/-! ## Cycles of synonyms -/

/-- One of the declared synonyms mentions another in its right-hand side. -/
def SynonymMentions (decls : List TypeDecl) (a b : SynonymDecl) : Prop :=
  TypeDecl.synonym a ∈ decls ∧ TypeDecl.synonym b ∈ decls ∧ b.name ∈ a.rhs.conOccs

/-- Some synonyms mention each other in a cycle: each mentions the next one, with no data type in
between. -/
def HasSynonymCycle (decls : List TypeDecl) : Prop := ∃ d, TransGen (SynonymMentions decls) d d

theorem SynonymMentions.mentions {decls : List TypeDecl} {a b : SynonymDecl}
    (h : SynonymMentions decls a b) : Dependency.Mentions decls (.synonym a) (.synonym b) :=
  ⟨h.1, h.2.1, List.mem_eraseDups.mpr h.2.2⟩

namespace TypeGroup

variable {decls : List TypeDecl}

/-- A recursive component without data types has a cycle of synonyms. -/
theorem hasSynonymCycle_of_recursive {all group : List TypeDecl}
    (h : Component.recursive group ∈ Dependency.components decls) (hsub : ∀ d ∈ group, d ∈ all)
    (hdatas : dataDecls group = []) : HasSynonymCycle all := by
  have hsynonym : ∀ x ∈ group, ∃ a, x = TypeDecl.synonym a := by
    intro x hx
    cases x with
    | data d =>
      have hmem := mem_dataDecls.mpr hx
      rw [hdatas] at hmem
      cases hmem
    | synonym a => exact ⟨a, rfl⟩
  -- mentions within the component are mentions between synonyms
  have hstep : ∀ x y a, Dependency.Mentions group x y → x = TypeDecl.synonym a →
      ∃ b, y = TypeDecl.synonym b ∧ SynonymMentions all a b := by
    rintro x y a ⟨hx, hy, hmention⟩ rfl
    obtain ⟨b, rfl⟩ := hsynonym y hy
    exact ⟨b, rfl, hsub _ hx, hsub _ hy, List.mem_eraseDups.mp hmention⟩
  obtain ⟨d, hcycle⟩ := Dependency.exists_cycle h
  obtain ⟨_, ⟨hd, _, _⟩, _⟩ := TransGen.head'_iff.mp hcycle
  obtain ⟨a, rfl⟩ := hsynonym d hd
  obtain ⟨b, heq, hpath⟩ := transGen_followed hstep hcycle rfl
  obtain rfl := TypeDecl.synonym.inj heq
  exact ⟨a, hpath⟩

/-- No synonyms of a recursive component mention each other in a cycle. -/
def Untangled (c : Component TypeDecl) : Prop :=
  ∀ group, c = .recursive group →
    ∀ c' ∈ Dependency.components ((synonymDecls group).map TypeDecl.synonym), c'.isRecursive = false

/-- A cycle of synonyms tangles the component that it is in. -/
theorem not_untangled_of_cycle (hnames : (decls.map TypeDecl.name).Nodup)
    (h : HasSynonymCycle decls) : ∃ c ∈ Dependency.components decls, ¬ Untangled c := by
  obtain ⟨d, hcycle⟩ := h
  obtain ⟨group, hgroup, hcycle⟩ := Dependency.exists_recursive_of_cycle hnames
    (fun _ _ hstep => SynonymMentions.mentions hstep) hcycle
  refine ⟨_, hgroup, fun huntangled => ?_⟩
  have hdeclared : ((synonymDecls group).map TypeDecl.synonym).map Declaration.declared
      = (synonymDecls group).map SynonymDecl.name := List.map_map
  have hnodup := nodup_synonymDecls (Dependency.nodup_names_of_mem_components hnames hgroup)
  -- synonyms without a cycle among them have ranks that fall along mentions, but not around a cycle
  obtain ⟨rank, _, hfalls⟩ := Dependency.exists_rank (hdeclared ▸ hnodup) (huntangled group rfl)
  have hfall : ∀ {b}, TransGen
      (fun x y => SynonymMentions decls x y ∧ .synonym x ∈ group ∧ .synonym y ∈ group) d b →
      rank b.name < rank d.name := by
    intro b hdb
    have hstep : ∀ {x y}, SynonymMentions decls x y ∧ TypeDecl.synonym x ∈ group ∧
        TypeDecl.synonym y ∈ group → rank y.name < rank x.name := by
      rintro x y ⟨hmention, hx, hy⟩
      refine hfalls _ (List.mem_map_of_mem (mem_synonymDecls.mpr hx)) y.name
        hmention.mentions.2.2 ?_
      rw [hdeclared]
      exact List.mem_map_of_mem (mem_synonymDecls.mpr hy)
    induction hdb with
    | single h => exact hstep h
    | tail _ h ih => exact (hstep h).trans ih
  exact Nat.lt_irrefl _ (hfall hcycle)

/-- **A recursive component** is converted if its synonyms are untangled. Otherwise it fails for a
cycle of synonyms. -/
theorem recursiveToSentences_ends {group : List TypeDecl}
    (h : Component.recursive group ∈ Dependency.components decls) (s : Session) :
    (recursiveToSentences group).Ends s (fun _ _ => Untangled (.recursive group))
      fun failure =>
        ∃ d, failure = .error d ∧ d.kind = .typeSynonymCycle ∧ HasSynonymCycle decls := by
  have hsub : ∀ d ∈ group, d ∈ decls := fun d hd => Dependency.mem_of_mem_components h hd
  unfold recursiveToSentences
  split
  next hempty => exact absurd (List.isEmpty_iff.mp hempty) (Dependency.ne_nil_of_recursive h)
  next =>
    dsimp only
    split
    -- a component of synonyms only is a cycle of synonyms
    next hdatas =>
      exact .throw_bind
        ⟨_, rfl, rfl, hasSynonymCycle_of_recursive h hsub (List.isEmpty_iff.mp hdatas)⟩
    next =>
      refine .lift_bind fun amongSynonyms s₁ hamong => ?_
      obtain ⟨rfl, _⟩ := arrangeDecls_eq hamong
      split
      -- the synonyms of a component with data types may still lead to each other
      next cycle hfind =>
        refine .throw_bind ⟨_, rfl, rfl, ?_⟩
        have hcycle := List.mem_of_find?_eq_some hfind
        have hsynonyms : ∀ d ∈ cycle.decls,
            d ∈ (synonymDecls group).map TypeDecl.synonym := fun d hd =>
          Dependency.mem_of_mem_components hcycle hd
        cases cycle with
        | single d => cases List.find?_some hfind
        | recursive cycle =>
          refine hasSynonymCycle_of_recursive hcycle (fun d hd => ?_) ?_
          · obtain ⟨a, ha, rfl⟩ := List.mem_map.mp (hsynonyms d hd)
            exact hsub _ (mem_synonymDecls.mp ha)
          · refine List.eq_nil_iff_forall_not_mem.mpr fun d hd => ?_
            obtain ⟨a, _, heq⟩ := List.mem_map.mp (hsynonyms _ (mem_dataDecls.mp hd))
            cases heq
      next hfind =>
        refine .lift_bind fun _ s₂ _ => .lift_bind fun _ s₃ _ => .lift_bind fun _ s₄ _ =>
          .pure fun group' heq c hc => ?_
        obtain rfl := Component.recursive.inj heq
        simpa using List.find?_eq_none.mp
          (Option.eq_none_iff_forall_ne_some.mpr fun cycle heq => hfind cycle heq) c hc

/-- **A component** is untangled, or the failure reports a cycle of synonyms. -/
theorem toSentences_ends {c : Component TypeDecl} (hc : c ∈ Dependency.components decls)
    (s : Session) :
    (toSentences c).Ends s (fun _ _ => Untangled c)
      fun failure =>
        ∃ d, failure = .error d ∧ d.kind = .typeSynonymCycle ∧ HasSynonymCycle decls := by
  cases c with
  | single d =>
    have hsingle : Untangled (.single d) := fun group heq => by cases heq
    cases d with
    | data d => exact .lift_bind fun _ s₁ _ => .pure hsingle
    | synonym d => exact .lift_bind fun _ s₁ _ => .pure hsingle
  | recursive group => exact recursiveToSentences_ends hc s

end TypeGroup

/-- In strict mode a conversion ends with the first failure, or all components are converted. -/
theorem convertComponents_strict {α : Type} [Declaration α]
    {convert : Component α → Compile (List Sentence)} {components : List (Component α)}
    {P : Component α → Prop} {Q : Failure → Prop}
    (h : ∀ c ∈ components, ∀ s, (convert c).Ends s (fun _ _ => P c) Q) (s : Session) :
    (convertComponents false convert components).Ends s
      (fun conversion _ => conversion.errors = [] ∧ ∀ c ∈ components, P c) Q := by
  induction components generalizing s with
  | nil => exact .pure ⟨rfl, List.forall_mem_nil _⟩
  | cons c rest ih =>
    rw [List.forall_mem_cons] at h
    refine (h.1 s).attempt_transaction.bind fun result s₁ hresult => ?_
    rcases hresult with ⟨sentences, rfl, hc⟩ | ⟨d, rfl, hd, _⟩
    · exact (ih h.2 s₁).bind fun later s₂ hlater =>
        .pure ⟨hlater.1, List.forall_mem_cons.mpr ⟨hc, hlater.2⟩⟩
    · exact .throw_bind hd

/-- **Cycles of synonyms are detected exactly.** Converting the components of type declarations in
strict mode fails with the error of a synonym cycle if some synonyms mention each other in a cycle.
In all other cases it succeeds. -/
theorem convertTypes_cycle_iff (decls : List TypeDecl) (hnames : (decls.map TypeDecl.name).Nodup)
    (s : Session) :
    ((∃ d s', convertComponents false TypeGroup.toSentences (Dependency.components decls) s =
      .error (.error d) s' ∧
        d.kind = .typeSynonymCycle) ↔ HasSynonymCycle decls) ∧
      (¬ HasSynonymCycle decls → ∃ conversion s',
        convertComponents false TypeGroup.toSentences (Dependency.components decls) s =
          .ok conversion s' ∧
          conversion.errors = []) := by
  have hcomponents : ∀ c ∈ Dependency.components decls, ∀ s, (TypeGroup.toSentences c).Ends s
      (fun _ _ => TypeGroup.Untangled c)
      fun failure => ∃ d, failure = .error d ∧ d.kind = .typeSynonymCycle ∧ HasSynonymCycle decls :=
    fun _ hc => TypeGroup.toSentences_ends hc
  have hends := convertComponents_strict hcomponents s
  cases hrun : convertComponents false TypeGroup.toSentences (Dependency.components decls) s with
  | ok conversion s' =>
    obtain ⟨herrors, huntangled⟩ := hends.ok hrun
    -- a cycle would have left a component that is not untangled
    have hacyclic : ¬ HasSynonymCycle decls := by
      intro hcycle
      obtain ⟨c, hc, htangled⟩ := TypeGroup.not_untangled_of_cycle hnames hcycle
      exact htangled (huntangled c hc)
    refine ⟨iff_of_false ?_ hacyclic, fun _ => ⟨conversion, s', rfl, herrors⟩⟩
    rintro ⟨d, s', heq, _⟩
    cases heq
  | error failure s' =>
    obtain ⟨d, rfl, hkind, hcycle⟩ := hends.error hrun
    exact ⟨iff_of_true ⟨d, s', rfl, hkind⟩ hcycle, fun hacyclic => absurd hcycle hacyclic⟩

/-- `type A = Pair B T`, `type B = List A` and `data T = MkT A`: a component that is recursive
through a data type, and that hides a cycle of its synonyms. -/
def hiddenCycle : List TypeDecl :=
  [.synonym
    { name := "A", typeParams := [], rhs := .app (.app (.con "Pair") (.con "B")) (.con "T") },
    .synonym { name := "B", typeParams := [], rhs := .app (.con "List") (.con "A") },
    .data
      { name := "T", typeParams := [], constructors := [{ name := "MkT", fields := [.con "A"] }] }]

/-- The data type in the component does not hide the cycle. -/
theorem hiddenCycle_detected :
    (hiddenCycle.map TypeDecl.name).Nodup ∧
      (∃ group, Dependency.components hiddenCycle = [.recursive group]) ∧
      ∃ d s', convertComponents false TypeGroup.toSentences (Dependency.components hiddenCycle) {} =
        .error (.error d) s' ∧
        d.kind = .typeSynonymCycle := by
  have hnames : (hiddenCycle.map TypeDecl.name).Nodup := by decide
  have hcycle : HasSynonymCycle hiddenCycle := by
    let a : SynonymDecl :=
      { name := "A", typeParams := [], rhs := .app (.app (.con "Pair") (.con "B")) (.con "T") }
    let b : SynonymDecl := { name := "B", typeParams := [], rhs := .app (.con "List") (.con "A") }
    have hab : SynonymMentions hiddenCycle a b := ⟨by decide, by decide, by decide⟩
    have hba : SynonymMentions hiddenCycle b a := ⟨by decide, by decide, by decide⟩
    exact ⟨a, .tail (.single hab) hba⟩
  exact ⟨hnames, ⟨_, rfl⟩, (convertTypes_cycle_iff hiddenCycle hnames {}).1.mpr hcycle⟩

end StructRec
