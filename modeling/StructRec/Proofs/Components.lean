import StructRec.Proofs.Emission

/-!
# StructRec — components are the strongly connected ones, in dependency order

`Dependency.components` is described by the positions of the declarations.
`IsArrangement decls classes` says what classes of positions must be to arrange the declarations,
and `IsComponentOf` what a component must be for a class.

* **`isArrangement_order`** — emitted classes arrange the declarations, because each is ready when
  its turn comes.
* **`components_strongly_connected`** — so the components are those of an arrangement.
-/

namespace StructRec.Dependency

open Relation

variable {α : Type} [Declaration α] {decls : List α} {members : List Nat} {c : Component α} {d : α}

/-- Classes of positions that arrange declarations by their dependencies. -/
structure IsArrangement (decls : List α) (classes : List (List Nat)) : Prop where
  /-- Every position is in exactly one class. -/
  partition : classes.flatten.Perm (List.range decls.length)
  nonempty : ∀ members ∈ classes, members ≠ []
  /-- Within a class, positions are in list order. -/
  ascending : ∀ members ∈ classes, members.Pairwise (· < ·)
  /-- The class of a position holds what it leads to and what leads back to it. -/
  linked : ∀ members ∈ classes, ∀ i ∈ members, ∀ j,
    j ∈ members ↔ Leads decls i j ∧ Leads decls j i
  /-- References lead to the same class or to an earlier one. -/
  earlier : ∀ (a : Nat) members, classes[a]? = some members → ∀ i ∈ members, ∀ j, Refers decls i j →
    ∃ b ≤ a, ∃ members', classes[b]? = some members' ∧ j ∈ members'

/-- A component holds the declarations of a class in order. It is recursive if the class has several
members, or one that refers to itself. -/
structure IsComponentOf (decls : List α) (c : Component α) (members : List Nat) : Prop where
  decls_eq : c.decls.map some = members.map (decls[·]?)
  recursive_iff : c.isRecursive = true ↔ 1 < members.length ∨ ∃ i, members = [i] ∧ Refers decls i i

theorem IsArrangement.lt_length {classes : List (List Nat)} (h : IsArrangement decls classes)
    (hmem : members ∈ classes) {i : Nat} (hi : i ∈ members) : i < decls.length :=
  List.mem_range.mp (h.partition.mem_iff.mp (List.mem_flatten.mpr ⟨members, hmem, hi⟩))

/-! ## The order of the classes -/

namespace Graph

variable {g : Graph}

/-- In a greedy order, edges lead to what was listed before, to the same class or to an earlier
one. -/
theorem GreedyFrom.earlier {listed : List Nat} {cs : List (List Nat)} (h : g.GreedyFrom listed cs) :
    ∀ (a : Nat) members, cs[a]? = some members → ∀ i ∈ members, ∀ j, g.hasEdge i j = true →
      j ∈ listed ∨ ∃ b ≤ a, ∃ members', cs[b]? = some members' ∧ j ∈ members' := by
  induction cs generalizing listed with
  | nil => intro a members ha; cases ha
  | cons c rest ih =>
    intro a members ha i hi j hedge
    cases a with
    | zero =>
      obtain rfl : c = members := by simpa using ha
      rcases h.1 i hi j hedge with hj | hj
      · exact .inr ⟨0, Nat.le_refl _, c, rfl, hj⟩
      · exact .inl hj
    | succ a =>
      -- what is listed for the rest is listed before or in the first class
      rcases ih h.2.2 a members (by simpa using ha) i hi j hedge with
        hj | ⟨b, hb, members', hb', hj⟩
      · rcases List.mem_append.mp hj with hj | hj
        · exact .inl hj
        · exact .inr ⟨0, Nat.zero_le _, c, rfl, hj⟩
      · exact .inr ⟨b + 1, Nat.succ_le_succ hb, members', by simpa using hb', hj⟩

/-- The classes of the graph are one listing of themselves. -/
theorem map_ascending_classes (g : Graph) : g.classes.map ascending = g.classes := by
  refine (List.map_congr_left fun members hmem => ?_).trans (List.map_id' _)
  obtain ⟨hmem', hascending⟩ := ascending_spec members
  exact eq_of_ascending hascending (ascending_of_mem_classes hmem) hmem'

theorem order_spec (hg : g.Bounded) : g.order.Perm g.classes ∧ g.GreedyFrom [] g.order :=
  emit_spec hg (by rw [map_ascending_classes])

end Graph

/-! ## Components -/

/-- Emitted classes arrange the declarations. -/
theorem isArrangement_order (decls : List α) : IsArrangement decls (Graph.ofDecls decls).order := by
  have hg := Graph.bounded_ofDecls decls
  obtain ⟨hperm, hgreedy⟩ := Graph.order_spec hg
  constructor
  · refine hperm.flatten.trans ?_
    simpa using Graph.flatten_classes hg
  · intro members hmem
    exact Graph.nonempty_of_mem_classes (hperm.mem_iff.mp hmem)
  · intro members hmem
    exact Graph.ascending_of_mem_classes (hperm.mem_iff.mp hmem)
  · intro members hmem i hi j
    obtain ⟨hlt, rfl⟩ := Graph.classes_eq_classAt hg (hperm.mem_iff.mp hmem) hi
    rw [Graph.mem_classAt hg hlt, ← Graph.reaches_ofDecls]
    exact ⟨fun h => h.2, fun h => ⟨Graph.reaches_lt hg hlt h.1, h⟩⟩
  · intro a members ha i hi j hrefers
    have hedge := Graph.hasEdge_ofDecls.mpr hrefers
    exact (hgreedy.earlier a members ha i hi j hedge).resolve_left List.not_mem_nil

theorem components_eq (decls : List α) : components decls =
    (Graph.ofDecls decls).order.map (componentAt (Graph.ofDecls decls) decls) := rfl

/-- The declarations at positions of the list. -/
theorem map_some_filterMap_getElem? {β : Type} (xs : List β) (members : List Nat)
    (h : ∀ i ∈ members, i < xs.length) :
    (members.filterMap (xs[·]?)).map some = members.map (xs[·]?) := by
  induction members with
  | nil => rfl
  | cons i rest ih =>
    have hlt : i < xs.length := h i (by simp)
    have hi : xs[i]? = some xs[i] := List.getElem?_eq_getElem hlt
    rw [List.filterMap_cons_some hi, List.map_cons, List.map_cons, hi,
      ih fun j hj => h j (List.mem_cons_of_mem _ hj)]

/-- **One component** is made of the declarations of one class. -/
theorem isComponentOf_componentAt (decls : List α) (hne : members ≠ [])
    (hlt : ∀ i ∈ members, i < decls.length) :
    IsComponentOf decls (componentAt (Graph.ofDecls decls) decls members) members := by
  have hdecls := map_some_filterMap_getElem? decls members hlt
  have hrec : (Graph.ofDecls decls).isRecursiveClass members = true ↔
      1 < members.length ∨ ∃ i, members = [i] ∧ Refers decls i i := by
    unfold Graph.isRecursiveClass
    rw [Bool.or_eq_true, decide_eq_true_eq, List.any_eq_true]
    constructor
    · rintro (hlen | ⟨i, hi, hedge⟩)
      · exact .inl hlen
      · match members, hne with
        | [k], _ =>
          obtain rfl : i = k := by simpa using hi
          exact .inr ⟨i, rfl, Graph.hasEdge_ofDecls.mp hedge⟩
        | _ :: _ :: _, _ => exact .inl (by simp)
    · rintro (hlen | ⟨i, rfl, hrefers⟩)
      · exact .inl hlen
      · exact .inr ⟨i, by simp, Graph.hasEdge_ofDecls.mpr hrefers⟩
  unfold componentAt
  split
  · next decl hfalse hsingle =>
    rw [hsingle] at hdecls
    refine ⟨hdecls, ?_⟩
    rw [← hrec, hfalse]
    simp [Component.isRecursive]
  · next found hother =>
    refine ⟨hdecls, ?_⟩
    rw [← hrec]
    simp only [Component.isRecursive, true_iff]
    -- A class that is not recursive has one member, so the other case applies to it.
    by_contra hfalse
    rw [Bool.not_eq_true] at hfalse
    have hlen : members.length = 1 := by
      have hpos := List.length_pos_iff.mpr hne
      have hle : ¬ 1 < members.length := fun hgt => by
        rw [hrec.mpr (.inl hgt)] at hfalse
        cases hfalse
      omega
    have hfound : (members.filterMap (decls[·]?)).length = 1 := by
      rw [← hlen, ← List.length_map (f := some), hdecls, List.length_map]
    obtain ⟨decl, hdecl⟩ := List.length_eq_one_iff.mp hfound
    exact hother decl hfalse hdecl

/-- What is made of a class of the order is the component of that class. -/
theorem isComponentOf_of_mem_order (h : members ∈ (Graph.ofDecls decls).order) :
    IsComponentOf decls (componentAt (Graph.ofDecls decls) decls members) members :=
  have harr := isArrangement_order decls
  isComponentOf_componentAt decls (harr.nonempty members h) fun _ hi => harr.lt_length h hi

/-- The components belong to the classes of the order, one by one. -/
theorem forall₂_components (decls : List α) :
    List.Forall₂ (IsComponentOf decls) (components decls) (Graph.ofDecls decls).order := by
  rw [components_eq, List.forall₂_map_left_iff, List.forall₂_same]
  exact fun members hmem => isComponentOf_of_mem_order hmem

/-- **The dependency analysis is correct.** The components list the declarations at the classes of
positions that refer to each other, directly or not, every position in one class. A component is
recursive if it has several declarations or one that refers to itself, and references lead to the
same component or to an earlier one. -/
theorem components_strongly_connected (decls : List α) :
    ∃ classes, IsArrangement decls classes ∧
      List.Forall₂ (IsComponentOf decls) (components decls) classes :=
  ⟨_, isArrangement_order decls, forall₂_components decls⟩

/-! ## Components by name

What the arrangement of positions says about declarations and their names. -/

/-- The class of a listed component. -/
theorem exists_class {a : Nat} (hc : (components decls)[a]? = some c) :
    ∃ members, (Graph.ofDecls decls).order[a]? = some members ∧ IsComponentOf decls c members := by
  rw [components_eq, List.getElem?_map] at hc
  obtain ⟨members, hmembers, rfl⟩ := Option.map_eq_some_iff.mp hc
  exact ⟨members, hmembers, isComponentOf_of_mem_order (List.mem_of_getElem? hmembers)⟩

theorem IsComponentOf.mem_decls (h : IsComponentOf decls c members) :
    d ∈ c.decls ↔ ∃ i ∈ members, decls[i]? = some d := by
  have hsome : d ∈ c.decls ↔ some d ∈ c.decls.map some := by simp
  rw [hsome, h.decls_eq, List.mem_map]

/-- The components hold the declarations, each once. -/
theorem flatMap_components_perm (decls : List α) :
    ((components decls).flatMap Component.decls).Perm decls := by
  have hsome : ((components decls).flatMap Component.decls).map some
      = (Graph.ofDecls decls).order.flatten.map (decls[·]?) := by
    rw [components_eq, List.map_flatMap, List.flatMap_map, List.map_flatten, List.flatMap_def]
    congr 1
    exact List.map_congr_left fun members hmem => (isComponentOf_of_mem_order hmem).decls_eq
  have hrange : (List.range decls.length).map (decls[·]?) = decls.map some := by
    refine List.ext_getElem (by simp) fun i hi _ => ?_
    have hlt : i < decls.length := by simpa using hi
    simp [List.getElem?_eq_getElem hlt]
  rw [← List.map_perm_map_iff (Option.some_injective α), hsome, ← hrange]
  exact (isArrangement_order decls).partition.map _

theorem mem_of_mem_components (hc : c ∈ components decls) (hd : d ∈ c.decls) :
    d ∈ decls := (flatMap_components_perm decls).mem_iff.mp (List.mem_flatMap.mpr ⟨c, hc, hd⟩)

/-- The names of the components are those declared. -/
theorem flatMap_names_perm (decls : List α) :
    ((components decls).flatMap Component.names).Perm (decls.map Declaration.declared) := by
  have hmap := (flatMap_components_perm decls).map Declaration.declared
  rwa [List.map_flatMap] at hmap

theorem nodup_names_of_mem_components (hnodup : (decls.map Declaration.declared).Nodup)
    (hc : c ∈ components decls) : c.names.Nodup :=
  (List.nodup_flatMap.mp ((flatMap_names_perm decls).nodup_iff.mpr hnodup)).1 c hc

/-- A declared name that a component mentions is declared in the component or in an earlier one. -/
theorem components_earlier {pre post : List (Component α)} (h : components decls = pre ++ c :: post)
    (hd : d ∈ c.decls) {name : Name} (hname : name ∈ Declaration.references d)
    (hdeclared : name ∈ decls.map Declaration.declared) :
    name ∈ c.names ∨ name ∈ pre.flatMap Component.names := by
  have harr := isArrangement_order decls
  have hc : (components decls)[pre.length]? = some c := by rw [h]; simp
  obtain ⟨members, hmembers, hof⟩ := exists_class hc
  obtain ⟨i, hi, hdi⟩ := hof.mem_decls.mp hd
  -- the first declaration of the name is in a class `b` that is not later
  obtain ⟨j, hj⟩ := Option.isSome_iff_exists.mp (List.isSome_idxOf?.mpr hdeclared)
  obtain ⟨e, he, rfl, hfirst⟩ := Graph.idxOf?_declared.mp hj
  obtain ⟨b, hb, members', hmembers', hj'⟩ :=
    harr.earlier pre.length members hmembers i hi j ⟨d, e, hdi, he, hname, hfirst⟩
  have hc' : (components decls)[b]? = some (componentAt (Graph.ofDecls decls) decls members') := by
    rw [components_eq, List.getElem?_map, hmembers', Option.map_some]
  obtain ⟨members'', hmembers'', hof'⟩ := exists_class hc'
  obtain rfl : members' = members'' := Option.some.inj (hmembers'.symm.trans hmembers'')
  have hmem : Declaration.declared e ∈ (componentAt (Graph.ofDecls decls) decls members').names :=
    List.mem_map_of_mem (hof'.mem_decls.mpr ⟨j, hj', he⟩)
  rw [h] at hc'
  rcases Nat.lt_or_eq_of_le hb with hlt | rfl
  · rw [List.getElem?_append_left hlt] at hc'
    exact .inr (List.mem_flatMap.mpr ⟨_, List.mem_of_getElem? hc', hmem⟩)
  · obtain rfl : c = componentAt (Graph.ofDecls decls) decls members' := by simpa using hc'
    exact .inl hmem

theorem ne_nil_of_recursive {group : List α} (h : Component.recursive group ∈ components decls) :
    group ≠ [] := by
  obtain ⟨a, ha⟩ := List.getElem?_of_mem h
  obtain ⟨members, _, hof⟩ := exists_class ha
  rintro rfl
  have hnil : members = [] := List.map_eq_nil_iff.mp hof.decls_eq.symm
  rcases hof.recursive_iff.mp rfl with hlength | ⟨i, hi, _⟩
  · rw [hnil] at hlength
    cases hlength
  · rw [hnil] at hi
    cases hi

theorem exists_other (hascending : members.Pairwise (· < ·)) (hlength : 1 < members.length)
    (i : Nat) : ∃ k ∈ members, k ≠ i := by
  rcases members with _ | ⟨a, _ | ⟨b, rest⟩⟩
  · simp at hlength
  · simp at hlength
  · have hlt : a < b := (List.pairwise_cons.mp hascending).1 b List.mem_cons_self
    by_cases ha : a = i
    · exact ⟨b, List.mem_cons_of_mem _ List.mem_cons_self, by omega⟩
    · exact ⟨a, List.mem_cons_self, ha⟩

/-- Every declaration of a recursive component is mentioned by one of them. -/
theorem exists_referrer {group : List α} (h : Component.recursive group ∈ components decls)
    (hd : d ∈ group) : ∃ e ∈ group, Declaration.declared d ∈ Declaration.references e := by
  obtain ⟨a, ha⟩ := List.mem_iff_getElem?.mp h
  obtain ⟨members, hmembers, hclass⟩ := exists_class ha
  have harr := isArrangement_order decls
  have hmem := List.mem_of_getElem? hmembers
  obtain ⟨i, hi, hget⟩ := hclass.mem_decls.mp hd
  -- some member of the class has an edge to the declaration
  obtain ⟨j, hj, hrefers⟩ : ∃ j ∈ members, Refers decls j i := by
    rcases hclass.recursive_iff.mp rfl with hlength | ⟨k, rfl, hself⟩
    · obtain ⟨k, hk, hne⟩ := exists_other (harr.ascending members hmem) hlength i
      obtain ⟨hik, hki⟩ := (harr.linked members hmem i hi k).mp hk
      obtain heq | ⟨j, hkj, hji⟩ := ReflTransGen.cases_tail hki
      · exact absurd heq.symm hne
      · exact ⟨j, (harr.linked members hmem i hi j).mpr
          ⟨ReflTransGen.trans hik hkj, .single hji⟩, hji⟩
    · obtain rfl := List.mem_singleton.mp hi
      exact ⟨i, hi, hself⟩
  obtain ⟨e, d', he, hd', hreferences, _⟩ := hrefers
  obtain rfl := Option.some.inj (hget.symm.trans hd')
  exact ⟨e, hclass.mem_decls.mpr ⟨j, hj, he⟩, hreferences⟩

/-- Where names are declared once, a component that is not recursive does not mention its own
name. -/
theorem declared_notMem_references (hnodup : (decls.map Declaration.declared).Nodup)
    (h : Component.single d ∈ components decls) :
    Declaration.declared d ∉ Declaration.references d := by
  obtain ⟨a, ha⟩ := List.getElem?_of_mem h
  obtain ⟨members, _, hof⟩ := exists_class ha
  obtain ⟨i, hi, hdi⟩ :=
    hof.mem_decls.mp (by simp [Component.decls] : d ∈ (Component.single d).decls)
  have hnot : ¬ (1 < members.length ∨ ∃ i, members = [i] ∧ Refers decls i i) := by
    rw [← hof.recursive_iff]
    simp [Component.isRecursive]
  intro hself
  have hlen : members.length = 1 := by
    simpa [Component.decls] using (congrArg List.length hof.decls_eq).symm
  obtain ⟨k, rfl⟩ := List.length_eq_one_iff.mp hlen
  obtain rfl : i = k := by simpa using hi
  -- a function that refers to itself would be a component that is recursive
  refine hnot (.inr ⟨i, rfl, d, d, hdi, hdi, hself, ?_⟩)
  intro k hk e' he' heq
  have hilt : i < (decls.map Declaration.declared).length := by
    simpa using (List.getElem?_eq_some_iff.mp hdi).1
  refine List.nodup_iff_getElem?_ne_getElem?.mp hnodup k i hk hilt ?_
  rw [List.getElem?_map, List.getElem?_map, he', hdi, Option.map_some, Option.map_some, heq]

/-- Where no component is recursive, a rank falls along every reference. -/
theorem exists_rank (hnodup : (decls.map Declaration.declared).Nodup)
    (hsingle : ∀ c ∈ components decls, c.isRecursive = false) :
    ∃ rank : Name → Nat, (∀ name, rank name ≤ decls.length) ∧
      ∀ d ∈ decls, ∀ name ∈ Declaration.references d, name ∈ decls.map Declaration.declared →
        rank name < rank (Declaration.declared d) := by
  have hnames := flatMap_names_perm decls
  have hunique := hnames.nodup_iff.mpr hnodup
  refine ⟨((components decls).flatMap Component.names).idxOf, fun name => ?_,
    fun d hd name hname hdecl => ?_⟩
  · have hle : ((components decls).flatMap Component.names).idxOf name ≤ _ := List.idxOf_le_length
    rwa [hnames.length_eq, List.length_map] at hle
  · obtain ⟨c, hc, hdc⟩ := List.mem_flatMap.mp ((flatMap_components_perm decls).mem_iff.mpr hd)
    obtain ⟨pre, post, hsplit⟩ := List.append_of_mem hc
    have hcd : c = .single d := by
      cases c with
      | single d' => rw [List.mem_singleton.mp hdc]
      | recursive ds => cases hsingle _ hc
    subst hcd
    rw [hsplit, List.flatMap_append] at hunique ⊢
    -- the name is declared before the component, the component's own name is not
    have hbefore : name ∈ pre.flatMap Component.names := by
      rcases components_earlier hsplit hdc hname hdecl with hself | hbefore
      · have hself : name = Declaration.declared d := by
          simpa [Component.names, Component.decls] using hself
        exact absurd (hself ▸ hname) (declared_notMem_references hnodup hc)
      · exact hbefore
    have hnot : Declaration.declared d ∉ pre.flatMap Component.names := by
      intro hmem
      refine List.disjoint_of_nodup_append hunique hmem ?_
      simp [Component.names, Component.decls]
    beta_reduce
    rw [List.idxOf_append_of_mem hbefore, List.idxOf_append_of_notMem hnot]
    exact Nat.lt_of_lt_of_le (List.idxOf_lt_length_iff.mpr hbefore) (Nat.le_add_right _ _)

end StructRec.Dependency
