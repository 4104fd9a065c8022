import StructRec.Proofs.Components

/-!
# StructRec — the order of components is canonical

Of the components that may come next, the one with the earliest declaration does. This greedy rule
leaves no choice, so the components depend on the declarations alone, and not on how their strongly
connected classes are found.

* **`Graph.GreedyFrom.unique`** — two lists of the same classes that follow the rule are equal;
* **`IsListing`** — any listing of the classes, and of the positions in each;
* **`components_canonical`** — the components follow the rule, and every listing of the classes
  yields the same ones.
-/

namespace StructRec.Dependency

variable {α : Type} [Declaration α]

/-! ## Statements -/

/-- What the positions of a class refer to outside of the class is listed. -/
def Ready (decls : List α) (listed members : List Nat) : Prop :=
  ∀ i ∈ members, ∀ j, Refers decls i j → j ∈ members ∨ j ∈ listed

/-- Every class is ready when its turn comes, and it has a position before all those of the later
classes that are ready, too. -/
def Greedy (decls : List α) (classes : List (List Nat)) : Prop :=
  ∀ pre members post, classes = pre ++ members :: post → Ready decls pre.flatten members ∧
    ∀ other ∈ post, Ready decls pre.flatten other → ∃ i ∈ members, ∀ j ∈ other, i < j

/-- The strongly connected classes of the declarations, listed in any order, and with the positions
of each in any order. -/
structure IsListing (decls : List α) (classes : List (List Nat)) : Prop where
  partition : classes.flatten.Perm (List.range decls.length)
  nonempty : ∀ members ∈ classes, members ≠ []
  linked : ∀ members ∈ classes, ∀ i ∈ members, ∀ j, j ∈ members ↔ Leads decls i j ∧ Leads decls j i

namespace Graph

variable {g : Graph} {listed : List Nat}

/-! ## The rule leaves no choice -/

/-- **The greedy order is unique** where classes differ in their first positions. -/
theorem GreedyFrom.unique {cs cs' : List (List Nat)} (h : g.GreedyFrom listed cs)
    (h' : g.GreedyFrom listed cs') (hperm : cs.Perm cs')
    (hfirst : ∀ c ∈ cs, ∀ c' ∈ cs, c.headD 0 = c'.headD 0 → c = c') :
    cs = cs' := by
  induction cs generalizing listed cs' with
  | nil => exact (List.nil_perm.mp hperm).symm
  | cons c rest ih =>
    cases cs' with
    | nil => exact List.perm_nil.mp hperm
    | cons c' rest' =>
      have hcc' : c = c' := by
        rcases List.mem_cons.mp (hperm.mem_iff.mp List.mem_cons_self) with heq | hc
        · exact heq
        rcases List.mem_cons.mp (hperm.mem_iff.mpr List.mem_cons_self) with heq | hc'
        · exact heq.symm
        -- each of the two was ready when the other one was taken
        have hle := h.2.1 c' hc' h'.1
        have hge := h'.2.1 c hc h.1
        exact hfirst c List.mem_cons_self c' (List.mem_cons_of_mem _ hc') (Nat.le_antisymm hle hge)
      subst hcc'
      rw [ih h.2.2 h'.2.2 hperm.cons_inv fun d hd d' hd' =>
        hfirst d (List.mem_cons_of_mem _ hd) d' (List.mem_cons_of_mem _ hd')]

theorem GreedyFrom.ready {cs pre post : List (List Nat)} {c : List Nat} (h : g.GreedyFrom listed cs)
    (hcs : cs = pre ++ c :: post) : g.Ready (listed ++ pre.flatten) c ∧
      ∀ c' ∈ post, g.Ready (listed ++ pre.flatten) c' → c.headD 0 ≤ c'.headD 0 := by
  induction pre generalizing listed cs with
  | nil =>
    subst hcs
    rw [List.flatten_nil, List.append_nil]
    exact ⟨h.1, h.2.1⟩
  | cons first pre ih =>
    subst hcs
    rw [List.flatten_cons, ← List.append_assoc]
    exact ih h.2.2 rfl

theorem headD_mem {c : List Nat} (h : c ≠ []) : c.headD 0 ∈ c := by
  cases c with
  | nil => exact absurd rfl h
  | cons i rest => exact List.mem_cons_self

/-- **Any listing of the classes is emitted in the order of components.** -/
theorem emit_eq_order (hg : g.Bounded) {listing : List (List Nat)}
    (h : (listing.map ascending).Perm g.classes) : g.emit listing = g.order := by
  obtain ⟨hperm, hgreedy⟩ := emit_spec hg h
  obtain ⟨horder, hgreedy'⟩ := order_spec hg
  refine hgreedy.unique hgreedy' (hperm.trans horder.symm) fun c hc c' hc' heq => ?_
  -- classes with the same first position share it
  have hc := hperm.mem_iff.mp hc
  have hc' := hperm.mem_iff.mp hc'
  exact disjoint_classes hg hc hc' (headD_mem (nonempty_of_mem_classes hc))
    (heq ▸ headD_mem (nonempty_of_mem_classes hc'))

end Graph

/-! ## Listings of the classes -/

namespace IsListing

variable {decls : List α} {classes : List (List Nat)}

theorem nodup_flatten (h : IsListing decls classes) : classes.flatten.Nodup :=
  h.partition.nodup_iff.mpr List.nodup_range

/-- With its positions in order, a listed class is a class of the graph. -/
theorem ascending_eq_classAt (h : IsListing decls classes) {members : List Nat}
    (hmem : members ∈ classes) {i : Nat} (hi : i ∈ members) :
    i < decls.length ∧ ascending members = (Graph.ofDecls decls).classAt i := by
  have hg := Graph.bounded_ofDecls decls
  have hlt : i < decls.length :=
    List.mem_range.mp (h.partition.mem_iff.mp (List.mem_flatten.mpr ⟨members, hmem, hi⟩))
  have hsize : i < (Graph.ofDecls decls).size := by rwa [Graph.size_ofDecls]
  obtain ⟨hsame, hascending⟩ := ascending_spec members
  refine ⟨hlt, eq_of_ascending hascending (Graph.ascending_classAt _ i) fun j => ?_⟩
  rw [hsame, h.linked members hmem i hi j, Graph.mem_classAt hg hsize, Graph.Linked,
    Graph.reaches_ofDecls]
  refine ⟨fun hij => ⟨?_, hij⟩, fun hij => hij.2⟩
  exact Graph.reaches_lt hg hsize (Graph.reaches_ofDecls decls ▸ hij.1)

/-- **A listing** has the strong classes, up to order. -/
theorem perm_classes (h : IsListing decls classes) :
    (classes.map ascending).Perm (Graph.ofDecls decls).classes := by
  have hg := Graph.bounded_ofDecls decls
  refine (List.perm_ext_iff_of_nodup ?_ (Graph.nodup_classes _)).mpr fun c =>
    ⟨fun hc => ?_, fun hc => ?_⟩
  · rw [List.Nodup, List.pairwise_map]
    -- disjoint classes stay different when they are sorted
    refine (List.nodup_flatten.mp h.nodup_flatten).2.imp_of_mem fun {c c'} hc _ hdisjoint heq => ?_
    obtain ⟨i, hi⟩ := List.exists_mem_of_ne_nil _ (h.nonempty c hc)
    exact hdisjoint hi (((ascending_spec c').1 i).mp (heq ▸ ((ascending_spec c).1 i).mpr hi))
  · obtain ⟨members, hmem, rfl⟩ := List.mem_map.mp hc
    obtain ⟨i, hi⟩ := List.exists_mem_of_ne_nil _ (h.nonempty members hmem)
    obtain ⟨hlt, heq⟩ := h.ascending_eq_classAt hmem hi
    rw [heq]
    exact Graph.classAt_mem_classes hg (by rwa [Graph.size_ofDecls])
  · obtain ⟨i, hi⟩ := List.exists_mem_of_ne_nil _ (Graph.nonempty_of_mem_classes hc)
    obtain ⟨hlt, rfl⟩ := Graph.classes_eq_classAt hg hc hi
    rw [Graph.size_ofDecls] at hlt
    obtain ⟨members, hmem, hi'⟩ :=
      List.mem_flatten.mp (h.partition.mem_iff.mpr (List.mem_range.mpr hlt))
    exact List.mem_map.mpr ⟨members, hmem, (h.ascending_eq_classAt hmem hi').2⟩

end IsListing

theorem ready_ofDecls {decls : List α} {listed members : List Nat} :
    (Graph.ofDecls decls).Ready listed members ↔ Ready decls listed members := by
  simp only [Graph.Ready, Graph.hasEdge_ofDecls, Ready]

/-- **The order is greedy**: of all classes that are ready the first one comes next. -/
theorem greedy_order (decls : List α) : Greedy decls (Graph.ofDecls decls).order := by
  have harr := isArrangement_order decls
  intro pre members post hsplit
  obtain ⟨hready, hfirst⟩ := (Graph.order_spec (Graph.bounded_ofDecls decls)).2.ready hsplit
  rw [List.nil_append] at hready hfirst
  refine ⟨ready_ofDecls.mp hready, fun other hother hother' => ?_⟩
  have hle := hfirst other hother (ready_ofDecls.mpr hother')
  have hmem : ∀ c ∈ members :: post, c ∈ (Graph.ofDecls decls).order := by
    rw [hsplit]
    exact fun c hc => List.mem_append_right _ hc
  have hdisjoint : members.Disjoint other := by
    have hnodup := harr.partition.nodup_iff.mpr List.nodup_range
    rw [hsplit, List.nodup_flatten, List.pairwise_append] at hnodup
    exact (List.pairwise_cons.mp hnodup.2.2.1).1 other hother
  have hhead := Graph.headD_mem (harr.nonempty members (hmem members List.mem_cons_self))
  refine ⟨members.headD 0, hhead,
    fun j hj => Nat.lt_of_le_of_ne (Nat.le_trans hle ?_) fun heq => hdisjoint hhead (heq ▸ hj)⟩
  -- positions of a class come after its first one
  have hascending := harr.ascending other (hmem other (List.mem_cons_of_mem _ hother))
  cases other with
  | nil => cases hj
  | cons k rest =>
    rcases List.mem_cons.mp hj with rfl | hj
    · exact Nat.le_refl _
    · exact Nat.le_of_lt ((List.pairwise_cons.mp hascending).1 j hj)

/-- **The order of components is greedy and canonical.** Each component is, among those not emitted
yet all of whose references outside of themselves are emitted, the one with the earliest
declaration. In whatever order the strongly connected classes are listed, and the positions in each
of them, the components are the same. -/
theorem components_canonical (decls : List α) :
    (∃ classes, IsArrangement decls classes ∧
      List.Forall₂ (IsComponentOf decls) (components decls) classes ∧ Greedy decls classes) ∧
      ∀ listing, IsListing decls listing → componentsOf decls listing = components decls := by
  refine ⟨⟨_, isArrangement_order decls, forall₂_components decls, greedy_order decls⟩,
    fun listing h => ?_⟩
  have hemit := Graph.emit_eq_order (Graph.bounded_ofDecls decls) h.perm_classes
  rw [components_eq, componentsOf, hemit]

/-- The classes of the order may be listed in another order, with their positions in another
order. -/
theorem IsListing.of_order {decls : List α} {classes : List (List Nat)}
    (hpartition : classes.flatten.Perm (List.range decls.length))
    (hclasses : ∀ members ∈ classes, ∃ c ∈ (Graph.ofDecls decls).order, members.Perm c) :
    IsListing decls classes := by
  have harr := isArrangement_order decls
  refine ⟨hpartition, fun members hmem hnil => ?_, fun members hmem i hi j => ?_⟩
  · obtain ⟨c, hc, hperm⟩ := hclasses members hmem
    exact harr.nonempty c hc (List.nil_perm.mp (hnil ▸ hperm))
  · obtain ⟨c, hc, hperm⟩ := hclasses members hmem
    rw [hperm.mem_iff]
    exact harr.linked c hc i (hperm.mem_iff.mp hi) j

/-- `data Tree = Node Forest`, `type Label = Text`, `data Entry = MkEntry Label Tree Forest` and
`type Forest = List Tree`: two edges lead from entries to the class of trees and forests. -/
def forests : List TypeDecl :=
  [.data { name := "Tree", typeParams := []
           constructors := [{ name := "Node", fields := [.con "Forest"] }] },
    .synonym { name := "Label", typeParams := [], rhs := .con "Text" },
    .data { name := "Entry", typeParams := []
            constructors :=
              [{ name := "MkEntry", fields := [.con "Label", .con "Tree", .con "Forest"] }] },
    .synonym { name := "Forest", typeParams := [], rhs := .app (.con "List") (.con "Tree") }]

/-- Trees and forests come first, though their class is listed last and from its end. -/
theorem forests_canonical :
    IsListing forests [[2], [1], [3, 0]] ∧
      componentsOf forests [[2], [1], [3, 0]] = components forests ∧
      (components forests).map Component.names = [["Tree", "Forest"], ["Label"], ["Entry"]] := by
  have hlisting : IsListing forests [[2], [1], [3, 0]] := .of_order (by decide) (by decide)
  exact ⟨hlisting, (components_canonical forests).2 _ hlisting, by decide⟩

end StructRec.Dependency
