import Mathlib.Data.Finset.Max
import StructRec.Proofs.Reachability

/-!
# StructRec — classes of positions that reach each other

The strongly connected classes of a graph hold every position once (**`flatten_classes`**), and a
class is that of each of its positions (**`classes_eq_classAt`**). A class is ready when all that
its edges lead to outside of itself is listed.

* **`exists_ready`** — as long as a position is not listed, a class with such a position is ready.
  Of the positions that are not listed take one that reaches as few positions as possible: an edge
  from its class to another position that is not listed would lead to one that reaches fewer.
-/

namespace StructRec.Dependency

open Relation

/-- Ascending lists with the same members are equal. -/
theorem eq_of_ascending {xs ys : List Nat} (hxs : xs.Pairwise (· < ·)) (hys : ys.Pairwise (· < ·))
    (h : ∀ k, k ∈ xs ↔ k ∈ ys) : xs = ys := by
  have hperm := (List.perm_ext_iff_of_nodup (hxs.imp Nat.ne_of_lt) (hys.imp Nat.ne_of_lt)).mpr h
  exact hperm.eq_of_pairwise (fun _ _ _ _ hab hba => absurd hab (Nat.lt_asymm hba)) hxs hys

namespace Graph

variable {g : Graph}
variable {i j : Nat} {members : List Nat}

/-! ## Classes of positions that reach each other -/

/-- Two positions reach each other. -/
def Linked (g : Graph) (i j : Nat) : Prop := g.Reaches i j ∧ g.Reaches j i

theorem Linked.refl (i : Nat) : g.Linked i i := ⟨ReflTransGen.refl, ReflTransGen.refl⟩

theorem Linked.symm (h : g.Linked i j) : g.Linked j i := ⟨h.2, h.1⟩

theorem Linked.trans {k : Nat} (h : g.Linked i j) (h' : g.Linked j k) : g.Linked i k :=
  ⟨h.1.trans h'.1, h'.2.trans h.2⟩

/-- The class of a position. -/
def classAt (g : Graph) (i : Nat) : List Nat := classOf ((List.range g.size).map g.reachable) i

theorem classes_eq (g : Graph) :
    g.classes = (List.range g.size).filterMap fun i =>
      if (g.classAt i).head? = some i then some (g.classAt i) else none := rfl

/-- A class has exactly the declarations that are linked to one of its own. -/
theorem mem_classAt (hg : g.Bounded) (hi : i < g.size) :
    j ∈ g.classAt i ↔ j < g.size ∧ g.Linked i j := by
  have hreached : ∀ k, k < g.size →
      ((List.range g.size).map g.reachable)[k]?.getD [] = g.reachable k := by
    intro k hk
    simp [List.getElem?_range hk]
  unfold classAt classOf
  rw [List.mem_filter, List.length_map, List.length_range, List.mem_range]
  refine and_congr_right fun hj => ?_
  rw [hreached i hi, hreached j hj, Bool.and_eq_true, decide_eq_true_eq, decide_eq_true_eq,
    mem_reachable_iff hg hi, mem_reachable_iff hg hj, Linked]

theorem ascending_classAt (g : Graph) (i : Nat) : (g.classAt i).Pairwise (· < ·) :=
  List.pairwise_lt_range.filter _

/-- Linked declarations have one class. -/
theorem classAt_congr (hg : g.Bounded) (hi : i < g.size) (hj : j < g.size) (h : g.Linked i j) :
    g.classAt i = g.classAt j := by
  refine eq_of_ascending (ascending_classAt g i) (ascending_classAt g j) fun k => ?_
  rw [mem_classAt hg hi, mem_classAt hg hj]
  exact and_congr_right fun _ => ⟨fun hk => h.symm.trans hk, fun hk => h.trans hk⟩

/-- A class is listed at its first position. -/
theorem exists_first (h : members ∈ g.classes) :
    ∃ i < g.size, members = g.classAt i ∧ members.head? = some i := by
  rw [classes_eq] at h
  obtain ⟨i, hi, hmembers⟩ := List.mem_filterMap.mp h
  obtain ⟨hhead, hclass⟩ := Option.ite_none_right_eq_some.mp hmembers
  obtain rfl := Option.some.inj hclass
  exact ⟨i, List.mem_range.mp hi, rfl, hhead⟩

/-- A listed class is the class of each of its members. -/
theorem classes_eq_classAt (hg : g.Bounded) (h : members ∈ g.classes) (hi : i ∈ members) :
    i < g.size ∧ members = g.classAt i := by
  obtain ⟨k, hk, rfl, _⟩ := exists_first h
  obtain ⟨hlt, hlinked⟩ := (mem_classAt hg hk).mp hi
  exact ⟨hlt, classAt_congr hg hk hlt hlinked⟩

/-- The class of every declaration is listed, at its first member. -/
theorem classAt_mem_classes (hg : g.Bounded) (hi : i < g.size) : g.classAt i ∈ g.classes := by
  -- The class is listed at its first member.
  have hself : i ∈ g.classAt i := (mem_classAt hg hi).mpr ⟨hi, Linked.refl i⟩
  obtain ⟨first, rest, hclass⟩ := List.exists_cons_of_ne_nil (List.ne_nil_of_mem hself)
  have hfirst : first ∈ g.classAt i := by rw [hclass]; simp
  obtain ⟨hlt, hlinked⟩ := (mem_classAt hg hi).mp hfirst
  have hsame : g.classAt i = g.classAt first := classAt_congr hg hi hlt hlinked
  rw [classes_eq, List.mem_filterMap]
  refine ⟨first, List.mem_range.mpr hlt, ?_⟩
  rw [← hsame, hclass]
  simp

theorem ascending_of_mem_classes (h : members ∈ g.classes) :
    members.Pairwise (· < ·) := by
  obtain ⟨k, _, rfl, _⟩ := exists_first h
  exact ascending_classAt g k

theorem nonempty_of_mem_classes (h : members ∈ g.classes) : members ≠ [] := by
  obtain ⟨k, _, _, hhead⟩ := exists_first h
  rintro rfl
  cases hhead

/-- No class is listed twice, as each is listed at its first member. -/
theorem nodup_classes (g : Graph) : g.classes.Nodup := by
  rw [classes_eq]
  refine List.Nodup.filterMap ?_ List.nodup_range
  -- A class is listed at its head, so equal classes are listed at one position.
  intro i j members hi hj
  rw [Option.mem_def, Option.ite_none_right_eq_some] at hi hj
  obtain ⟨hheadi, hi⟩ := hi
  obtain ⟨hheadj, hj⟩ := hj
  rw [Option.some.inj hi] at hheadi
  rw [Option.some.inj hj] at hheadj
  rw [hheadi] at hheadj
  exact Option.some.inj hheadj

theorem disjoint_classes (hg : g.Bounded) {c c' : List Nat} (hc : c ∈ g.classes)
    (hc' : c' ∈ g.classes) (hi : i ∈ c) (hi' : i ∈ c') : c = c' :=
  (classes_eq_classAt hg hc hi).2.trans (classes_eq_classAt hg hc' hi').2.symm

/-- **The classes** have every declaration once. -/
theorem flatten_classes (hg : g.Bounded) : g.classes.flatten.Perm (List.range g.size) := by
  refine (List.perm_ext_iff_of_nodup ?_ List.nodup_range).mpr ?_
  · rw [List.nodup_flatten]
    constructor
    · intro members hmem
      obtain ⟨i, hi⟩ := List.exists_mem_of_ne_nil _ (nonempty_of_mem_classes hmem)
      rw [(classes_eq_classAt hg hmem hi).2]
      exact (ascending_classAt g i).imp Nat.ne_of_lt
    · refine (nodup_classes g).imp_of_mem ?_
      intro c c' hc hc' hne i hi hi'
      exact hne (disjoint_classes hg hc hc' hi hi')
  · intro i
    rw [List.mem_flatten, List.mem_range]
    constructor
    · rintro ⟨members, hmem, hi⟩
      exact (classes_eq_classAt hg hmem hi).1
    · intro hi
      exact ⟨_, classAt_mem_classes hg hi, (mem_classAt hg hi).mpr ⟨hi, Linked.refl i⟩⟩

/-! ## Ready classes -/

/-- What the edges from a class lead to outside of the class is listed. -/
def Ready (g : Graph) (listed members : List Nat) : Prop :=
  ∀ i ∈ members, ∀ j, g.hasEdge i j = true → j ∈ members ∨ j ∈ listed

/-- A position that `i` reaches, but that does not reach `i`, reaches fewer positions than `i`. -/
theorem card_reachable_lt (hg : g.Bounded) (hi : i < g.size) (hij : g.Reaches i j)
    (hji : ¬ g.Reaches j i) :
    (g.reachable j).toFinset.card < (g.reachable i).toFinset.card := by
  have hj : j < g.size := reaches_lt hg hi hij
  refine Finset.card_lt_card (Finset.ssubset_iff_subset_ne.mpr ⟨?_, ?_⟩)
  · intro k hk
    rw [List.mem_toFinset, mem_reachable_iff hg hj] at hk
    rw [List.mem_toFinset, mem_reachable_iff hg hi]
    exact hij.trans hk
  · -- `i` itself is reached from `i` and not from `j`
    intro heq
    have hself : i ∈ (g.reachable i).toFinset := by
      rw [List.mem_toFinset, mem_reachable_iff hg hi]
      exact ReflTransGen.refl
    rw [← heq, List.mem_toFinset, mem_reachable_iff hg hj] at hself
    exact hji hself

/-- As long as a position is not listed, there is a class with such a position that is ready. -/
theorem exists_ready (hg : g.Bounded) {listed : List Nat} {i₀ : Nat} (hi₀ : i₀ < g.size)
    (hnot : i₀ ∉ listed) : ∃ c ∈ g.classes, (∃ i ∈ c, i ∉ listed) ∧ g.Ready listed c := by
  -- a position that is not listed and reaches as few positions as possible
  obtain ⟨i, hi, hmin⟩ := Finset.exists_min_image
    ((Finset.range g.size).filter (· ∉ listed)) (fun i => (g.reachable i).toFinset.card)
    ⟨i₀, Finset.mem_filter.mpr ⟨Finset.mem_range.mpr hi₀, hnot⟩⟩
  obtain ⟨hlt, hilisted⟩ := Finset.mem_filter.mp hi
  rw [Finset.mem_range] at hlt
  have hself : i ∈ g.classAt i := (mem_classAt hg hlt).mpr ⟨hlt, Linked.refl i⟩
  refine ⟨_, classAt_mem_classes hg hlt, ⟨i, hself, hilisted⟩, fun k hk j hedge => ?_⟩
  obtain ⟨_, hik⟩ := (mem_classAt hg hlt).mp hk
  have hij : g.Reaches i j := hik.1.tail hedge
  have hjlt : j < g.size := (hg k j hedge).2
  by_contra hout
  obtain ⟨hjclass, hjlisted⟩ := not_or.mp hout
  have hji : ¬ g.Reaches j i := fun hji => hjclass ((mem_classAt hg hlt).mpr ⟨hjlt, hij, hji⟩)
  have hle := hmin j (Finset.mem_filter.mpr ⟨Finset.mem_range.mpr hjlt, hjlisted⟩)
  exact absurd (card_reachable_lt hg hlt hij hji) (Nat.not_lt.mpr hle)

end Graph

end StructRec.Dependency
