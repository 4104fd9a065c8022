import Mathlib.Data.List.Nodup
import Mathlib.Data.List.Perm.Subperm
import Mathlib.Logic.Relation
import StructRec.Dependency.Component

/-!
# StructRec — reachability in the graph of declarations

`Refers decls i j` says when declaration `i` has an edge to declaration `j`, in terms of the
declarations alone. `Graph.reachable` follows the edges of the graph that is built from them:

* **`hasEdge_ofDecls`** — the edges of the graph are the references between the declarations.
* **`spread_closed`** — a search that has one step for every position ends with a set that no edge
  leaves. Each step but the last finds a new position, so the steps cannot run out before that.
* **`mem_reachable_iff`** — the search finds exactly the positions that zero or more edges lead to.
-/

namespace StructRec.Dependency

open Relation

variable {α : Type} [Declaration α]

/-- Declaration `i` refers to declaration `j`: it mentions the name that `j` declares, and no
declaration before `j` has that name. -/
def Refers (decls : List α) (i j : Nat) : Prop :=
  ∃ d e, decls[i]? = some d ∧ decls[j]? = some e ∧
    Declaration.declared e ∈ Declaration.references d ∧
    ∀ k < j, ∀ e', decls[k]? = some e' → Declaration.declared e' ≠ Declaration.declared e

/-- Zero or more references lead from declaration `i` to declaration `j`. -/
def Leads (decls : List α) : Nat → Nat → Prop := ReflTransGen (Refers decls)

namespace Graph

variable {g : Graph} {i j : Nat} {seen frontier : List Nat}

/-- All edges lead from positions of the graph to positions of the graph. -/
def Bounded (g : Graph) : Prop := ∀ i j, g.hasEdge i j = true → i < g.size ∧ j < g.size

/-- Zero or more edges lead from one position to another. -/
def Reaches (g : Graph) : Nat → Nat → Prop := ReflTransGen fun i j => g.hasEdge i j = true

@[simp]
theorem size_ofDecls (decls : List α) : (ofDecls decls).size = decls.length := by
  simp [ofDecls, size]

theorem hasEdge_iff : g.hasEdge i j = true ↔ j ∈ g.successors i := by
  simp [hasEdge]

/-- The first position of a name among the declarations. -/
theorem idxOf?_declared {decls : List α} {name : Name} :
    (decls.map Declaration.declared).idxOf? name = some j ↔
      ∃ e, decls[j]? = some e ∧ Declaration.declared e = name ∧
        ∀ k < j, ∀ e', decls[k]? = some e' → Declaration.declared e' ≠ name := by
  rw [List.idxOf?_eq_some_iff]
  constructor
  · rintro ⟨hj, hname, hfirst⟩
    rw [List.length_map] at hj
    refine ⟨decls[j], List.getElem?_eq_getElem hj, by simpa using hname, ?_⟩
    intro k hk e' he'
    obtain ⟨hklt, rfl⟩ := List.getElem?_eq_some_iff.mp he'
    simpa using hfirst k hk
  · rintro ⟨e, he, hname, hfirst⟩
    obtain ⟨hj, rfl⟩ := List.getElem?_eq_some_iff.mp he
    refine ⟨by simpa using hj, by simpa using hname, ?_⟩
    intro k hk
    have hklt : k < decls.length := Nat.lt_trans hk hj
    simpa using hfirst k hk decls[k] (List.getElem?_eq_getElem hklt)

/-- The edges of the graph are the references between the declarations. -/
theorem hasEdge_ofDecls {decls : List α} :
    (ofDecls decls).hasEdge i j = true ↔ Refers decls i j := by
  rw [hasEdge_iff]
  have hsucc : (ofDecls decls).successors i
      = ((decls[i]?.map Declaration.references).map fun refs =>
          refs.filterMap (decls.map Declaration.declared).idxOf?).getD [] := by
    simp [successors, ofDecls, Option.map_map, Function.comp_def]
  rw [hsucc]
  constructor
  · intro hmem
    cases hd : decls[i]? with
    | none => rw [hd] at hmem; simp at hmem
    | some d =>
      rw [hd] at hmem
      obtain ⟨name, hname, hpos⟩ := List.mem_filterMap.mp hmem
      obtain ⟨e, he, rfl, hfirst⟩ := idxOf?_declared.mp hpos
      exact ⟨d, e, hd, he, hname, hfirst⟩
  · rintro ⟨d, e, hd, he, hname, hfirst⟩
    rw [hd]
    exact List.mem_filterMap.mpr ⟨_, hname, idxOf?_declared.mpr ⟨e, he, rfl, hfirst⟩⟩

/-- Reaching in the graph is leading to, by references. -/
theorem reaches_ofDecls (decls : List α) : (ofDecls decls).Reaches = Leads decls := by
  unfold Reaches Leads
  congr 1
  funext i j
  exact propext hasEdge_ofDecls

theorem bounded_ofDecls (decls : List α) : (ofDecls decls).Bounded := by
  intro i j hedge
  obtain ⟨_, _, hd, he, _⟩ := hasEdge_ofDecls.mp hedge
  rw [size_ofDecls]
  exact ⟨(List.getElem?_eq_some_iff.mp hd).1, (List.getElem?_eq_some_iff.mp he).1⟩

/-! ## The search

One step adds the successors of the frontier that were not seen before. The invariant of the search
says that only the frontier can still have successors outside of what was seen. -/

/-- The positions that one step of the search adds. -/
def found (g : Graph) (seen frontier : List Nat) : List Nat :=
  (frontier.flatMap g.successors).eraseDups.filter (· ∉ seen)

theorem mem_found :
    j ∈ g.found seen frontier ↔ (∃ i ∈ frontier, g.hasEdge i j = true) ∧ j ∉ seen := by
  simp [found, hasEdge_iff]

/-- What is left after dropping duplicates is there once. -/
theorem nodup_eraseDups {β : Type} [BEq β] [LawfulBEq β] (xs : List β) : xs.eraseDups.Nodup := by
  induction hn : xs.length using Nat.strongRecOn generalizing xs with
  | _ n ih =>
    cases xs with
    | nil => simp
    | cons x rest =>
      rw [List.eraseDups_cons, List.nodup_cons]
      constructor
      · simp [List.mem_eraseDups]
      · refine ih _ ?_ _ rfl
        have hle := List.length_filter_le (fun b => !b == x) rest
        rw [List.length_cons] at hn
        omega

theorem nodup_found (g : Graph) (seen frontier : List Nat) : (g.found seen frontier).Nodup :=
  (nodup_eraseDups _).filter _

theorem spread_succ (g : Graph) (steps : Nat) (seen frontier : List Nat) :
    g.spread (steps + 1) seen frontier
      = if (g.found seen frontier).isEmpty then seen
        else g.spread steps (seen ++ g.found seen frontier) (g.found seen frontier) := rfl

/-- What holds between the steps of a search. -/
structure Searching (g : Graph) (seen frontier : List Nat) : Prop where
  nodup : seen.Nodup
  bounded : ∀ i ∈ seen, i < g.size
  frontier_seen : ∀ i ∈ frontier, i ∈ seen
  /-- Edges from what was seen before the frontier lead to what was seen. -/
  inside : ∀ i ∈ seen, i ∉ frontier → ∀ j, g.hasEdge i j = true → j ∈ seen

/-- **One round** of the search goes one edge further. -/
theorem Searching.step (hg : g.Bounded) (h : Searching g seen frontier) :
    Searching g (seen ++ g.found seen frontier) (g.found seen frontier) where
  nodup := by
    refine List.nodup_append.mpr ⟨h.nodup, nodup_found g seen frontier, ?_⟩
    rintro i hi j hj rfl
    exact (mem_found.mp hj).2 hi
  bounded := by
    intro i hi
    rcases List.mem_append.mp hi with hseen | hnew
    · exact h.bounded i hseen
    · obtain ⟨⟨k, _, hedge⟩, _⟩ := mem_found.mp hnew
      exact (hg k i hedge).2
  frontier_seen := fun i hi => List.mem_append.mpr (.inr hi)
  inside := by
    intro i hi hnot j hedge
    rw [List.mem_append]
    have hseen : i ∈ seen := (List.mem_append.mp hi).resolve_right hnot
    -- edges of the frontier are followed now, those of others have been
    by_cases hfr : i ∈ frontier
    · by_cases hj : j ∈ seen
      · exact .inl hj
      · exact .inr (mem_found.mpr ⟨⟨i, hfr, hedge⟩, hj⟩)
    · exact .inl (h.inside i hseen hfr j hedge)

theorem Searching.length_le (h : Searching g seen frontier) :
    seen.length ≤ g.size := by
  have hsub : seen ⊆ List.range g.size := fun i hi => List.mem_range.mpr (h.bounded i hi)
  simpa using (h.nodup.subperm hsub).length_le

/-- A search with enough steps ends with a set that no edge leaves. Each step that goes on makes the
set larger, and it never has more than all positions. -/
theorem spread_closed (hg : g.Bounded) (steps : Nat) :
    ∀ seen frontier, Searching g seen frontier → g.size < seen.length + steps →
      ∀ i ∈ g.spread steps seen frontier, ∀ j, g.hasEdge i j = true →
        j ∈ g.spread steps seen frontier := by
  induction steps with
  | zero =>
    intro seen frontier h hlen
    have := h.length_le
    omega
  | succ steps ih =>
    intro seen frontier h hlen i hi j hedge
    rw [spread_succ] at hi ⊢
    split at hi
    · next hnone =>
      rw [if_pos hnone]
      by_cases hfr : i ∈ frontier
      · -- The frontier adds nothing, so its successors were seen.
        by_contra hj
        have hmem : j ∈ g.found seen frontier := mem_found.mpr ⟨⟨i, hfr, hedge⟩, hj⟩
        rw [List.isEmpty_iff.mp hnone] at hmem
        cases hmem
      · exact h.inside i hi hfr j hedge
    · next hsome =>
      rw [if_neg hsome]
      have hpos : 0 < (g.found seen frontier).length := by
        rw [List.length_pos_iff]
        simpa using hsome
      refine ih _ _ (h.step hg) ?_ i hi j hedge
      rw [List.length_append]
      omega

/-- What has been seen stays. -/
theorem mem_spread_of_seen (steps : Nat) :
    ∀ {seen frontier : List Nat} {i : Nat}, i ∈ seen → i ∈ g.spread steps seen frontier := by
  induction steps with
  | zero => intro _ _ _ hi; exact hi
  | succ steps ih =>
    intro seen frontier i hi
    rw [spread_succ]
    split
    · exact hi
    · exact ih (List.mem_append.mpr (.inl hi))

/-- Only what can be reached is found. -/
theorem reaches_of_mem_spread {start : Nat} (steps : Nat) :
    ∀ {seen frontier : List Nat}, (∀ i ∈ seen, g.Reaches start i) →
      (∀ i ∈ frontier, g.Reaches start i) →
      ∀ i ∈ g.spread steps seen frontier, g.Reaches start i := by
  induction steps with
  | zero => intro _ _ hseen _; exact hseen
  | succ steps ih =>
    intro seen frontier hseen hfr
    rw [spread_succ]
    split
    · exact hseen
    · have hnew : ∀ i ∈ g.found seen frontier, g.Reaches start i := by
        intro i hi
        obtain ⟨⟨k, hk, hedge⟩, _⟩ := mem_found.mp hi
        exact (hfr k hk).tail hedge
      refine ih (fun i hi => ?_) hnew
      rcases List.mem_append.mp hi with h | h
      · exact hseen i h
      · exact hnew i h

/-- The search finds exactly the positions that zero or more edges lead to. -/
theorem mem_reachable_iff (hg : g.Bounded) (hi : i < g.size) (j : Nat) :
    j ∈ g.reachable i ↔ g.Reaches i j := by
  unfold reachable
  constructor
  · refine reaches_of_mem_spread g.size ?_ ?_ j <;> simp [Reaches, ReflTransGen.refl]
  · have hstart : Searching g [i] [i] :=
      { nodup := by simp
        bounded := by simpa using hi
        frontier_seen := by simp
        inside := by simp }
    intro hreach
    induction hreach with
    | refl => exact mem_spread_of_seen _ (by simp)
    | tail _ hedge ih => exact spread_closed hg _ _ _ hstart (by simp) _ ih _ hedge

theorem reaches_lt (hg : g.Bounded) (hi : i < g.size) (h : g.Reaches i j) :
    j < g.size := by
  cases h with
  | refl => exact hi
  | tail _ hedge => exact (hg _ _ hedge).2

end Graph

end StructRec.Dependency
