import Mathlib.Data.Nat.Find
import StructRec.Proofs.FreshNames

/-!
# StructRec — the search for a name is short

A request for a name takes candidates of its root, one number after the other, until one is not
blocked: neither registered nor spelled like a registered name in the target language. Nothing
bounds the search but the registered names, each of which blocks one number at most. So it ends
after as many candidates as there are registered names, and one more, and the counter, which is a
word of 32 bits, has room for them.
-/

namespace StructRec

/-- A candidate is registered, or the target language spells a registered name like it. -/
def Environment.blocks (env : Environment) (candidate : Name) : Bool :=
  env.isDefined candidate || env.usesTarget candidate.target

/-- Candidates of a root are taken until one is not blocked. Every one of them leaves room in the
counter for the next number. -/
inductive Counters.Search (env : Environment) (wanted : Name) :
    Counters → Nat → Name → Counters → Prop
  | found {c : Counters} (hroom : c.taken wanted + 1 < UInt32.size)
    (hfree : env.blocks (c.next wanted).1 = false) :
    Search env wanted c 1 (c.next wanted).1 (c.next wanted).2
  | skip {c c' : Counters} {candidates : Nat} {name : Name}
      (hroom : c.taken wanted + 1 < UInt32.size)
      (hblocked : env.blocks (c.next wanted).1 = true)
      (h : Search env wanted (c.next wanted).2 candidates name c') :
    Search env wanted c (candidates + 1) name c'

namespace Environment

/-- A registered name is spelled like itself, so the target spellings decide. -/
theorem blocks_eq (env : Environment) (candidate : Name) :
    env.blocks candidate = env.usesTarget candidate.target := by
  rw [blocks, Bool.or_eq_right_iff_imp]
  intro hdefined
  have hmem : candidate ∈ env.names := by
    rw [isDefined, Bool.or_eq_true, Table.contains_iff_mem_keys,
      Table.contains_iff_mem_keys] at hdefined
    exact List.mem_append.mpr hdefined
  exact List.any_eq_true.mpr ⟨candidate, hmem, decide_eq_true rfl⟩

end Environment

namespace Counters

variable {env : Environment} {wanted : Name} {c : Counters}

theorem taken_next_self (c : Counters) (wanted : Name) :
    (c.next wanted).2.taken wanted = c.taken wanted + 1 := by
  rw [taken_next, if_pos rfl]

/-- The search goes on to the first number that is free, and so does the search within a bound that
reaches this number. -/
theorem search_of_first {k : Nat} (hroom : c.taken wanted + k + 1 < UInt32.size)
    (hblocked : ∀ j < k, env.blocks (Name.numbered wanted.root (c.taken wanted + j)) = true)
    (hfree : env.blocks (Name.numbered wanted.root (c.taken wanted + k)) = false) {skips : Nat}
    (hk : k ≤ skips) :
    Search env wanted c (k + 1) (freeName env.blocks skips c wanted).1
      (freeName env.blocks skips c wanted).2 ∧
      (freeName env.blocks skips c wanted).2.taken wanted = c.taken wanted + (k + 1) := by
  induction k generalizing c skips with
  | zero =>
    have hfirst : freeName env.blocks skips c wanted = c.next wanted := by
      cases skips with
      | zero => rfl
      | succ skips =>
        rw [freeName]
        exact if_neg fun hblocked => Bool.noConfusion (hblocked.symm.trans hfree)
    rw [hfirst]
    exact ⟨.found hroom hfree, taken_next_self c wanted⟩
  | succ k ih =>
    obtain ⟨skips, rfl⟩ : ∃ n, skips = n + 1 := ⟨skips - 1, by omega⟩
    have hfirst : env.blocks (c.next wanted).1 = true := hblocked 0 (Nat.succ_pos k)
    have hrest : freeName env.blocks (skips + 1) c wanted =
        freeName env.blocks skips (c.next wanted).2 wanted := by
      rw [freeName]
      exact if_pos hfirst
    -- the other numbers are counted from the next one on
    have hnext (j : Nat) : (c.next wanted).2.taken wanted + j = c.taken wanted + (j + 1) := by
      rw [taken_next_self]
      omega
    have hskips : k ≤ skips := by omega
    obtain ⟨hsearch, htaken⟩ := ih (c := (c.next wanted).2) (by rw [hnext]; exact hroom)
      (fun j hj => by rw [hnext]; exact hblocked (j + 1) (by omega))
        (by rw [hnext]; exact hfree) hskips
    rw [hrest, htaken, hnext]
    exact ⟨.skip (by omega) hfirst hsearch, rfl⟩

/-- A search has one outcome. -/
theorem Search.unique {c' c'' : Counters} {candidates candidates' : Nat} {name name' : Name}
    (h : Search env wanted c candidates name c') (h' : Search env wanted c candidates' name' c'') :
    candidates = candidates' ∧ name = name' ∧ c' = c'' := by
  induction h generalizing candidates' with
  | found _ hfree =>
    cases h' with
    | found => exact ⟨rfl, rfl, rfl⟩
    | skip _ hblocked => exact absurd (hblocked.symm.trans hfree) Bool.noConfusion
  | skip _ hblocked _ ih =>
    cases h' with
    | found _ hfree => exact absurd (hblocked.symm.trans hfree) Bool.noConfusion
    | skip _ _ hrest =>
      obtain ⟨rfl, hname, hcounters⟩ := ih hrest
      exact ⟨rfl, hname, hcounters⟩

end Counters

/-- A request searches for the first name that is not blocked. -/
theorem freshName_eq (s : Session) (wanted : Name) :
    freshName wanted s = ((s.counters.freeName s.env.blocks s.env.names.length wanted).1,
      { s with counters := (s.counters.freeName s.env.blocks s.env.names.length wanted).2 }) := by
  have hblocks : (fun candidate : Name => s.env.usesTarget candidate.target) = s.env.blocks :=
    funext fun candidate => (s.env.blocks_eq candidate).symm
  rw [freshName, hblocks]

/-- **A request for a name ends soon.** Let the counter of the root leave room for as many
candidates as there are registered names, where the name of both a type and a value counts once, and
one more. Then the request takes at most so many, and ends with the name and the counters of the one
search there is. Every registered name blocks at most one number of the root. -/
theorem freshName_search_bounded (s : Session) (wanted : Name)
    (hcounter : s.counters.taken wanted < UInt32.size - s.env.names.toFinset.card - 1) :
    ∃ candidates ≤ s.env.names.toFinset.card + 1,
      s.counters.Search s.env wanted candidates (freshName wanted s).1
        (freshName wanted s).2.counters ∧
      (freshName wanted s).2.counters.taken wanted = s.counters.taken wanted + candidates ∧
      (∀ candidates' name c', s.counters.Search s.env wanted candidates' name c' →
        candidates' = candidates ∧ name = (freshName wanted s).1 ∧
          c' = (freshName wanted s).2.counters) ∧
      ∀ registered ∈ s.env.names, ∀ j k, registered.target = (Name.numbered wanted.root j).target →
        registered.target = (Name.numbered wanted.root k).target → j = k := by
  obtain ⟨free, hle, hfree⟩ := s.env.exists_unused_number wanted (s.counters.taken wanted)
  rw [← s.env.blocks_eq] at hfree
  have hexists : ∃ k, s.env.blocks (Name.numbered wanted.root (s.counters.taken wanted + k)) =
    false := ⟨free, hfree⟩
  have hfirst : Nat.find hexists ≤ s.env.names.toFinset.card :=
    (Nat.find_min' hexists hfree).trans hle
  -- the search stops at the first number that is free
  have hblocked : ∀ j < Nat.find hexists,
      s.env.blocks (Name.numbered wanted.root (s.counters.taken wanted + j)) = true := fun j hj =>
    Bool.eq_true_of_not_eq_false (Nat.find_min hexists hj)
  obtain ⟨hsearch, htaken⟩ := Counters.search_of_first (by omega) hblocked (Nat.find_spec hexists)
    (hfirst.trans (List.toFinset_card_le s.env.names))
  rw [freshName_eq]
  refine ⟨_, Nat.succ_le_succ hfirst, hsearch, htaken,
    fun candidates' name c' h => h.unique hsearch, ?_⟩
  intro registered _ j k hj hk
  have hroot := Name.mark_notMem_root wanted
  exact (Name.target_numbered_injective hroot hroot (hj.symm.trans hk)).2

/-- A session in which `x_0` is the name of a type and of a variable, and `x@1` that of a
variable. -/
def crowded : Session :=
  { env := Environment.addValue
      (Environment.addValue
        (Environment.addData {} { name := "x_0", typeParams := [], constructors := [] })
        (.var { name := "x_0", span := Span.generated, ty := none }))
      (.var { name := "x@1", span := Span.generated, ty := none }) }

/-- Both names are in the way, so a name like `x@7` takes three candidates of the root `x`. -/
theorem crowded_search_bounded :
    crowded.env.names.toFinset.card = 2 ∧ (freshName "x@7" crowded).1 = "x@2" ∧
      crowded.counters.Search crowded.env "x@7" 3 "x@2" (freshName "x@7" crowded).2.counters := by
  have hname : (freshName "x@7" crowded).1 = "x@2" := by decide
  have htaken : (freshName "x@7" crowded).2.counters.taken "x@7" = 3 := by decide
  obtain ⟨candidates, _, hsearch, hcount, _⟩ := freshName_search_bounded crowded "x@7" (by decide)
  have hstart : crowded.counters.taken "x@7" = 0 := by decide
  obtain rfl : candidates = 3 := by omega
  exact ⟨by decide, hname, hname ▸ hsearch⟩

end StructRec
