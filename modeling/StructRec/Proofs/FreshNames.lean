import Mathlib.Data.Finset.Card
import Mathlib.Data.List.Nodup
import Mathlib.Data.List.TakeWhile
import Mathlib.Order.Basic
import StructRec.Session

/-!
# StructRec — generated names are new

The counters split the names in two. A name is *settled* if no later request can generate it: it has
no mark, or its number was taken already. Counters never go down, so a settled name stays settled. A
generated name was not settled before it was generated and is settled afterwards; it therefore
differs from every name that was around.
-/

namespace StructRec

variable {wanted n : Name} {s s' : Session}

/-! ## Spellings of generated names -/

namespace Name

variable {r : Name} {j k : Nat}

theorem mark_notMem_root (n : Name) : '@' ∉ (root n).toList := by
  rw [root, String.toList_ofList]
  intro h
  have hall := List.all_eq_true.mp (List.all_takeWhile (l := n.toList) (p := (· != '@'))) '@' h
  simp at hall

theorem toList_numbered (r : Name) (k : Nat) :
    (numbered r k).toList = r.toList ++ '@' :: Nat.toDigits 10 k := by
  rw [numbered, String.toList_append, String.toList_append, Nat.toList_repr]
  simp

/-- Numbering a root does not change it. -/
theorem root_numbered (h : '@' ∉ r.toList) (k : Nat) : (numbered r k).root = r := by
  have hall : ∀ c ∈ r.toList, (c != '@') = true := by
    intro c hc
    rw [bne_iff_ne]
    rintro rfl
    exact h hc
  rw [root, toList_numbered, List.takeWhile_append_of_pos hall]
  simp

theorem isMarked_numbered (r : Name) (k : Nat) : (numbered r k).isMarked = true := by
  rw [isMarked, toList_numbered]
  simp

theorem toDigits_injective (h : Nat.toDigits 10 j = Nat.toDigits 10 k) : j = k := by
  have hparse := congrArg (Nat.ofDigitChars 10 · 0) h
  simpa using hparse

/-- Numbers tell names of one root apart. -/
theorem numbered_injective (h : numbered r j = numbered r k) : j = k := by
  have hlist := congrArg String.toList h
  rw [toList_numbered, toList_numbered] at hlist
  exact toDigits_injective (List.cons.inj (List.append_cancel_left hlist)).2

theorem map_target {cs : List Char} (h : '@' ∉ cs) :
    cs.map (fun c => if c = '@' then '_' else c) = cs := by
  refine (List.map_congr_left fun c hc => ?_).trans (List.map_id _)
  have hne : c ≠ '@' := fun heq => h (heq ▸ hc)
  exact if_neg hne

/-- A name without a mark is spelled alike in both languages. -/
theorem root_of_unmarked (h : n.isMarked = false) : n.root = n := by
  have hunmarked : '@' ∉ n.toList := by simpa [isMarked] using h
  have hall : n.toList.takeWhile (· != '@') = n.toList := by
    rw [List.takeWhile_eq_self_iff]
    intro c hc
    rw [bne_iff_ne]
    exact fun heq => hunmarked (heq ▸ hc)
  rw [root, hall, String.ofList_toList]

/-- An unmarked name is spelled as it is. -/
theorem target_of_unmarked (h : n.isMarked = false) : n.target = n := by
  have hmark : '@' ∉ n.toList := by
    intro hmem
    rw [isMarked, List.contains_iff_mem.mpr hmem] at h
    cases h
  rw [target, map_target hmark, String.ofList_toList]

/-- The mark of a generated name is the last underscore of its target spelling, since no digit is
one. -/
theorem toList_target_numbered (h : '@' ∉ r.toList) (k : Nat) :
    (numbered r k).target.toList = r.toList ++ '_' :: Nat.toDigits 10 k ∧
      '_' ∉ Nat.toDigits 10 k := by
  have hdigit : ∀ c ∈ Nat.toDigits 10 k, c.isDigit = true := fun c hc =>
    Nat.isDigit_of_mem_toDigits (by decide) (by decide) hc
  have hmark : '@' ∉ Nat.toDigits 10 k := fun hmem => absurd (hdigit _ hmem) (by decide)
  refine ⟨?_, fun hmem => absurd (hdigit _ hmem) (by decide)⟩
  rw [target, String.toList_ofList, toList_numbered, List.map_append, List.map_cons, map_target h,
    map_target hmark]
  rfl

/-- A list is cut at the last occurrence of an element in one way only. -/
theorem append_cons_cancel {α : Type} {a : α} {xs xs' ys ys' : List α}
    (h : xs ++ a :: ys = xs' ++ a :: ys') (hys : a ∉ ys) (hys' : a ∉ ys') :
    xs = xs' ∧ ys = ys' := by
  rcases List.append_eq_append_iff.mp h with ⟨zs, rfl, hzs⟩ | ⟨zs, rfl, hzs⟩
  · cases zs with
    | nil => exact ⟨(List.append_nil _).symm, (List.cons.inj hzs).2⟩
    | cons z zs =>
      refine absurd ?_ hys
      rw [(List.cons.inj hzs).2]
      exact List.mem_append_right _ List.mem_cons_self
  · cases zs with
    | nil => exact ⟨List.append_nil _, (List.cons.inj hzs).2.symm⟩
    | cons z zs =>
      refine absurd ?_ hys'
      rw [(List.cons.inj hzs).2]
      exact List.mem_append_right _ List.mem_cons_self

/-- Generated names differ in the target spelling too. -/
theorem target_numbered_injective {r' : Name} (hr : '@' ∉ r.toList) (hr' : '@' ∉ r'.toList)
    (h : (numbered r j).target = (numbered r' k).target) : r = r' ∧ j = k := by
  obtain ⟨hlist, hdigits⟩ := toList_target_numbered hr j
  obtain ⟨hlist', hdigits'⟩ := toList_target_numbered hr' k
  rw [h, hlist'] at hlist
  obtain ⟨hroot, hnumber⟩ := append_cons_cancel hlist hdigits' hdigits
  exact ⟨String.toList_injective hroot.symm, toDigits_injective hnumber.symm⟩

end Name

/-! ## Settled names -/

namespace Counters

variable {c : Counters}

/-- Counters grow if no root has fewer names taken afterwards. -/
instance : Preorder Counters where
  le c c' := ∀ n, c.taken n ≤ c'.taken n
  le_refl _ _ := Nat.le_refl _
  le_trans _ _ _ h h' n := Nat.le_trans (h n) (h' n)

/-- No later request can generate the name. -/
def Settled (c : Counters) (n : Name) : Prop := ∀ k, n = Name.numbered n.root k → k < c.taken n

theorem Settled.mono {c' : Counters} (h : c.Settled n) (hle : c ≤ c') : c'.Settled n :=
  fun k hk => Nat.lt_of_lt_of_le (h k hk) (hle n)

/-- A name without a mark is never generated. -/
theorem settled_of_unmarked (h : n.isMarked = false) : c.Settled n := by
  intro k hk
  rw [hk, Name.isMarked_numbered] at h
  cases h

theorem taken_numbered (c : Counters) (wanted : Name) (k : Nat) :
    c.taken (Name.numbered wanted.root k) = c.taken wanted := by
  rw [taken, taken, Name.root_numbered (Name.mark_notMem_root wanted)]

/-- A numbered name is in use if its number has been taken. -/
theorem settled_numbered_iff {k : Nat} :
    c.Settled (Name.numbered wanted.root k) ↔ k < c.taken wanted := by
  unfold Settled
  rw [taken_numbered, Name.root_numbered (Name.mark_notMem_root wanted)]
  constructor
  · intro h
    exact h k rfl
  · intro h j hj
    exact (Name.numbered_injective hj) ▸ h

/-! ## The search for a free name -/

theorem taken_next (c : Counters) (wanted n : Name) :
    (c.next wanted).2.taken n = if wanted.root = n.root then c.taken wanted + 1 else c.taken n := by
  simp only [next, taken, Table.get?_insert]
  split <;> rfl

theorem le_next (c : Counters) (wanted : Name) : c ≤ (c.next wanted).2 := by
  intro n
  rw [taken_next]
  split
  · next hroot =>
    rw [show c.taken n = c.taken wanted by rw [taken, taken, hroot]]
    exact Nat.le_succ _
  · exact Nat.le_refl _

/-- The search takes a number that was not taken, and all numbers up to it. -/
theorem freeName_spec (isUsed : Name → Bool) (skips : Nat) (c : Counters) (wanted : Name) :
    c ≤ (freeName isUsed skips c wanted).2 ∧
      ∃ k, (freeName isUsed skips c wanted).1 = Name.numbered wanted.root k ∧ c.taken wanted ≤ k ∧
        k < (freeName isUsed skips c wanted).2.taken wanted := by
  induction skips generalizing c with
  | zero =>
    refine ⟨le_next c wanted, c.taken wanted, rfl, Nat.le_refl _, ?_⟩
    rw [freeName, taken_next, if_pos rfl]
    exact Nat.lt_succ_self _
  | succ skips ih =>
    have htaken : (c.next wanted).2.taken wanted = c.taken wanted + 1 := by
      rw [taken_next, if_pos rfl]
    unfold freeName
    simp only
    split
    · obtain ⟨hle, k, hname, hk, hlt⟩ := ih (c.next wanted).2
      exact ⟨(le_next c wanted).trans hle, k, hname, by omega, hlt⟩
    · exact ⟨le_next c wanted, c.taken wanted, rfl, Nat.le_refl _, htaken ▸ Nat.lt_succ_self _⟩

/-- If the search ends at a used name, all its candidates are used. -/
theorem isUsed_of_freeName (isUsed : Name → Bool) {skips : Nat}
    (h : isUsed (freeName isUsed skips c wanted).1 = true) (i : Nat) (hi : i ≤ skips) :
    isUsed (Name.numbered wanted.root (c.taken wanted + i)) = true := by
  induction skips generalizing c i with
  | zero =>
    obtain rfl : i = 0 := by omega
    exact h
  | succ skips ih =>
    unfold freeName at h
    simp only at h
    split at h
    · next hfirst =>
      cases i with
      | zero => exact hfirst
      | succ i =>
        have hlater := ih h i (by omega)
        rw [taken_next, if_pos rfl] at hlater
        rwa [show c.taken wanted + (i + 1) = c.taken wanted + 1 + i by omega]
    · next hfirst => exact absurd h hfirst

end Counters

/-- Among one more numbers than there are registered names one is free, since every registered name
is spelled like at most one numbered name of a root. -/
theorem Environment.exists_unused_number (env : Environment) (wanted : Name) (start : Nat) :
    ∃ k ≤ env.names.toFinset.card,
      env.usesTarget (Name.numbered wanted.root (start + k)).target = false := by
  by_contra hnone
  let spelled := (Finset.range (env.names.toFinset.card + 1)).image fun k =>
    (Name.numbered wanted.root (start + k)).target
  -- there are more candidates than registered names, and no two are spelled alike
  have hcard : spelled.card = env.names.toFinset.card + 1 := by
    rw [Finset.card_image_of_injective, Finset.card_range]
    intro j k hjk
    have hroot := Name.mark_notMem_root wanted
    have hnumber := (Name.target_numbered_injective hroot hroot hjk).2
    omega
  have hsub : spelled ⊆ env.names.toFinset.image Name.target := by
    intro t ht
    obtain ⟨k, hk, rfl⟩ := Finset.mem_image.mp ht
    have hused : env.usesTarget (Name.numbered wanted.root (start + k)).target = true := by
      by_contra hfree
      exact hnone ⟨k, Nat.lt_succ_iff.mp (Finset.mem_range.mp hk), Bool.not_eq_true _ ▸ hfree⟩
    obtain ⟨n, hn, heq⟩ := List.any_eq_true.mp hused
    exact Finset.mem_image.mpr ⟨n, List.mem_toFinset.mpr hn, of_decide_eq_true heq⟩
  have hle := (Finset.card_le_card hsub).trans Finset.card_image_le
  omega

/-- There are more candidates than registered names, so the name found is not used. -/
theorem usesTarget_freeName (env : Environment) (c : Counters) (wanted : Name) :
    env.usesTarget
      (c.freeName (fun candidate => env.usesTarget candidate.target) env.names.length
        wanted).1.target
      = false := by
  by_contra hused
  rw [Bool.not_eq_false] at hused
  obtain ⟨k, hk, hfree⟩ := env.exists_unused_number wanted (c.taken wanted)
  have hall :=
    Counters.isUsed_of_freeName (fun candidate => env.usesTarget candidate.target) hused k
      (hk.trans (List.toFinset_card_le _))
  simp only [hfree] at hall
  cases hall

/-- **A generated name is new.** Before the request it was not settled, and it is afterwards. No
registered name is spelled like it in the target language, and the request leaves the environment
alone. -/
theorem freshName_spec (h : freshName wanted s = (n, s')) :
    s'.env = s.env ∧ s.counters ≤ s'.counters ∧ ¬ s.counters.Settled n ∧ s'.counters.Settled n ∧
      s.env.usesTarget n.target = false := by
  unfold freshName at h
  obtain ⟨rfl, rfl⟩ := Prod.mk.inj h
  obtain ⟨hle, k, hname, hk, hlt⟩ := Counters.freeName_spec
    (fun candidate => s.env.usesTarget candidate.target) s.env.names.length s.counters wanted
  refine ⟨rfl, hle, ?_, ?_, usesTarget_freeName s.env s.counters wanted⟩
  · rw [hname, Counters.settled_numbered_iff]
    omega
  · rw [hname, Counters.settled_numbered_iff]
    exact hlt

/-- A generated name is a numbered one of the root that was asked for. -/
theorem freshName_numbered (h : freshName wanted s = (n, s')) :
    ∃ k, n = Name.numbered wanted.root k := by
  unfold freshName at h
  obtain ⟨rfl, _⟩ := Prod.mk.inj h
  obtain ⟨_, k, hname, _⟩ := Counters.freeName_spec
    (fun candidate => s.env.usesTarget candidate.target) s.env.names.length s.counters wanted
  exact ⟨k, hname⟩

/-! ## Names generated along a run -/

namespace Counters

/-- Between two states of the counters these names have been generated. -/
structure Draws (c c' : Counters) (names : List Name) : Prop where
  le : c ≤ c'
  new : ∀ n ∈ names, ¬ c.Settled n
  settled : ∀ n ∈ names, c'.Settled n
  nodup : names.Nodup

/-- Two names that can still be generated are equal if the target language spells them alike. -/
theorem eq_of_target {c : Counters} {x y : Name} (hx : ¬ c.Settled x) (hy : ¬ c.Settled y)
    (h : x.target = y.target) : x = y := by
  -- such names are numbered ones of their roots
  obtain ⟨j, hj⟩ := not_forall.mp hx
  obtain ⟨k, hk⟩ := not_forall.mp hy
  obtain ⟨hj, _⟩ := Classical.not_imp.mp hj
  obtain ⟨hk, _⟩ := Classical.not_imp.mp hk
  rw [hj, hk] at h ⊢
  obtain ⟨hroot, rfl⟩ :=
    Name.target_numbered_injective (Name.mark_notMem_root x) (Name.mark_notMem_root y) h
  rw [hroot]

namespace Draws

variable {c c₁ c₂ : Counters} {names later : List Name}

theorem nil (h : c ≤ c₁) : c.Draws c₁ [] :=
  ⟨h, List.forall_mem_nil _, List.forall_mem_nil _, List.nodup_nil⟩

/-- What is generated later is new to what was generated before. -/
theorem append (h : c.Draws c₁ names) (h' : c₁.Draws c₂ later) : c.Draws c₂ (names ++ later) where
  le := h.le.trans h'.le
  new := List.forall_mem_append.mpr ⟨h.new, fun n hn hsettled => h'.new n hn (hsettled.mono h.le)⟩
  settled := List.forall_mem_append.mpr ⟨fun n hn => (h.settled n hn).mono h'.le, h'.settled⟩
  nodup := h.nodup.append h'.nodup fun n hn hlater => h'.new n hlater (h.settled n hn)

theorem perm (h : c.Draws c₁ names) (hperm : names.Perm later) : c.Draws c₁ later where
  le := h.le
  new n hn := h.new n (hperm.mem_iff.mpr hn)
  settled n hn := h.settled n (hperm.mem_iff.mpr hn)
  nodup := hperm.nodup_iff.mp h.nodup

theorem nodup_target (h : c.Draws c₁ names) : (names.map Name.target).Nodup :=
  h.nodup.map_on fun x hx y hy hspelled => eq_of_target (h.new x hx) (h.new y hy) hspelled

end Draws

end Counters

/-- **A fresh name is drawn** from the counters. -/
theorem freshName_draws (h : freshName wanted s = (n, s')) :
    s.counters.Draws s'.counters [n] := by
  obtain ⟨_, hle, hnew, hsettled, _⟩ := freshName_spec h
  exact ⟨hle, List.forall_mem_singleton.mpr hnew, List.forall_mem_singleton.mpr hsettled,
    List.nodup_singleton n⟩

/-- Nothing registered is spelled like a generated name, in either language. -/
theorem freshName_unregistered (h : freshName wanted s = (n, s')) :
    ∀ registered ∈ s.env.names, registered ≠ n ∧ registered.target ≠ n.target := by
  intro registered hmem
  obtain ⟨_, _, _, _, hunused⟩ := freshName_spec h
  have hspelled : registered.target ≠ n.target := fun heq =>
    List.any_eq_false.mp hunused registered hmem (decide_eq_true heq)
  exact ⟨fun heq => hspelled (congrArg Name.target heq), hspelled⟩

end StructRec
