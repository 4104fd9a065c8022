import Mathlib.Data.Finset.Card
import StructRec.Proofs.StrongClasses

/-!
# StructRec — the emission by counters is greedy

An emission keeps a counter for every class, the users of every class and a set of ready classes,
and changes them a little at each step. What they mean is said once, and kept by every step:

* **`Waiting.Counted`** — every counter is the number of classes that the class waits for. It holds
  before the first edge, and **`Counted.link`** says that each edge keeps it, however many edges
  lead from one class to another.
* **`Emission.Counts`** — every counter is the number of classes that the class waits for and that
  have not been emitted, and the ready classes are those with the counter at zero.
  **`Counts.step`** is the step, and **`Counts.run`** the run.
* **`Graph.ready_iff_pendingOf`** — a counter is at zero if the class is ready as the edges of the
  graph have it. So of the classes that are ready the one with the earliest position is emitted,
  which is the rule `Graph.GreedyFrom`, and the emission does not end before all are.
* **`Graph.emit_spec`** — from every listing of the classes, all are emitted by this rule.
-/

namespace StructRec

/-! ## Ascending lists -/

/-- Any two values are equal or one is less. -/
structure TotalOrdering {α : Type} (less : α → α → Bool) : Prop where
  trans : ∀ a b c, less a b = true → less b c = true → less a c = true
  eq_of_not : ∀ a b, less a b = false → less b a = false → a = b

section InsertAscending

variable {α : Type} {less : α → α → Bool}

/-- Inserting adds one element at most. -/
theorem mem_insertAscending (h : TotalOrdering less) {a x : α} {xs : List α} :
    x ∈ insertAscending less a xs ↔ x = a ∨ x ∈ xs := by
  induction xs with
  | nil => simp [insertAscending]
  | cons b rest ih =>
    unfold insertAscending
    split
    · exact List.mem_cons
    · next hab =>
      split
      · rw [List.mem_cons, List.mem_cons, ih, or_left_comm]
      · next hba =>
        obtain rfl : a = b := h.eq_of_not a b (by simpa using hab) (by simpa using hba)
        rw [List.mem_cons, ← or_assoc, or_self]

/-- Inserting keeps a list in ascending order. -/
theorem pairwise_insertAscending (h : TotalOrdering less) (a : α) {xs : List α}
    (hxs : xs.Pairwise fun x y => less x y = true) :
    (insertAscending less a xs).Pairwise fun x y => less x y = true := by
  induction xs with
  | nil => exact List.pairwise_singleton _ a
  | cons b rest ih =>
    obtain ⟨hb, hrest⟩ := List.pairwise_cons.mp hxs
    unfold insertAscending
    split
    · next hab =>
      refine List.pairwise_cons.mpr ⟨fun x hx => ?_, hxs⟩
      rcases List.mem_cons.mp hx with rfl | hx
      · exact hab
      · exact h.trans a b x hab (hb x hx)
    · split
      · next hba =>
        refine List.pairwise_cons.mpr ⟨fun x hx => ?_, ih hrest⟩
        rcases (mem_insertAscending h).mp hx with rfl | hx
        · exact hba
        · exact hb x hx
      · exact hxs

end InsertAscending

theorem totalOrdering_lt : TotalOrdering fun a b : Nat => decide (a < b) where
  trans a b c := by simpa using Nat.lt_trans
  eq_of_not a b hab hba := by
    rw [decide_eq_false_iff_not] at hab hba
    omega

namespace Dependency

variable {next : ReadyClass}

/-- Ready classes are compared by first member, then by number. -/
theorem totalOrdering_before : TotalOrdering ReadyClass.before where
  trans a b c := by
    simp only [ReadyClass.before, Bool.or_eq_true, Bool.and_eq_true, decide_eq_true_eq]
    omega
  eq_of_not a b hab hba := by
    obtain ⟨first, id⟩ := a
    obtain ⟨first', id'⟩ := b
    simp only [ReadyClass.before, Bool.or_eq_false_iff, Bool.and_eq_false_iff,
      decide_eq_false_iff_not] at hab hba
    rw [ReadyClass.mk.injEq]
    omega

/-- Sorting keeps the positions and puts them in order, each once. -/
theorem ascending_spec (positions : List Nat) :
    (∀ i, i ∈ ascending positions ↔ i ∈ positions) ∧ (ascending positions).Pairwise (· < ·) := by
  have hfold : ∀ sorted : List Nat, sorted.Pairwise (fun i j => decide (i < j) = true) →
      (∀ i, i ∈ positions.foldl (fun sorted i => insertAscending (· < ·) i sorted) sorted ↔
        i ∈ sorted ∨ i ∈ positions) ∧
      (positions.foldl (fun sorted i => insertAscending (· < ·) i sorted) sorted).Pairwise
        fun i j => decide (i < j) = true := by
    induction positions with
    | nil => exact fun sorted h => ⟨fun i => (or_iff_left List.not_mem_nil).symm, h⟩
    | cons k rest ih =>
      intro sorted h
      obtain ⟨hmem, hpairwise⟩ := ih _ (pairwise_insertAscending totalOrdering_lt k h)
      refine ⟨fun i => ?_, hpairwise⟩
      rw [List.foldl_cons, hmem, mem_insertAscending totalOrdering_lt, List.mem_cons, or_assoc,
        or_left_comm]
  obtain ⟨hmem, hpairwise⟩ := hfold [] List.Pairwise.nil
  exact ⟨fun i => (hmem i).trans (or_iff_right List.not_mem_nil),
    hpairwise.imp fun h => of_decide_eq_true h⟩

/-! ## Counting the classes that a class waits for -/

namespace Waiting

variable {user dep : Nat}

/-- The classes that a class waits for. -/
def awaited (w : Waiting) (count user : Nat) : Finset Nat :=
  (Finset.range count).filter (user ∈ w.usersOf ·)

/-- Every counter is the number of classes that the class waits for. -/
structure Counted (w : Waiting) (count : Nat) : Prop where
  users_length : w.users.length = count
  pending_length : w.pending.length = count
  ascending : ∀ dep, (w.usersOf dep).Pairwise fun a b => decide (a < b) = true
  users_lt : ∀ dep, ∀ user ∈ w.usersOf dep, user < count ∧ dep < count ∧ user ≠ dep
  counts : ∀ user < count, w.pending[user]?.getD 0 = (w.awaited count user).card

variable {w : Waiting} {count : Nat}

theorem usersOf_idle (count id : Nat) : (idle count).usersOf id = [] := by
  unfold usersOf idle
  rw [List.getElem?_replicate]
  split <;> rfl

/-- At first no class waits for any. -/
theorem counted_idle (count : Nat) : (idle count).Counted count where
  users_length := List.length_replicate
  pending_length := List.length_replicate
  ascending dep := by
    rw [usersOf_idle]
    exact .nil
  users_lt dep user h := by
    rw [usersOf_idle] at h
    cases h
  counts user h := by
    have hnone : (idle count).awaited count user = ∅ := by
      refine Finset.filter_false_of_mem fun dep _ => ?_
      rw [usersOf_idle]
      exact List.not_mem_nil
    rw [hnone, Finset.card_empty, idle, List.getElem?_replicate, if_pos h, Option.getD_some]

/-- A link makes one class a user of one other, and changes no other users. -/
theorem mem_usersOf_link (hdep : dep < w.users.length) {user' dep' : Nat} :
    user' ∈ (w.link user dep).usersOf dep' ↔
      user' ∈ w.usersOf dep' ∨ user ≠ dep ∧ user' = user ∧ dep' = dep := by
  unfold link
  split
  · next hnew =>
    rw [usersOf, List.getElem?_modify]
    by_cases heq : dep = dep'
    · subst heq
      rw [usersOf, List.getElem?_eq_getElem hdep]
      simp [mem_insertAscending totalOrdering_lt, hnew.1, or_comm]
    · simp [usersOf, heq, Ne.symm heq]
  · next hold =>
    refine ⟨.inl, fun h => ?_⟩
    rcases h with h | ⟨hne, rfl, rfl⟩
    · exact h
    · by_contra hnot
      exact hold ⟨hne, hnot⟩

/-- One edge adds one class to those awaited. -/
theorem awaited_link (hdep : dep < w.users.length) (hcount : dep < count) (user' : Nat) :
    (w.link user dep).awaited count user' =
      if user ≠ dep ∧ user' = user then insert dep (w.awaited count user')
      else w.awaited count user' := by
  ext dep'
  unfold awaited
  split <;> grind [mem_usersOf_link]

/-- **An edge is counted once**: a class that waits for another one already is not counted again. -/
theorem Counted.link (h : w.Counted count) (huser : user < count) (hdep : dep < count) :
    (w.link user dep).Counted count := by
  have hdep' : dep < w.users.length := h.users_length ▸ hdep
  have hcounts : ∀ user' < count, (w.link user dep).pending[user']?.getD 0 =
      ((w.link user dep).awaited count user').card := by
    intro user' huser'
    rw [awaited_link hdep' hdep]
    unfold Waiting.link
    split
    · next hnew =>
      rw [List.getElem?_modify]
      have hsome := List.getElem?_eq_getElem (h.pending_length ▸ huser')
      have hold := h.counts user' huser'
      rw [hsome, Option.getD_some] at hold
      by_cases heq : user = user'
      · -- the new class is counted, and it was not before
        subst heq
        have hnot : dep ∉ w.awaited count user := fun hmem => hnew.2 (Finset.mem_filter.mp hmem).2
        rw [if_pos ⟨hnew.1, rfl⟩, Finset.card_insert_of_notMem hnot, ← hold, hsome]
        simp
      · rw [if_neg fun hcase => heq hcase.2.symm, ← hold, hsome]
        simp [heq]
    · -- an edge seen before changes nothing
      next hknown =>
      rw [h.counts user' huser']
      split
      · next hcase =>
        have hmem : dep ∈ w.awaited count user' := by
          refine Finset.mem_filter.mpr ⟨Finset.mem_range.mpr hdep, ?_⟩
          by_contra hnot
          exact hknown ⟨hcase.1, hcase.2 ▸ hnot⟩
        rw [Finset.insert_eq_of_mem hmem]
      · rfl
  refine ⟨?_, ?_, fun dep' => ?_, fun dep' user' hmem => ?_, hcounts⟩
  · unfold Waiting.link
    split
    · exact (List.length_modify ..).trans h.users_length
    · exact h.users_length
  · unfold Waiting.link
    split
    · exact (List.length_modify ..).trans h.pending_length
    · exact h.pending_length
  · unfold Waiting.link
    split
    · -- the user is put in its place among the users of `dep`
      rw [usersOf, List.getElem?_modify]
      by_cases heq : dep = dep'
      · subst heq
        have hold := h.ascending dep
        rw [usersOf, List.getElem?_eq_getElem hdep', Option.getD_some] at hold
        rw [List.getElem?_eq_getElem hdep']
        simpa using pairwise_insertAscending totalOrdering_lt user hold
      · simpa [heq, usersOf] using h.ascending dep'
    · exact h.ascending dep'
  · rcases (mem_usersOf_link hdep').mp hmem with hmem | ⟨hne, rfl, rfl⟩
    · exact h.users_lt dep' user' hmem
    · exact ⟨huser, hdep, hne⟩

/-- All edges together. -/
theorem Counted.links (h : w.Counted count) {edges : List (Nat × Nat)}
    (hlt : ∀ edge ∈ edges, edge.1 < count ∧ edge.2 < count) :
    (edges.foldl (fun w edge => w.link edge.1 edge.2) w).Counted count ∧ ∀ user dep,
      user ∈ (edges.foldl (fun w edge => w.link edge.1 edge.2) w).usersOf dep ↔
        user ∈ w.usersOf dep ∨ user ≠ dep ∧ (user, dep) ∈ edges := by
  induction edges generalizing w with
  | nil => exact ⟨h, fun user dep => by simp⟩
  | cons edge rest ih =>
    obtain ⟨hedge, hrest⟩ := List.forall_mem_cons.mp hlt
    obtain ⟨hcounted, husers⟩ := ih (h.link hedge.1 hedge.2) hrest
    refine ⟨hcounted, fun user dep => ?_⟩
    rw [List.foldl_cons, husers, mem_usersOf_link (h.users_length ▸ hedge.2), List.mem_cons,
      Prod.ext_iff]
    grind

end Waiting

/-! ## One step of an emission -/

namespace Emission

variable {firsts : List Nat} {w : Waiting} {e e' : Emission}

/-- What the counters and the ready classes of an emission say. -/
structure Counts (firsts : List Nat) (w : Waiting) (e : Emission) : Prop where
  length : e.pending.length = firsts.length
  nodup : e.emitted.Nodup
  emitted_lt : ∀ id ∈ e.emitted, id < firsts.length
  /-- Every counter is the number of classes that the class waits for and that are not emitted. -/
  counts : ∀ user < firsts.length,
    e.pendingOf user = ((w.awaited firsts.length user).filter (· ∉ e.emitted)).card
  /-- Emitted classes waited for emitted classes only. -/
  served : ∀ id ∈ e.emitted, e.pendingOf id = 0
  /-- The ready classes are those with the counter at zero that are not emitted. -/
  ready_iff : ∀ c, c ∈ e.ready ↔ c.id < firsts.length ∧ c.id ∉ e.emitted ∧
    e.pendingOf c.id = 0 ∧ c.first = firsts[c.id]?.getD 0
  ascending : e.ready.Pairwise fun a b => a.before b = true

/-- What becomes of an emission when some classes wait for one class less. -/
structure Released (firsts users : List Nat) (e e' : Emission) : Prop where
  emitted : e'.emitted = e.emitted
  length : e'.pending.length = e.pending.length
  pendingOf : ∀ id,
    e'.pendingOf id = if id ∈ users then e.pendingOf id - 1 else e.pendingOf id
  ready_iff : ∀ c, c ∈ e'.ready ↔ c ∈ e.ready ∨
    c.id ∈ users ∧ e.pendingOf c.id - 1 = 0 ∧ c.first = firsts[c.id]?.getD 0
  ascending : (e.ready.Pairwise fun a b => a.before b = true) →
    e'.ready.Pairwise fun a b => a.before b = true

theorem mem_ready_addReady (firsts : List Nat) (e : Emission) (id : Nat) (c : ReadyClass) :
    c ∈ (e.addReady firsts id).ready ↔
      c ∈ e.ready ∨ c.id = id ∧ c.first = firsts[c.id]?.getD 0 := by
  rw [addReady, mem_insertAscending totalOrdering_before, or_comm, or_congr_right]
  rw [ReadyClass.mk.injEq]
  grind

/-- **One user** that waits no more becomes ready. -/
theorem released_release {user : Nat} (hlt : user < e.pending.length) :
    Released firsts [user] e (release firsts e user) := by
  have hpending : ∀ id, (e.pending.set user (e.pendingOf user - 1))[id]?.getD 0 =
      if id ∈ [user] then e.pendingOf id - 1 else e.pendingOf id := by
    intro id
    rw [List.getElem?_set]
    simp only [List.mem_singleton]
    by_cases h : user = id
    · subst h
      rw [if_pos rfl, if_pos rfl, if_pos hlt, Option.getD_some]
    · rw [if_neg h, if_neg (Ne.symm h)]
      rfl
  unfold release
  dsimp only
  split
  · -- the user waits for nothing more and takes its place among the ready ones
    next hzero =>
    refine ⟨rfl, List.length_set, hpending, fun c => ?_, fun h => ?_⟩
    · rw [mem_ready_addReady, List.mem_singleton]
      refine or_congr_right ⟨fun h => ⟨h.1, h.1 ▸ hzero, h.2⟩, fun h => ⟨h.1, h.2.2⟩⟩
    · exact pairwise_insertAscending totalOrdering_before _ h
  · next hzero =>
    refine ⟨rfl, List.length_set, hpending, fun c => ?_, id⟩
    refine (or_iff_left fun h => hzero ?_).symm
    exact List.mem_singleton.mp h.1 ▸ h.2.1

/-- Releasing the users of a class, each once. -/
theorem released_foldl {users : List Nat} (hnodup : users.Nodup)
    (hlt : ∀ user ∈ users, user < e.pending.length) :
    Released firsts users e (users.foldl (release firsts) e) := by
  induction users generalizing e with
  | nil => exact ⟨rfl, rfl, fun id => by simp, fun c => by simp, id⟩
  | cons user rest ih =>
    obtain ⟨huser, hrest⟩ := List.forall_mem_cons.mp hlt
    obtain ⟨hnot, hnodup⟩ := List.nodup_cons.mp hnodup
    have hone : Released firsts [user] e (release firsts e user) := released_release huser
    have hlater := ih hnodup (e := release firsts e user) fun u hu => hone.length ▸ hrest u hu
    -- the counters of the later users are not touched by the first release
    have hsame : ∀ id ∈ rest, (release firsts e user).pendingOf id = e.pendingOf id := by
      intro id hid
      rw [hone.pendingOf, if_neg]
      rw [List.mem_singleton]
      rintro rfl
      exact hnot hid
    refine ⟨hlater.emitted.trans hone.emitted, hlater.length.trans hone.length, fun id => ?_,
      fun c => ?_, fun h => hlater.ascending (hone.ascending h)⟩
    · rw [List.foldl_cons, hlater.pendingOf]
      by_cases hid : id ∈ rest
      · rw [if_pos hid, if_pos (List.mem_cons_of_mem _ hid), hsame id hid]
      · rw [if_neg hid, hone.pendingOf]
        simp [hid]
    · rw [List.foldl_cons, hlater.ready_iff, hone.ready_iff, or_assoc, List.mem_singleton,
        List.mem_cons]
      refine or_congr_right ⟨?_, ?_⟩
      · rintro (⟨hid, h⟩ | ⟨hid, h⟩)
        · exact ⟨.inl hid, h⟩
        · exact ⟨.inr hid, hsame _ hid ▸ h⟩
      · rintro ⟨hid | hid, h⟩
        · exact .inl ⟨hid, h⟩
        · exact .inr ⟨hid, (hsame _ hid).symm ▸ h⟩

/-- Adding ready classes changes nothing else. -/
theorem foldl_addReady (firsts ids : List Nat) (e : Emission) :
    (ids.foldl (·.addReady firsts ·) e).pending = e.pending ∧
    (ids.foldl (·.addReady firsts ·) e).emitted = e.emitted ∧
    (∀ c, c ∈ (ids.foldl (·.addReady firsts ·) e).ready ↔
      c ∈ e.ready ∨ c.id ∈ ids ∧ c.first = firsts[c.id]?.getD 0) ∧
    ((e.ready.Pairwise fun a b => a.before b = true) →
      (ids.foldl (·.addReady firsts ·) e).ready.Pairwise fun a b => a.before b = true) := by
  induction ids generalizing e with
  | nil => exact ⟨rfl, rfl, fun c => by simp, id⟩
  | cons id rest ih =>
    obtain ⟨hpending, hemitted, hready, hascending⟩ := ih (e.addReady firsts id)
    refine ⟨hpending, hemitted, fun c => ?_, fun h => hascending ?_⟩
    · rw [List.foldl_cons, hready, mem_ready_addReady, List.mem_cons]
      grind
    · exact pairwise_insertAscending totalOrdering_before _ h

theorem emitted_start (firsts : List Nat) (w : Waiting) : (start firsts w).emitted = [] :=
  (foldl_addReady firsts _ _).2.1

/-- Before the first step. -/
theorem counts_start (hw : w.Counted firsts.length) : (start firsts w).Counts firsts w := by
  obtain ⟨hpending, _, hready, hascending⟩ := foldl_addReady firsts
    ((List.range firsts.length).filter
      (({ pending := w.pending, ready := [] } : Emission).pendingOf · = 0))
    { pending := w.pending, ready := [] }
  have hpendingOf : ∀ id, (start firsts w).pendingOf id = w.pending[id]?.getD 0 := fun id =>
    congrArg (·[id]?.getD 0) hpending
  have hnone := emitted_start firsts w
  refine ⟨(congrArg List.length hpending).trans hw.pending_length, by rw [hnone]; exact .nil,
    by simp [hnone], fun user huser => ?_, by simp [hnone], fun c => ?_, hascending .nil⟩
  · rw [hpendingOf, hw.counts user huser, hnone]
    simp
  · refine (hready c).trans ?_
    rw [hnone, hpendingOf, List.mem_filter, List.mem_range, decide_eq_true_eq]
    simp [pendingOf, and_assoc]

/-- A class that waits for none is ready until it is emitted. -/
theorem Counts.mem_ready (h : e.Counts firsts w) {id : Nat} (hlt : id < firsts.length)
    (hnot : id ∉ e.emitted) (hzero : e.pendingOf id = 0) :
    ⟨firsts[id]?.getD 0, id⟩ ∈ e.ready := (h.ready_iff _).mpr ⟨hlt, hnot, hzero, rfl⟩

/-- **No counter is lowered below zero**: it counts the class that is emitted. -/
theorem Counts.pendingOf_pos (hw : w.Counted firsts.length) (h : e.Counts firsts w)
    (hnext : next ∈ e.ready) {user : Nat} (huser : user ∈ w.usersOf next.id) :
    0 < e.pendingOf user := by
  obtain ⟨hlt, hnot, _⟩ := (h.ready_iff next).mp hnext
  rw [h.counts user (hw.users_lt _ _ huser).1, Finset.card_pos]
  refine ⟨next.id, Finset.mem_filter.mpr ⟨?_, hnot⟩⟩
  exact Finset.mem_filter.mpr ⟨Finset.mem_range.mpr hlt, huser⟩

/-- One class less to wait for, if it was waited for. -/
theorem card_filter_concat (s : Finset Nat) {emitted : List Nat} {id : Nat} (h : id ∉ emitted) :
    (s.filter (· ∉ emitted ++ [id])).card =
      if id ∈ s then (s.filter (· ∉ emitted)).card - 1 else (s.filter (· ∉ emitted)).card := by
  have herase : s.filter (· ∉ emitted ++ [id]) = (s.filter (· ∉ emitted)).erase id := by
    ext dep
    simp only [Finset.mem_filter, Finset.mem_erase, List.mem_append, List.mem_singleton, not_or]
    tauto
  rw [herase]
  split
  · next hmem => exact Finset.card_erase_of_mem (Finset.mem_filter.mpr ⟨hmem, h⟩)
  · next hmem => rw [Finset.erase_eq_of_notMem fun hid => hmem (Finset.mem_filter.mp hid).1]

/-- No class is ready twice. -/
theorem Counts.id_ne_of_mem_rest (h : e.Counts firsts w) {rest : List ReadyClass}
    (hready : e.ready = next :: rest) {c : ReadyClass} (hc : c ∈ rest) : c.id ≠ next.id := by
  have hascending := h.ascending
  rw [hready] at hascending
  have hbefore := (List.pairwise_cons.mp hascending).1 c hc
  have hfirst := ((h.ready_iff c).mp (hready ▸ List.mem_cons_of_mem next hc)).2.2.2
  have hnext := ((h.ready_iff next).mp (hready ▸ List.mem_cons_self)).2.2.2
  -- with the same number they would have the same first position, too
  intro heq
  rw [heq, ← hnext] at hfirst
  simp [ReadyClass.before, heq, hfirst] at hbefore

/-- **A step keeps the counts.** The counters of the users of the emitted class come down by one,
and these are the classes for which one class less is left to wait for. -/
theorem Counts.step (hw : w.Counted firsts.length) (h : e.Counts firsts w) {next : ReadyClass}
    {rest : List ReadyClass} (hready : e.ready = next :: rest)
    (hstep : e.step? firsts w = some e') :
    e'.emitted = e.emitted ++ [next.id] ∧ e'.Counts firsts w := by
  have hnext : next ∈ e.ready := hready ▸ List.mem_cons_self
  obtain ⟨hlt, hnot, hzero, _⟩ := (h.ready_iff next).mp hnext
  have husers := hw.users_lt next.id
  have hpos : ∀ user ∈ w.usersOf next.id, 0 < e.pendingOf user := fun user =>
    h.pendingOf_pos hw hnext
  have hself : next.id ∉ w.usersOf next.id := fun hmem => (husers _ hmem).2.2 rfl
  -- a user of the emitted class has waited for it, so it is not emitted itself
  have huser_not : ∀ user ∈ w.usersOf next.id, user ∉ e.emitted := fun user huser hmem =>
    absurd (h.served user hmem) (Nat.ne_of_gt (hpos user huser))
  have hnodup : (w.usersOf next.id).Nodup :=
    (hw.ascending next.id).imp fun hab => Nat.ne_of_lt (of_decide_eq_true hab)
  unfold step? at hstep
  rw [hready] at hstep
  have hreleased : Released firsts (w.usersOf next.id)
      { e with ready := rest, emitted := e.emitted ++ [next.id] } e' :=
    Option.some.inj hstep ▸ released_foldl hnodup fun user huser =>
      h.length.symm ▸ (husers user huser).1
  have hemitted : e'.emitted = e.emitted ++ [next.id] := hreleased.emitted
  have hpendingOf : ∀ id, e'.pendingOf id =
      if id ∈ w.usersOf next.id then e.pendingOf id - 1 else e.pendingOf id := hreleased.pendingOf
  refine ⟨hemitted, hreleased.length.trans h.length, ?_, ?_, fun user huser => ?_, ?_, fun c => ?_,
    hreleased.ascending ?_⟩
  · rw [hemitted, ← List.concat_eq_append]
    exact h.nodup.concat hnot
  · rw [hemitted, List.forall_mem_append]
    exact ⟨h.emitted_lt, List.forall_mem_singleton.mpr hlt⟩
  · -- a user waits for one class less, others for as many as before
    rw [hpendingOf, hemitted, card_filter_concat _ hnot, ← h.counts user huser]
    simp [Waiting.awaited, hlt]
  · rw [hemitted, List.forall_mem_append, List.forall_mem_singleton]
    refine ⟨fun id hid => ?_, ?_⟩
    · rw [hpendingOf, if_neg fun huser => huser_not id huser hid]
      exact h.served id hid
    · rw [hpendingOf, if_neg hself]
      exact hzero
  · -- ready are the classes left over and those just released
    rw [hreleased.ready_iff, hemitted, hpendingOf, List.mem_append, List.mem_singleton]
    have hold := h.ready_iff c
    rw [hready, List.mem_cons] at hold
    constructor
    · rintro (hc | ⟨huser, hleft, hfirst⟩)
      · obtain ⟨hclt, hcnot, hczero, hcfirst⟩ := hold.mp (.inr hc)
        have hcuser : c.id ∉ w.usersOf next.id := fun huser => absurd hczero (hpos _ huser).ne'
        rw [if_neg hcuser]
        exact ⟨hclt, not_or.mpr ⟨hcnot, h.id_ne_of_mem_rest hready hc⟩, hczero, hcfirst⟩
      · rw [if_pos huser]
        refine ⟨(husers _ huser).1, not_or.mpr ⟨huser_not _ huser, ?_⟩, hleft, hfirst⟩
        exact (husers _ huser).2.2
    · rintro ⟨hclt, hcnot, hczero, hcfirst⟩
      obtain ⟨hcnot, hne⟩ := not_or.mp hcnot
      split at hczero
      · next huser => exact .inr ⟨huser, hczero, hcfirst⟩
      · refine .inl ((hold.mpr ⟨hclt, hcnot, hczero, hcfirst⟩).resolve_left fun heq => hne ?_)
        rw [heq]
  · have hascending := h.ascending
    rw [hready] at hascending
    exact (List.pairwise_cons.mp hascending).2

/-- **A run keeps the counts**, however many steps it takes. -/
theorem Counts.run (hw : w.Counted firsts.length) (h : e.Counts firsts w) (steps : Nat) :
    (e.run firsts w steps).Counts firsts w := by
  induction steps generalizing e with
  | zero => exact h
  | succ steps ih =>
    unfold Emission.run
    cases hstep : e.step? firsts w with
    | none => exact h
    | some e' =>
      cases hready : e.ready with
      | nil =>
        rw [step?, hready] at hstep
        cases hstep
      | cons next rest => exact ih (h.step hw hready hstep).2

end Emission

/-! ## The classes of a graph -/

namespace Graph

variable {g : Graph} {classes : List (List Nat)}
variable {id i : Nat}

/-- The positions of the class with this number. -/
def membersOf (classes : List (List Nat)) (id : Nat) : List Nat := classes[id]?.getD []

theorem membersOf_mem (h : i ∈ membersOf classes id) :
    id < classes.length ∧ classes[id]? = some (membersOf classes id) := by
  unfold membersOf at *
  cases hid : classes[id]? with
  | none =>
    rw [hid] at h
    cases h
  | some members => exact ⟨(List.getElem?_eq_some_iff.mp hid).1, rfl⟩

theorem membersOf_mem_classes (hperm : classes.Perm g.classes) (h : id < classes.length) :
    membersOf classes id ∈ g.classes := by
  rw [membersOf, List.getElem?_eq_getElem h, Option.getD_some]
  exact hperm.mem_iff.mp (List.getElem_mem h)

/-- A position is in one class only. -/
theorem eq_of_mem_membersOf (hg : g.Bounded) (hperm : classes.Perm g.classes) {a b : Nat}
    (ha : i ∈ membersOf classes a) (hb : i ∈ membersOf classes b) : a = b := by
  obtain ⟨halt, hasome⟩ := membersOf_mem ha
  obtain ⟨hblt, hbsome⟩ := membersOf_mem hb
  have heq := disjoint_classes hg (membersOf_mem_classes hperm halt)
    (membersOf_mem_classes hperm hblt) ha hb
  have hnodup : classes.Nodup := hperm.nodup_iff.mpr (nodup_classes g)
  refine (List.getElem?_inj halt hnodup).mp ?_
  rw [hasome, hbsome, heq]

/-- Every declaration is in some class. -/
theorem exists_membersOf (hg : g.Bounded) (hperm : classes.Perm g.classes) (hi : i < g.size) :
    ∃ id, i ∈ membersOf classes id := by
  obtain ⟨id, hid⟩ := List.getElem?_of_mem (hperm.mem_iff.mpr (classAt_mem_classes hg hi))
  refine ⟨id, ?_⟩
  rw [membersOf, hid]
  exact (mem_classAt hg hi).mpr ⟨hi, Linked.refl i⟩

/-! ## The classes wait as the edges have it -/

/-- The list of edges has them all. -/
theorem mem_edgeList {j : Nat} : (i, j) ∈ g.edgeList ↔ g.hasEdge i j = true := by
  rw [hasEdge_iff, successors, edgeList, List.mem_flatMap]
  constructor
  · rintro ⟨edges, hedges, hmem⟩
    obtain ⟨k, hk, heq⟩ := List.mem_map.mp hmem
    obtain ⟨rfl, rfl⟩ := Prod.mk.inj heq
    rw [List.mem_zipIdx_iff_getElem?] at hedges
    rw [hedges]
    exact hk
  · intro hmem
    cases hi : g.edges[i]? with
    | none =>
      rw [hi] at hmem
      cases hmem
    | some targets =>
      rw [hi] at hmem
      exact ⟨(targets, i), List.mem_zipIdx_iff_getElem?.mpr hi, List.mem_map_of_mem hmem⟩

/-- The positions of a class get its number, and no other position does. -/
theorem getElem?_foldl_set (members : List Nat) (id : Nat) {numbers : List Nat}
    (hi : i < numbers.length) : (members.foldl (·.set · id) numbers)[i]? =
      if i ∈ members then some id else numbers[i]? := by
  induction members generalizing numbers with
  | nil => simp
  | cons k rest ih =>
    rw [List.foldl_cons, ih (by rwa [List.length_set]), List.getElem?_set]
    grind

theorem length_foldl_set (members : List Nat) (id : Nat) (numbers : List Nat) :
    (members.foldl (·.set · id) numbers).length = numbers.length := by
  induction members generalizing numbers with
  | nil => rfl
  | cons k rest ih => rw [List.foldl_cons, ih, List.length_set]

/-- Where all classes with a position have one number, the position gets it. -/
theorem getElem?_numbers {cs : List (List Nat × Nat)} {numbers : List Nat} (hi : i < numbers.length)
    (hall : ∀ c ∈ cs, i ∈ c.1 → c.2 = id) (hsome : (∃ c ∈ cs, i ∈ c.1) ∨ numbers[i]? = some id) :
    (cs.foldl (fun numbers c => c.1.foldl (·.set · c.2) numbers) numbers)[i]? = some id := by
  induction cs generalizing numbers with
  | nil => exact hsome.resolve_left fun hnone => by simp at hnone
  | cons c rest ih =>
    obtain ⟨hc, hrest⟩ := List.forall_mem_cons.mp hall
    rw [List.foldl_cons]
    refine ih (by rwa [length_foldl_set]) hrest ?_
    rw [getElem?_foldl_set c.1 c.2 hi]
    by_cases hmem : i ∈ c.1
    · rw [if_pos hmem, hc hmem]
      exact .inr rfl
    · rw [if_neg hmem]
      simpa [hmem] using hsome

/-- A declaration has the number of its class. -/
theorem classNumbers_eq (hg : g.Bounded) (hperm : classes.Perm g.classes)
    (h : i ∈ membersOf classes id) : (g.classNumbers classes)[i]?.getD 0 = id := by
  obtain ⟨hlt, hsome⟩ := membersOf_mem h
  have hi : i < g.size := (classes_eq_classAt hg (membersOf_mem_classes hperm hlt) h).1
  rw [classNumbers, getElem?_numbers (by rwa [List.length_replicate]) (fun c hc hmem => ?_)
    (.inl ⟨(_, id), List.mem_zipIdx_iff_getElem?.mpr hsome, h⟩), Option.getD_some]
  refine eq_of_mem_membersOf hg hperm (i := i) ?_ h
  rw [membersOf, List.mem_zipIdx_iff_getElem?.mp hc]
  exact hmem

/-- One class waits for another one. -/
def Waits (g : Graph) (classes : List (List Nat)) (user dep : Nat) : Prop :=
  user ≠ dep ∧ ∃ i ∈ membersOf classes user, ∃ j ∈ membersOf classes dep, g.hasEdge i j = true

/-- **The counters of a graph**, and who waits for whom. -/
theorem waiting_spec (hg : g.Bounded) (hperm : classes.Perm g.classes) :
    (g.waiting classes).Counted classes.length ∧
      ∀ user dep, user ∈ (g.waiting classes).usersOf dep ↔ g.Waits classes user dep := by
  have hnumber : ∀ {i id}, i ∈ membersOf classes id → (g.classNumbers classes)[i]?.getD 0 = id :=
    classNumbers_eq hg hperm
  have hlt : ∀ edge ∈ g.edgeList.map fun edge => ((g.classNumbers classes)[edge.1]?.getD 0,
      (g.classNumbers classes)[edge.2]?.getD 0),
        edge.1 < classes.length ∧ edge.2 < classes.length := by
    intro edge hedge
    obtain ⟨⟨i, j⟩, hij, rfl⟩ := List.mem_map.mp hedge
    obtain ⟨hi, hj⟩ := hg i j (mem_edgeList.mp hij)
    obtain ⟨a, ha⟩ := exists_membersOf hg hperm hi
    obtain ⟨b, hb⟩ := exists_membersOf hg hperm hj
    rw [hnumber ha, hnumber hb]
    exact ⟨(membersOf_mem ha).1, (membersOf_mem hb).1⟩
  -- one link for every edge, between the numbers of its classes
  obtain ⟨hcounted, husers⟩ := (Waiting.counted_idle classes.length).links hlt
  rw [List.foldl_map] at hcounted husers
  refine ⟨hcounted, fun user dep => (husers user dep).trans ?_⟩
  rw [Waiting.usersOf_idle, or_iff_right List.not_mem_nil, Waits, List.mem_map]
  refine and_congr_right fun _ => ⟨?_, ?_⟩
  · rintro ⟨⟨i, j⟩, hij, heq⟩
    obtain ⟨hi, hj⟩ := hg i j (mem_edgeList.mp hij)
    obtain ⟨a, ha⟩ := exists_membersOf hg hperm hi
    obtain ⟨b, hb⟩ := exists_membersOf hg hperm hj
    rw [hnumber ha, hnumber hb] at heq
    obtain ⟨rfl, rfl⟩ := Prod.mk.inj heq
    exact ⟨i, ha, j, hb, mem_edgeList.mp hij⟩
  · rintro ⟨i, hi, j, hj, hedge⟩
    exact ⟨(i, j), mem_edgeList.mpr hedge, by rw [hnumber hi, hnumber hj]⟩

/-! ## The emission of a graph -/

/-- Each class is ready when its turn comes, and no later one that is ready has an earlier first
position. -/
def GreedyFrom (g : Graph) : List Nat → List (List Nat) → Prop
  | _, [] => True
  | listed, c :: rest =>
    g.Ready listed c ∧ (∀ c' ∈ rest, g.Ready listed c' → c.headD 0 ≤ c'.headD 0) ∧
      g.GreedyFrom (listed ++ c) rest

/-- The invariant of an emission of the classes of a graph. -/
def Emits (g : Graph) (classes : List (List Nat)) (e : Emission) : Prop :=
  e.Counts (classes.map (·.headD 0)) (g.waiting classes)

/-- The positions of the classes with these numbers. -/
def positionsOf (classes : List (List Nat)) (ids : List Nat) : List Nat :=
  ids.flatMap (membersOf classes)

variable {e : Emission}

/-- **A counter is at zero exactly if the class is ready.** -/
theorem ready_iff_pendingOf (hg : g.Bounded) (hperm : classes.Perm g.classes)
    (h : g.Emits classes e) (hid : id < classes.length) :
    g.Ready (positionsOf classes e.emitted) (membersOf classes id) ↔ e.pendingOf id = 0 := by
  have hlength : (classes.map (·.headD 0)).length = classes.length := List.length_map _
  have hwaits := (waiting_spec hg hperm).2
  -- what is left to wait for are the classes not yet emitted
  have hzero : e.pendingOf id = 0 ↔ ∀ dep, g.Waits classes id dep → dep ∈ e.emitted := by
    rw [h.counts id (hlength.symm ▸ hid), Finset.card_eq_zero, Finset.filter_eq_empty_iff]
    refine ⟨fun hall dep hdep => ?_, fun hall dep hdep => ?_⟩
    · by_contra hnot
      refine hall (Finset.mem_filter.mpr ⟨?_, (hwaits id dep).mpr hdep⟩) hnot
      obtain ⟨_, _, _, j, hj, _⟩ := hdep
      exact Finset.mem_range.mpr (hlength.symm ▸ (membersOf_mem hj).1)
    · exact not_not.mpr (hall dep ((hwaits id dep).mp (Finset.mem_filter.mp hdep).2))
  rw [hzero]
  constructor
  · rintro hready dep ⟨hne, i, hi, j, hj, hedge⟩
    rcases hready i hi j hedge with hmem | hmem
    · exact absurd (eq_of_mem_membersOf hg hperm hmem hj) hne
    · obtain ⟨dep', hdep', hj'⟩ := List.mem_flatMap.mp hmem
      rwa [eq_of_mem_membersOf hg hperm hj hj']
  · intro hall i hi j hedge
    obtain ⟨dep, hj⟩ := exists_membersOf hg hperm (hg i j hedge).2
    by_cases heq : id = dep
    · exact .inl (heq ▸ hj)
    · exact .inr (List.mem_flatMap.mpr ⟨dep, hall dep ⟨heq, i, hi, j, hj, hedge⟩, hj⟩)

/-- **The emission does not end early**: as long as a class is not emitted, one is ready. -/
theorem exists_next (hg : g.Bounded) (hperm : classes.Perm g.classes) (h : g.Emits classes e)
    (hlt : e.emitted.length < classes.length) : ∃ next rest, e.ready = next :: rest := by
  have hlength : (classes.map (·.headD 0)).length = classes.length := List.length_map _
  -- a class that is not emitted, with a position of it
  obtain ⟨id₀, hid₀, hnot₀⟩ : ∃ id < classes.length, id ∉ e.emitted := by
    by_contra! hall
    have hsub : List.range classes.length ⊆ e.emitted := fun id hid =>
      hall id (List.mem_range.mp hid)
    have hle := (List.nodup_range.subperm hsub).length_le
    rw [List.length_range] at hle
    omega
  have hclass₀ := membersOf_mem_classes hperm hid₀
  obtain ⟨i₀, hi₀⟩ := List.exists_mem_of_ne_nil _ (nonempty_of_mem_classes hclass₀)
  have hi₀not : i₀ ∉ positionsOf classes e.emitted := fun hmem => by
    obtain ⟨id, hid, hi⟩ := List.mem_flatMap.mp hmem
    exact hnot₀ (eq_of_mem_membersOf hg hperm hi₀ hi ▸ hid)
  obtain ⟨c, hc, ⟨i, hi, hinot⟩, hready⟩ :=
    exists_ready hg (classes_eq_classAt hg hclass₀ hi₀).1 hi₀not
  obtain ⟨id, hid⟩ := List.getElem?_of_mem (hperm.mem_iff.mpr hc)
  have hmembers : membersOf classes id = c := by rw [membersOf, hid, Option.getD_some]
  have hidlt := (List.getElem?_eq_some_iff.mp hid).1
  have hidnot : id ∉ e.emitted := fun hmem =>
    hinot (List.mem_flatMap.mpr ⟨id, hmem, hmembers.symm ▸ hi⟩)
  have hzero := (ready_iff_pendingOf hg hperm h hidlt).mp (hmembers.symm ▸ hready)
  have hmem := h.mem_ready (hlength.symm ▸ hidlt) hidnot hzero
  exact List.exists_cons_of_ne_nil (List.ne_nil_of_mem hmem)

/-- **Each step emits the ready class with the earliest position.** -/
theorem first_le (hg : g.Bounded) (hperm : classes.Perm g.classes) (h : g.Emits classes e)
    {rest : List ReadyClass} (hready : e.ready = next :: rest) (hid : id < classes.length)
    (hnot : id ∉ e.emitted)
    (hother : g.Ready (positionsOf classes e.emitted) (membersOf classes id)) :
    (membersOf classes next.id).headD 0 ≤ (membersOf classes id).headD 0 := by
  have hlength : (classes.map (·.headD 0)).length = classes.length := List.length_map _
  have hfirst : ∀ id, (classes.map (·.headD 0))[id]?.getD 0 = (membersOf classes id).headD 0 := by
    intro id
    rw [List.getElem?_map, membersOf]
    cases classes[id]? <;> rfl
  have hzero := (ready_iff_pendingOf hg hperm h hid).mp hother
  have hmem := h.mem_ready (hlength.symm ▸ hid) hnot hzero
  have hnext := ((h.ready_iff next).mp (hready ▸ List.mem_cons_self)).2.2.2
  have hascending := h.ascending
  rw [hready] at hmem hascending
  rw [← hfirst next.id, ← hnext, ← hfirst id]
  rcases List.mem_cons.mp hmem with heq | hmem
  · rw [← heq]
  · have hbefore := (List.pairwise_cons.mp hascending).1 _ hmem
    simp only [ReadyClass.before, Bool.or_eq_true, Bool.and_eq_true, decide_eq_true_eq] at hbefore
    omega

/-- **The run of an emission** emits the classes that are left, by the greedy rule. -/
theorem run_greedy (hg : g.Bounded) (hperm : classes.Perm g.classes) (steps : Nat) :
    ∀ e : Emission, g.Emits classes e → e.emitted.length + steps = classes.length →
      ∃ later, (e.run (classes.map (·.headD 0)) (g.waiting classes) steps).emitted
          = e.emitted ++ later ∧ later.length = steps ∧
        g.GreedyFrom (positionsOf classes e.emitted) (later.map (membersOf classes)) := by
  have hlength : (classes.map (·.headD 0)).length = classes.length := List.length_map _
  have hcounted := (waiting_spec hg hperm).1
  rw [← hlength] at hcounted
  induction steps with
  | zero => exact fun e _ _ => ⟨[], (List.append_nil _).symm, rfl, trivial⟩
  | succ steps ih =>
    intro e h hlen
    obtain ⟨next, rest, hready⟩ := exists_next hg hperm h (by omega)
    obtain ⟨e', hstep⟩ : ∃ e', e.step? (classes.map (·.headD 0)) (g.waiting classes) = some e' := by
      rw [Emission.step?, hready]
      exact ⟨_, rfl⟩
    obtain ⟨hemitted, h'⟩ := h.step hcounted hready hstep
    obtain ⟨later, hlater, hlaterLength, hgreedy⟩ := ih e' h' (by
      rw [hemitted, List.length_append, List.length_singleton]
      omega)
    have hend := h'.run hcounted steps
    obtain ⟨hnextlt, _, hzero, _⟩ := (h.ready_iff next).mp (hready ▸ List.mem_cons_self)
    rw [hlength] at hnextlt
    refine ⟨next.id :: later, ?_, congrArg (· + 1) hlaterLength,
      (ready_iff_pendingOf hg hperm h hnextlt).mpr hzero, fun c' hc' hother => ?_, ?_⟩
    · rw [Emission.run, hstep, hlater, hemitted, List.append_assoc]
      rfl
    · -- what is emitted later is not emitted yet
      obtain ⟨id, hid, rfl⟩ := List.mem_map.mp hc'
      have hnodup := hend.nodup
      rw [hlater, hemitted, List.append_assoc] at hnodup
      refine first_le hg hperm h hready ?_ (fun hmem => ?_) hother
      · rw [← hlength]
        exact hend.emitted_lt id (hlater ▸ List.mem_append_right _ hid)
      · exact List.disjoint_of_nodup_append hnodup hmem (List.mem_append_right _ hid)
    · rw [hemitted, positionsOf, List.flatMap_append, List.flatMap_singleton] at hgreedy
      exact hgreedy

theorem emits_start (hg : g.Bounded) (hperm : classes.Perm g.classes) :
    g.Emits classes (Emission.start (classes.map (·.headD 0)) (g.waiting classes)) :=
  Emission.counts_start (by rw [List.length_map]; exact (waiting_spec hg hperm).1)

/-- **The counters are right at every step** of an emission. -/
theorem emits (hg : g.Bounded) (hperm : classes.Perm g.classes) (steps : Nat) :
    g.Emits classes (g.emission classes steps) :=
  (emits_start hg hperm).run (by rw [List.length_map]; exact (waiting_spec hg hperm).1) steps

/-- The numbers of the classes are all emitted, and the classes by the greedy rule. -/
theorem emission_spec (hg : g.Bounded) (hperm : classes.Perm g.classes) :
    (g.emission classes classes.length).emitted.Perm (List.range classes.length) ∧
      g.GreedyFrom [] ((g.emission classes classes.length).emitted.map (membersOf classes)) := by
  have hlength : (classes.map (·.headD 0)).length = classes.length := List.length_map _
  have hstart := emits_start hg hperm
  have hnone := Emission.emitted_start (classes.map (·.headD 0)) (g.waiting classes)
  obtain ⟨later, hlater, hlaterLength, hgreedy⟩ := run_greedy hg hperm classes.length _ hstart (by
    rw [hnone, List.length_nil, Nat.zero_add])
  rw [hnone, List.nil_append] at hlater
  have hend := emits hg hperm classes.length
  rw [emission] at hend ⊢
  have hsub : later ⊆ List.range classes.length := fun id hid => by
    rw [List.mem_range, ← hlength]
    exact hend.emitted_lt id (hlater ▸ hid)
  have hnodup : later.Nodup := hlater ▸ hend.nodup
  rw [hlater]
  refine ⟨(hnodup.subperm hsub).perm_of_length_le ?_, ?_⟩
  · rw [List.length_range, hlaterLength]
  · rwa [hnone] at hgreedy

/-- The counter of a class that waits for the one emitted next can be lowered. -/
theorem pendingOf_emission_pos (hg : g.Bounded) (hperm : classes.Perm g.classes) {steps : Nat}
    (hnext : next ∈ (g.emission classes steps).ready) {user : Nat}
    (huser : user ∈ (g.waiting classes).usersOf next.id) :
    user < classes.length ∧ 0 < (g.emission classes steps).pendingOf user := by
  have hcounted := (waiting_spec hg hperm).1
  refine ⟨(hcounted.users_lt _ _ huser).1, ?_⟩
  exact (emits hg hperm steps).pendingOf_pos (by rwa [List.length_map]) hnext huser

/-- With as many steps as classes the emission has come to its end. -/
theorem ready_emission_eq_nil (hg : g.Bounded) (hperm : classes.Perm g.classes) :
    (g.emission classes classes.length).ready = [] := by
  refine List.eq_nil_iff_forall_not_mem.mpr fun next hnext => ?_
  obtain ⟨hlt, hnot, _⟩ := ((emits hg hperm classes.length).ready_iff next).mp hnext
  rw [List.length_map] at hlt
  exact hnot ((emission_spec hg hperm).1.mem_iff.mpr (List.mem_range.mpr hlt))

theorem map_membersOf_range (classes : List (List Nat)) :
    (List.range classes.length).map (membersOf classes) = classes := by
  refine List.ext_getElem (by simp) fun id hid _ => ?_
  have hlt : id < classes.length := by simpa using hid
  simp [membersOf, List.getElem?_eq_getElem hlt]

/-- **All classes are emitted, by the greedy rule**, in whatever order they are listed, and whatever
the order of the positions in each of them. -/
theorem emit_spec (hg : g.Bounded) {listing : List (List Nat)}
    (hperm : (listing.map ascending).Perm g.classes) :
    (g.emit listing).Perm g.classes ∧ g.GreedyFrom [] (g.emit listing) := by
  unfold emit
  generalize listing.map ascending = classes at hperm ⊢
  obtain ⟨hids, hgreedy⟩ := emission_spec hg hperm
  have hmap : (g.emission classes classes.length).emitted.filterMap (classes[·]?) =
      (g.emission classes classes.length).emitted.map (membersOf classes) := by
    rw [← List.filterMap_eq_map]
    refine List.filterMap_congr fun id hid => ?_
    have hlt := List.mem_range.mp (hids.mem_iff.mp hid)
    rw [Function.comp_apply, membersOf, List.getElem?_eq_getElem hlt, Option.getD_some]
  rw [hmap]
  refine ⟨((hids.map _).trans ?_).trans hperm, hgreedy⟩
  rw [map_membersOf_range]

end Graph

end Dependency

end StructRec
