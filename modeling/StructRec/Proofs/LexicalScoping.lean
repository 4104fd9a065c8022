import Mathlib.Data.List.Induction
import Mathlib.Data.Nat.Find
import StructRec.Proofs.Scopes
import StructRec.Proofs.Tables

/-!
# StructRec — nested scopes scope names lexically

A *history* is any sequence of openings, bindings and closings, where closing the bottom does
nothing. It tells by itself which bindings are in force at its end: those made in a scope that has
stayed open since. Of the bindings of a name in one scope the last counts, and of those in several
scopes the one in the innermost. That is what the look-ups of the scopes give, and their visible
bindings come in the order of scopes and, within a scope, of last bindings.
-/

namespace StructRec

variable {α : Type}
variable {scope : Scope α}

/-! ## Histories -/

/-- One operation on nested scopes. -/
inductive ScopeStep (α : Type) where
  | push
  | bind (name : Name) (value : α)
  | pop

namespace ScopeStack

/-- Perform one operation. Closing the bottom changes nothing. -/
def perform (s : ScopeStack α) : ScopeStep α → ScopeStack α
  | .push => s.push
  | .bind name value => s.bind name value
  | .pop =>
    match s.pop? with
    | some (_, rest) => rest
    | none => s

def performAll (s : ScopeStack α) (steps : List (ScopeStep α)) : ScopeStack α :=
  steps.foldl perform s

/-- The scopes at the end of a history that starts with an empty bottom. -/
def ofHistory (history : List (ScopeStep α)) : ScopeStack α := performAll {} history

end ScopeStack

/-- How many scopes are open above the bottom after a step, from how many were open before. -/
def ScopeStep.openAfter : ScopeStep α → Nat → Nat
  | push, count => count + 1
  | bind _ _, count => count
  | pop, count => count - 1

/-- How many scopes are open above the bottom at the end of a history. -/
def openScopes (history : List (ScopeStep α)) : Nat :=
  history.foldl (fun count step => step.openAfter count) 0

/-- At this time of a history the name was bound in the scope that is still open at this depth. -/
structure BindsAt (history : List (ScopeStep α)) (depth time : Nat) (name : Name) (value : α) :
    Prop where
  step : history[time]? = some (.bind name value)
  depth_eq : openScopes (history.take time) = depth
  stays : ∀ later, time ≤ later → later ≤ history.length → depth ≤ openScopes (history.take later)

/-- The name was not bound again in that scope. -/
structure LastBindsAt (history : List (ScopeStep α)) (depth time : Nat) (name : Name) (value : α) :
    Prop
      extends BindsAt history depth time name value where
  last : ∀ later value', BindsAt history depth later name value' → later ≤ time

/-- The scope that is open at this depth binds the name. -/
def BoundAt (history : List (ScopeStep α)) (depth : Nat) (name : Name) : Prop :=
  ∃ time value, BindsAt history depth time name value

/-- Every scope that is opened is closed, and nothing else is. -/
inductive Balanced : List (ScopeStep α) → Prop
  | nil : Balanced []
  | bind (name : Name) (value : α) {rest : List (ScopeStep α)} (h : Balanced rest) :
      Balanced (.bind name value :: rest)
  | nest {inside rest : List (ScopeStep α)} (hinside : Balanced inside) (h : Balanced rest) :
    Balanced (.push :: (inside ++ .pop :: rest))

/-- Scopes in which names mean what the history says: the last binding in the innermost scope that
binds them. -/
structure Lexical (history : List (ScopeStep α)) (s : ScopeStack α) : Prop where
  bindingDepth_iff : ∀ n d, s.bindingDepth n = some d ↔
    BoundAt history d n ∧ ∀ d', d < d' → ¬ BoundAt history d' n
  lookup_iff : ∀ n v, s.lookup n = some v ↔
    ∃ d t, s.bindingDepth n = some d ∧ LastBindsAt history d t n v
  visible_nodup : (s.visible.map Prod.fst).Nodup
  mem_visible : ∀ n v, (n, v) ∈ s.visible ↔ s.lookup n = some v
  /-- Outer scopes first, and the bindings of one scope in the order in which they were last
  made. -/
  visible_ordered : s.visible.Pairwise fun a b =>
    ∃ d t d' t', s.bindingDepth a.1 = some d ∧ s.bindingDepth b.1 = some d' ∧
    LastBindsAt history d t a.1 a.2 ∧ LastBindsAt history d' t' b.1 b.2 ∧ (d < d' ∨ d = d' ∧ t < t')
  refersToBottom_iff : ∀ n, s.refersToBottom n = true ↔
    BoundAt history 0 n ∧ ∀ d, 0 < d → ¬ BoundAt history d n
  /-- What happens in a scope between its opening and its closing is gone afterwards. -/
  pop_balanced : ∀ block, Balanced block → ∃ scope, (s.push.performAll block).pop? = some (scope, s)

/-! ## Bindings in force -/

theorem openScopes_concat (history : List (ScopeStep α)) (step : ScopeStep α) :
    openScopes (history ++ [step]) = step.openAfter (openScopes history) := by
  rw [openScopes, List.foldl_concat]
  rfl

section inForce

variable {history : List (ScopeStep α)} {d t t' : Nat} {n : Name} {v v' : α}

theorem BindsAt.time_lt (h : BindsAt history d t n v) : t < history.length :=
  (List.getElem?_eq_some_iff.mp h.step).1

theorem BindsAt.depth_le (h : BindsAt history d t n v) : d ≤ openScopes history := by
  have hend := h.stays history.length (Nat.le_of_lt h.time_lt) (Nat.le_refl _)
  rwa [List.take_length] at hend

/-- A binding at the end of a history was in force before and its scope is still open, or it has
just been made. -/
theorem bindsAt_concat {step : ScopeStep α} :
    BindsAt (history ++ [step]) d t n v ↔
      (BindsAt history d t n v ∧ d ≤ openScopes (history ++ [step])) ∨
      (step = .bind n v ∧ t = history.length ∧ d = openScopes history) := by
  have htake (k : Nat) (hk : k ≤ history.length) : (history ++ [step]).take k = history.take k :=
    List.take_append_of_le_length hk
  constructor
  · intro h
    have hlt : t < history.length + 1 := by simpa using h.time_lt
    have hdepth := h.depth_eq
    rw [htake t (by omega)] at hdepth
    -- the binding is an old one, or the last step makes it
    rcases Nat.lt_succ_iff_lt_or_eq.mp hlt with hold | rfl
    · refine .inl ⟨⟨?_, hdepth, fun later hle hlater => ?_⟩, h.depth_le⟩
      · rw [← h.step, List.getElem?_append_left hold]
      · have hstays := h.stays later hle (by simp; omega)
        rwa [htake later hlater] at hstays
    · have hstep := h.step
      rw [List.getElem?_concat_length] at hstep
      rw [List.take_length] at hdepth
      exact .inr ⟨Option.some.inj hstep, rfl, hdepth.symm⟩
  · rintro (⟨h, hopen⟩ | ⟨rfl, rfl, rfl⟩)
    · refine ⟨?_, ?_, fun later hle hlater => ?_⟩
      · rw [List.getElem?_append_left h.time_lt, h.step]
      · rw [htake t (Nat.le_of_lt h.time_lt), h.depth_eq]
      · rw [List.length_append, List.length_singleton] at hlater
        rcases Nat.le_or_eq_of_le_succ hlater with hold | rfl
        · rw [htake later hold]
          exact h.stays later hle hold
        · rwa [List.take_of_length_le (by simp)]
    · refine ⟨List.getElem?_concat_length, ?_, fun later hle hlater => ?_⟩
      · rw [htake _ (Nat.le_refl _), List.take_length]
      · rw [List.length_append, List.length_singleton] at hlater
        rcases Nat.le_or_eq_of_le_succ hlater with hold | rfl
        · rw [Nat.le_antisymm hold hle, htake _ (Nat.le_refl _), List.take_length]
        · rw [List.take_of_length_le (by simp), openScopes_concat]
          exact Nat.le_refl _

/-- The last binding in a scope is one binding. -/
theorem LastBindsAt.unique (h : LastBindsAt history d t n v) (h' : LastBindsAt history d t' n v') :
    t = t' ∧ v = v' := by
  obtain rfl := Nat.le_antisymm (h'.last t v h.toBindsAt) (h.last t' v' h'.toBindsAt)
  have hstep := h.step.symm.trans h'.step
  cases hstep
  exact ⟨rfl, rfl⟩

/-- Of the bindings of a name in one scope one is the last. -/
theorem BoundAt.last (h : BoundAt history d n) : ∃ t v, LastBindsAt history d t n v := by
  classical
  obtain ⟨t, v, hbinds⟩ := h
  obtain ⟨v', hgreatest⟩ := Nat.findGreatest_spec (P := fun t => ∃ v, BindsAt history d t n v)
    (Nat.le_of_lt hbinds.time_lt) ⟨v, hbinds⟩
  exact ⟨_, v', hgreatest, fun later value hlater =>
    Nat.le_findGreatest (Nat.le_of_lt hlater.time_lt) ⟨value, hlater⟩⟩

theorem lastBindsAt_congr {history' : List (ScopeStep α)}
    (h : ∀ t n v, BindsAt history' d t n v ↔ BindsAt history d t n v) :
    LastBindsAt history' d t n v ↔ LastBindsAt history d t n v := by
  constructor
  · intro hlast
    exact ⟨(h t n v).mp hlast.toBindsAt,
      fun later value hlater => hlast.last later value ((h later n value).mpr hlater)⟩
  · intro hlast
    exact ⟨(h t n v).mpr hlast.toBindsAt,
      fun later value hlater => hlast.last later value ((h later n value).mp hlater)⟩

/-- Binding a name in the innermost scope replaces its last binding there and no other. -/
theorem lastBindsAt_bind {m : Name} {x : α} :
    LastBindsAt (history ++ [.bind m x]) (openScopes history) t n v ↔
      (n = m ∧ v = x ∧ t = history.length) ∨
        (n ≠ m ∧ LastBindsAt history (openScopes history) t n v) := by
  have hopen : openScopes (history ++ [.bind m x]) = openScopes history := openScopes_concat _ _
  have hbinds {t : Nat} {n : Name} {v : α} :
      BindsAt (history ++ [.bind m x]) (openScopes history) t n v ↔
      BindsAt history (openScopes history) t n v ∨ (n = m ∧ v = x ∧ t = history.length) := by
    rw [bindsAt_concat, hopen, and_iff_left (Nat.le_refl _)]
    grind
  constructor
  · intro h
    by_cases hn : n = m
    · subst hn
      -- a binding that was there before is not the last one any more
      have hle := h.last _ _ (hbinds.mpr (.inr ⟨rfl, rfl, rfl⟩))
      rcases hbinds.mp h.toBindsAt with hold | hnew
      · exact absurd hold.time_lt (by omega)
      · exact .inl hnew
    · refine .inr ⟨hn, ?_⟩
      rcases hbinds.mp h.toBindsAt with hold | hnew
      · exact ⟨hold, fun later value hlater => h.last later value (hbinds.mpr (.inl hlater))⟩
      · exact absurd hnew.1 hn
  · rintro (⟨rfl, rfl, rfl⟩ | ⟨hn, h⟩)
    · refine ⟨hbinds.mpr (.inr ⟨rfl, rfl, rfl⟩), fun later value hlater => ?_⟩
      have hlt := hlater.time_lt
      rw [List.length_append, List.length_singleton] at hlt
      omega
    · refine ⟨hbinds.mpr (.inl h.toBindsAt), fun later value hlater => ?_⟩
      rcases hbinds.mp hlater with hold | hnew
      · exact h.last later value hold
      · exact absurd hnew.1 hn

end inForce

/-! ## Scopes that hold what is in force -/

/-- A scope holds the last bindings at its depth, in their order. -/
structure RecordsAt (history : List (ScopeStep α)) (depth : Nat) (scope : Scope α) : Prop where
  mem_iff : ∀ n v, (n, v) ∈ scope.entries ↔ ∃ t, LastBindsAt history depth t n v
  ordered : scope.entries.Pairwise fun a b =>
    ∀ t t', LastBindsAt history depth t a.1 a.2 → LastBindsAt history depth t' b.1 b.2 → t < t'

/-- Scopes, the innermost first, hold what is in force. The depth of each is the number of those
around it. -/
def RecordsFrom (history : List (ScopeStep α)) : List (Scope α) → Prop
  | [] => True
  | scope :: outer => RecordsAt history outer.length scope ∧ RecordsFrom history outer

/-- As many scopes are open as the history says, and they hold what is in force. -/
structure Records (history : List (ScopeStep α)) (s : ScopeStack α) : Prop where
  depth : s.depth = openScopes history
  scopes : RecordsFrom history s.scopes

section records

variable {history history' : List (ScopeStep α)} {d : Nat}

theorem RecordsAt.congr (h : RecordsAt history d scope)
    (hsame : ∀ t n v, BindsAt history' d t n v ↔ BindsAt history d t n v) :
    RecordsAt history' d scope where
  mem_iff n v := by simp only [h.mem_iff, lastBindsAt_congr hsame]
  ordered := by simpa only [lastBindsAt_congr hsame] using h.ordered

theorem RecordsFrom.congr {scopes : List (Scope α)} (h : RecordsFrom history scopes)
    (hsame : ∀ d < scopes.length, ∀ t n v, BindsAt history' d t n v ↔ BindsAt history d t n v) :
    RecordsFrom history' scopes := by
  induction scopes with
  | nil => trivial
  | cons scope outer ih =>
    exact ⟨h.1.congr (hsame outer.length (Nat.lt_succ_self _)),
      ih h.2 fun d hd => hsame d (Nat.lt_succ_of_lt hd)⟩

/-- A scope that has just been opened is empty, and nothing is in force at its depth. -/
theorem RecordsAt.empty (hd : openScopes history < d) : RecordsAt history d ({} : Scope α) where
  mem_iff n v := by
    refine iff_of_false List.not_mem_nil ?_
    rintro ⟨t, h⟩
    exact absurd h.depth_le (by omega)
  ordered := .nil

/-- **A binding is recorded** in the innermost scope. -/
theorem RecordsAt.bind (h : RecordsAt history (openScopes history) scope) (m : Name) (x : α) :
    RecordsAt (history ++ [.bind m x]) (openScopes history) (scope.bind m x) where
  mem_iff n v := by
    have hentries : (n, v) ∈ (scope.bind m x).entries ↔
        ((n, v) ∈ scope.entries ∧ n ≠ m) ∨ (n = m ∧ v = x) := by
      simp [Scope.bind, Table.erase, Table.filterKeys]
    simp only [hentries, h.mem_iff, lastBindsAt_bind]
    constructor
    · rintro (⟨⟨t, hlast⟩, hn⟩ | ⟨hn, hv⟩)
      · exact ⟨t, .inr ⟨hn, hlast⟩⟩
      · exact ⟨history.length, .inl ⟨hn, hv, rfl⟩⟩
    · rintro ⟨t, ⟨hn, hv, _⟩ | ⟨hn, hlast⟩⟩
      · exact .inr ⟨hn, hv⟩
      · exact .inl ⟨⟨t, hlast⟩, hn⟩
  ordered := by
    have hkept : ∀ entry ∈ (scope.erase m).entries, entry ∈ scope.entries ∧ entry.1 ≠ m := by
      intro entry hentry
      obtain ⟨hmem, hne⟩ := List.mem_filter.mp hentry
      exact ⟨hmem, bne_iff_ne.mp hne⟩
    have hold {entry : Name × α} (hentry : entry ∈ (scope.erase m).entries) {t : Nat}
        (hlast : LastBindsAt (history ++ [.bind m x]) (openScopes history) t entry.1 entry.2) :
        LastBindsAt history (openScopes history) t entry.1 entry.2 := by
      rcases lastBindsAt_bind.mp hlast with ⟨hn, _⟩ | ⟨_, hlast⟩
      · exact absurd hn (hkept entry hentry).2
      · exact hlast
    refine List.pairwise_append.mpr
      ⟨?_, List.pairwise_singleton _ _, fun a ha b hb t t' hta htb => ?_⟩
    · refine (h.ordered.filter _).imp_of_mem fun ha hb hlt t t' hta htb => ?_
      exact hlt t t' (hold ha hta) (hold hb htb)
    · -- the new binding comes after all others
      obtain rfl := List.mem_singleton.mp hb
      rcases lastBindsAt_bind.mp htb with ⟨_, _, rfl⟩ | ⟨hn, _⟩
      · exact (hold ha hta).time_lt
      · exact absurd rfl hn

end records

namespace ScopeStack

theorem length_scopes (s : ScopeStack α) : s.scopes.length = s.depth + 1 := List.length_append

/-- Binding changes the innermost scope, which may be the bottom. -/
theorem scopes_bind (s : ScopeStack α) (n : Name) (x : α) :
    ∃ scope outer, s.scopes = scope :: outer ∧ (s.bind n x).scopes = scope.bind n x :: outer ∧
      (s.bind n x).depth = s.depth := by
  obtain ⟨inner, bottom⟩ := s
  cases inner with
  | nil => exact ⟨bottom, [], rfl, rfl, rfl⟩
  | cons scope rest => exact ⟨scope, rest ++ [bottom], rfl, rfl, rfl⟩

/-- Closing takes the innermost scope away, unless it is the bottom. -/
theorem scopes_pop (s : ScopeStack α) :
    (s.depth = 0 ∧ s.perform .pop = s) ∨
      ∃ scope, s.scopes = scope :: (s.perform .pop).scopes ∧
        s.depth = (s.perform .pop).depth + 1 := by
  obtain ⟨inner, bottom⟩ := s
  cases inner with
  | nil => exact .inl ⟨rfl, rfl⟩
  | cons scope rest => exact .inr ⟨scope, rfl, rfl⟩

end ScopeStack

/-- **One operation** leads from scopes that hold what is in force to such scopes. -/
theorem Records.perform {history : List (ScopeStep α)} {s : ScopeStack α} (h : Records history s)
    (step : ScopeStep α) : Records (history ++ [step]) (s.perform step) := by
  have hlength := s.length_scopes
  have hdepth := h.depth
  -- at the depths that stay open, only a new binding makes a difference
  have hsame {d : Nat} (hd : d ≤ openScopes (history ++ [step]))
      (hstep : ∀ m x, step = .bind m x → d ≠ openScopes history) (t : Nat) (n : Name) (v : α) :
      BindsAt (history ++ [step]) d t n v ↔ BindsAt history d t n v := by
    rw [bindsAt_concat, and_iff_left hd, or_iff_left]
    rintro ⟨hbind, _, hopen⟩
    exact hstep n v hbind hopen
  have hopen := openScopes_concat history step
  cases step with
  | push =>
    have hgrown : openScopes (history ++ [.push]) = openScopes history + 1 := hopen
    refine ⟨?_, ?_, h.scopes.congr fun d hd => hsame (by omega) (fun _ _ hbind => by cases hbind)⟩
    · rw [hgrown, ← hdepth]
      rfl
    · have hempty : RecordsAt history s.scopes.length ({} : Scope α) := .empty (by omega)
      refine hempty.congr ?_
      exact hsame (by rw [hgrown, ← hdepth]; exact Nat.le_of_eq hlength)
        (fun _ _ hbind => by cases hbind)
  | bind m x =>
    have hkept : openScopes (history ++ [.bind m x]) = openScopes history := hopen
    obtain ⟨scope, outer, hscopes, hbound, hdepth'⟩ := s.scopes_bind m x
    rw [hscopes, List.length_cons] at hlength
    have houter : outer.length = openScopes history := by omega
    have hrecords := h.scopes
    rw [hscopes] at hrecords
    refine ⟨?_, ?_⟩
    · rw [hkept, ← hdepth]
      exact hdepth'
    · change RecordsFrom _ (s.bind m x).scopes
      rw [hbound]
      refine ⟨?_, hrecords.2.congr fun d hd => hsame (by omega) fun _ _ _ => by omega⟩
      rw [houter]
      exact (houter ▸ hrecords.1).bind m x
  | pop =>
    have hfallen : openScopes (history ++ [.pop]) = openScopes history - 1 := hopen
    rcases s.scopes_pop with ⟨hbottom, hunchanged⟩ | ⟨scope, hscopes, hdepth'⟩
    · rw [hunchanged]
      refine ⟨by omega, h.scopes.congr fun d hd => hsame (by omega) fun _ _ hbind => by cases hbind⟩
    · have hrecords := h.scopes
      rw [hscopes] at hrecords hlength
      rw [List.length_cons] at hlength
      exact ⟨by omega,
        hrecords.2.congr fun d hd => hsame (by omega) fun _ _ hbind => by cases hbind⟩

/-- **A history** leads to scopes that hold what is in force. -/
theorem records_ofHistory (history : List (ScopeStep α)) :
    Records history (ScopeStack.ofHistory history) := by
  induction history using List.reverseRecOn with
  | nil =>
    refine ⟨rfl, ⟨fun n v => ?_, .nil⟩, trivial⟩
    refine iff_of_false List.not_mem_nil ?_
    rintro ⟨t, h⟩
    exact absurd h.time_lt (Nat.not_lt_zero t)
  | append_singleton history step ih =>
    have hlast : ScopeStack.ofHistory (history ++ [step]) =
        (ScopeStack.ofHistory history).perform step :=
      List.foldl_concat _ _ _ _
    rw [hlast]
    exact ih.perform step

/-! ## Look-ups -/

namespace ScopeStack

/-- The depth of the first of some scopes, the innermost first, that binds a name. -/
def depthIn : List (Scope α) → Name → Option Nat
  | [], _ => none
  | scope :: outer, n => if scope.contains n then some outer.length else depthIn outer n

/-- Depths are counted from the outermost scope. -/
theorem bindingDepth_eq (s : ScopeStack α) (n : Name) : s.bindingDepth n = depthIn s.scopes n := by
  have hfrom (scopes : List (Scope α)) :
      (scopes.findIdx? (·.contains n)).map (scopes.length - 1 - ·) = depthIn scopes n := by
    induction scopes with
    | nil => rfl
    | cons scope outer ih =>
      rw [List.findIdx?_cons, depthIn]
      split
      · rfl
      · rw [← ih, Option.map_map]
        congr 1
        funext i
        simp only [Function.comp, List.length_cons]
        omega
  rw [← hfrom, length_scopes]
  rfl

section lookups

variable {history : List (ScopeStep α)} {scopes : List (Scope α)} {n : Name}

/-- A scope contains the names bound in it. -/
theorem contains_iff_boundAt {d : Nat} (h : RecordsAt history d scope) :
    scope.contains n = true ↔ BoundAt history d n := by
  rw [Table.contains_iff_mem_keys, Table.keys, List.mem_map]
  constructor
  · rintro ⟨⟨m, v⟩, hentry, rfl⟩
    obtain ⟨t, hlast⟩ := (h.mem_iff m v).mp hentry
    exact ⟨t, v, hlast.toBindsAt⟩
  · intro hbound
    obtain ⟨t, v, hlast⟩ := hbound.last
    exact ⟨(n, v), (h.mem_iff n v).mpr ⟨t, hlast⟩, rfl⟩

/-- The depth found is the greatest one at which the name is bound. -/
theorem depthIn_iff (h : RecordsFrom history scopes) (d : Nat) :
    depthIn scopes n = some d ↔
      d < scopes.length ∧ BoundAt history d n ∧ ∀ d', d < d' → d' < scopes.length →
        ¬ BoundAt history d' n := by
  induction scopes with
  | nil => simp [depthIn]
  | cons scope outer ih =>
    rw [depthIn, List.length_cons]
    split
    · next hbound =>
      rw [contains_iff_boundAt h.1] at hbound
      constructor
      · intro heq
        cases heq
        exact ⟨Nat.lt_succ_self _, hbound, fun d' hd' hlt => by omega⟩
      · rintro ⟨hlt, _, hgreatest⟩
        -- the innermost scope binds the name, so none further out is the deepest
        have hle : ¬ d < outer.length := fun hd => hgreatest _ hd (Nat.lt_succ_self _) hbound
        rw [show d = outer.length by omega]
    · next hbound =>
      rw [contains_iff_boundAt h.1] at hbound
      rw [ih h.2]
      constructor
      · rintro ⟨hlt, hd, hgreatest⟩
        refine ⟨by omega, hd, fun d' hd' hlt' => ?_⟩
        rcases Nat.lt_succ_iff_lt_or_eq.mp hlt' with hless | rfl
        · exact hgreatest d' hd' hless
        · exact hbound
      · rintro ⟨hlt, hd, hgreatest⟩
        have hne : d ≠ outer.length := fun heq => hbound (heq ▸ hd)
        exact ⟨by omega, hd, fun d' hd' hlt' => hgreatest d' hd' (by omega)⟩

/-- The value found is that of the last binding at the depth found. -/
theorem findSome?_iff (h : RecordsFrom history scopes) (v : α) :
    scopes.findSome? (·.get? n) = some v ↔
      ∃ d t, depthIn scopes n = some d ∧ LastBindsAt history d t n v := by
  induction scopes with
  | nil => simp [depthIn]
  | cons scope outer ih =>
    rw [List.findSome?_cons, depthIn, Table.contains]
    cases hget : scope.get? n with
    | none => exact ih h.2
    | some w =>
      have hentry := Table.mem_entries_iff.mpr hget
      obtain ⟨t, hlast⟩ := (h.1.mem_iff n w).mp hentry
      constructor
      · intro heq
        cases heq
        exact ⟨outer.length, t, rfl, hlast⟩
      · rintro ⟨d, t', hd, hlast'⟩
        cases hd
        rw [(hlast.unique hlast').2]

theorem mem_visibleFrom_iff_lookup (hidden : Name → Bool) (h : RecordsFrom history scopes) (v : α) :
    (n, v) ∈ visibleFrom hidden scopes ↔
      hidden n = false ∧ scopes.findSome? (·.get? n) = some v := by
  induction scopes generalizing hidden with
  | nil => simp [visibleFrom]
  | cons scope outer ih =>
    have hinner : (n, v) ∈ (scope.filterKeys (!hidden ·)).entries ↔
        hidden n = false ∧ scope.get? n = some v := by
      rw [← Table.mem_entries_iff, Table.filterKeys, List.mem_filter, Bool.not_eq_true', and_comm]
    rw [visibleFrom, List.mem_append, ih _ h.2, hinner, List.findSome?_cons, Table.contains]
    cases scope.get? n <;> simp

/-- **Visible bindings** come with the depths and times of the bindings that they are, in this
order. -/
theorem pairwise_visibleFrom (hidden : Name → Bool) (h : RecordsFrom history scopes) :
    (visibleFrom hidden scopes).Pairwise fun a b =>
      ∃ d t d' t', depthIn scopes a.1 = some d ∧ depthIn scopes b.1 = some d' ∧
      LastBindsAt history d t a.1 a.2 ∧ LastBindsAt history d' t' b.1 b.2 ∧
        (d < d' ∨ d = d' ∧ t < t') := by
  induction scopes generalizing hidden with
  | nil => exact .nil
  | cons scope outer ih =>
    -- where the bindings of the scope itself stand, and those around it that it does not hide
    have hinner : ∀ entry ∈ (scope.filterKeys (!hidden ·)).entries, entry ∈ scope.entries ∧
        depthIn (scope :: outer) entry.1 = some outer.length ∧ ∃ t,
          LastBindsAt history outer.length t entry.1 entry.2 := by
      intro entry hentry
      have hmem := (List.mem_filter.mp hentry).1
      have hkey : scope.contains entry.1 = true :=
        (Table.contains_iff_mem_keys _ _).mpr (List.mem_map_of_mem hmem)
      exact ⟨hmem, by rw [depthIn, if_pos hkey], (h.1.mem_iff _ _).mp hmem⟩
    have houter : ∀ entry ∈ visibleFrom (fun n => hidden n || scope.contains n) outer,
        depthIn (scope :: outer) entry.1 = depthIn outer entry.1 ∧
          ∃ d t, depthIn outer entry.1 = some d ∧ LastBindsAt history d t entry.1 entry.2 := by
      intro entry hentry
      obtain ⟨hhidden, hfound⟩ := (mem_visibleFrom_iff_lookup _ h.2 entry.2).mp hentry
      rw [Bool.or_eq_false_iff] at hhidden
      refine ⟨?_, (findSome?_iff h.2 entry.2).mp hfound⟩
      rw [depthIn, hhidden.2]
      rfl
    rw [visibleFrom]
    refine List.pairwise_append.mpr ⟨?_, ?_, fun a ha b hb => ?_⟩
    · refine (ih _ h.2).imp_of_mem fun {a b} ha hb hordered => ?_
      rw [(houter a ha).1, (houter b hb).1]
      exact hordered
    · refine (h.1.ordered.filter _).imp_of_mem fun {a b} ha hb hlt => ?_
      obtain ⟨_, hda, t, hta⟩ := hinner a ha
      obtain ⟨_, hdb, t', htb⟩ := hinner b hb
      exact ⟨_, t, _, t', hda, hdb, hta, htb, .inr ⟨rfl, hlt t t' hta htb⟩⟩
    · obtain ⟨hsame, d, t, hd, hta⟩ := houter a ha
      obtain ⟨_, hdb, t', htb⟩ := hinner b hb
      have hless : d < outer.length := ((depthIn_iff h.2 d).mp hd).1
      exact ⟨d, t, _, t', hsame.trans hd, hdb, hta, htb, .inl hless⟩

end lookups

/-- The bottom is the scope at depth zero. -/
theorem refersToBottom_eq (s : ScopeStack α) (n : Name) :
    s.refersToBottom n = true ↔ s.bindingDepth n = some 0 := by
  have hfrom (bottom : Scope α) (inner : List (Scope α)) :
      (bottom.contains n && !inner.any (·.contains n)) = true ↔
        depthIn (inner ++ [bottom]) n = some 0 := by
    induction inner with
    | nil => cases hbottom : bottom.contains n <;> simp [depthIn, hbottom]
    | cons scope rest ih =>
      rw [List.cons_append, depthIn, List.any_cons]
      cases scope.contains n with
      | true => simp
      | false => simpa using ih
  rw [bindingDepth_eq]
  exact hfrom s.bottom s.inner

/-! ## Closed scopes -/

/-- Operations that close what they open change the innermost scope only. -/
theorem performAll_balanced {block : List (ScopeStep α)} (h : Balanced block) (top : Scope α)
    (rest : List (Scope α)) (bottom : Scope α) :
    ∃ top', performAll ⟨top :: rest, bottom⟩ block = ⟨top' :: rest, bottom⟩ := by
  induction h generalizing top rest with
  | nil => exact ⟨top, rfl⟩
  | bind name value _ ih => exact ih (top.bind name value) rest
  | @nest inside later _ _ ihinside ihlater =>
    obtain ⟨inner, hinside⟩ := ihinside {} (top :: rest)
    obtain ⟨top', hlater⟩ := ihlater top rest
    refine ⟨top', ?_⟩
    have hpush : performAll (⟨top :: rest, bottom⟩ : ScopeStack α)
        (.push :: (inside ++ .pop :: later))
        = performAll (performAll ⟨{} :: top :: rest, bottom⟩ inside) (.pop :: later) :=
          List.foldl_append
    rw [hpush, hinside, ← hlater]
    rfl

end ScopeStack

/-- **Nested scopes scope names lexically**, after any sequence of openings, bindings and
closings. -/
theorem lexical_ofHistory (history : List (ScopeStep α)) :
    Lexical history (ScopeStack.ofHistory history) := by
  obtain ⟨hdepth, hscopes⟩ := records_ofHistory history
  have hdepths (n : Name) (d : Nat) : (ScopeStack.ofHistory history).bindingDepth n = some d ↔
      BoundAt history d n ∧ ∀ d', d < d' → ¬ BoundAt history d' n := by
    -- a name is bound at depths of open scopes only
    have hopen {d : Nat} (h : BoundAt history d n) : d <
        (ScopeStack.ofHistory history).scopes.length := by
      obtain ⟨t, v, hbinds⟩ := h
      rw [ScopeStack.length_scopes, hdepth]
      exact Nat.lt_succ_of_le hbinds.depth_le
    rw [ScopeStack.bindingDepth_eq, ScopeStack.depthIn_iff hscopes]
    constructor
    · rintro ⟨_, hbound, hgreatest⟩
      exact ⟨hbound, fun d' hd' hbound' => hgreatest d' hd' (hopen hbound') hbound'⟩
    · rintro ⟨hbound, hgreatest⟩
      exact ⟨hopen hbound, hbound, fun d' hd' _ => hgreatest d' hd'⟩
  have hvisible := ScopeStack.pairwise_visibleFrom (fun _ => false) hscopes
  simp only [← ScopeStack.bindingDepth_eq] at hvisible
  refine ⟨hdepths, fun n v => ?_, ?_, fun n v => ?_, hvisible, fun n => ?_, fun block hblock => ?_⟩
  · rw [ScopeStack.bindingDepth_eq]
    exact ScopeStack.findSome?_iff hscopes v
  · refine List.pairwise_map.mpr (hvisible.imp ?_)
    rintro a b ⟨d, t, d', t', hda, hdb, hta, htb, hordered⟩ hname
    rw [hname, hdb] at hda
    cases hda
    rw [hname] at hta
    have htime := (hta.unique htb).1
    omega
  · exact (ScopeStack.mem_visibleFrom_iff_lookup _ hscopes v).trans (and_iff_right rfl)
  · rw [ScopeStack.refersToBottom_eq, hdepths]
  · obtain ⟨top, htop⟩ :=
      ScopeStack.performAll_balanced hblock {} (ScopeStack.ofHistory history).inner
      (ScopeStack.ofHistory history).bottom
    exact ⟨top, congrArg ScopeStack.pop? htop⟩

-- Binding `x` again moves it behind `y`; the inner `y` hides the outer one, and closing the bottom
-- does nothing.
example :
    (ScopeStack.ofHistory [.pop, .bind "x" 1, .bind "y" 2, .bind "x" 3, .push, .bind "y" 4]).visible
    = [("x", 3), ("y", 4)] := by decide

end StructRec
