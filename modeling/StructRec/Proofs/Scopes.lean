import Mathlib.Data.List.Nodup
import StructRec.Scope

/-!
# StructRec — look-ups in nested scopes

What the operations on scopes do, read through `lookup`, `refersToBottom` and `visible`. The visible
bindings are exactly those of the defined names (**`mem_visible_iff`**), each listed once
(**`nodup_visible`**), and have every property that all bindings have (**`All.visible`**).
-/

namespace StructRec

variable {α : Type}

/-! ## One scope -/

theorem Scope.get?_bind (scope : Scope α) (n m : Name) (x : α) :
    (scope.bind n x).get? m = if n = m then some x else scope.get? m := by
  have happend : (scope.bind n x).get? m = ((scope.erase n).get? m).or ([(n, x)].lookup m) :=
    List.lookup_append
  rw [happend, Table.get?_erase]
  by_cases h : n = m
  · simp [h]
  · have hlookup : [(n, x)].lookup m = none := by simp [Ne.symm h]
    rw [hlookup, if_neg (Ne.symm h), if_neg h, Option.or_none]

namespace ScopeStack

/-! ## Look-ups -/

theorem lookup_push (s : ScopeStack α) (m : Name) : s.push.lookup m = s.lookup m := rfl

/-- A binding hides what the name stood for. -/
theorem lookup_bind (s : ScopeStack α) (n m : Name) (x : α) :
    (s.bind n x).lookup m = if n = m then some x else s.lookup m := by
  obtain ⟨inner, bottom⟩ := s
  cases inner with
  | nil =>
    have hbind := Scope.get?_bind bottom n m x
    simp only [lookup, bind, scopes, List.nil_append, List.findSome?_singleton, hbind]
  | cons scope rest =>
    have hbind := Scope.get?_bind scope n m x
    simp only [lookup, bind, scopes, List.cons_append, List.findSome?_cons, hbind]
    by_cases h : n = m <;> simp [h]

theorem isDefined_eq_isSome (s : ScopeStack α) (n : Name) :
    s.isDefined n = (s.lookup n).isSome := by
  unfold isDefined lookup
  induction s.scopes with
  | nil => rfl
  | cons scope rest ih =>
    rw [List.any_cons, List.findSome?_cons, ih, Table.contains]
    cases scope.get? n <;> rfl

theorem isDefined_bind (s : ScopeStack α) (n m : Name) (x : α) :
    (s.bind n x).isDefined m = (decide (n = m) || s.isDefined m) := by
  rw [isDefined_eq_isSome, isDefined_eq_isSome, lookup_bind]
  by_cases h : n = m <;> simp [h]

/-- Names are defined by the bindings or further out. -/
theorem isDefined_bindAll (s : ScopeStack α) (bindings : List (Name × α)) (m : Name) :
    (s.bindAll bindings).isDefined m = (decide (m ∈ bindings.map Prod.fst) || s.isDefined m) := by
  induction bindings generalizing s with
  | nil => simp [bindAll]
  | cons binding rest ih =>
    change ((s.bind binding.1 binding.2).bindAll rest).isDefined m = _
    rw [ih, isDefined_bind]
    grind

theorem isDefined_enter (s : ScopeStack α) (bindings : List (Name × α)) (m : Name) :
    (s.enter bindings).isDefined m = (decide (m ∈ bindings.map Prod.fst) || s.isDefined m) := by
  rw [enter, isDefined_bindAll, isDefined_eq_isSome s.push, lookup_push, ← isDefined_eq_isSome]

/-! ## The bottom scope -/

/-- Within a scope a binding hides the bottom. -/
theorem refersToBottom_bind_of_inner {s : ScopeStack α} (h : s.inner ≠ []) (n m : Name) (x : α) :
    (s.bind n x).inner ≠ [] ∧
      (s.bind n x).refersToBottom m = (s.refersToBottom m && decide (n ≠ m)) := by
  obtain ⟨inner, bottom⟩ := s
  cases inner with
  | nil => exact absurd rfl h
  | cons scope rest =>
    refine ⟨List.cons_ne_nil _ _, ?_⟩
    have hbind := Scope.get?_bind scope n m x
    simp only [refersToBottom, bind, List.any_cons, Table.contains, hbind]
    by_cases hn : n = m <;> simp [hn]

theorem refersToBottom_bindAll_of_inner {s : ScopeStack α} (h : s.inner ≠ [])
    (bindings : List (Name × α)) (m : Name) :
    (s.bindAll bindings).refersToBottom m =
      (s.refersToBottom m && decide (m ∉ bindings.map Prod.fst)) := by
  induction bindings generalizing s with
  | nil => simp [bindAll]
  | cons binding rest ih =>
    obtain ⟨hinner, hbottom⟩ := refersToBottom_bind_of_inner h binding.1 m binding.2
    change ((s.bind binding.1 binding.2).bindAll rest).refersToBottom m = _
    rw [ih hinner, hbottom]
    grind

/-- A binder hides the parameter of its name. -/
theorem refersToBottom_enter (s : ScopeStack α) (bindings : List (Name × α)) (m : Name) :
    (s.enter bindings).refersToBottom m =
      (s.refersToBottom m && decide (m ∉ bindings.map Prod.fst)) := by
  rw [enter, refersToBottom_bindAll_of_inner (List.cons_ne_nil _ _)]
  rfl

theorem isDefined_of_refersToBottom {s : ScopeStack α} {n : Name} (h : s.refersToBottom n = true) :
    s.isDefined n = true := by
  rw [refersToBottom, Bool.and_eq_true] at h
  exact List.any_eq_true.mpr ⟨s.bottom, List.mem_append_right _ (List.mem_singleton.mpr rfl), h.1⟩

theorem inner_bindAll_eq_nil {s : ScopeStack α} (h : s.inner = []) (bindings : List (Name × α)) :
    (s.bindAll bindings).inner = [] := by
  induction bindings generalizing s with
  | nil => exact h
  | cons binding rest ih =>
    refine ih ?_
    change (s.bind binding.1 binding.2).inner = []
    rw [bind, h]

/-- Where no scope is open inside of it, all names are bound in the bottom scope. -/
theorem refersToBottom_eq_isDefined {s : ScopeStack α} (h : s.inner = []) (n : Name) :
    s.refersToBottom n = s.isDefined n := by
  simp [refersToBottom, isDefined, scopes, h]

/-! ## Visible bindings -/

/-- What is visible is bound in some scope and hidden by none further in. -/
theorem mem_visibleFrom_iff (hidden : Name → Bool) (scopes : List (Scope α)) (n : Name) :
    n ∈ (visibleFrom hidden scopes).map Prod.fst ↔
      hidden n = false ∧ scopes.any (·.contains n) = true := by
  induction scopes generalizing hidden with
  | nil => simp [visibleFrom]
  | cons scope outer ih =>
    have hinner : n ∈ (scope.filterKeys (!hidden ·)).entries.map Prod.fst ↔
        hidden n = false ∧ scope.contains n = true := by
      rw [Table.contains_iff_mem_keys]
      change n ∈ (scope.filterKeys (!hidden ·)).keys ↔ _
      rw [Table.keys_filterKeys, List.mem_filter, and_comm, Bool.not_eq_true']
    rw [visibleFrom, List.map_append, List.mem_append, ih, hinner, List.any_cons]
    cases hidden n <;> cases scope.contains n <;> simp

theorem mem_visible_iff (s : ScopeStack α) (n : Name) :
    n ∈ s.visible.map Prod.fst ↔ s.isDefined n = true := by
  rw [visible, mem_visibleFrom_iff]
  exact and_iff_right rfl

/-- A name is visible once. -/
theorem nodup_visibleFrom (hidden : Name → Bool) (scopes : List (Scope α)) :
    ((visibleFrom hidden scopes).map Prod.fst).Nodup := by
  induction scopes generalizing hidden with
  | nil => exact List.nodup_nil
  | cons scope outer ih =>
    rw [visibleFrom, List.map_append]
    refine (ih _).append (scope.filterKeys (!hidden ·)).nodup fun n houter hinner => ?_
    -- what the scope binds is hidden from the scopes around it
    rw [mem_visibleFrom_iff, Bool.or_eq_false_iff] at houter
    change n ∈ (scope.filterKeys (!hidden ·)).keys at hinner
    rw [Table.keys_filterKeys, List.mem_filter, ← Table.contains_iff_mem_keys] at hinner
    rw [hinner.1] at houter
    cases houter.1.2

theorem nodup_visible (s : ScopeStack α) : (s.visible.map Prod.fst).Nodup := nodup_visibleFrom _ _

/-! ## Properties of all bindings -/

/-- Every binding of every scope has the property. -/
def All (P : Name × α → Prop) (s : ScopeStack α) : Prop :=
  ∀ scope ∈ s.scopes, ∀ entry ∈ scope.entries, P entry

namespace All

variable {P : Name × α → Prop} {s : ScopeStack α}

theorem empty : All P ({} : ScopeStack α) := by
  intro scope hscope
  obtain rfl := List.mem_singleton.mp hscope
  nofun

theorem mem_entries_bind {scope : Scope α} {n : Name} {x : α} (h : ∀ entry ∈ scope.entries, P entry)
    (hx : P (n, x)) : ∀ entry ∈ (scope.bind n x).entries, P entry :=
  List.forall_mem_append.mpr
    ⟨fun entry hentry => h entry (List.mem_filter.mp hentry).1, List.forall_mem_singleton.mpr hx⟩

/-- What holds of all entries, with one more. -/
theorem bind (h : s.All P) {n : Name} {x : α} (hx : P (n, x)) : (s.bind n x).All P := by
  obtain ⟨inner, bottom⟩ := s
  cases inner with
  | nil =>
    intro scope hscope
    obtain rfl := List.mem_singleton.mp hscope
    exact mem_entries_bind (h bottom (List.mem_singleton.mpr rfl)) hx
  | cons first rest =>
    intro scope hscope
    rcases List.mem_cons.mp hscope with rfl | hrest
    · exact mem_entries_bind (h first List.mem_cons_self) hx
    · exact h scope (List.mem_cons_of_mem _ hrest)

theorem bindAll (h : s.All P) {bindings : List (Name × α)}
    (hbindings : ∀ binding ∈ bindings, P binding) : (s.bindAll bindings).All P := by
  induction bindings generalizing s with
  | nil => exact h
  | cons binding rest ih =>
    rw [List.forall_mem_cons] at hbindings
    exact ih (h.bind hbindings.1) hbindings.2

theorem enter (h : s.All P) {bindings : List (Name × α)}
    (hbindings : ∀ binding ∈ bindings, P binding) : (s.enter bindings).All P := by
  refine bindAll (fun scope hscope => ?_) hbindings
  rcases List.mem_cons.mp hscope with rfl | hrest
  · nofun
  · exact h scope hrest

theorem mem_visibleFrom (hidden : Name → Bool) {scopes : List (Scope α)} {entry : Name × α}
    (h : entry ∈ visibleFrom hidden scopes) : ∃ scope ∈ scopes, entry ∈ scope.entries := by
  induction scopes generalizing hidden with
  | nil => cases h
  | cons scope outer ih =>
    rcases List.mem_append.mp h with houter | hinner
    · obtain ⟨scope', hscope', hentry⟩ := ih _ houter
      exact ⟨scope', List.mem_cons_of_mem _ hscope', hentry⟩
    · exact ⟨scope, List.mem_cons_self, (List.mem_filter.mp hinner).1⟩

/-- Visible entries are entries. -/
theorem visible (h : s.All P) : ∀ entry ∈ s.visible, P entry := by
  intro entry hentry
  obtain ⟨scope, hscope, hmem⟩ := mem_visibleFrom _ hentry
  exact h scope hscope entry hmem

end All

end ScopeStack

end StructRec
