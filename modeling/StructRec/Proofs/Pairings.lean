import Mathlib.Data.List.Forall2

/-!
# StructRec — lists paired element by element

Conversions go over the declarations of a group and yield one result for each. `List.Forall₂` says
what each result has to do with its declaration. The facts here pass from the lists to single pairs
and back.
-/

namespace List

variable {α β γ : Type} {R : α → β → Prop} {xs : List α} {ys : List β}

namespace Forall₂

/-- Every element on the left is paired. -/
theorem exists_right (h : Forall₂ R xs ys) {x : α} (hx : x ∈ xs) : ∃ y ∈ ys, R x y := by
  induction h with
  | nil => cases hx
  | cons hfirst _ ih =>
    rcases mem_cons.mp hx with rfl | hx
    · exact ⟨_, mem_cons_self, hfirst⟩
    · obtain ⟨y, hy, hxy⟩ := ih hx
      exact ⟨y, mem_cons_of_mem _ hy, hxy⟩

/-- Every element on the right is paired. -/
theorem exists_left (h : Forall₂ R xs ys) {y : β} (hy : y ∈ ys) : ∃ x ∈ xs, R x y :=
  h.flip.exists_right hy

/-- What both elements of every pair have in common makes equal lists. -/
theorem map_eq_map (h : Forall₂ R xs ys) {f : α → γ} {g : β → γ} (hR : ∀ x y, R x y → f x = g y) :
    xs.map f = ys.map g := by
  induction h with
  | nil => rfl
  | cons hfirst _ ih => rw [map_cons, map_cons, hR _ _ hfirst, ih]

/-- The two elements of a pair are elements of the two lists. -/
theorem with_mem (h : Forall₂ R xs ys) : Forall₂ (fun x y => (x ∈ xs ∧ y ∈ ys) ∧ R x y) xs ys :=
  forall₂_iff_zip.mpr ⟨h.length_eq, fun hp => ⟨of_mem_zip hp, (forall₂_iff_zip.mp h).2 hp⟩⟩

/-- A property that both elements of every pair have or lack holds of all or not all on both
sides. -/
theorem forall_mem_iff (h : Forall₂ R xs ys) {P : α → Prop} {Q : β → Prop}
    (hiff : ∀ x y, R x y → (P x ↔ Q y)) : (∀ x ∈ xs, P x) ↔ ∀ y ∈ ys, Q y := by
  induction h with
  | nil => exact iff_of_true (forall_mem_nil P) (forall_mem_nil Q)
  | cons hfirst _ ih => rw [forall_mem_cons, forall_mem_cons, hiff _ _ hfirst, ih]

/-- What is paired with a list that ends in `x` ends in what is paired with `x`. -/
theorem exists_concat {x : α} (h : Forall₂ R (xs ++ [x]) ys) :
    ∃ ys' y, ys = ys' ++ [y] ∧ Forall₂ R xs ys' ∧ R x y := by
  induction xs generalizing ys with
  | nil =>
    obtain _ | ⟨hx, _ | _⟩ := h
    exact ⟨[], _, rfl, .nil, hx⟩
  | cons first rest ih =>
    obtain _ | ⟨hfirst, hrest⟩ := h
    obtain ⟨ys', y, rfl, hys, hy⟩ := ih hrest
    exact ⟨_ :: ys', y, rfl, .cons hfirst hys, hy⟩

end Forall₂

/-- Every element of a list is answered in order. -/
theorem forall₂_of_mapM_eq_some {f : α → Option β} (h : xs.mapM f = some ys) :
    Forall₂ (fun x y => f x = some y) xs ys := by
  induction xs generalizing ys with
  | nil =>
    obtain rfl := Option.some.inj h
    exact .nil
  | cons x rest ih =>
    rw [mapM_cons] at h
    obtain ⟨y, hy, h⟩ := Option.bind_eq_some_iff.mp h
    obtain ⟨later, hlater, h⟩ := Option.bind_eq_some_iff.mp h
    obtain rfl := Option.some.inj h
    exact .cons hy (ih hlater)

end List
