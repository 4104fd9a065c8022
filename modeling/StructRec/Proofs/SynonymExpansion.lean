import StructRec.Environment.Synonym
import StructRec.Proofs.Tables

/-!
# StructRec — expansion removes the synonyms it unfolds

Synonyms that always stand with all their arguments, and that do not mention each other in a cycle,
are gone after an expansion. What is left are type constructors of the type itself and of the
right-hand sides.

* **`Saturated`** — every occurrence of a synonym is applied to as many arguments as it has
  parameters.
* **`Descending`** — a rank of the synonyms falls from each one to those that its right-hand side
  mentions. It is what keeps the nested expansions from meeting a synonym that they may no longer
  unfold.
* **`mem_conOccs_expand`** — the result of an expansion mentions no synonym.
-/

namespace StructRec

variable {name : Name} {syn : SynonymEntry} {t : Ty}

namespace Ty

variable {arity : Name → Option Nat}

/-- Every synonym with an arity is applied to exactly that many arguments, where the type itself is
applied to `count` arguments. -/
def Saturated (arity : Name → Option Nat) : Ty → Nat → Prop
  | var _, _ => True
  | con name, count => ∀ n, arity name = some n → count = n
  | app fn arg, count => fn.Saturated arity (count + 1) ∧ arg.Saturated arity 0
  | func dom cod, _ => dom.Saturated arity 0 ∧ cod.Saturated arity 0

theorem conOccs_apply (t : Ty) (args : List Ty) :
    (apply t args).conOccs = t.conOccs ++ args.flatMap conOccs := by
  unfold apply
  induction args generalizing t with
  | nil => simp
  | cons a rest ih =>
    rw [List.foldl_cons, ih, List.flatMap_cons, ← List.append_assoc]
    rfl

/-- Substitution brings in constructors of the replacing types only. -/
theorem mem_conOccs_subst {types : Table Ty} (t : Ty) (h : name ∈ (t.subst types).conOccs) :
    name ∈ t.conOccs ∨ ∃ x r, types.get? x = some r ∧ name ∈ r.conOccs := by
  induction t with
  | var x =>
    unfold subst at h
    cases hx : types.get? x with
    | none => rw [hx] at h; simp [conOccs] at h
    | some r => rw [hx] at h; exact .inr ⟨x, r, hx, h⟩
  | con n => exact .inl h
  | app l r ihl ihr | func l r ihl ihr =>
    simp only [subst, conOccs, List.mem_append] at h ⊢
    rcases h with h | h
    · exact (ihl h).imp_left .inl
    · exact (ihr h).imp_left .inr

/-- A type without synonyms is saturated wherever it stands. -/
theorem saturated_of_no_synonym (t : Ty) (h : ∀ name ∈ t.conOccs, arity name = none) (count : Nat) :
    t.Saturated arity count := by
  induction t generalizing count with
  | var x => trivial
  | con name =>
    intro n hn
    rw [h name (by simp [conOccs])] at hn
    cases hn
  | app l r ihl ihr | func l r ihl ihr =>
    simp only [conOccs, List.mem_append] at h
    exact ⟨ihl (fun name hname => h name (.inl hname)) _,
      ihr (fun name hname => h name (.inr hname)) _⟩

/-- Saturated types in place of variables keep a type saturated. -/
theorem Saturated.subst {types : Table Ty}
    (htypes : ∀ x r, types.get? x = some r → ∀ count, r.Saturated arity count) {count : Nat}
    (h : t.Saturated arity count) : (t.subst types).Saturated arity count := by
  induction t generalizing count with
  | var x =>
    unfold Ty.subst
    cases hx : types.get? x with
    | none => trivial
    | some r => exact htypes x r hx count
  | con name => exact h
  | app l r ihl ihr | func l r ihl ihr => exact ⟨ihl h.1, ihr h.2⟩

/-- What is saturated stays so where fewer synonyms count. -/
theorem Saturated.mono {arity' : Name → Option Nat}
    (harity : ∀ name n, arity' name = some n → arity name = some n) {count : Nat}
    (h : t.Saturated arity count) : t.Saturated arity' count := by
  induction t generalizing count with
  | var x => trivial
  | con name => exact fun n hn => h n (harity name n hn)
  | app l r ihl ihr | func l r ihl ihr => exact ⟨ihl h.1, ihr h.2⟩

end Ty

/-! ## Available synonyms -/

/-- The first synonym of a name. -/
def synonymNamed? (synonyms : List SynonymEntry) (name : Name) : Option SynonymEntry :=
  synonyms.find? (·.name = name)

theorem synonymNamed?_some {synonyms : List SynonymEntry}
    (h : synonymNamed? synonyms name = some syn) : syn ∈ synonyms ∧ syn.name = name :=
  ⟨List.mem_of_find?_eq_some h, by simpa using List.find?_some h⟩

theorem synonymNamed?_ne_none {synonyms : List SynonymEntry} (h : syn ∈ synonyms) :
    synonymNamed? synonyms syn.name ≠ none := by
  unfold synonymNamed?
  rw [Ne, List.find?_eq_none]
  intro hnone
  exact hnone syn h (by simp)

/-- Removing the synonyms of one name leaves the others available. -/
theorem synonymNamed?_filter_ne {synonyms : List SynonymEntry} {removed : Name}
    (h : name ≠ removed) :
    synonymNamed? (synonyms.filter (·.name ≠ removed)) name = synonymNamed? synonyms name := by
  unfold synonymNamed?
  rw [List.find?_filter]
  congr 1
  funext syn
  by_cases hsyn : syn.name = name
  · simp [hsyn, h]
  · simp [hsyn]

/-- The number of parameters of each synonym. -/
def arityAmong (synonyms : List SynonymEntry) (name : Name) : Option Nat :=
  (synonymNamed? synonyms name).map (·.typeParams.length)

/-- A rank falls from each synonym to the synonyms that its right-hand side mentions. -/
def Descending (synonyms : List SynonymEntry) (rank : Name → Nat) : Prop :=
  ∀ syn ∈ synonyms, ∀ name ∈ syn.rhs.conOccs, synonymNamed? synonyms name ≠ none →
    rank name < rank syn.name

namespace Ty

variable {rank : Name → Nat}

/-- No synonym is mentioned, and every mention is one of those allowed. -/
def Expanded (synonyms : List SynonymEntry) (allowed : Name → Prop) (t : Ty) : Prop :=
  ∀ name ∈ t.conOccs, allowed name ∧ synonymNamed? synonyms name = none

variable {synonyms : List SynonymEntry} {allowed : Name → Prop}

theorem Expanded.apply {args : List Ty} (ht : t.Expanded synonyms allowed)
    (hargs : ∀ a ∈ args, a.Expanded synonyms allowed) :
    (Ty.apply t args).Expanded synonyms allowed := by
  intro name hname
  rw [conOccs_apply, List.mem_append, List.mem_flatMap] at hname
  rcases hname with h | ⟨a, ha, h⟩
  · exact ht name h
  · exact hargs a ha name h

/-- Putting expanded arguments into a right-hand side brings in no further synonym. -/
theorem unfold_spec {args : List Ty} (hsat : syn.rhs.Saturated (arityAmong synonyms) 0)
    (hargs : ∀ a ∈ args, a.Expanded synonyms allowed)
    (hrhs : ∀ name ∈ syn.rhs.conOccs, allowed name) :
    (syn.unfold args).Saturated (arityAmong synonyms) 0 ∧
      (∀ name ∈ (syn.unfold args).conOccs, allowed name) ∧
      ∀ name ∈ (syn.unfold args).conOccs, synonymNamed? synonyms name ≠ none →
        name ∈ syn.rhs.conOccs := by
  have hput : ∀ x r, (Table.ofList (syn.typeParams.zip args)).get? x = some r →
      r.Expanded synonyms allowed := by
    intro x r hr
    exact hargs r (List.of_mem_zip (Table.mem_of_get?_ofList hr)).2
  refine ⟨hsat.subst ?_, ?_, ?_⟩
  · intro x r hr
    refine saturated_of_no_synonym r fun name hname => ?_
    rw [arityAmong, (hput x r hr name hname).2, Option.map_none]
  · intro name hname
    rcases mem_conOccs_subst _ hname with h | ⟨x, r, hr, h⟩
    · exact hrhs name h
    · exact (hput x r hr name h).1
  · intro name hname hsyn
    rcases mem_conOccs_subst _ hname with h | ⟨x, r, hr, h⟩
    · exact h
    · exact absurd (hput x r hr name h).2 hsyn

/-- One level of an expansion: if what the synonyms unfold to is expanded, so is the whole. `below`
bounds the rank of the synonyms that can occur; all of them must be available. -/
theorem expandOnto_expanded {available : List SynonymEntry} {unfolded : SynonymEntry → List Ty → Ty}
    {below : Nat} (hsub : ∀ syn ∈ available, syn ∈ synonyms)
    (havailable : ∀ name, rank name < below →
      synonymNamed? available name = synonymNamed? synonyms name)
    (hunfolded : ∀ name syn args, synonymNamed? synonyms name = some syn → rank name < below →
      (∀ a ∈ args, a.Expanded synonyms allowed) →
      (unfolded syn args).Expanded synonyms allowed) (t : Ty) :
    ∀ args, t.Saturated (arityAmong synonyms) args.length → (∀ name ∈ t.conOccs, allowed name) →
      (∀ name ∈ t.conOccs, synonymNamed? synonyms name ≠ none → rank name < below) →
      (∀ a ∈ args, a.Expanded synonyms allowed) →
      (t.expandOnto available unfolded args).Expanded synonyms allowed := by
  induction t with
  | var x =>
    intro args _ _ _ hargs
    exact Expanded.apply (t := var x) (fun name hname => by simp [conOccs] at hname) hargs
  | con name =>
    intro args hsat hallowed hrank hargs
    have hmem : name ∈ (con name).conOccs := by simp [conOccs]
    cases hsyn : synonymNamed? synonyms name with
    | none =>
      -- the name is no synonym at all, and stays
      have hhead : (con name).Expanded synonyms allowed := by
        intro n hn
        obtain rfl : n = name := by simpa [conOccs] using hn
        exact ⟨hallowed n hmem, hsyn⟩
      unfold expandOnto
      split
      · next syn hfind =>
        obtain ⟨hin, rfl⟩ :=
          synonymNamed?_some (show synonymNamed? available name = some syn from hfind)
        exact absurd hsyn (synonymNamed?_ne_none (hsub syn hin))
      · exact hhead.apply hargs
    | some syn =>
      -- a synonym of lower rank is available, and it has all its arguments
      have hlt : rank name < below := hrank name hmem (by rw [hsyn]; simp)
      have hcount : args.length = syn.typeParams.length :=
        hsat _ (by rw [arityAmong, hsyn, Option.map_some])
      have hfind : available.find? (·.name = name) = some syn := by
        rw [← hsyn, ← havailable name hlt]
        rfl
      unfold expandOnto
      rw [hfind]
      simp only
      rw [if_pos (Nat.le_of_eq hcount.symm), ← hcount, List.take_length, List.drop_length]
      exact (hunfolded name syn args hsyn hlt hargs).apply (by simp)
  | app fn arg ihf iha =>
    intro args hsat hallowed hrank hargs
    simp only [conOccs, List.mem_append] at hallowed hrank
    refine ihf _ hsat.1 (fun n hn => hallowed n (.inl hn)) (fun n hn => hrank n (.inl hn)) ?_
    intro a ha
    rcases List.mem_cons.mp ha with rfl | ha
    · exact iha [] hsat.2 (fun n hn => hallowed n (.inr hn))
        (fun n hn => hrank n (.inr hn)) (by simp)
    · exact hargs a ha
  | func dom cod ihd ihc =>
    intro args hsat hallowed hrank hargs
    simp only [conOccs, List.mem_append] at hallowed hrank
    refine Expanded.apply (t := func _ _) (fun n hn => ?_) hargs
    simp only [conOccs, List.mem_append] at hn
    rcases hn with hn | hn
    · exact ihd [] hsat.1 (fun n hn => hallowed n (.inl hn)) (fun n hn => hrank n (.inl hn))
        (by simp) n hn
    · exact ihc [] hsat.2 (fun n hn => hallowed n (.inr hn)) (fun n hn => hrank n (.inr hn))
        (by simp) n hn

/-- Nested expansions: the synonyms below a rank are available, and there are enough levels for all
of them. Each level unfolds a synonym and goes on below its rank, so the synonym that is no longer
available does not occur. -/
theorem expandWithin_expanded (hdesc : Descending synonyms rank)
    (hsat : ∀ syn ∈ synonyms, syn.rhs.Saturated (arityAmong synonyms) 0)
    (hrhs : ∀ syn ∈ synonyms, ∀ name ∈ syn.rhs.conOccs, allowed name) (depth : Nat) :
    ∀ available below t, (∀ syn ∈ available, syn ∈ synonyms) →
      (∀ name, rank name < below → synonymNamed? available name = synonymNamed? synonyms name) →
      available.length ≤ depth → Saturated (arityAmong synonyms) t 0 →
      (∀ name ∈ t.conOccs, allowed name) →
      (∀ name ∈ t.conOccs, synonymNamed? synonyms name ≠ none → rank name < below) →
      (t.expandWithin depth available).Expanded synonyms allowed := by
  induction depth with
  | zero =>
    intro available below t _ havailable hlen _ hallowed hrank name hname
    refine ⟨hallowed name hname, ?_⟩
    by_contra hsyn
    rw [← havailable name (hrank name hname hsyn),
      List.length_eq_zero_iff.mp (Nat.le_zero.mp hlen)] at hsyn
    exact hsyn rfl
  | succ depth ih =>
    intro available below t hsub havailable hlen htsat hallowed hrank
    unfold expandWithin
    refine expandOnto_expanded hsub havailable ?_ t [] htsat hallowed hrank (by simp)
    intro name syn args hsyn hlt hargs
    obtain ⟨hmem, rfl⟩ := synonymNamed?_some hsyn
    obtain ⟨husat, huallowed, husyn⟩ := unfold_spec (hsat syn hmem) hargs (hrhs syn hmem)
    have havail : syn ∈ available :=
      (synonymNamed?_some ((havailable syn.name hlt).trans hsyn)).1
    -- from here on only synonyms of lower rank can turn up
    refine ih _ (rank syn.name) _ ?_ ?_ ?_ husat huallowed ?_
    · intro other hother
      exact hsub other (List.mem_filter.mp hother).1
    · intro n hn
      have hne : n ≠ syn.name := by
        rintro rfl
        exact Nat.lt_irrefl _ hn
      rw [synonymNamed?_filter_ne hne]
      exact havailable n (Nat.lt_trans hn hlt)
    · have hshorter : (available.filter (·.name ≠ syn.name)).length < available.length :=
        List.length_filter_lt_length_iff_exists.mpr ⟨syn, havail, by simp⟩
      omega
    · intro n hn hnsyn
      exact hdesc syn hmem n (husyn n hn hnsyn) hnsyn

/-- **An expansion leaves no synonym.** What the result mentions is no synonym, and it is mentioned
by the type itself or by the right-hand side of a synonym. -/
theorem mem_conOccs_expand {below : Nat} (hdesc : Descending synonyms rank)
    (hbelow : ∀ name, rank name < below)
    (hsat : ∀ syn ∈ synonyms, syn.rhs.Saturated (arityAmong synonyms) 0)
    (ht : t.Saturated (arityAmong synonyms) 0) (h : name ∈ (t.expand synonyms).conOccs) :
    synonymNamed? synonyms name = none ∧
      (name ∈ t.conOccs ∨ ∃ syn ∈ synonyms, name ∈ syn.rhs.conOccs) := by
  have hexpanded : (t.expand synonyms).Expanded synonyms
      fun name => name ∈ t.conOccs ∨ ∃ syn ∈ synonyms, name ∈ syn.rhs.conOccs :=
    expandWithin_expanded hdesc hsat (fun syn hsyn n hn => .inr ⟨syn, hsyn, hn⟩)
      synonyms.length synonyms below t (fun _ hsyn => hsyn) (fun _ _ => rfl) (Nat.le_refl _) ht
      (fun n hn => .inl hn) (fun n _ _ => hbelow n)
  exact ⟨(hexpanded name h).2, (hexpanded name h).1⟩

end Ty

end StructRec
