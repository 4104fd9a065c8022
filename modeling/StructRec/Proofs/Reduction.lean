import Mathlib.Data.List.Forall2
import Mathlib.Logic.Function.Iterate
import Mathlib.Logic.Relation
import StructRec.Proofs.Nameless

/-!
# StructRec — reduction and unfolding

What inlining is measured by, on terms without bound names and without visible type applications
(`Nameless.eraseTypes`, `Expr.term`):

- β-reduction. A function of several parameters takes one argument at a time, and a part of a node
  reduces as the term does of which it is made by binding names (`Nameless.Step`,
  `Nameless.Reduces`).
- unfolding. All free references to defined names are replaced by their definitions at once, which
  is substitution and captures nothing, and then those in the definitions put in, until no reference
  is left (`Nameless.Unfolds`).

A term is inlined if it has been unfolded and then reduced (`Nameless.Inlines`). The lemmas say how
this is put together from the parts of a term: **`Inlines.node`** and **`Inlines.reference`**, and
**`Inlines.freeNames`** for what it leaves free.
-/

namespace StructRec

namespace Nameless

variable {f : Nat → Name → Nameless} {g : Ty → Ty} {v : Name → Nameless} {names : List Name}
variable {former : Former}

/-! ## Terms without type applications -/

mutual

/-- Drop all visible type applications. -/
def eraseTypes : Nameless → Nameless
  | bound i => bound i
  | free n => free n
  | typeApp fn _ => fn.eraseTypes
  | node former parts => node former (eraseTypesParts parts)

def eraseTypesParts : List (Nat × Nameless) → List (Nat × Nameless)
  | [] => []
  | (count, part) :: rest => (count, part.eraseTypes) :: eraseTypesParts rest

end

theorem eraseTypes_node {parts : List (Nat × Nameless)} :
    (node former parts).eraseTypes =
      node former (parts.map fun part => (part.1, part.2.eraseTypes)) := by
  rw [eraseTypes]
  congr 1
  induction parts with
  | nil => rfl
  | cons part rest ih => exact congrArg ((part.1, part.2.eraseTypes) :: ·) ih

/-- Types are erased before or after replacing variables. -/
theorem eraseTypes_mapFree (t : Nameless) (depth : Nat) : (t.mapFree f g depth).eraseTypes
    = t.eraseTypes.mapFree (fun depth n => (f depth n).eraseTypes) id depth := by
  induction t generalizing depth with
  | bound i => rfl
  | free n => rfl
  | typeApp fn ty ih => exact ih depth
  | node former parts ih =>
    rw [mapFree_node, eraseTypes_node, eraseTypes_node, mapFree_node, List.map_map, List.map_map]
    congr 1
    exact List.map_congr_left fun part hpart => congrArg (Prod.mk part.1) (ih part hpart _)

theorem eraseTypes_subst (t : Nameless) :
    (t.subst v g).eraseTypes = t.eraseTypes.subst (fun n => (v n).eraseTypes) id :=
  eraseTypes_mapFree t 0

theorem eraseTypes_capture (t : Nameless) (names : List Name) (depth : Nat) :
    (t.capture names depth).eraseTypes = t.eraseTypes.capture names depth := by
  refine (eraseTypes_mapFree t depth).trans (mapFree_congr (fun n _ depth => ?_) fun _ _ => rfl)
  rw [captureVar]
  split <;> rfl

theorem freeNames_eraseTypes (t : Nameless) : t.eraseTypes.freeNames = t.freeNames := by
  induction t with
  | bound i => rfl
  | free n => rfl
  | typeApp fn ty ih => exact ih
  | node former parts ih =>
    rw [eraseTypes_node, freeNames_node, freeNames_node, List.flatMap_map]
    exact List.flatMap_congr ih

/-- Erasing types leaves bound variables alone. -/
theorem ClosedAt.eraseTypes {t : Nameless} {depth : Nat} (h : t.ClosedAt depth) :
    t.eraseTypes.ClosedAt depth := by
  induction t generalizing depth with
  | bound i => exact h
  | free n => trivial
  | typeApp fn ty ih => exact ih h
  | node former parts ih =>
    rw [closedAt_node] at h
    rw [eraseTypes_node, closedAt_node, List.forall_mem_map]
    exact fun part hpart => ih part hpart (h part hpart)

/-! ## Functions and applications -/

def app (fn arg : Nameless) : Nameless := node .app [(0, fn), (0, arg)]

/-- A function of so many parameters; with none it is the body itself. -/
def lambda (count : Nat) (body : Nameless) : Nameless :=
  if count = 0 then body else node .lam [(count, body)]

/-- Binding without a name binds no name. -/
theorem freeNames_lambda (count : Nat) (body : Nameless) :
    (lambda count body).freeNames = body.freeNames := by
  rw [lambda]
  split
  · rfl
  · rw [freeNames_node, List.flatMap_singleton]

theorem subst_lambda (count : Nat) (body : Nameless) :
    (lambda count body).subst v g = lambda count (body.subst v g) := by
  rw [lambda, lambda, apply_ite (subst v g), subst_node]
  rfl

/-- Putting in an argument adds no free variables but its own. -/
theorem freeNames_instantiate {arg t : Nameless} {depth : Nat} {x : Name}
    (h : x ∈ (instantiate arg depth t).freeNames) : x ∈ t.freeNames ∨ x ∈ arg.freeNames := by
  induction t generalizing depth with
  | bound i =>
    rw [instantiate] at h
    split at h
    · exact .inr h
    · exact .inl h
  | free n => exact .inl h
  | typeApp fn ty ih => exact ih h
  | node former parts ih =>
    rw [instantiate_node, freeNames_node, List.flatMap_map] at h
    obtain ⟨part, hpart, hx⟩ := List.mem_flatMap.mp h
    refine (ih part hpart hx).imp_left fun hx => ?_
    rw [freeNames_node]
    exact List.mem_flatMap.mpr ⟨part, hpart, hx⟩

/-! ## Reduction -/

/-- One β-step, in the term or in a part of it. -/
inductive Step : Nameless → Nameless → Prop
  /-- The argument takes the place of the first parameter; the others wait. -/
  | beta {count : Nat} {body arg : Nameless} (hbody : body.ClosedAt (count + 1))
      (harg : arg.ClosedAt 0) :
      Step (app (lambda (count + 1) body) arg) (lambda count (instantiate arg count body))
  | part {t t' : Nameless} (h : Step t t') (former : Former) (before after : List (Nat × Nameless))
      (names : List Name) :
      Step (node former (before ++ t.under names :: after))
        (node former (before ++ t'.under names :: after))

/-- Any number of β-steps. -/
abbrev Reduces : Nameless → Nameless → Prop := Relation.ReflTransGen Step

/-- A step brings in no free variables. -/
theorem Step.freeNames {t t' : Nameless} (h : Step t t') : t'.freeNames ⊆ t.freeNames := by
  induction h with
  | beta =>
    intro x hx
    rw [freeNames_lambda] at hx
    simp only [app, freeNames_node, List.flatMap_cons, List.flatMap_nil, List.append_nil,
      freeNames_lambda, List.mem_append]
    exact freeNames_instantiate hx
  | part _ former before after names ih =>
    intro x hx
    simp only [freeNames_node, List.flatMap_append, List.flatMap_cons, List.mem_append,
      freeNames_under, List.mem_filter] at hx ⊢
    exact hx.imp_right (Or.imp_left (And.imp_left fun hx => ih hx))

theorem Reduces.freeNames {t t' : Nameless} (h : Reduces t t') : t'.freeNames ⊆ t.freeNames := by
  induction h with
  | refl => exact List.Subset.refl _
  | tail _ hstep ih => exact List.Subset.trans hstep.freeNames ih

/-- A part of a node reduces as the term does of which it is made. -/
theorem Reduces.part {t t' : Nameless} (h : Reduces t t') (former : Former)
    (before after : List (Nat × Nameless)) (names : List Name) :
    Reduces (node former (before ++ t.under names :: after))
      (node former (before ++ t'.under names :: after)) := by
  induction h with
  | refl => exact .refl
  | tail _ hstep ih => exact ih.tail (hstep.part former before after names)

/-- A part that is made by binding names reduces as the term does. -/
def ReducesPart (part part' : Nat × Nameless) : Prop :=
  ∃ names t t', part = t.under names ∧ part' = t'.under names ∧ Reduces t t'

/-- The parts of a node reduce one after the other. -/
theorem Reduces.node {former : Former} {parts parts' : List (Nat × Nameless)}
    (h : List.Forall₂ ReducesPart parts parts') :
    Reduces (node former parts) (node former parts') := by
  suffices hlater : ∀ before,
    Reduces (.node former (before ++ parts)) (.node former (before ++ parts')) from hlater []
  induction h with
  | nil => exact fun before => .refl
  | @cons part part' rest rest' hpart _ ih =>
    intro before
    obtain ⟨names, t, t', rfl, rfl, hreduces⟩ := hpart
    refine (hreduces.part former before rest names).trans ?_
    have hrest := ih (before ++ [t'.under names])
    rwa [List.append_assoc, List.append_assoc] at hrest

/-- Reduction goes on under named binders. -/
theorem Reduces.lambda {t t' : Nameless} (h : Reduces t t') (names : List Name) :
    Reduces (lambda names.length (t.capture names 0))
      (lambda names.length (t'.capture names 0)) := by
  cases names with
  | nil =>
    rw [capture_of_disjoint (fun _ _ => List.not_mem_nil),
      capture_of_disjoint (fun _ _ => List.not_mem_nil)]
    exact h
  | cons x rest => exact h.part .lam [] [] (x :: rest)

/-- A function takes its first argument. -/
theorem step_lambda {x : Name} {body arg : Nameless} (hbody : body.ClosedAt 0)
    (harg : arg.ClosedAt 0) (hx : x ∉ names) (hnames : ∀ n ∈ arg.freeNames, n ∉ names) :
    Step (app (lambda (x :: names).length (body.capture (x :: names) 0)) arg)
      (lambda names.length
        ((body.subst (fun n => if x = n then arg else free n) id).capture names 0)) := by
  have hinstantiate := instantiate_capture hbody hx hnames
  rw [Nat.zero_add] at hinstantiate
  rw [← hinstantiate]
  have hclosed := hbody.capture (x :: names)
  rw [Nat.zero_add] at hclosed
  exact .beta hclosed harg

/-! ## Unfolding definitions -/

variable {defs : Name → Option Nameless}

/-- Replace all free references to defined names by the definitions. -/
def unfold (defs : Name → Option Nameless) (t : Nameless) : Nameless :=
  t.subst (fun n => (defs n).getD (free n)) id

/-- Unfolding round by round ends with this term, in which no reference is left. -/
def Unfolds (defs : Name → Option Nameless) (t u : Nameless) : Prop :=
  (∃ rounds, (unfold defs)^[rounds] t = u) ∧ ∀ n ∈ u.freeNames, defs n = none

/-- The definitions that can be referred to where names are bound. -/
def hide {α : Type} (defs : Name → Option α) (names : List Name) (n : Name) : Option α :=
  if n ∈ names then none else defs n

/-- No definition refers to one of the names. -/
def Avoids (defs : Name → Option Nameless) (names : List Name) : Prop :=
  ∀ n d, defs n = some d → ∀ x ∈ d.freeNames, x ∉ names

/-- Where nothing is defined, nothing is unfolded. -/
theorem unfold_of_none {t : Nameless} (h : ∀ n ∈ t.freeNames, defs n = none) : unfold defs t = t :=
  subst_self (fun n hn => by rw [h n hn, Option.getD_none]) fun _ _ => rfl

theorem unfold_node {parts : List (Nat × Nameless)} :
    unfold defs (node former parts) =
      node former (parts.map fun part => (part.1, unfold defs part.2)) := subst_node

/-- Unfolding under binders: definitions that are referred to there do not refer to the bound
variables. -/
theorem unfold_capture (h : Avoids defs names) (t : Nameless) (depth : Nat) :
    (unfold (hide defs names) t).capture names depth = unfold defs (t.capture names depth) := by
  refine capture_subst (fun n _ depth => ?_) depth
  by_cases hn : n ∈ names
  · rw [hide, if_pos hn, Option.getD_none]
    obtain ⟨i, hindex⟩ := exists_binderIndex hn
    rw [captureVar_of_index hindex]
    exact captureVar_of_index hindex depth
  · rw [hide, if_neg hn, captureVar_of_notMem hn]
    refine capture_of_disjoint (fun x hx => ?_) depth
    cases hdef : defs n with
    | some d => exact h n d hdef x (by rwa [hdef] at hx)
    | none =>
      rw [hdef] at hx
      exact List.mem_singleton.mp hx ▸ hn

namespace Unfolds

variable {t u : Nameless}

theorem of_none (h : ∀ n ∈ t.freeNames, defs n = none) : Unfolds defs t t := ⟨⟨0, rfl⟩, h⟩

/-- More rounds than necessary change nothing. -/
theorem eventually (h : Unfolds defs t u) :
    ∃ least, ∀ rounds, least ≤ rounds → (unfold defs)^[rounds] t = u := by
  obtain ⟨⟨least, hleast⟩, hnone⟩ := h
  refine ⟨least, fun rounds hrounds => ?_⟩
  obtain ⟨more, rfl⟩ := Nat.exists_eq_add_of_le' hrounds
  rw [Function.iterate_add_apply, hleast]
  exact Function.iterate_fixed (unfold_of_none hnone) more

/-- A reference unfolds as its definition does. -/
theorem reference {n : Name} {d : Nameless} (hdef : defs n = some d) (h : Unfolds defs d u) :
    Unfolds defs (free n) u := by
  obtain ⟨⟨rounds, hrounds⟩, hnone⟩ := h
  refine ⟨⟨rounds + 1, ?_⟩, hnone⟩
  have hfirst : unfold defs (free n) = d := by
    change (defs n).getD (free n) = d
    rw [hdef, Option.getD_some]
  rw [Function.iterate_succ_apply, hfirst, hrounds]

/-- **Under binders** that hide the definitions of their names. -/
theorem capture (havoids : Avoids defs names) (h : Unfolds (hide defs names) t u) :
    Unfolds defs (t.capture names 0) (u.capture names 0) := by
  obtain ⟨⟨rounds, hrounds⟩, hnone⟩ := h
  have hsemiconj : Function.Semiconj (Nameless.capture names 0) (unfold (hide defs names))
      (unfold defs) := fun t =>
    unfold_capture havoids t 0
  refine ⟨⟨rounds, ?_⟩, fun n hn => ?_⟩
  · rw [← hsemiconj.iterate_right rounds t, hrounds]
  · rw [freeNames_capture] at hn
    obtain ⟨hn, hfree⟩ := List.mem_filter.mp hn
    have hhidden := hnone n hn
    rwa [hide, if_neg (of_decide_eq_true hfree)] at hhidden

theorem lambda (count : Nat) (h : Unfolds defs t u) :
    Unfolds defs (lambda count t) (lambda count u) := by
  obtain ⟨⟨rounds, hrounds⟩, hnone⟩ := h
  have hsemiconj : Function.Semiconj (Nameless.lambda count) (unfold defs) (unfold defs) := fun t =>
    (subst_lambda count t).symm
  refine ⟨⟨rounds, ?_⟩, fun n hn => ?_⟩
  · rw [← hsemiconj.iterate_right rounds t, hrounds]
  · rw [freeNames_lambda] at hn
    exact hnone n hn

/-- Rounds of unfolding reach all parts of a node at once. -/
theorem iterate_node (rounds : Nat) (parts : List (Nat × Nameless)) :
    (unfold defs)^[rounds] (.node former parts)
      = .node former (parts.map fun part => (part.1, (unfold defs)^[rounds] part.2)) := by
  induction rounds generalizing parts with
  | zero => exact congrArg (Nameless.node former) (List.map_id' parts).symm
  | succ rounds ih =>
    rw [Function.iterate_succ_apply, unfold_node, ih, List.map_map]
    rfl

/-- **Node by node**: the parts may need different numbers of rounds. -/
theorem node {former : Former} {parts parts' : List (Nat × Nameless)}
    (h : List.Forall₂ (fun part part' => part'.1 = part.1 ∧ Unfolds defs part.2 part'.2)
      parts parts') :
    Unfolds defs (.node former parts) (.node former parts') := by
  refine ⟨?_, fun n hn => ?_⟩
  · -- as many rounds as the slowest part takes
    have hrounds : ∃ least, ∀ rounds, least ≤ rounds →
        (parts.map fun part => (part.1, (unfold defs)^[rounds] part.2)) = parts' := by
      induction h with
      | nil => exact ⟨0, fun _ _ => rfl⟩
      | cons hpart _ ih =>
        obtain ⟨least, hleast⟩ := hpart.2.eventually
        obtain ⟨least', hleast'⟩ := ih
        refine ⟨max least least', fun rounds hle => ?_⟩
        rw [List.map_cons, hleast rounds (by omega), hleast' rounds (by omega), ← hpart.1]
    obtain ⟨least, hleast⟩ := hrounds
    exact ⟨least, by rw [iterate_node, hleast least (Nat.le_refl _)]⟩
  · rw [freeNames_node] at hn
    obtain ⟨part', hpart', hn⟩ := List.mem_flatMap.mp hn
    obtain ⟨i, hi, rfl⟩ := List.getElem_of_mem hpart'
    have hlength := h.length_eq
    exact (h.get (by omega) hi).2.2 n hn

/-- What is left free was free before or comes from a definition. -/
theorem freeNames (h : Unfolds defs t u) :
    ∀ x ∈ u.freeNames, x ∈ t.freeNames ∨ ∃ n d, defs n = some d ∧ x ∈ d.freeNames := by
  obtain ⟨⟨rounds, rfl⟩, _⟩ := h
  clear * -
  induction rounds with
  | zero => exact fun x hx => .inl hx
  | succ rounds ih =>
    intro x hx
    rw [Function.iterate_succ_apply', unfold, freeNames_subst] at hx
    obtain ⟨n, hn, hx⟩ := List.mem_flatMap.mp hx
    cases hdef : defs n with
    | some d => exact .inr ⟨n, d, hdef, by rwa [hdef] at hx⟩
    | none =>
      rw [hdef] at hx
      exact ih x (List.mem_singleton.mp hx ▸ hn)

end Unfolds

/-! ## Inlining -/

/-- The second term is a reduct of the first with all references unfolded. -/
def Inlines (defs : Name → Option Nameless) (t t' : Nameless) : Prop :=
  ∃ u, Unfolds defs t u ∧ Reduces u t'

/-- A part that is made by binding names, to which no definition refers, is inlined into as the term
is. -/
def InlinesPart (defs : Name → Option Nameless) (part part' : Nat × Nameless) : Prop :=
  ∃ names t t', part = t.under names ∧ part' = t'.under names ∧ Avoids defs names ∧
    Inlines (hide defs names) t t'

namespace Inlines

variable {t t' t'' : Nameless}

theorem part (h : Inlines defs t t') : InlinesPart defs (t.under []) (t'.under []) := by
  have hhide : hide defs [] = defs := funext fun n => if_neg List.not_mem_nil
  exact ⟨[], t, t', rfl, rfl, fun _ _ _ _ _ => List.not_mem_nil, by rwa [hhide]⟩

theorem of_none (h : ∀ n ∈ t.freeNames, defs n = none) : Inlines defs t t := ⟨t, .of_none h, .refl⟩

/-- What is reduced further is still the result of inlining. -/
theorem reduces (h : Inlines defs t t') (hreduces : Reduces t' t'') : Inlines defs t t'' := by
  obtain ⟨u, hunfolds, hreduces'⟩ := h
  exact ⟨u, hunfolds, hreduces'.trans hreduces⟩

/-- A reference to a function is inlined by inlining into the function's body. -/
theorem reference {n : Name} (hdef : defs n = some (lambda names.length (t.capture names 0)))
    (havoids : Avoids defs names) (h : Inlines (hide defs names) t t') :
    Inlines defs (free n) (lambda names.length (t'.capture names 0)) := by
  obtain ⟨u, hunfolds, hreduces⟩ := h
  exact ⟨_, .reference hdef ((hunfolds.capture havoids).lambda names.length), hreduces.lambda names⟩

/-- A node is inlined into part by part. -/
theorem node {former : Former} {parts parts' : List (Nat × Nameless)}
    (h : List.Forall₂ (InlinesPart defs) parts parts') :
    Inlines defs (.node former parts) (.node former parts') := by
  have hmiddle : ∃ middle,
      List.Forall₂ (fun part part' => part'.1 = part.1 ∧ Unfolds defs part.2 part'.2) parts middle ∧
      List.Forall₂ ReducesPart middle parts' := by
    induction h with
    | nil => exact ⟨[], .nil, .nil⟩
    | cons hpart _ ih =>
      obtain ⟨names, t, t', rfl, rfl, havoids, u, hunfolds, hreduces⟩ := hpart
      obtain ⟨middle, hunfolds', hreduces'⟩ := ih
      exact ⟨u.under names :: middle, .cons ⟨rfl, hunfolds.capture havoids⟩ hunfolds',
        .cons ⟨names, u, t', rfl, rfl, hreduces⟩ hreduces'⟩
  obtain ⟨middle, hunfolds, hreduces⟩ := hmiddle
  exact ⟨_, .node hunfolds, .node hreduces⟩

/-- What is left free is no reference; it was free before or comes from a definition. -/
theorem freeNames (h : Inlines defs t t') :
    ∀ x ∈ t'.freeNames, defs x = none ∧
      (x ∈ t.freeNames ∨ ∃ n d, defs n = some d ∧ x ∈ d.freeNames) := by
  obtain ⟨u, hunfolds, hreduces⟩ := h
  intro x hx
  have hx' := hreduces.freeNames hx
  exact ⟨hunfolds.2 x hx', hunfolds.freeNames x hx'⟩

end Inlines

end Nameless

/-! ## Expressions -/

theorem Nameless.under_nil (t : Nameless) : t.under [] = (0, t) :=
  congrArg (Prod.mk 0) (capture_of_disjoint (fun _ _ => List.not_mem_nil) 0)

theorem Nameless.eraseTypes_under (t : Nameless) (names : List Name) :
    ((t.under names).1, (t.under names).2.eraseTypes) = t.eraseTypes.under names :=
  congrArg (Prod.mk names.length) (eraseTypes_capture t names 0)

namespace Expr

/-- An expression without bound names, spans, annotations and visible type applications. -/
def term (e : Expr) : Nameless := e.nameless.eraseTypes

theorem term_cond (note : Note) (test thenBranch elseBranch : Expr) :
    (cond note test thenBranch elseBranch).term
      = .node .cond [test.term.under [], thenBranch.term.under [], elseBranch.term.under []] := by
  rw [Nameless.under_nil, Nameless.under_nil, Nameless.under_nil]
  rfl

theorem term_case (note : Note) (scrutinee : Expr) (alts : Alts) :
    (case note scrutinee alts).term
      = .node (.case (alts.map (·.1.shape)))
        (scrutinee.term.under [] :: alts.map fun alt => alt.2.term.under alt.1.names) := by
  rw [term, nameless, Nameless.eraseTypes_node, namelessAlts_eq, List.map_cons, List.map_map,
    Nameless.under_nil]
  congr 2
  exact List.map_congr_left fun alt _ => Nameless.eraseTypes_under _ _

theorem term_lam (note : Note) (params : List Binder) (body : Expr) :
    (lam note params body).term = .node .lam [body.term.under (binderNames params)] := by
  rw [term, nameless, Nameless.eraseTypes_node, List.map_singleton, Nameless.eraseTypes_under]
  rfl

theorem term_letRec (note : Note) (binds : Binds) (body : Expr) : (letRec note binds body).term
    = .node .letRec ((Binds.rhss binds ++ [body]).map (·.term.under (Binds.names binds))) := by
  rw [term, nameless, Nameless.eraseTypes_node, namelessRhss_eq, List.map_append,
    List.map_append, List.map_map]
  congr 2
  · exact List.map_congr_left fun rhs _ => Nameless.eraseTypes_under _ _
  · exact congrArg (fun part => [part]) (Nameless.eraseTypes_under _ _)

/-- Terms have the free variables of their expressions. -/
theorem freeNames_term (e : Expr) : e.term.freeNames = e.freeOccs := by
  rw [term, Nameless.freeNames_eraseTypes, freeNames_nameless]

theorem closedAt_term (e : Expr) : e.term.ClosedAt 0 := (closedAt_nameless e).eraseTypes

theorem nameless_lambda (params : List Binder) (body : Expr) :
    (lambda params body).nameless
      = Nameless.lambda (binderNames params).length
        (body.nameless.capture (binderNames params) 0) := by
  cases params with
  | nil => exact (Nameless.capture_of_disjoint (fun _ _ => List.not_mem_nil) 0).symm
  | cons b rest => rfl

/-- A function of several parameters binds them one by one. -/
theorem term_lambda (params : List Binder) (body : Expr) : (lambda params body).term
    = Nameless.lambda (binderNames params).length (body.term.capture (binderNames params) 0) := by
  rw [term, nameless_lambda, term, ← Nameless.eraseTypes_capture, Nameless.lambda, Nameless.lambda,
    apply_ite Nameless.eraseTypes, Nameless.eraseTypes_node]
  rfl

end Expr

end StructRec
