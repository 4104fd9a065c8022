import StructRec.Fixpoint.Group
import StructRec.Proofs.Fixpoints
import StructRec.Proofs.Pairings

/-!
# StructRec — hoisting keeps groups scoped

A group with constant parameters becomes a group of inner functions that lack them. Redirecting its
calls removes arguments and renames functions, so the group stays scoped: the variables of the
section take the place of the constant parameters, and the inner functions that of the functions
(`Hoist.reduced_scoped`). Decreasing positions are chosen for the inner group anew, so nothing about
its calls has to be carried over. The definitions after the section refer to inner functions only.
-/

namespace StructRec

namespace Hoist

variable {n : Name}

/-! ## Scope of applications -/

/-- An expression in scope. -/
def InScope (c : Counters) (v : View) (e : Expr) : Prop :=
  Scoped c v e.freeOccs e.markers e.boundNames

/-- An argument in scope; a type is. -/
def ArgInScope (c : Counters) (v : View) : Arg → Prop
  | .type _ => True
  | .value e => InScope c v e

section applications

variable {c : Counters} {v : View}

theorem inScope_var {note : Note} (h : ∃ k, v.facts n = some k) : InScope c v (.var note n) :=
  ⟨fun m hm => by rwa [List.mem_singleton.mp hm], List.forall_mem_nil _, List.forall_mem_nil _⟩

theorem inScope_withNote {e : Expr} (note : Note) :
    InScope c v (e.withNote note) ↔ InScope c v e := by
  cases e <;> rfl

/-- An application is in scope if all of it is. -/
theorem inScope_applyArgs {fn : Expr} {args : List Arg} (hfn : InScope c v fn)
    (hargs : ∀ arg ∈ args, ArgInScope c v arg) : InScope c v (fn.applyArgs args) := by
  induction args generalizing fn with
  | nil => exact hfn
  | cons arg rest ih =>
    rw [List.forall_mem_cons] at hargs
    refine ih ?_ hargs.2
    cases arg with
    | type ty => exact hfn
    | value e => exact Scoped.append_iff.mpr ⟨hfn, hargs.1⟩

theorem inScope_reapply {head : Expr} {args : List (Note × Arg)} (hhead : InScope c v head)
    (hargs : ∀ arg ∈ args, ArgInScope c v arg.2) : InScope c v (Plan.reapply head args) := by
  induction args generalizing head with
  | nil => exact hhead
  | cons arg rest ih =>
    rw [List.forall_mem_cons] at hargs
    refine ih ?_ hargs.2
    obtain ⟨note, arg⟩ := arg
    cases arg with
    | type ty => exact hhead
    | value e => exact Scoped.append_iff.mpr ⟨hhead, hargs.1⟩

end applications

/-- Arguments are left out, none is added. -/
theorem mem_of_mem_keptArgs {hoisted positions : List Nat} {arg : Arg} {args : List Arg}
    {types values : Nat} (h : arg ∈ Plan.keptArgs hoisted positions types values args) :
    arg ∈ args := by
  induction args generalizing types values with
  | nil => exact h
  | cons first rest ih =>
    cases first <;>
    · unfold Plan.keptArgs at h
      simp only at h
      split at h
      · exact List.mem_cons_of_mem _ (ih h)
      · rcases List.mem_cons.mp h with rfl | h
        · exact List.mem_cons_self
        · exact List.mem_cons_of_mem _ (ih h)

/-! ## Redirected expressions -/

/-- What is known before stays known unless it is redirected, and then its inner function is
known. -/
structure Redirects (plan : Plan) (bound : List Name) (v v' : View) : Prop where
  kept : ∀ n, plan.inner? bound n = none → (∃ k, v.facts n = some k) → ∃ k, v'.facts n = some k
  inner : ∀ n inner, plan.inner? bound n = some inner → ∃ k, v'.facts inner = some k
  markers : ∀ m, v.markers m → v'.markers m

theorem known_bindAll {v : View} (names : List Name) (size : Size) (h : ∃ k, v.facts n = some k) :
    ∃ k, (v.bindAll names size).facts n = some k := by
  rw [View.facts_bindAll]
  split
  · exact ⟨_, rfl⟩
  · exact h

/-- **Under binders**, which hide functions on both sides. -/
theorem Redirects.bindAll {plan : Plan} {bound : List Name} {v v' : View}
    (h : Redirects plan bound v v') (names : List Name) :
    Redirects plan (names ++ bound) (v.bindAll names .any) (v'.bindAll names .any) where
  kept n hn hk := by
    by_cases hmem : n ∈ names
    · exact ⟨_, (View.facts_bindAll v' names .any n).trans (if_pos hmem)⟩
    · refine known_bindAll names .any (h.kept n ?_ ?_)
      · simpa [Plan.inner?, hmem] using hn
      · simpa [hmem] using hk
  inner n inner hn := by
    refine known_bindAll names .any (h.inner n inner ?_)
    unfold Plan.inner? at hn ⊢
    split at hn
    · cases hn
    · next hmem => rwa [if_neg fun hbound => hmem (List.mem_append_right _ hbound)]
  markers := h.markers

section redirect

variable {c : Counters} {plan : Plan}

theorem binders_redirectBinds (plan : Plan) (bound : List Name) (binds : Binds) :
    Binds.binders (plan.redirectBinds bound binds) = Binds.binders binds := by
  induction binds with
  | nil =>
    rw [Plan.redirectBinds]
  | cons first rest ih =>
    obtain ⟨b, rhs⟩ := first
    rw [Plan.redirectBinds]
    exact congrArg (b :: ·) ih

theorem names_redirectBinds (plan : Plan) (bound : List Name) (binds : Binds) :
    Binds.names (plan.redirectBinds bound binds) = Binds.names binds :=
  congrArg binderNames (binders_redirectBinds plan bound binds)

mutual

/-- **Redirection keeps scope**, where the arguments are in scope already. -/
theorem redirectOnto_scoped :
    (e : Expr) → {bound : List Name} → {v v' : View} → {args : List (Note × Arg)} →
      Redirects plan bound v v' →
      InScope c v e → (∀ arg ∈ args, ArgInScope c v' arg.2) →
        InScope c v' (plan.redirectOnto bound e args)
  | .var note n, bound, v, v', args, hredirects, he, hargs => by
    rw [Plan.redirectOnto]
    cases hinner : plan.inner? bound n with
    | none =>
      exact inScope_reapply
        (inScope_var (hredirects.kept n hinner (he.free n (List.mem_singleton.mpr rfl)))) hargs
    -- the call goes to the inner function; the arguments it keeps were in scope
    | some inner =>
      refine (inScope_withNote _).mpr
        (inScope_applyArgs (inScope_var (hredirects.inner n inner hinner)) fun arg harg => ?_)
      obtain ⟨entry, hentry, rfl⟩ := List.mem_map.mp (mem_of_mem_keptArgs harg)
      exact hargs entry hentry
  | .con .., _, _, _, _, _, _, hargs | .intLit .., _, _, _, _, _, _, hargs => by
    rw [Plan.redirectOnto]
    · exact inScope_reapply .nil hargs
    all_goals nofun
  | .undefined _, _, _, _, _, hredirects, he, hargs
  | .error .., _, _, _, _, hredirects, he, hargs => by
    rw [Plan.redirectOnto]
    · exact inScope_reapply ⟨nofun, fun m hm => hredirects.markers m (he.markers m hm), nofun⟩ hargs
    all_goals nofun
  | .app _ fn arg, _, _, _, _, hredirects, he, hargs => by
    obtain ⟨hfn, harg⟩ := Scoped.append_iff.mp he
    rw [Plan.redirectOnto]
    refine redirectOnto_scoped fn hredirects hfn (List.forall_mem_cons.mpr ⟨?_, hargs⟩)
    exact redirectOnto_scoped arg hredirects harg (by nofun)
  | .typeApp _ fn _, _, _, _, _, hredirects, he, hargs => by
    rw [Plan.redirectOnto]
    exact redirectOnto_scoped fn hredirects he (List.forall_mem_cons.mpr ⟨trivial, hargs⟩)
  | .cond _ test thenBranch elseBranch, _, _, _, _, hredirects, he, hargs => by
    unfold InScope at he
    rw [Expr.freeOccs, Expr.markers, List.append_assoc, List.append_assoc, Expr.boundNames,
      Scoped.append_iff, Scoped.append_iff] at he
    rw [Plan.redirectOnto]
    refine inScope_reapply ?_ hargs
    unfold InScope
    rw [Expr.freeOccs, Expr.markers, List.append_assoc, List.append_assoc, Expr.boundNames,
      Scoped.append_iff, Scoped.append_iff]
    exact ⟨redirectOnto_scoped test hredirects he.1 (by nofun),
      redirectOnto_scoped thenBranch hredirects he.2.1 (by nofun),
      redirectOnto_scoped elseBranch hredirects he.2.2 (by nofun)⟩
  | .case _ scrutinee alts, _, _, _, _, hredirects, he, hargs => by
    obtain ⟨hscrutinee, halts⟩ := Scoped.append_iff.mp he
    rw [Plan.redirectOnto]
    refine inScope_reapply
      (Scoped.append_iff.mpr ⟨?_, redirectAlts_scoped alts hredirects halts⟩) hargs
    exact redirectOnto_scoped scrutinee hredirects hscrutinee (by nofun)
  | .lam _ params body, _, _, _, _, hredirects, he, hargs => by
    obtain ⟨hbound, hbody⟩ := (Scoped.bindAll_iff .any).mp he
    rw [Plan.redirectOnto]
    refine inScope_reapply ((Scoped.bindAll_iff .any).mpr ⟨hbound, ?_⟩) hargs
    exact redirectOnto_scoped body (hredirects.bindAll _) hbody (by nofun)
  -- the binders stay, so both scopes grow by the same names
  | .letRec _ binds body, bound, _, v', _, hredirects, he, hargs => by
    obtain ⟨hbound, hinside⟩ := (Scoped.bindAll_iff .any).mp he
    obtain ⟨hbinds, hbody⟩ := Scoped.append_iff.mp hinside
    have hbinds' := redirectBinds_scoped binds (hredirects.bindAll (Binds.names binds)) hbinds
    rw [Plan.redirectOnto]
    refine inScope_reapply ?_ hargs
    unfold InScope
    rw [Expr.freeOccs, Expr.boundNames, names_redirectBinds]
    refine (Scoped.bindAll_iff .any).mpr ⟨hbound, Scoped.append_iff.mpr ⟨hbinds', ?_⟩⟩
    exact redirectOnto_scoped body (hredirects.bindAll _) hbody (by nofun)

/-- The alternatives of a `case`. -/
theorem redirectAlts_scoped :
    (alts : Alts) → {bound : List Name} → {v v' : View} → Redirects plan bound v v' →
      Scoped c v (Expr.freeOccsAlts alts) (Expr.markersAlts alts) (Expr.boundNamesAlts alts) →
        Scoped c v' (Expr.freeOccsAlts (plan.redirectAlts bound alts))
          (Expr.markersAlts (plan.redirectAlts bound alts))
          (Expr.boundNamesAlts (plan.redirectAlts bound alts))
  | [], _, _, _, _, _ => by
    rw [Plan.redirectAlts]
    exact .nil
  | (pattern, rhs) :: rest, _, _, _, hredirects, h => by
    obtain ⟨hfirst, hrest⟩ := Scoped.append_iff.mp h
    obtain ⟨hbound, hrhs⟩ := (Scoped.bindAll_iff .any).mp hfirst
    rw [Plan.redirectAlts]
    refine Scoped.append_iff.mpr
      ⟨(Scoped.bindAll_iff .any).mpr ⟨hbound, ?_⟩, redirectAlts_scoped rest hredirects hrest⟩
    exact redirectOnto_scoped rhs (hredirects.bindAll _) hrhs (by nofun)

/-- The bindings of a `let`. -/
theorem redirectBinds_scoped :
    (binds : Binds) → {bound : List Name} → {v v' : View} → Redirects plan bound v v' →
      Scoped c v (Expr.freeOccsRhss binds) (Expr.markersRhss binds) (Expr.boundNamesRhss binds) →
        Scoped c v' (Expr.freeOccsRhss (plan.redirectBinds bound binds))
          (Expr.markersRhss (plan.redirectBinds bound binds))
            (Expr.boundNamesRhss (plan.redirectBinds bound binds))
  | [], _, _, _, _, _ => by
    rw [Plan.redirectBinds]
    exact .nil
  | (b, rhs) :: rest, _, _, _, hredirects, h => by
    obtain ⟨hrhs, hrest⟩ := Scoped.append_iff.mp h
    rw [Plan.redirectBinds]
    refine Scoped.append_iff.mpr ⟨?_, redirectBinds_scoped rest hredirects hrest⟩
    exact redirectOnto_scoped rhs hredirects hrhs (by nofun)

end

end redirect

/-! ## Names of inner functions -/

/-- **Inner functions have new names**, one for each function. -/
theorem freshInnerNames_spec {decls : List FuncDecl} {entries : List (Name × Name)} {σ σ' : Session}
    (h : freshInnerNames decls σ = (entries, σ')) :
    σ'.env = σ.env ∧ σ.counters ≤ σ'.counters ∧ entries.map Prod.fst = decls.map FuncDecl.name ∧
      (entries.map Prod.snd).Nodup ∧
      ∀ inner ∈ entries.map Prod.snd, ¬ σ.counters.Settled inner ∧ σ'.counters.Settled inner ∧
        σ.env.usesTarget inner.target = false := by
  induction decls generalizing σ entries with
  | nil =>
    obtain ⟨rfl, rfl⟩ := Naming.pure_eq.mp h
    exact ⟨rfl, le_rfl, rfl, List.nodup_nil, nofun⟩
  | cons d rest ih =>
    simp only [freshInnerNames, Naming.bind_eq, Naming.pure_eq] at h
    obtain ⟨inner, σ₁, hfresh, later, σ₂, hrest, rfl, rfl⟩ := h
    obtain ⟨henv, hgrows, hnew, hsettled, htarget⟩ := freshName_spec hfresh
    obtain ⟨henv', hgrows', hnames, hnodup, hlater⟩ := ih hrest
    refine ⟨henv'.trans henv, hgrows.trans hgrows', congrArg (d.name :: ·) hnames, ?_,
      List.forall_mem_cons.mpr ⟨⟨hnew, hsettled.mono hgrows', htarget⟩, fun inner' hinner' => ?_⟩⟩
    · exact List.nodup_cons.mpr ⟨fun hmem => (hlater inner hmem).1 hsettled, hnodup⟩
    · obtain ⟨hnew', hsettled', htarget'⟩ := hlater inner' hinner'
      exact ⟨fun hold => hnew' (hold.mono hgrows), hsettled', henv ▸ htarget'⟩

/-- The names of inner functions are numbered ones of the functions' roots. -/
theorem freshInnerNames_numbered {decls : List FuncDecl} {entries : List (Name × Name)}
    {σ σ' : Session} (h : freshInnerNames decls σ = (entries, σ')) :
    ∀ inner ∈ entries.map Prod.snd, ∃ d ∈ decls, ∃ k, inner = Name.numbered d.name.root k := by
  induction decls generalizing σ entries with
  | nil =>
    obtain ⟨rfl, rfl⟩ := Naming.pure_eq.mp h
    exact List.forall_mem_nil _
  | cons d rest ih =>
    simp only [freshInnerNames, Naming.bind_eq, Naming.pure_eq] at h
    obtain ⟨inner, σ₁, hfresh, later, σ₂, hrest, rfl, rfl⟩ := h
    refine List.forall_mem_cons.mpr
      ⟨⟨d, List.mem_cons_self, freshName_numbered hfresh⟩, fun inner' hinner' => ?_⟩
    obtain ⟨d', hd', hnumbered⟩ := ih hrest inner' hinner'
    exact ⟨d', List.mem_cons_of_mem _ hd', hnumbered⟩

/-! ## Dropped parameters -/

theorem dropAt_sublist {α : Type} (positions : List Nat) (xs : List α) :
    (dropAt positions xs).Sublist xs := by
  have h :=
    (List.filter_sublist (p := fun p : α × Nat => decide (p.2 ∉ positions)) (l := xs.zipIdx)).map
      Prod.fst
  rwa [List.zipIdx_map_fst] at h

theorem mem_dropAt {α : Type} {positions : List Nat} {xs : List α} {x : α} {i : Nat}
    (h : xs[i]? = some x) (hi : i ∉ positions) :
    x ∈ dropAt positions xs := by
  refine List.mem_map.mpr ⟨(x, i), List.mem_filter.mpr ⟨?_, decide_eq_true hi⟩, rfl⟩
  rw [List.mem_zipIdx_iff_getElem?]
  exact h

/-- At a constant position all functions have a parameter of one name. -/
theorem shareParam_eq {decls : List FuncDecl} {position : Nat}
    (h : shareParam decls position = true) {d d' : FuncDecl} (hd : d ∈ decls) (hd' : d' ∈ decls) :
    d.paramNames[position]? = d'.paramNames[position]? := by
  cases decls with
  | nil => cases hd
  | cons first rest =>
    unfold shareParam at h
    simp only at h
    split at h
    · cases h
    · next name hname =>
      have hall := List.all_eq_true.mp h
      exact (of_decide_eq_true (hall d hd)).trans (of_decide_eq_true (hall d' hd')).symm

/-- A variable of the section is named like the parameter of the first function. -/
theorem sectionVariables_names {decls : List FuncDecl} {positions : List Nat} {vars : List Binder}
    (h : sectionVariables? decls positions = some vars) {first : FuncDecl}
    (hfirst : decls.head? = some first) :
    List.Forall₂ (fun p (b : Binder) => first.paramNames[p]? = some b.name) positions vars := by
  refine (List.forall₂_of_mapM_eq_some h).imp fun p b hb => ?_
  rw [hfirst] at hb
  obtain ⟨_, heq, hb⟩ := Option.bind_eq_some_iff.mp hb
  obtain rfl := Option.some.inj heq
  obtain ⟨b', hb', hb⟩ := Option.bind_eq_some_iff.mp hb
  obtain ⟨ty, _, hb⟩ := Option.bind_eq_some_iff.mp hb
  obtain rfl := Option.some.inj hb
  rw [FuncDecl.paramNames, binderNames, List.getElem?_map, hb']
  rfl

/-! ## The inner group -/

/-- A plan for a group: its inner functions have new names, and its variables are named like the
parameters at its positions. -/
structure PlanFor (c c' : Counters) (decls : List FuncDecl) (entries : List (Name × Name))
    (plan : Plan) : Prop where
  names : plan.innerNames = Table.ofList entries
  keys : entries.map Prod.fst = decls.map FuncDecl.name
  grows : c ≤ c'
  nodup : (entries.map Prod.snd).Nodup
  new : ∀ inner ∈ entries.map Prod.snd, ¬ c.Settled inner ∧ c'.Settled inner
  nonempty : ∃ d, d ∈ decls
  shared : ∀ d ∈ decls, List.Forall₂ (fun p (b : Binder) => d.paramNames[p]? = some b.name)
    plan.positions plan.vars

section inner

variable {c c' : Counters} {decls : List FuncDecl} {entries : List (Name × Name)} {plan : Plan}
  {refs : List Name} {markers : Name → Prop}
variable {d : FuncDecl}

/-- The inner functions have the names drawn for them. -/
theorem PlanFor.reduced_names (h : PlanFor c c' decls entries plan)
    (hnodup : (decls.map FuncDecl.name).Nodup) :
    (decls.map plan.reduce).map FuncDecl.name = entries.map Prod.snd := by
  have hreduce : (decls.map plan.reduce).map FuncDecl.name
      = (decls.map FuncDecl.name).map fun n => (plan.innerNames.get? n).getD n := by
    rw [List.map_map, List.map_map]
    rfl
  rw [hreduce, ← h.keys, List.map_map, h.names]
  refine List.map_congr_left fun entry hentry => ?_
  rw [Function.comp_apply, Table.get?_ofList_of_mem (h.keys.symm ▸ hnodup) hentry, Option.getD_some]

/-- The plan knows the inner function of every function of the group. -/
theorem PlanFor.get?_name (h : PlanFor c c' decls entries plan)
    (hnodup : (decls.map FuncDecl.name).Nodup) (hd : d ∈ decls) :
    plan.innerNames.get? d.name = some (plan.reduce d).name := by
  have hkey : d.name ∈ entries.map Prod.fst := h.keys ▸ List.mem_map_of_mem hd
  obtain ⟨entry, hentry, hname⟩ := List.mem_map.mp hkey
  have hget : plan.innerNames.get? d.name = some entry.2 := by
    rw [h.names, ← hname]
    exact Table.get?_ofList_of_mem (h.keys ▸ hnodup) hentry
  change _ = some ((plan.innerNames.get? d.name).getD d.name)
  rw [hget]
  rfl

/-- A parameter that is not dropped is named by a variable of the section. -/
theorem PlanFor.mem_params (h : PlanFor c c' decls entries plan) (hd : d ∈ decls)
    (hn : n ∈ d.paramNames) : n ∈ (plan.reduce d).paramNames ∨ n ∈ binderNames plan.vars := by
  obtain ⟨i, hi⟩ := List.mem_iff_getElem?.mp hn
  by_cases hposition : i ∈ plan.positions
  · obtain ⟨b, hb, hname⟩ := (h.shared d hd).exists_right hposition
    rw [hi] at hname
    rw [Option.some.inj hname]
    exact .inr (List.mem_map_of_mem hb)
  · rw [FuncDecl.paramNames, binderNames, List.getElem?_map, Option.map_eq_some_iff] at hi
    obtain ⟨b, hb, rfl⟩ := hi
    exact .inl (List.mem_map_of_mem (mem_dropAt hb hposition))

/-- A variable of the section is named like a parameter of every function. -/
theorem PlanFor.mem_vars (h : PlanFor c c' decls entries plan) (hd : d ∈ decls)
    (hn : n ∈ binderNames plan.vars) : n ∈ d.paramNames := by
  obtain ⟨b, hb, rfl⟩ := List.mem_map.mp hn
  obtain ⟨p, _, hp⟩ := (h.shared d hd).exists_left hb
  exact List.mem_of_getElem? hp

/-- The right-hand side of an inner function is in scope. -/
theorem PlanFor.reduced_inScope (h : PlanFor c c' decls entries plan)
    (hgroup : GroupScoped c refs markers decls) (hd : d ∈ decls) :
    InScope c
      (View.ofGroup []
        ((plan.reduce d).paramNames ++ (entries.map Prod.snd ++ (refs ++ binderNames plan.vars)))
      markers) (plan.reduce d).rhs := by
  refine redirectOnto_scoped (v := View.ofGroup [] d.rhs.freeOccs markers) d.rhs
    ⟨fun n hn hk => ?_, fun n inner hn => ?_,
    fun _ hm => hm⟩ ⟨fun n hn => ⟨_, if_pos hn⟩, hgroup.markers d hd, hgroup.bound d hd⟩ (by nofun)
  · -- a name that is not redirected is a parameter or stands for something outside of the group
    obtain ⟨k, hk⟩ := hk
    have hfree : n ∈ d.rhs.freeOccs := (View.mem_of_facts_ofGroup hk).resolve_left List.not_mem_nil
    refine ⟨_, if_pos ?_⟩
    rw [List.mem_append, List.mem_append, List.mem_append]
    by_cases hparam : n ∈ d.paramNames
    · exact (h.mem_params hd hparam).imp id fun hvar => .inr (.inr hvar)
    · refine .inr (.inr (.inl (((hgroup.free d hd n hfree).resolve_left hparam).resolve_left
        fun hmem => ?_)))
      rw [Plan.inner?, if_neg hparam, h.names] at hn
      obtain ⟨entry, hentry, rfl⟩ := List.mem_map.mp (h.keys.symm ▸ hmem)
      rw [Table.get?_ofList_of_mem (h.keys.symm ▸ hgroup.nodup) hentry] at hn
      cases hn
  · unfold Plan.inner? at hn
    split at hn
    · cases hn
    · rw [h.names] at hn
      refine ⟨_, if_pos (List.mem_append_right _ (List.mem_append_left _ ?_))⟩
      exact List.mem_map.mpr ⟨_, Table.mem_of_get?_ofList hn, rfl⟩

/-- **The inner group is scoped**: its functions stand in place of those of the group, and the
variables of the section in place of the constant parameters. -/
theorem PlanFor.reduced_scoped (h : PlanFor c c' decls entries plan)
    (hgroup : GroupScoped c refs markers decls) :
    GroupScoped c' (refs ++ binderNames plan.vars) markers (decls.map plan.reduce) := by
  have hnames := h.reduced_names hgroup.nodup
  refine ⟨hnames ▸ h.nodup, List.forall_mem_map.mpr fun d hd => ?_, fun n hn => ?_,
    List.forall_mem_map.mpr fun d hd => ?_,
    List.forall_mem_map.mpr fun d hd n hn => ?_, List.forall_mem_map.mpr fun d hd m hm => ?_,
    List.forall_mem_map.mpr fun d hd n hn => ?_⟩
  · refine (h.new _ ?_).2
    rw [← hnames]
    exact List.mem_map_of_mem (List.mem_map_of_mem hd)
  · have hsettled : c.Settled n := by
      rcases List.mem_append.mp hn with hn | hn
      · exact (hgroup.others n hn).1
      · -- variables of the section are named like parameters
        obtain ⟨d, hd⟩ := h.nonempty
        exact (hgroup.params d hd).2 n (h.mem_vars hd hn)
    exact ⟨hsettled.mono h.grows, fun hmem => (h.new n (hnames ▸ hmem)).1 hsettled⟩
  · have hsub : (plan.reduce d).paramNames.Sublist d.paramNames :=
      (dropAt_sublist plan.positions d.params).map _
    exact ⟨(hgroup.params d hd).1.sublist hsub,
      fun n hn => ((hgroup.params d hd).2 n (hsub.subset hn)).mono h.grows⟩
  · obtain ⟨k, hk⟩ := (h.reduced_inScope hgroup hd).free n hn
    have hmem := (View.mem_of_facts_ofGroup hk).resolve_left List.not_mem_nil
    rw [hnames]
    rwa [List.mem_append, List.mem_append] at hmem
  · exact (h.reduced_inScope hgroup hd).markers m hm
  · exact ((h.reduced_inScope hgroup hd).bound n hn).mono h.grows

end inner

/-! ## Pragmas of inner functions -/

section pragmas

variable {positions : List Nat} {σ σ' : Session} {u : Unit}

/-- Only the inner function of a function with a pragma gets one. -/
theorem registerInner_ok {d inner : FuncDecl} (h : registerInner positions d inner σ = .ok u σ') :
    σ'.counters = σ.counters ∧ ∀ n, (n = inner.name → σ.env.pragmas.get? d.name = none) →
      σ'.env.pragmas.get? n = σ.env.pragmas.get? n := by
  simp only [registerInner, Compile.bind_ok, Compile.lift_ok, Session.modifyEnv_eq,
    Session.getEnv_eq] at h
  obtain ⟨_, σ₁, rfl, _, _, ⟨rfl, rfl⟩, h⟩ := h
  generalize hresult : innerPragma _ positions d = result at h
  rcases result with diagnostic | pragma
  · exact absurd h Compile.throw_ok
  · cases pragma with
    | none =>
      obtain ⟨_, rfl⟩ := Compile.pure_ok.mp h
      exact ⟨rfl, fun _ _ => rfl⟩
    | some pragma =>
      simp only [Compile.lift_ok, Session.modifyEnv_eq] at h
      subst h
      refine ⟨rfl, fun n hn => ?_⟩
      -- a pragma for the inner function comes from one for the function itself
      have hne : ¬ inner.name = n := by
        intro heq
        have hnone : σ.env.pragmas.get? d.name = none := hn heq.symm
        unfold innerPragma at hresult
        rw [show Table.get? (σ.env.addFunc _).pragmas d.name = none from hnone] at hresult
        cases hresult
      change (Table.insert _ _ _).get? n = _
      rw [Table.get?_insert, if_neg hne]
      rfl

/-- In a loop over functions whose names are no inner names. -/
theorem registerAll_ok {pairs : List (FuncDecl × FuncDecl)}
    (h : (pairs.forM fun (d, inner) => registerInner positions d inner) σ = .ok u σ')
    (hdistinct : ∀ p ∈ pairs, ∀ q ∈ pairs, p.1.name ≠ q.2.name) :
    σ'.counters = σ.counters ∧ ∀ n,
      (∀ p ∈ pairs, n = p.2.name → σ.env.pragmas.get? p.1.name = none) →
      σ'.env.pragmas.get? n = σ.env.pragmas.get? n := by
  induction pairs generalizing σ with
  | nil =>
    obtain ⟨_, rfl⟩ := Compile.pure_ok.mp h
    exact ⟨rfl, fun _ _ => rfl⟩
  | cons p rest ih =>
    change (registerInner positions p.1 p.2 >>= fun _ => rest.forM _) σ = .ok u σ' at h
    obtain ⟨_, σ₁, hfirst, hrest⟩ := Compile.bind_ok.mp h
    obtain ⟨hcounters, hkept⟩ := registerInner_ok hfirst
    obtain ⟨hcounters', hkept'⟩ := ih hrest fun q hq q' hq' =>
      hdistinct q (List.mem_cons_of_mem _ hq) q' (List.mem_cons_of_mem _ hq')
    refine ⟨hcounters'.trans hcounters, fun n hn => ?_⟩
    rw [List.forall_mem_cons] at hn
    refine (hkept' n fun q hq hname => ?_).trans (hkept n hn.1)
    -- what the first function registers is not looked up again
    rw [hkept q.1.name fun heq =>
      absurd heq (hdistinct q (List.mem_cons_of_mem _ hq) p List.mem_cons_self)]
    exact hn.2 q hq hname

/-- Opening a section changes no pragma and no counter. -/
theorem openSection_ok {vars : List Binder} {previous : List (Name × Option ValueEntry)}
    (h : openSection vars σ = (previous, σ')) :
    σ'.counters = σ.counters ∧ σ'.env.pragmas = σ.env.pragmas := by
  induction vars generalizing σ previous with
  | nil =>
    obtain ⟨_, rfl⟩ := Naming.pure_eq.mp h
    exact ⟨rfl, rfl⟩
  | cons b rest ih =>
    simp only [openSection, Naming.bind_eq, Naming.pure_eq, Session.getEnv_eq,
      Session.modifyEnv_eq] at h
    obtain ⟨_, _, ⟨rfl, rfl⟩, _, _, rfl, later, σ₂, hrest, _, rfl⟩ := h
    obtain ⟨hcounters, hpragmas⟩ := ih hrest
    exact ⟨hcounters, hpragmas⟩

end pragmas

theorem pragmas_closeOver (typeVars : List Name) (vars : List Binder) (function : Name)
    (env : Environment) : (closeOver typeVars vars function env).pragmas = env.pragmas := by
  unfold closeOver
  simp only
  split
  · exact env.pragmas_updateFunc function _
  · exact env.pragmas_updateFunc function _

/-! ## The definitions after the section -/

/-- The definition of a function outside of the section refers to its inner function only. -/
theorem wrapper_spec {plan : Plan} {d w : FuncDecl} (h : plan.wrapper? d = some w) :
    w.name = d.name ∧ ∀ n ∈ w.references, n = (plan.reduce d).name := by
  unfold Plan.wrapper? at h
  obtain ⟨shared, hshared, h⟩ := Option.bind_eq_some_iff.mp h
  obtain rfl := Option.some.inj h
  have hparam : ∀ b ∈ d.params,
      ArgInScope {} (View.ofGroup [] ((plan.reduce d).name :: d.paramNames) fun _ => False)
      (.value b.toExpr) := fun b hb =>
    inScope_var ⟨_, if_pos (List.mem_cons_of_mem _ (List.mem_map_of_mem hb))⟩
  -- the wrapper refers to its inner function and to its own parameters
  have hscope : InScope {} (View.ofGroup [] ((plan.reduce d).name :: d.paramNames) fun _ => False)
      (((Expr.var {} (plan.reduce d).name).applyArgs (plan.typeVars.map (Arg.type <| .var ·)
        ++ shared.map (.value ·.toExpr) ++ (keptTypeParams plan.typeVars d).map (.type ·.toTy)
        ++ (dropAt plan.positions d.params).map (.value ·.toExpr))).withSpan d.rhs.span) := by
    refine (inScope_withNote _).mpr
      (inScope_applyArgs (inScope_var ⟨_, if_pos List.mem_cons_self⟩) fun arg harg => ?_)
    simp only [List.mem_append, List.mem_map] at harg
    rcases harg with ((⟨_, _, rfl⟩ | ⟨b, hb, rfl⟩) | ⟨_, _, rfl⟩) | ⟨b, hb, rfl⟩
    · trivial
    · obtain ⟨p, _, hp⟩ := (List.forall₂_of_mapM_eq_some hshared).exists_left hb
      exact hparam b (List.mem_of_getElem? hp)
    · trivial
    · exact hparam b ((dropAt_sublist _ _).subset hb)
  refine ⟨rfl, fun n hn => ?_⟩
  rcases FuncDecl.mem_references_iff.mp hn with ⟨hfree, hparam⟩ | hmarker
  · obtain ⟨k, hk⟩ := hscope.free n hfree
    have hmem := (View.mem_of_facts_ofGroup hk).resolve_left List.not_mem_nil
    exact (List.mem_cons.mp hmem).resolve_right hparam
  · exact (hscope.markers n hmarker).elim

/-! ## Runs -/

/-- The environment after a section: what its variables hid is back, and its functions take the
variables too. -/
def Plan.closeSection (plan : Plan) (previous : List (Name × Option ValueEntry))
    (functions : List FuncDecl) (env : Environment) : Environment :=
  functions.foldl (fun env d => closeOver plan.typeVars plan.vars d.name env)
    (previous.foldl (fun env entry => env.unshadow entry.1 entry.2) env)

/-- A run of hoisting: the plan of the section, the states that it passes through and what comes
out. -/
inductive Run (decls : List FuncDecl) (positions : List Nat) (σ : Session) :
    List Sentence → Session → Prop where
  | intro {plan : Plan} {entries : List (Name × Name)} {first : FuncDecl} {name : Name}
      {previous : List (Name × Option ValueEntry)} {chosen : List Nat} {inner : List Sentence}
      {wrappers : List FuncDecl}
      {σ₁ σ₂ σ₃ σ₄ σ₅ : Session} (hpositions : plan.positions = positions)
      (hvars : sectionVariables? decls positions = some plan.vars)
      (htypeVars : plan.typeVars = typeVarsOf plan.vars)
      (hnames : plan.innerNames = Table.ofList entries)
      (hhoisted : plan.hoistedTypes =
        Table.ofList (decls.map fun d => (d.name, hoistedTypePositions plan.typeVars d)))
      (hfresh : freshInnerNames decls σ = (entries, σ₁)) (hfirst : decls.head? = some first)
      (hname : freshName (first.name.root ++ "_section") σ₁ = (name, σ₂))
      (hopen : openSection plan.vars σ₂ = (previous, σ₃))
      (hregister :
        ((decls.zip (decls.map plan.reduce)).forM fun (d, inner) =>
        registerInner plan.positions d inner) σ₃ = .ok () σ₄)
      (hchoose : Decreasing.choose σ₄.env (decls.map plan.reduce) = .ok chosen)
      (hsplit : Split.toSentences (decls.map plan.reduce) chosen σ₄ = .ok inner σ₅)
      (hwrappers : decls.mapM plan.wrapper? = some wrappers) :
      Run decls positions σ
        (.shared name (plan.typeVars.map ({ name := · })) plan.vars inner ::
          wrappers.map .definition)
        { σ₅ with env := plan.closeSection previous (Sentence.funcDeclsOfAll inner) σ₅.env }

/-- **A conversion of a group with constant arguments**, step by step. -/
theorem toSentences_ok {decls : List FuncDecl} {positions : List Nat} {sentences : List Sentence}
    {σ σ' : Session} :
    toSentences decls positions σ = .ok sentences σ' ↔ Run decls positions σ sentences σ' := by
  simp only [toSentences, Compile.bind_ok, Compile.expect_ok, Compile.lift_ok, Session.getEnv_eq]
  constructor
  · rintro ⟨vars, _, ⟨hvars, rfl⟩, entries, σ₁, hfresh, first, _, ⟨hfirst, rfl⟩, name, σ₂, hname,
      previous, σ₃, hopen, _, σ₄, hregister, _, _, ⟨rfl, rfl⟩, h⟩
    generalize hplan : Plan.mk positions vars (typeVarsOf vars) (Table.ofList entries)
      (Table.ofList (decls.map fun d => (d.name, hoistedTypePositions (typeVarsOf vars) d))) =
        plan at h hregister
    -- without a choice the run fails
    cases hchoose : Decreasing.choose σ₄.env (decls.map plan.reduce) with
    | error diagnostic =>
      simp only [hchoose, Compile.bind_ok] at h
      obtain ⟨_, _, hthrow, _⟩ := h
      exact absurd hthrow Compile.throw_ok
    | ok chosen =>
      simp only [hchoose, Compile.bind_ok, Compile.pure_ok, Compile.expect_ok,
        Compile.forM_modifyEnv_ok] at h
      obtain ⟨_, _, ⟨rfl, rfl⟩, inner, σ₅, hsplit, _, _, rfl, _, _, rfl, wrappers, _,
        ⟨hwrappers, rfl⟩, rfl, rfl⟩ := h
      subst hplan
      exact .intro rfl hvars rfl rfl rfl hfresh hfirst hname hopen hregister hchoose
        hsplit hwrappers
  · rintro @⟨plan, entries, first, name, previous, chosen, inner, wrappers, σ₁, σ₂, σ₃, σ₄, σ₅, rfl,
      hvars, htypeVars,
      hnames, hhoisted, hfresh, hfirst, hname, hopen, hregister, hchoose, hsplit, hwrappers⟩
    -- the plan is the one that the run makes
    have hplan : Plan.mk plan.positions plan.vars (typeVarsOf plan.vars) (Table.ofList entries)
        (Table.ofList
          (decls.map fun d => (d.name, hoistedTypePositions (typeVarsOf plan.vars) d))) = plan := by
      rw [← htypeVars, ← hnames, ← hhoisted]
    refine ⟨plan.vars, σ, ⟨hvars, rfl⟩, entries, σ₁, hfresh, first, σ₁, ⟨hfirst, rfl⟩, name, σ₂,
      hname, previous, σ₃, hopen, ?_⟩
    rw [hplan]
    refine ⟨(), σ₄, hregister, σ₄.env, σ₄, ⟨rfl, rfl⟩, ?_⟩
    simp only [hchoose, Compile.bind_ok, Compile.pure_ok, Compile.expect_ok,
      Compile.forM_modifyEnv_ok]
    rw [← htypeVars]
    exact ⟨chosen, σ₄, ⟨rfl, rfl⟩, inner, σ₅, hsplit, (), _, rfl, (), _, rfl, wrappers, _,
      ⟨hwrappers, rfl⟩, rfl, rfl⟩

/-! ## Sentences -/

/-- What a group becomes in a section: a fixpoint and main functions of its inner group, which may
also refer to the variables of the section, and definitions after the section that refer to main
functions only. -/
structure IsHoisted (c : Counters) (refs : List Name) (markers : Name → Prop)
    (decls : List FuncDecl) (vars : List Binder) (bodies : List FixpointBody)
    (mains wrappers : List FuncDecl) : Prop where
  split : ∃ c' inner, GroupScoped c' (refs ++ binderNames vars) markers inner ∧
    Split.IsSplit c' (refs ++ binderNames vars) markers inner bodies mains
  nonempty : bodies ≠ []
  new : ∀ n ∈ mains.map FuncDecl.name, ¬ c.Settled n
  names : wrappers.map FuncDecl.name = decls.map FuncDecl.name
  references : ∀ w ∈ wrappers, ∀ n ∈ w.references, n ∈ mains.map FuncDecl.name

section group

variable {decls : List FuncDecl} {sentences : List Sentence} {refs : List Name}
  {markers : Name → Prop} {σ σ' : Session}
variable {entries : List (Name × Name)} {plan : Plan} {c' : Counters}

/-- The plan of a run fits its group. -/
theorem planFor_of_run {first : FuncDecl} {name wanted : Name} {σ₁ σ₂ : Session}
    (hfresh : freshInnerNames decls σ = (entries, σ₁)) (hname : freshName wanted σ₁ = (name, σ₂))
    (hnames : plan.innerNames = Table.ofList entries)
    (hpositions : plan.positions = constantPositions decls)
    (hvars : sectionVariables? decls (constantPositions decls) = some plan.vars)
    (hfirst : decls.head? = some first) : PlanFor σ.counters σ₂.counters decls entries plan := by
  obtain ⟨_, hgrows, hkeys, hnodup, hnew⟩ := freshInnerNames_spec hfresh
  obtain ⟨_, hgrows', _⟩ := freshName_spec hname
  have hmem : first ∈ decls := List.mem_of_mem_head? hfirst
  refine ⟨hnames, hkeys, hgrows.trans hgrows', hnodup, fun inner hinner => ?_, ⟨first, hmem⟩,
    fun d hd => ?_⟩
  · exact ⟨(hnew inner hinner).1, (hnew inner hinner).2.1.mono hgrows'⟩
  · rw [hpositions]
    have hshared := sectionVariables_names hvars hfirst
    refine List.forall₂_iff_zip.mpr ⟨hshared.length_eq, fun {p b} hp => ?_⟩
    have hposition := List.mem_filter.mp (List.of_mem_zip hp).1
    rw [Bool.and_eq_true] at hposition
    rw [shareParam_eq hposition.2.1 hd hmem]
    exact List.forall₂_zip hshared hp

/-- Registering the inner functions gives pragmas to those only whose functions have one. -/
theorem pragmas_of_run {σ₃ σ₄ : Session} {u : Unit}
    (hplan : PlanFor σ.counters c' decls entries plan)
    (hgroup : GroupScoped σ.counters refs markers decls)
    (hopened : σ₃.env.pragmas = σ.env.pragmas)
    (hregister :
      ((decls.zip (decls.map plan.reduce)).forM fun (d, inner) =>
      registerInner plan.positions d inner) σ₃
      = .ok u σ₄) :
    σ₄.counters = σ₃.counters ∧ ∀ n,
      (∀ d ∈ decls, n = (plan.reduce d).name → σ.env.pragmas.get? d.name = none) →
      σ₄.env.pragmas.get? n = σ.env.pragmas.get? n := by
  have hpair : ∀ p ∈ decls.zip (decls.map plan.reduce), p.1 ∈ decls ∧ p.2 = plan.reduce p.1 := by
    intro p hp
    rw [← List.map_prod_left_eq_zip, List.mem_map] at hp
    obtain ⟨d, hd, rfl⟩ := hp
    exact ⟨hd, rfl⟩
  obtain ⟨hcounters, hkept⟩ := registerAll_ok hregister fun p hp q hq heq => by
    have hinner : (plan.reduce q.1).name ∈ entries.map Prod.snd := by
      rw [← hplan.reduced_names hgroup.nodup]
      exact List.mem_map_of_mem (List.mem_map_of_mem (hpair q hq).1)
    rw [(hpair q hq).2] at heq
    exact (hplan.new _ hinner).1 (heq ▸ hgroup.settled p.1 (hpair p hp).1)
  refine ⟨hcounters, fun n hn => ?_⟩
  rw [← hopened] at hn ⊢
  exact hkept n fun p hp hname => hn p.1 (hpair p hp).1 ((hpair p hp).2 ▸ hname)

/-- The inner function of a function without a pragma has none: its name is new, and only the inner
functions of functions with a pragma get one. -/
theorem PlanFor.exists_free {pragmas : Table PragmaEntry}
    (hplan : PlanFor σ.counters c' decls entries plan)
    (hgroup : GroupScoped σ.counters refs markers decls)
    (hfree : ∃ d ∈ decls, σ.env.pragmas.get? d.name = none)
    (hnone : ∀ inner ∈ entries.map Prod.snd, σ.env.pragmas.get? inner = none)
    (hregistered : ∀ n, (∀ d ∈ decls, n = (plan.reduce d).name → σ.env.pragmas.get? d.name = none) →
      pragmas.get? n = σ.env.pragmas.get? n) :
    ∃ d ∈ decls.map plan.reduce, pragmas.get? d.name = none := by
  obtain ⟨d, hd, hpragma⟩ := hfree
  have hnames := hplan.reduced_names hgroup.nodup
  refine ⟨plan.reduce d, List.mem_map_of_mem hd, ?_⟩
  rw [hregistered _ fun d' hd' hname => ?_]
  · refine hnone _ ?_
    rw [← hnames]
    exact List.mem_map_of_mem (List.mem_map_of_mem hd)
  · have hnodup := hplan.nodup
    rw [← hnames, List.map_map] at hnodup
    rw [← List.inj_on_of_nodup_map hnodup hd hd' hname]
    exact hpragma

/-- The definitions after the section pass on to the main functions of the inner group. -/
theorem PlanFor.isHoisted {c'' : Counters} {bodies : List FixpointBody}
    {mains wrappers : List FuncDecl} (hplan : PlanFor σ.counters c' decls entries plan)
    (hgroup : GroupScoped σ.counters refs markers decls)
    (hinner : GroupScoped c'' (refs ++ binderNames plan.vars) markers (decls.map plan.reduce))
    (hsplit : Split.IsSplit c'' (refs ++ binderNames plan.vars) markers
      (decls.map plan.reduce) bodies mains)
    (hwrappers : decls.mapM plan.wrapper? = some wrappers) :
    IsHoisted σ.counters refs markers decls plan.vars bodies mains wrappers := by
  have hmains : mains.map FuncDecl.name = entries.map Prod.snd :=
    hsplit.names.trans (hplan.reduced_names hgroup.nodup)
  have hall := List.forall₂_of_mapM_eq_some hwrappers
  refine ⟨⟨c'', _, hinner, hsplit⟩, hsplit.nonempty ?_, fun n hn => ?_, ?_, fun w hw n hn => ?_⟩
  · obtain ⟨d, hd⟩ := hplan.nonempty
    exact List.ne_nil_of_mem (List.mem_map_of_mem hd)
  · exact (hplan.new n (hmains ▸ hn)).1
  · have heq : List.Forall₂ (· = ·) (wrappers.map FuncDecl.name) (decls.map FuncDecl.name) :=
      List.forall₂_map_left_iff.mpr
        (List.forall₂_map_right_iff.mpr (hall.imp fun d w hw => (wrapper_spec hw).1).flip)
    rwa [List.forall₂_eq_eq_eq] at heq
  · obtain ⟨d, hd, hwrapper⟩ := hall.exists_left hw
    rw [(wrapper_spec hwrapper).2 n hn, hsplit.names]
    exact List.mem_map_of_mem (List.mem_map_of_mem hd)

/-- **A group with constant parameters** becomes a section around its inner group. -/
theorem toSentences_sound (h : toSentences decls (constantPositions decls) σ = .ok sentences σ')
    (hgroup : GroupScoped σ.counters refs markers decls)
    (hfree : ∃ d ∈ decls, σ.env.pragmas.get? d.name = none)
    (hpragmas : ∀ n, ¬ σ.counters.Settled n → σ.env.usesTarget n.target = false →
      σ.env.pragmas.get? n = none) :
    ((∀ n, σ.env.pragmas.get? n = none) → ∀ n, σ'.env.pragmas.get? n = none) ∧
      ∃ name typeVars vars bodies mains wrappers,
        sentences = .shared name typeVars vars (.fixpoint bodies :: mains.map .definition) ::
          wrappers.map .definition ∧
        IsHoisted σ.counters refs markers decls vars bodies mains wrappers := by
  obtain @⟨plan, entries, first, name, previous, chosen, inner, wrappers, σ₁, σ₂, σ₃, σ₄, σ₅,
    hpositions, hvars, _, hnames, _,
    hfresh, hfirst, hname, hopen, hregister, hchoose, hsplit, hwrappers⟩ := toSentences_ok.mp h
  -- the counters do not change after the section has its name
  obtain ⟨hcounters, hopened⟩ := openSection_ok hopen
  obtain ⟨henv, _, _, _, hentries⟩ := freshInnerNames_spec hfresh
  have hplanFor : PlanFor σ.counters σ₂.counters decls entries plan :=
    planFor_of_run hfresh hname hnames hpositions hvars hfirst
  have hopened' : σ₃.env.pragmas = σ.env.pragmas := by rw [hopened, (freshName_spec hname).1, henv]
  obtain ⟨hcounters', hregistered⟩ := pragmas_of_run hplanFor hgroup hopened' hregister
  have hinner : GroupScoped σ₄.counters (refs ++ binderNames plan.vars) markers
      (decls.map plan.reduce) := by
    rw [hcounters', hcounters]
    exact hplanFor.reduced_scoped hgroup
  have hinnerFree := hplanFor.exists_free hgroup hfree
    (fun inner hmem => hpragmas inner (hentries inner hmem).1 (hentries inner hmem).2.2) hregistered
  obtain ⟨hkept, bodies, mains, rfl, hisSplit⟩ := hinner.toSentences_sound hinnerFree hchoose hsplit
  refine ⟨fun hnone n => ?_, name, _, plan.vars, bodies, mains, wrappers, rfl,
    hplanFor.isHoisted hgroup hinner hisSplit hwrappers⟩
  refine (congrArg (Table.get? · n) ?_).trans
    ((hregistered n fun d _ _ => hnone d.name).trans (hnone n))
  refine (Environment.pragmas_foldl
    (fun env (d : FuncDecl) => pragmas_closeOver _ _ d.name env) _ _).trans ?_
  exact (Environment.pragmas_foldl (fun env (entry : Name × Option ValueEntry) =>
    env.pragmas_unshadow entry.1 entry.2) _ _).trans hkept

end group

end Hoist

/-! ## Recursive groups -/

/-- A run for a recursive group: a split if there are no constant parameters, and hoisting
otherwise. -/
inductive GroupRun (decls : List FuncDecl) (σ : Session) (sentences : List Sentence)
    (σ' : Session) : Prop where
  | split {positions : List Nat} (hnone : constantPositions decls = [])
      (hchoose : Decreasing.choose σ.env decls = .ok positions)
      (hrun : Split.toSentences decls positions σ = .ok sentences σ')
  | hoist (hsome : constantPositions decls ≠ [])
      (hrun : Hoist.toSentences decls (constantPositions decls) σ = .ok sentences σ')

/-- A group is hoisted if it has constant arguments, and split otherwise. -/
theorem groupToSentences_ok {decls : List FuncDecl} {sentences : List Sentence} {σ σ' : Session} :
    groupToSentences decls σ = .ok sentences σ' ↔ GroupRun decls σ sentences σ' := by
  unfold groupToSentences
  cases hpositions : constantPositions decls with
  | nil =>
    simp only [Compile.bind_ok, Compile.lift_ok, Session.getEnv_eq]
    constructor
    · rintro ⟨_, _, ⟨rfl, rfl⟩, h⟩
      cases hchoose : Decreasing.choose σ.env decls with
      | error diagnostic =>
        simp only [hchoose] at h
        exact absurd h Compile.throw_ok
      | ok positions =>
        simp only [hchoose] at h
        exact .split hpositions hchoose h
    · rintro (⟨_, hchoose, hrun⟩ | ⟨hsome, _⟩)
      · exact ⟨σ.env, σ, ⟨rfl, rfl⟩, by simpa only [hchoose] using hrun⟩
      · exact absurd hpositions hsome
  -- some argument is passed on unchanged everywhere: the group is hoisted
  | cons position rest =>
    simp only
    rw [← hpositions]
    constructor
    · intro h
      refine .hoist ?_ h
      rw [hpositions]
      exact List.cons_ne_nil _ _
    · rintro (⟨hnone, _⟩ | ⟨_, hrun⟩)
      · cases hpositions.symm.trans hnone
      · exact hrun

/-- What a recursive group becomes. -/
inductive GroupConverted (c : Counters) (refs : List Name) (markers : Name → Prop)
    (decls : List FuncDecl) : List Sentence → Prop where
  | split {bodies : List FixpointBody} {mains : List FuncDecl}
      (hsplit : Split.IsSplit c refs markers decls bodies mains) :
      GroupConverted c refs markers decls (.fixpoint bodies :: mains.map .definition)
  | hoisted {name : Name} {typeVars : List TypeParam} {vars : List Binder}
      {bodies : List FixpointBody} {mains wrappers : List FuncDecl}
      (hhoisted : Hoist.IsHoisted c refs markers decls vars bodies mains wrappers) :
      GroupConverted c refs markers decls
        (.shared name typeVars vars (.fixpoint bodies :: mains.map .definition) ::
          wrappers.map .definition)

/-- **A recursive group** in which a function has no pragma. Pragmas for names that can still be
generated are excluded: an inner function would take such a pragma at its word. -/
theorem groupToSentences_sound {decls : List FuncDecl} {sentences : List Sentence}
    {refs : List Name}
    {markers : Name → Prop} {σ σ' : Session} (h : groupToSentences decls σ = .ok sentences σ')
    (hgroup : GroupScoped σ.counters refs markers decls)
    (hfree : ∃ d ∈ decls, σ.env.pragmas.get? d.name = none)
    (hpragmas : ∀ n, ¬ σ.counters.Settled n → σ.env.usesTarget n.target = false →
      σ.env.pragmas.get? n = none) :
    ((∀ n, σ.env.pragmas.get? n = none) → ∀ n, σ'.env.pragmas.get? n = none) ∧
      GroupConverted σ.counters refs markers decls sentences := by
  cases groupToSentences_ok.mp h with
  | split _ hchoose hrun =>
    obtain ⟨hkept, bodies, mains, rfl, hsplit⟩ := hgroup.toSentences_sound hfree hchoose hrun
    exact ⟨fun hnone n => hkept ▸ hnone n, .split hsplit⟩
  | hoist _ hrun =>
    obtain ⟨hkept, name, typeVars, vars, bodies, mains, wrappers, rfl, hhoisted⟩ :=
      Hoist.toSentences_sound hrun hgroup hfree hpragmas
    exact ⟨hkept, .hoisted hhoisted⟩

end StructRec
