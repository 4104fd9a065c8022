import StructRec.Proofs.HoistedCalls

/-!
# StructRec — the types that inner functions are applied to

Hoisting takes the type parameters away from a group that occur in the types of the section's
variables, and the types from the calls that stood for them. So an inner function has as many type
parameters left as its calls have types left. A redirected expression refers to inner functions
where it referred to functions of the group, and elsewhere to what it referred to before
(`HeadRedirected`).
-/

namespace StructRec

/-- The kind of an argument. -/
def Arg.kind : Arg → ArgKind
  | type _ => .type
  | value _ => .value

namespace Hoist

variable {args : List Arg}

/-! ## Heads of redirected expressions -/

theorem heads_withNote (note : Note) (e : Expr) (kinds : List ArgKind) :
    (e.withNote note).heads kinds = e.heads kinds := by
  cases e <;> rfl

/-- The heads of an application are those of its own head, which is applied to more, and those of
the values. -/
theorem Applied.heads {head e : Expr} (h : Applied head args e) (kinds : List ArgKind) :
    e.heads kinds = head.heads (args.map Arg.kind ++ kinds) ++
      (valuesOf args).flatMap (Expr.heads · []) := by
  induction h with
  | nil => exact (List.append_nil _).symm
  | type _ ih => exact ih
  | value _ ih => exact ih.trans (List.append_assoc _ _ _)

/-- A variable and what it is applied to, before it is redirected and after. The names bound around
it are given. -/
inductive HeadRedirected (plan : Plan) (bound : List Name) :
    Name × List ArgKind → Name × List ArgKind → Prop where
  | kept (h : Name × List ArgKind) : HeadRedirected plan bound h h
  | inner {n inner : Name} (args : List Arg) (hinner : plan.inner? bound n = some inner) :
      HeadRedirected plan bound (n, args.map Arg.kind)
        (inner,
          (Plan.keptArgs ((plan.hoistedTypes.get? n).getD []) plan.positions 0 0 args).map Arg.kind)

/-- Each of the second heads is given or comes from one of the first. -/
def HeadsRedirected (plan : Plan) (bound : List Name)
    (given heads heads' : List (Name × List ArgKind)) : Prop :=
  ∀ h' ∈ heads', h' ∈ given ∨ ∃ h ∈ heads, HeadRedirected plan bound h h'

namespace HeadsRedirected

variable {plan : Plan} {bound names : List Name}
  {given given' heads heads' heads₁ heads₁' heads₂ heads₂' : List (Name × List ArgKind)}

theorem nil (plan : Plan) (bound : List Name) (given heads : List (Name × List ArgKind)) :
    HeadsRedirected plan bound given heads [] := List.forall_mem_nil _

theorem append (h₁ : HeadsRedirected plan bound given heads₁ heads₁')
    (h₂ : HeadsRedirected plan bound given heads₂ heads₂') :
    HeadsRedirected plan bound given (heads₁ ++ heads₂) (heads₁' ++ heads₂') := by
  intro h' hmem
  rcases List.mem_append.mp hmem with hmem | hmem
  · refine (h₁ h' hmem).imp_right fun hfrom => ?_
    obtain ⟨h, hh, hredirected⟩ := hfrom
    exact ⟨h, List.mem_append_left _ hh, hredirected⟩
  · refine (h₂ h' hmem).imp_right fun hfrom => ?_
    obtain ⟨h, hh, hredirected⟩ := hfrom
    exact ⟨h, List.mem_append_right _ hh, hredirected⟩

/-- What is given comes from an argument. -/
theorem argument (h₁ : HeadsRedirected plan bound (given' ++ given) heads₁ heads')
    (h₂ : HeadsRedirected plan bound [] heads₂ given') :
    HeadsRedirected plan bound given (heads₁ ++ heads₂) heads' := by
  intro h' hmem
  rcases h₁ h' hmem with hgiven | ⟨h, hh, hredirected⟩
  · refine (List.mem_append.mp hgiven).symm.imp_right fun hgiven => ?_
    obtain ⟨h, hh, hredirected⟩ := (h₂ h' hgiven).resolve_left List.not_mem_nil
    exact ⟨h, List.mem_append_right _ hh, hredirected⟩
  · exact .inr ⟨h, List.mem_append_left _ hh, hredirected⟩

/-- Under binders. An inner function that a binder hides is not referred to. -/
theorem under (h : HeadsRedirected plan (names ++ bound) [] heads heads') :
    HeadsRedirected plan bound [] (heads.filter (·.1 ∉ names)) (heads'.filter (·.1 ∉ names)) := by
  intro h' hmem
  obtain ⟨hmem, hfree⟩ := List.mem_filter.mp hmem
  obtain ⟨head, hhead, hredirected⟩ := (h h' hmem).resolve_left List.not_mem_nil
  cases hredirected with
  | kept => exact .inr ⟨h', List.mem_filter.mpr ⟨hhead, hfree⟩, .kept h'⟩
  | @inner n inner args hinner =>
    -- that the reference was redirected shows that no binder hides the function
    obtain ⟨hbound, hget⟩ := inner?_eq_some hinner
    obtain ⟨hnames, hbound'⟩ := not_or.mp (mt List.mem_append.mpr hbound)
    refine .inr ⟨_, List.mem_filter.mpr ⟨hhead, decide_eq_true hnames⟩, .inner args ?_⟩
    rw [Plan.inner?, if_neg hbound', hget]

end HeadsRedirected

/-- The heads of the values among arguments. -/
def valueHeads (args : List (Note × Arg)) : List (Name × List ArgKind) :=
  (valuesOf (args.map Prod.snd)).flatMap (Expr.heads · [])

/-- The kinds of arguments. -/
def kindsOf (args : List (Note × Arg)) : List ArgKind := (args.map Prod.snd).map Arg.kind

section redirect

variable {plan : Plan} {bound : List Name}

/-- The values that an inner call keeps are among those that it is given. -/
theorem mem_heads_of_keptArgs {hoisted positions : List Nat} {h : Name × List ArgKind}
    (hmem : h ∈ (valuesOf (Plan.keptArgs hoisted positions 0 0 args)).flatMap (Expr.heads · [])) :
    h ∈ (valuesOf args).flatMap (Expr.heads · []) := by
  obtain ⟨e, he, hmem⟩ := List.mem_flatMap.mp hmem
  obtain ⟨arg, harg, hvalue⟩ := List.mem_filterMap.mp he
  exact List.mem_flatMap.mpr
    ⟨e, List.mem_filterMap.mpr ⟨arg, mem_of_mem_keptArgs harg, hvalue⟩, hmem⟩

/-- An application of anything but a function of the group. -/
theorem reapply_heads {head : Expr} {heads : List (Name × List ArgKind)} {args : List (Note × Arg)}
    (hhead : HeadsRedirected plan bound [] heads (head.heads (kindsOf args))) :
    HeadsRedirected plan bound (valueHeads args) heads ((Plan.reapply head args).heads []) := by
  rw [(applied_reapply head args).heads [], List.append_nil]
  intro h' hmem
  rcases List.mem_append.mp hmem with hmem | hmem
  · exact .inr ((hhead h' hmem).resolve_left List.not_mem_nil)
  · exact .inl hmem

mutual

/-- **Redirected expressions.** By induction on the expression, with the arguments that it is
applied to. -/
theorem redirectOnto_heads :
    (e : Expr) → (args : List (Note × Arg)) → {bound : List Name} →
      HeadsRedirected plan bound (valueHeads args) (e.heads (kindsOf args))
        ((plan.redirectOnto bound e args).heads [])
  | .var note n, args, bound => by
    rw [Plan.redirectOnto]
    cases hinner : plan.inner? bound n with
    | none => exact reapply_heads fun h hmem => .inr ⟨h, hmem, .kept h⟩
    | some inner =>
      simp only [Expr.withTy, heads_withNote, Plan.innerCall]
      rw [(applied_applyArgs _ _).heads [], List.append_nil]
      intro h' hmem
      rcases List.mem_append.mp hmem with hmem | hmem
      · -- the head of the new call, without the hoisted type arguments
        obtain rfl := List.mem_singleton.mp hmem
        exact .inr ⟨_, List.mem_singleton.mpr rfl, .inner _ hinner⟩
      · exact .inl (mem_heads_of_keptArgs hmem)
  | .con .., args, bound | .intLit .., args, bound | .undefined _, args, bound
  | .error .., args, bound => by
    rw [Plan.redirectOnto]
    · exact reapply_heads (.nil plan bound [] [])
    all_goals simp
  | .app note fn arg, args, bound => by
    rw [Plan.redirectOnto]
    exact (redirectOnto_heads fn ((note, .value (plan.redirectOnto bound arg [])) :: args)).argument
      (redirectOnto_heads arg [])
  | .typeApp note fn ty, args, bound => by
    rw [Plan.redirectOnto]
    exact redirectOnto_heads fn ((note, .type ty) :: args)
  | .cond _ test thenBranch elseBranch, args, bound => by
    rw [Plan.redirectOnto]
    exact reapply_heads
      (((redirectOnto_heads test []).append (redirectOnto_heads thenBranch [])).append
      (redirectOnto_heads elseBranch []))
  | .case _ scrutinee alts, args, bound => by
    rw [Plan.redirectOnto]
    exact reapply_heads ((redirectOnto_heads scrutinee []).append (redirectAlts_heads alts))
  | .lam _ params body, args, bound => by
    rw [Plan.redirectOnto]
    exact reapply_heads (HeadsRedirected.under (redirectOnto_heads body []))
  | .letRec _ binds body, args, bound => by
    rw [Plan.redirectOnto]
    refine reapply_heads ?_
    rw [Expr.heads, Expr.heads, names_redirectBinds]
    exact ((redirectBinds_heads binds).append (redirectOnto_heads body [])).under

theorem redirectAlts_heads :
    (alts : Alts) → {bound : List Name} →
      HeadsRedirected plan bound [] (Expr.headsAlts alts)
        (Expr.headsAlts (plan.redirectAlts bound alts))
  | [], bound => by
    rw [Plan.redirectAlts]
    exact .nil plan bound [] []
  | (_, rhs) :: rest, _ => by
    rw [Plan.redirectAlts]
    exact (HeadsRedirected.under (redirectOnto_heads rhs [])).append (redirectAlts_heads rest)

theorem redirectBinds_heads :
    (binds : Binds) → {bound : List Name} →
      HeadsRedirected plan bound [] (Expr.headsRhss binds)
        (Expr.headsRhss (plan.redirectBinds bound binds))
  | [], bound => by
    rw [Plan.redirectBinds]
    exact .nil plan bound [] []
  | (_, rhs) :: rest, _ => by
    rw [Plan.redirectBinds]
    exact (redirectOnto_heads rhs []).append (redirectBinds_heads rest)

end

end redirect

/-! ## Type parameters and types -/

/-- A type argument is hoisted if its parameter stands for a variable of the section. -/
theorem mem_hoistedTypePositions {typeVars : List Name} {d : FuncDecl} {i : Nat} {p : TypeParam}
    (hp : d.typeParams[i]? = some p) : i ∈ hoistedTypePositions typeVars d ↔ p.name ∈ typeVars := by
  rw [hoistedTypePositions, List.mem_map]
  constructor
  · rintro ⟨⟨p', i'⟩, hmem, rfl⟩
    obtain ⟨hzip, hvar⟩ := List.mem_filter.mp hmem
    obtain rfl := Option.some.inj (hp.symm.trans (List.mem_zipIdx_iff_getElem?.mp hzip))
    exact of_decide_eq_true hvar
  · intro hvar
    exact ⟨(p, i), List.mem_filter.mpr
      ⟨List.mem_zipIdx_iff_getElem?.mpr hp, decide_eq_true hvar⟩, rfl⟩

/-- **An inner call keeps as many types** as type parameters are kept. By induction on the type
parameters. -/
theorem typesFirst_keptArgs {typeVars : List Name} {hoisted : List Nat} (positions : List Nat)
    {params : List TypeParam} (types values : Nat)
    (hhoisted : ∀ i p, params[i]? = some p → (types + i ∈ hoisted ↔ p.name ∈ typeVars))
    (h : TypesFirst params.length (args.map Arg.kind)) :
    TypesFirst (params.filter (·.name ∉ typeVars)).length
      ((Plan.keptArgs hoisted positions types values args).map Arg.kind) := by
  induction params generalizing args types with
  | nil =>
    intro hmem
    obtain ⟨arg, harg, hkind⟩ := List.mem_map.mp hmem
    exact h (hkind ▸ List.mem_map_of_mem (mem_of_mem_keptArgs harg))
  | cons p rest ih =>
    cases args with
    | nil => exact h.elim
    | cons arg args =>
      cases arg with
      | value e => exact h.elim
      | type ty =>
        have hrest := ih (types + 1) (fun i p' hp' => by
          rw [Nat.add_right_comm]
          exact hhoisted (i + 1) p' hp') h
        have hfirst := hhoisted 0 p rfl
        rw [Nat.add_zero] at hfirst
        -- the first type goes if and only if the first type parameter does
        rw [Plan.keptArgs]
        by_cases hvar : p.name ∈ typeVars
        · rw [if_pos (hfirst.mpr hvar), List.filter_cons_of_neg (by simpa using hvar)]
          exact hrest
        · rw [if_neg (mt hfirst.mp hvar), List.filter_cons_of_pos (by simpa using hvar)]
          exact hrest

variable {c c' : Counters} {decls : List FuncDecl} {entries : List (Name × Name)} {plan : Plan}

/-- **The inner functions of a group** get their types first if the functions do, and nothing else
has their names. -/
theorem PlanFor.typesApplied (hplan : PlanFor c c' decls entries plan)
    (hnodup : (decls.map FuncDecl.name).Nodup)
    (hhoisted : plan.hoistedTypes =
      Table.ofList (decls.map fun d => (d.name, hoistedTypePositions plan.typeVars d)))
    (hfresh : ∀ d ∈ decls, ∀ n ∈ d.rhs.freeOccs, n ∉ (plan.reduce d).paramNames →
      n ∉ entries.map Prod.snd)
    (htypes : TypesApplied decls) : TypesApplied (decls.map plan.reduce) := by
  refine List.forall_mem_map.mpr fun d hd h' hh' hparam =>
    List.forall_mem_map.mpr fun g hg hname => ?_
  obtain ⟨h, hh, hredirected⟩ := (redirectOnto_heads d.rhs [] h' hh').resolve_left List.not_mem_nil
  cases hredirected with
  | kept =>
    -- a variable that has been there before is not spelled like an inner function
    refine absurd ?_ (hfresh d hd h'.1 (Expr.mem_freeOccs_of_mem_heads hh) hparam)
    rw [← hname, ← hplan.reduced_names hnodup]
    exact List.mem_map_of_mem (List.mem_map_of_mem hg)
  | @inner n inner args hinner =>
    obtain ⟨hfree, hget⟩ := inner?_eq_some hinner
    obtain rfl : (plan.reduce g).name = inner := hname
    -- the call has been one of `g`, and it loses the types at the positions where `g` loses type
    -- parameters
    obtain rfl := hplan.injective hget (hplan.get?_name hnodup hg)
    have hpositions : plan.hoistedTypes.get? g.name =
        some (hoistedTypePositions plan.typeVars g) := by
      rw [hhoisted]
      exact Table.get?_ofList_of_mem (by rwa [List.map_map]) (List.mem_map_of_mem hg)
    rw [hpositions]
    refine typesFirst_keptArgs plan.positions 0 0 (fun i p hp => ?_)
      (htypes d hd _ hh hfree g hg rfl)
    rw [Nat.zero_add]
    exact mem_hoistedTypePositions hp

end Hoist

end StructRec
