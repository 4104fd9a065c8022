import StructRec.Proofs.GroupOccurrences
import StructRec.Proofs.Paths
import StructRec.Proofs.Remainder

/-!
# StructRec — what inner functions refer to

Hoisting makes an inner function of every function of a group. A call inside the group becomes a
call of the inner function, without the constant arguments. These are variables that are passed on
unchanged, so no call and no case is lost with them: an inner function has its cases and its calls
where the function has them.
-/

namespace StructRec

namespace Hoist

/-! ## Applications -/

/-- The values among arguments. -/
def valuesOf (args : List Arg) : List Expr := args.filterMap Arg.value?

/-- A head is applied to arguments, under any notes. -/
inductive Applied : Expr → List Arg → Expr → Prop where
  | nil (e : Expr) : Applied e [] e
  | type {note : Note} {fn e : Expr} {ty : Ty} {args : List Arg}
      (h : Applied (.typeApp note fn ty) args e) : Applied fn (.type ty :: args) e
  | value {note : Note} {fn arg e : Expr} {args : List Arg}
      (h : Applied (.app note fn arg) args e) : Applied fn (.value arg :: args) e

theorem applied_reapply (head : Expr) (args : List (Note × Arg)) :
    Applied head (args.map Prod.snd) (Plan.reapply head args) := by
  induction args generalizing head with
  | nil => exact .nil head
  | cons first rest ih =>
    obtain ⟨note, arg⟩ := first
    cases arg with
    | type ty => exact .type (ih _)
    | value e => exact .value (ih _)

theorem applied_applyArgs (head : Expr) (args : List Arg) :
    Applied head args (head.applyArgs args) := by
  induction args generalizing head with
  | nil => exact .nil head
  | cons arg rest ih =>
    cases arg with
    | type ty => exact .type (ih _)
    | value e => exact .value (ih _)

namespace Applied

variable {head e : Expr} {args : List Arg} {x : Name} {bound : List Name}

theorem outsideOccs (h : Applied head args e) :
    e.outsideOccs x bound = head.outsideOccs x bound ++
      (valuesOf args).flatMap (Expr.outsideOccs x bound) := by
  induction h with
  | nil => exact (List.append_nil _).symm
  | type _ ih => exact ih
  | value _ ih => exact ih.trans (List.append_assoc _ _ _)

theorem hasCase (h : Applied head args e) :
    e.hasCase x bound = (head.hasCase x bound || (valuesOf args).any (Expr.hasCase x bound)) := by
  induction h with
  | nil => exact (Bool.or_false _).symm
  | type _ ih => exact ih
  | value _ ih => exact ih.trans (Bool.or_assoc _ _ _)

/-- Only without arguments is an application a variable. -/
theorem asVar? (h : Applied head args e) (y : Name) :
    e.asVar? = some y ↔ args = [] ∧ head.asVar? = some y := by
  induction h with
  | nil => simp
  | type _ ih =>
    rw [ih]
    simp [Expr.asVar?]
  | value _ ih =>
    rw [ih]
    simp [Expr.asVar?]

end Applied

/-! ## References -/

/-- How a part of a function refers to the group before it is redirected and after: it has a case,
and it refers to functions outside of the cases. The names bound around the part are given. -/
structure Retargets (plan : Plan) (bound : List Name) (found found' : Bool)
    (outside outside' : List Name) : Prop where
  found : found' = found
  outside : ∀ g inner, plan.innerNames.get? g = some inner →
    (inner ∈ outside' ↔ g ∈ outside ∧ g ∉ bound)
  old : ∀ g inner, plan.innerNames.get? g = some inner → g ∈ outside' → g ∈ bound

/-- How an expression refers to the group, where a variable may be scrutinised. -/
def Retargeted (plan : Plan) (bound : List Name) (x : Name) (hidden : List Name) (e e' : Expr) :
    Prop :=
  Retargets plan bound (e.hasCase x hidden) (e'.hasCase x hidden) (e.outsideOccs x hidden)
    (e'.outsideOccs x hidden)

/-- Arguments before and after. -/
inductive ArgRetargeted (plan : Plan) (bound : List Name) (x : Name) (hidden : List Name) :
    Arg → Arg → Prop where
  | type (ty : Ty) : ArgRetargeted plan bound x hidden (.type ty) (.type ty)
  | value {e e' : Expr} (h : Retargeted plan bound x hidden e e') :
      ArgRetargeted plan bound x hidden (.value e) (.value e')

namespace Retargets

variable {plan : Plan} {bound : List Name} {found found' found₁ found₁' found₂ found₂' : Bool}
  {outside outside' outside₁ outside₁' outside₂ outside₂' : List Name}

theorem nil (plan : Plan) (bound : List Name) : Retargets plan bound false false [] [] :=
  ⟨rfl, fun _ _ _ => by simp, nofun⟩

/-- Parts are retargeted side by side. -/
theorem append (h₁ : Retargets plan bound found₁ found₁' outside₁ outside₁')
    (h₂ : Retargets plan bound found₂ found₂' outside₂ outside₂') :
    Retargets plan bound (found₁ || found₂) (found₁' || found₂') (outside₁ ++ outside₂)
      (outside₁' ++ outside₂') where
  found := by rw [h₁.found, h₂.found]
  outside g inner hinner := by
    rw [List.mem_append, List.mem_append, h₁.outside g inner hinner,
      h₂.outside g inner hinner, or_and_right]
  old g inner hinner hmem := by
    rcases List.mem_append.mp hmem with hmem | hmem
    · exact h₁.old g inner hinner hmem
    · exact h₂.old g inner hinner hmem

/-- Under binders, none of which is an inner function. -/
theorem under {names : List Name}
    (hnames : ∀ g inner, plan.innerNames.get? g = some inner → inner ∉ names)
    (h : Retargets plan (names ++ bound) found found' outside outside') :
    Retargets plan bound found found' (outside.filter (· ∉ names))
      (outside'.filter (· ∉ names)) where
  found := h.found
  outside g inner hinner := by
    rw [List.mem_filter, List.mem_filter, h.outside g inner hinner, List.mem_append]
    simp only [hnames g inner hinner, not_false_eq_true, decide_true, decide_eq_true_eq, and_true,
      not_or, and_assoc]
  old g inner hinner hmem := by
    obtain ⟨hold, hnames⟩ := List.mem_filter.mp hmem
    exact (List.mem_append.mp (h.old g inner hinner hold)).resolve_left (of_decide_eq_true hnames)

end Retargets

section redirect

variable {c : Counters} {plan : Plan} {bound hidden : List Name} {x : Name}
variable {args : List Arg} {g inner n : Name} {note : Note} {values : List Expr} {e : Expr}

/-- What an inner call keeps: the arguments that it loses are variables bound around the call. -/
theorem keptArgs_retargets {args' : List Arg}
    (hargs : List.Forall₂ (ArgRetargeted plan bound x hidden) args args')
    (hoisted positions : List Nat) (types values : Nat)
    (hlost : ∀ p ∈ positions, values ≤ p → ∀ e, (valuesOf args)[p - values]? = some e → ∃ note,
      ∃ y ∈ bound, e = .var note y) :
    Retargets plan bound ((valuesOf args).any (Expr.hasCase x hidden))
      ((valuesOf (Plan.keptArgs hoisted positions types values args')).any (Expr.hasCase x hidden))
      ((valuesOf args).flatMap (Expr.outsideOccs x hidden))
      ((valuesOf (Plan.keptArgs hoisted positions types values args')).flatMap
        (Expr.outsideOccs x hidden)) := by
  induction hargs generalizing types values with
  | nil => exact .nil plan bound
  | cons hfirst _ ih =>
    cases hfirst with
    | type ty =>
      have hrest := ih (types + 1) values hlost
      rw [Plan.keptArgs]
      split
      · exact hrest
      · exact hrest
    | @value e e' he =>
      have hrest := ih types (values + 1) fun p hp hle e he => hlost p hp (by omega) e (by
        rwa [show p - values = (p - (values + 1)) + 1 by omega])
      rw [Plan.keptArgs]
      split
      · next hposition =>
        -- a variable bound around is lost, so no function of the group and no case
        obtain ⟨note, y, hy, rfl⟩ := hlost values hposition le_rfl e (by rw [Nat.sub_self]; rfl)
        have hnothing : Retargets plan bound false false [y] [] := by
          refine ⟨rfl, fun g inner _ => ?_, nofun⟩
          simp only [List.not_mem_nil, List.mem_singleton, false_iff, not_and, not_not]
          rintro rfl
          exact hy
        exact hnothing.append hrest
      · exact Retargets.append he hrest

/-- The inner functions of a group have new names. -/
structure InnerNames (c : Counters) (plan : Plan) (group : List Name) : Prop where
  mem : ∀ g inner, plan.innerNames.get? g = some inner → g ∈ group
  known : ∀ g inner, plan.innerNames.get? g = some inner → c.Settled g
  new : ∀ g inner, plan.innerNames.get? g = some inner → ¬ c.Settled inner
  injective : ∀ g g' inner, plan.innerNames.get? g = some inner →
    plan.innerNames.get? g' = some inner → g = g'

/-- Different functions have different inner functions. -/
theorem PlanFor.injective {c' : Counters} {decls : List FuncDecl} {entries : List (Name × Name)}
    (hplan : PlanFor c c' decls entries plan) {g' : Name}
    (hget : plan.innerNames.get? g = some inner) (hget' : plan.innerNames.get? g' = some inner) :
    g = g' := by
  rw [hplan.names] at hget hget'
  have hentry :=
    List.inj_on_of_nodup_map hplan.nodup (Table.mem_of_get?_ofList hget)
      (Table.mem_of_get?_ofList hget') rfl
  exact (Prod.mk.inj hentry).1

/-- The names of the inner functions are new and stand for one function each. -/
theorem PlanFor.innerNames {c' : Counters} {decls : List FuncDecl} {entries : List (Name × Name)}
    (hplan : PlanFor c c' decls entries plan) (hsettled : ∀ d ∈ decls, c.Settled d.name) :
    InnerNames c plan (decls.map FuncDecl.name) := by
  have hentry : ∀ g inner, plan.innerNames.get? g = some inner → (g, inner) ∈ entries :=
    fun g inner hget =>
    Table.mem_of_get?_ofList (hplan.names ▸ hget)
  have hmem : ∀ g inner, plan.innerNames.get? g = some inner → g ∈ decls.map FuncDecl.name :=
    fun g inner hget =>
    hplan.keys ▸ List.mem_map_of_mem (f := Prod.fst) (hentry g inner hget)
  refine ⟨hmem, fun g inner hget => ?_, fun g inner hget => ?_, fun g g' inner => hplan.injective⟩
  · obtain ⟨d, hd, rfl⟩ := List.mem_map.mp (hmem g inner hget)
    exact hsettled d hd
  · exact (hplan.new inner (List.mem_map_of_mem (f := Prod.snd) (hentry g inner hget))).1

/-- The calls in an expression that is applied to values pass the constant parameters on. -/
def PassesOn (d : FuncDecl) (group : List Name) (plan : Plan) (origins : Origins) (e : Expr)
    (values : List Expr) : Prop :=
  ∀ call ∈ d.callsIn group origins e values, ∀ p ∈ plan.positions, call.passesUnchanged p = true

theorem inner?_eq_some (h : plan.inner? bound n = some inner) :
    n ∉ bound ∧ plan.innerNames.get? n = some inner := by
  unfold Plan.inner? at h
  split at h
  · cases h
  · next hn => exact ⟨hn, h⟩

variable {group : List Name} {d : FuncDecl} {origins : Origins}

/-- A call passes every constant parameter on, by an occurrence that no local binder hides. -/
theorem PassesOn.passed (h : PassesOn d group plan origins (.var note n) values) (hn : n ∈ group)
    (hfree : origins.isDefined n = false) {p : Nat} (hp : p ∈ plan.positions) :
    ∃ note y, values[p]? = some (.var note y) ∧ origins.refersToBottom y = true ∧
      d.paramNames[p]? = some y := by
  -- the occurrence with its arguments is one call, which passes on what is at `p`
  have hcall : d.callsIn group origins (.var note n) values
      = [{ caller := d.name, callee := n, args := values.map (d.callArg origins) }] := by
    rw [FuncDecl.callsIn, hfree, decide_eq_true hn]
    rfl
  have hpasses := h _ (hcall ▸ List.mem_singleton.mpr rfl) p hp
  rw [CallSite.passesUnchanged, List.getElem?_map, Option.any_map, Option.any_eq_true] at hpasses
  obtain ⟨e, he, hpasses⟩ := hpasses
  rw [decide_eq_true_eq] at hpasses
  unfold FuncDecl.callArg at hpasses
  simp only at hpasses
  split at hpasses
  · next note' y =>
    split at hpasses
    · next hbottom =>
      obtain ⟨hlt, heq, _⟩ := List.idxOf?_eq_some_iff.mp hpasses
      exact ⟨note', y, he, hbottom, List.getElem?_eq_some_iff.mpr ⟨hlt, heq⟩⟩
    · cases hpasses
  · cases hpasses

/-- The constant arguments of a call are parameters. -/
theorem PassesOn.constant_args (h : PassesOn d group plan origins (.var note n) values)
    (hn : n ∈ group) (hfree : n ∉ bound) (horigins : ∀ n, origins.isDefined n = decide (n ∈ bound))
    {p : Nat} (hp : p ∈ plan.positions) (he : values[p]? = some e) :
    ∃ note, ∃ y ∈ bound, e = .var note y := by
  obtain ⟨note', y, hpassed, hbottom, _⟩ :=
    h.passed hn ((horigins n).trans (decide_eq_false hfree)) hp
  have hy : y ∈ bound :=
    of_decide_eq_true (horigins y ▸ ScopeStack.isDefined_of_refersToBottom hbottom)
  exact ⟨note', y, hy, Option.some.inj (he.symm.trans hpassed)⟩

theorem Retargeted.of_withNote {e' : Expr} (h : Retargeted plan bound x hidden e e') :
    Retargeted plan bound x hidden e (e'.withNote note) := by
  cases e' <;> exact h

/-- A call of an inner function. -/
theorem innerCall_retargets (hnames : InnerNames c plan group) {span : Span}
    {args' : List Arg} {whole : Expr} (hinner : plan.inner? bound n = some inner)
    (hwhole : Applied (.var note n) args whole)
    (hargs : List.Forall₂ (ArgRetargeted plan bound x hidden) args args')
    (hlost : ∀ p ∈ plan.positions, ∀ e, (valuesOf args)[p]? = some e → ∃ note, ∃ y ∈ bound,
      e = .var note y) :
    Retargeted plan bound x hidden whole (plan.innerCall n inner span args') := by
  obtain ⟨hfree, hget⟩ := inner?_eq_some hinner
  have hcall := applied_applyArgs (.var { span } inner)
    (Plan.keptArgs ((plan.hoistedTypes.get? n).getD []) plan.positions 0 0 args')
  -- a dropped argument is a bound variable, so no occurrence is lost with it
  have hkept :=
    keptArgs_retargets hargs ((plan.hoistedTypes.get? n).getD []) plan.positions 0 0
      fun p hp _ => hlost p hp
  -- different functions have different inner functions
  have hsame : ∀ g inner', plan.innerNames.get? g = some inner' → (inner' = inner ↔ g = n) := by
    intro g inner' hg
    constructor
    · rintro rfl
      exact hnames.injective g n _ hg hget
    · rintro rfl
      exact Option.some.inj (hg.symm.trans hget)
  refine ⟨?_, fun g inner' hg => ?_, fun g inner' hg hmem => ?_⟩
  · rw [Plan.innerCall, hcall.hasCase, hwhole.hasCase, Expr.hasCase, Expr.hasCase, hkept.found]
  · rw [Plan.innerCall, hcall.outsideOccs, hwhole.outsideOccs, List.mem_append, List.mem_append,
      hkept.outside g inner' hg,
      Expr.outsideOccs, Expr.outsideOccs, List.mem_singleton, List.mem_singleton, hsame g inner' hg]
    constructor
    · rintro (rfl | ⟨hmem, hbound⟩)
      · exact ⟨.inl rfl, hfree⟩
      · exact ⟨.inr hmem, hbound⟩
    · rintro ⟨rfl | hmem, hbound⟩
      · exact .inl rfl
      · exact .inr ⟨hmem, hbound⟩
  · rw [Plan.innerCall, hcall.outsideOccs, List.mem_append] at hmem
    rcases hmem with hmem | hmem
    · obtain rfl := List.mem_singleton.mp hmem
      exact absurd (hnames.known g inner' hg) (hnames.new n g hget)
    · exact hkept.old g inner' hg hmem

theorem keptArgs_nil (types values : Nat) (args : List Arg) :
    Plan.keptArgs [] [] types values args = args := by
  induction args generalizing types values with
  | nil => rfl
  | cons arg rest ih => cases arg <;> simp [Plan.keptArgs, ih]

/-- An application of anything else. -/
theorem reapply_retargets {head head' whole : Expr} {args' : List (Note × Arg)}
    (hwhole : Applied head args whole)
    (hargs : List.Forall₂ (ArgRetargeted plan bound x hidden) args (args'.map Prod.snd))
    (hhead : Retargeted plan bound x hidden head head') :
    Retargeted plan bound x hidden whole (Plan.reapply head' args') := by
  have hwhole' := applied_reapply head' args'
  have hkept := keptArgs_retargets hargs [] [] 0 0 nofun
  rw [keptArgs_nil] at hkept
  have happend := Retargets.append hhead hkept
  refine ⟨?_, ?_, ?_⟩
  · rw [hwhole.hasCase, hwhole'.hasCase]
    exact happend.found
  · rw [hwhole.outsideOccs, hwhole'.outsideOccs]
    exact happend.outside
  · rw [hwhole'.outsideOccs]
    exact happend.old

theorem asVar?_withNote (note : Note) (e : Expr) :
    (e.withNote note).asVar? = e.asVar? := by cases e <;> rfl

/-- Only a variable that is bound around stays a known variable. -/
theorem asVar?_redirectOnto (hnames : InnerNames c plan group) (hx : c.Settled x)
    (hbound : x ∈ bound) :
    (e : Expr) → (args : List (Note × Arg)) →
      ((plan.redirectOnto bound e args).asVar? = some x ↔ args = [] ∧ e.asVar? = some x)
  | .var note n, args => by
    rw [Plan.redirectOnto]
    cases hinner : plan.inner? bound n with
    | none => simpa using (applied_reapply (.var note n) args).asVar? x
    | some inner =>
      obtain ⟨hfree, hget⟩ := inner?_eq_some hinner
      -- the called function is free, its inner function is new, and `x` is neither
      have hne : n ≠ x := fun heq => hfree (heq ▸ hbound)
      have hne' : inner ≠ x := fun heq => hnames.new n inner hget (heq ▸ hx)
      have hcall := (applied_applyArgs (.var { span := note.span } inner) (Plan.keptArgs
        ((plan.hoistedTypes.get? n).getD []) plan.positions 0 0 (args.map Prod.snd))).asVar? x
      simp only [Expr.withTy, asVar?_withNote, Plan.innerCall]
      rw [hcall]
      simp [Expr.asVar?, hne, hne']
  | .app note fn arg, args => by
    rw [Plan.redirectOnto, asVar?_redirectOnto hnames hx hbound fn]
    simp [Expr.asVar?]
  | .typeApp note fn ty, args => by
    rw [Plan.redirectOnto, asVar?_redirectOnto hnames hx hbound fn]
    simp [Expr.asVar?]
  | .cond .., args | .case .., args | .lam .., args | .letRec .., args => by
    rw [Plan.redirectOnto, (applied_reapply _ args).asVar? x]
    simp [Expr.asVar?]
  | .con .., args | .intLit .., args | .undefined _, args | .error .., args => by
    rw [Plan.redirectOnto]
    · rw [(applied_reapply _ args).asVar? x, List.map_eq_nil_iff]
    all_goals simp

theorem isDefined_enterBinders (h : ∀ n, origins.isDefined n = decide (n ∈ bound))
    (binders : List Binder) (n : Name) :
    (origins.enterBinders binders).isDefined n = decide (n ∈ binderNames binders ++ bound) := by
  rw [Origins.enterBinders_eq, ScopeStack.isDefined_enter_map, h]
  simp

theorem isDefined_enterPattern (h : ∀ n, origins.isDefined n = decide (n ∈ bound))
    (scrutinee : Origin) (p : Pattern) (n : Name) :
    (origins.enterPattern scrutinee p).isDefined n = decide (n ∈ p.names ++ bound) := by
  rw [Origins.enterPattern_eq, ScopeStack.isDefined_enter_map, h]
  simp

theorem InnerNames.notMem_binders (hnames : InnerNames c plan group) {T : Name → Prop}
    {binders : List Binder} (h : ∀ b ∈ binders, b.Uses c.Settled T) :
    ∀ g inner, plan.innerNames.get? g = some inner → inner ∉ binderNames binders := by
  intro g inner hinner hmem
  obtain ⟨b, hb, rfl⟩ := List.mem_map.mp hmem
  exact hnames.new g b.name hinner (h b hb).name

theorem PassesOn.append {calls calls' : List CallSite} (h : PassesOn d group plan origins e values)
    (heq : d.callsIn group origins e values = calls ++ calls') :
    (∀ call ∈ calls, ∀ p ∈ plan.positions, call.passesUnchanged p = true) ∧
      ∀ call ∈ calls', ∀ p ∈ plan.positions, call.passesUnchanged p = true :=
  List.forall_mem_append.mp (heq ▸ h)

mutual

/-- **Redirected expressions.** By induction on the expression, with the arguments that it is
applied to. -/
theorem redirectOnto_retargets (hnames : InnerNames c plan group) (hx : c.Settled x) :
    (e : Expr) → (hidden : List Name) → (args' : List (Note × Arg)) → {origins : Origins} →
      {bound : List Name} →
      {args : List Arg} → {whole : Expr} → Applied e args whole →
      List.Forall₂ (ArgRetargeted plan bound x hidden) args (args'.map Prod.snd) →
      (∀ n, origins.isDefined n = decide (n ∈ bound)) → x ∈ bound →
        e.Uses c.Settled (fun _ => True) →
      PassesOn d group plan origins e (valuesOf args) →
        Retargeted plan bound x hidden whole (plan.redirectOnto bound e args')
  | .var note n, _, args', _, bound, args, _, hwhole, hargs, horigins, _, huses, hcalls => by
    rw [Plan.redirectOnto]
    cases hinner : plan.inner? bound n with
    | some inner =>
      obtain ⟨hfree, hget⟩ := inner?_eq_some hinner
      refine Retargeted.of_withNote
        (innerCall_retargets hnames hinner hwhole hargs fun p hp e he => ?_)
      exact hcalls.constant_args (hnames.mem n inner hget) hfree horigins hp he
    | none =>
      -- the variable is bound around or is no function of the group, and it is no inner function
      -- either
      have hnew : ∀ g inner, plan.innerNames.get? g = some inner → inner ≠ n := by
        rintro g inner hget rfl
        exact hnames.new g inner hget huses.2
      have hbound : ∀ inner, plan.innerNames.get? n = some inner → n ∈ bound := by
        intro inner hget
        by_contra hfree
        rw [Plan.inner?, if_neg hfree, hget] at hinner
        cases hinner
      refine reapply_retargets hwhole hargs
        ⟨rfl, fun g inner hget => ?_, fun g inner hget hmem => ?_⟩
      · rw [Expr.outsideOccs, List.mem_singleton, List.mem_singleton]
        refine iff_of_false (hnew g inner hget) ?_
        rintro ⟨rfl, hfree⟩
        exact hfree (hbound inner hget)
      · obtain rfl := List.mem_singleton.mp hmem
        exact hbound inner hget
  | .con .., _, _, _, bound, _, _, hwhole, hargs, _, _, _, _
  | .intLit .., _, _, _, bound, _, _, hwhole, hargs, _, _, _, _
  | .undefined _, _, _, _, bound, _, _, hwhole, hargs, _, _, _, _
  | .error .., _, _, _, bound, _, _, hwhole, hargs, _, _, _, _ => by
    rw [Plan.redirectOnto]
    · exact reapply_retargets hwhole hargs (.nil plan bound)
    all_goals nofun
  | .app _ fn arg, hidden, _, _, _, _, _, hwhole, hargs, horigins, hbound, huses, hcalls => by
    rw [Plan.redirectOnto]
    obtain ⟨hfn, harg⟩ := hcalls.append rfl
    -- the argument waits, redirected, for the head of the application
    have harg' :=
      redirectOnto_retargets hnames hx arg hidden [] (.nil arg) .nil horigins hbound huses.2.2 harg
    exact redirectOnto_retargets hnames hx fn hidden _ (.value hwhole) (.cons (.value harg') hargs)
      horigins hbound huses.2.1 hfn
  | .typeApp _ fn ty, hidden, _, _, _, _, _, hwhole, hargs, horigins, hbound, huses, hcalls => by
    rw [Plan.redirectOnto]
    exact redirectOnto_retargets hnames hx fn hidden _ (.type hwhole) (.cons (.type ty) hargs)
      horigins hbound huses.2.1 hcalls
  | .cond _ test thenBranch elseBranch, hidden, _, _, _, _, _, hwhole, hargs, horigins, hbound,
      huses, hcalls => by
    rw [Plan.redirectOnto]
    obtain ⟨hfirst, helse⟩ := hcalls.append rfl
    obtain ⟨htest, hthen⟩ := List.forall_mem_append.mp hfirst
    have htest' :=
      redirectOnto_retargets hnames hx test hidden [] (.nil test) .nil horigins hbound
        huses.2.1 htest
    have hthen' :=
      redirectOnto_retargets hnames hx thenBranch hidden [] (.nil thenBranch) .nil horigins hbound
        huses.2.2.1 hthen
    have helse' :=
      redirectOnto_retargets hnames hx elseBranch hidden [] (.nil elseBranch) .nil horigins hbound
        huses.2.2.2 helse
    exact reapply_retargets hwhole hargs ((Retargets.append htest' hthen').append helse')
  | .case _ scrutinee alts, hidden, _, _, bound, _, _, hwhole, hargs, horigins, hbound,
      huses, hcalls => by
    rw [Plan.redirectOnto]
    obtain ⟨hscrutinee, halts⟩ := hcalls.append rfl
    have hscrutinee' :=
      redirectOnto_retargets hnames hx scrutinee hidden [] (.nil scrutinee) .nil horigins hbound
        huses.2.1 hscrutinee
    have halts' := redirectAlts_retargets hnames hx alts hidden horigins hbound huses.2.2 halts
    refine reapply_retargets hwhole hargs ?_
    -- it is a case on the variable before if and only if it is one after
    have hsame : (plan.redirectOnto bound scrutinee []).asVar? = some x ↔
        scrutinee.asVar? = some x := by
      simp [asVar?_redirectOnto hnames hx hbound scrutinee []]
    have hparts := Retargets.append hscrutinee' halts'
    refine ⟨?_, fun g inner hinner => ?_, fun g inner hinner hmem => ?_⟩
    · rw [Expr.hasCase, Expr.hasCase, decide_eq_decide.mpr hsame, hscrutinee'.found, halts'.found]
    · rw [Expr.outsideOccs, Expr.outsideOccs, if_congr (and_congr_left' hsame) rfl rfl]
      split
      · simp
      · exact hparts.outside g inner hinner
    · rw [Expr.outsideOccs] at hmem
      split at hmem
      · cases hmem
      · exact hparts.old g inner hinner hmem
  | .lam _ params body, hidden, _, _, _, _, _, hwhole, hargs, horigins, hbound, huses, hcalls => by
    rw [Plan.redirectOnto]
    have hbody :=
      redirectOnto_retargets hnames hx body (binderNames params ++ hidden) [] (.nil body) .nil
        (isDefined_enterBinders horigins params) (List.mem_append_right _ hbound) huses.2.2 hcalls
    exact reapply_retargets hwhole hargs (Retargets.under (hnames.notMem_binders huses.2.1) hbody)
  | .letRec note binds body, hidden, _, _, bound, _, _, hwhole, hargs, horigins, hbound,
      huses, hcalls => by
    rw [Plan.redirectOnto]
    obtain ⟨hbinds, hbody⟩ := hcalls.append rfl
    have horigins' : ∀ n, (Origins.enterBinders _ (Binds.binders binds)).isDefined n =
        decide (n ∈ Binds.names binds ++ bound) :=
      isDefined_enterBinders horigins (Binds.binders binds)
    have hbound' : x ∈ Binds.names binds ++ bound := List.mem_append_right _ hbound
    have hbinds' :=
      redirectBinds_retargets hnames hx binds (Binds.names binds ++ hidden) horigins' hbound'
        huses.2.2.1 hbinds
    have hbody' :=
      redirectOnto_retargets hnames hx body (Binds.names binds ++ hidden) [] (.nil body)
        .nil horigins'
      hbound' huses.2.2.2 hbody
    -- no binder is named like an inner function
    have hinside := Retargets.under (hnames.notMem_binders huses.2.1) (hbinds'.append hbody')
    refine reapply_retargets hwhole hargs ?_
    unfold Retargeted
    rw [Expr.hasCase, Expr.hasCase, Expr.outsideOccs, Expr.outsideOccs, names_redirectBinds]
    exact hinside

/-- Alternatives are redirected under the names of their patterns. -/
theorem redirectAlts_retargets (hnames : InnerNames c plan group) (hx : c.Settled x) :
    (alts : Alts) → (hidden : List Name) → {origins : Origins} → {scrutinee : Origin} →
      {bound : List Name} →
      (∀ n, origins.isDefined n = decide (n ∈ bound)) → x ∈ bound →
        Expr.UsesAlts c.Settled (fun _ => True) alts →
      (∀ call ∈ d.callsInAlts group origins scrutinee alts, ∀ p ∈ plan.positions,
        call.passesUnchanged p = true) →
        Retargets plan bound (Expr.hasCaseAlts x hidden alts)
          (Expr.hasCaseAlts x hidden (plan.redirectAlts bound alts))
          (Expr.outsideOccsAlts x hidden alts)
            (Expr.outsideOccsAlts x hidden (plan.redirectAlts bound alts))
  | [], _, _, _, bound, _, _, _, _ => by
    rw [Plan.redirectAlts]
    exact .nil plan bound
  | (pattern, rhs) :: rest, hidden, _, scrutinee, _, horigins, hbound, huses, hcalls => by
    rw [Plan.redirectAlts]
    obtain ⟨hrhs, hrest⟩ := List.forall_mem_append.mp hcalls
    have hrhs' := redirectOnto_retargets hnames hx rhs (pattern.names ++ hidden) [] (.nil rhs) .nil
      (isDefined_enterPattern horigins scrutinee pattern) (List.mem_append_right _ hbound)
        huses.2.1 hrhs
    exact (Retargets.under (hnames.notMem_binders huses.1) hrhs').append
      (redirectAlts_retargets hnames hx rest hidden horigins hbound huses.2.2 hrest)

/-- The bindings of a `let`. -/
theorem redirectBinds_retargets (hnames : InnerNames c plan group) (hx : c.Settled x) :
    (binds : Binds) → (hidden : List Name) → {origins : Origins} → {bound : List Name} →
      (∀ n, origins.isDefined n = decide (n ∈ bound)) → x ∈ bound →
        Expr.UsesRhss c.Settled (fun _ => True) binds →
      (∀ call ∈ d.callsInRhss group origins binds, ∀ p ∈ plan.positions,
        call.passesUnchanged p = true) →
        Retargets plan bound (Expr.hasCaseRhss x hidden binds)
          (Expr.hasCaseRhss x hidden (plan.redirectBinds bound binds))
          (Expr.outsideOccsRhss x hidden binds)
            (Expr.outsideOccsRhss x hidden (plan.redirectBinds bound binds))
  | [], _, _, bound, _, _, _, _ => by
    rw [Plan.redirectBinds]
    exact .nil plan bound
  | (b, rhs) :: rest, hidden, _, _, horigins, hbound, huses, hcalls => by
    rw [Plan.redirectBinds]
    obtain ⟨hrhs, hrest⟩ := List.forall_mem_append.mp hcalls
    have hrest' := redirectBinds_retargets hnames hx rest hidden horigins hbound huses.2 hrest
    have hrhs' :=
      redirectOnto_retargets hnames hx rhs hidden [] (.nil rhs) .nil horigins hbound huses.1 hrhs
    exact Retargets.append hrhs' hrest'

end

/-- **The right-hand side of an inner function.** -/
theorem reduce_retargets (hnames : InnerNames c plan group)
    (hparams : ∀ n ∈ d.paramNames, c.Settled n) (huses : d.rhs.Uses c.Settled fun _ => True)
    (hcalls : ∀ call ∈ d.calls group, ∀ p ∈ plan.positions, call.passesUnchanged p = true)
    (hx : x ∈ d.paramNames) : Retargeted plan d.paramNames x [] d.rhs (plan.reduce d).rhs :=
  redirectOnto_retargets hnames (hparams x hx) d.rhs [] [] (.nil d.rhs) .nil
    (Origins.isDefined_ofParams d.params) hx huses hcalls

/-- **What an inner function refers to** outside of the cases on a parameter that it keeps. -/
theorem reduce_outerVars (hnames : InnerNames c plan group)
    (hparams : ∀ n ∈ d.paramNames, c.Settled n) (huses : d.rhs.Uses c.Settled fun _ => True)
    (hcalls : ∀ call ∈ d.calls group, ∀ p ∈ plan.positions, call.passesUnchanged p = true)
    {i j : Nat} {param : Binder} (hi : d.params[i]? = some param)
    (hj : (plan.reduce d).params[j]? = some param) (hinner : plan.innerNames.get? g = some inner) :
    inner ∈ (plan.reduce d).outerVars j ↔ g ∈ d.outerVars i := by
  have hmem : param.name ∈ d.paramNames := List.mem_map_of_mem (List.mem_of_getElem? hi)
  have hretargets := reduce_retargets hnames hparams huses hcalls hmem
  have hnotParam : inner ∉ (plan.reduce d).paramNames := fun hparam =>
    hnames.new g inner hinner
      (hparams inner (((dropAt_sublist plan.positions d.params).map Binder.name).subset hparam))
  simp only [FuncDecl.outerVars, hi, hj, hretargets.found]
  split
  · rw [List.mem_filter, List.mem_filter, hretargets.outside g inner hinner]
    simp [hnotParam]
  · simp

/-- A function of the group is not referred to any more, unless a parameter has its name. -/
theorem mem_paramNames_of_mem_outerVars (hnames : InnerNames c plan group)
    (hparams : ∀ n ∈ d.paramNames, c.Settled n) (huses : d.rhs.Uses c.Settled fun _ => True)
    (hcalls : ∀ call ∈ d.calls group, ∀ p ∈ plan.positions, call.passesUnchanged p = true) {j : Nat}
    (hinner : plan.innerNames.get? g = some inner) (h : g ∈ (plan.reduce d).outerVars j) :
    g ∈ d.paramNames ∧ g ∉ (plan.reduce d).paramNames := by
  unfold FuncDecl.outerVars at h
  split at h
  · cases h
  · next param hj =>
    split at h
    · obtain ⟨hmem, hother⟩ := List.mem_filter.mp h
      have hparam : param.name ∈ d.paramNames :=
        List.mem_map_of_mem
          ((dropAt_sublist plan.positions d.params).subset (List.mem_of_getElem? hj))
      exact ⟨(reduce_retargets hnames hparams huses hcalls hparam).old g inner hinner hmem,
        of_decide_eq_true hother⟩
    · cases h

end redirect

end Hoist

end StructRec
