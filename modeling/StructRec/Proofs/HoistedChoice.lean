import StructRec.Proofs.Components
import StructRec.Proofs.PartialFunctions
import StructRec.Proofs.Reinsertion
import StructRec.Proofs.UniqueChoice

/-!
# StructRec — the choice for inner functions

Hoisting drops the constant parameters of a group and the arguments that stand for them. An inner
function has its calls where the function has them. What a call records of an argument stays, with
the remaining parameters counted anew, unless it is about a constant parameter: a part of a
section's variable is a part of no parameter. A constant parameter is never chosen for a function
that is called, since the call passes on the parameter itself and no part of it. So the inner
functions have the same valid choices as the functions.
-/

namespace StructRec

namespace Hoist

variable {head e : Expr} {args : List Arg} {α β : Type}

/-! ## Positions -/

section positions

variable {positions : List Nat}

/-- Positions that are left have different places inside. -/
theorem innerPosition_inj (hnodup : positions.Nodup) {i j : Nat} (hi : i ∉ positions)
    (hj : j ∉ positions) (h : innerPosition positions i = innerPosition positions j) :
    i = j := by
  have hget (k : Nat) (hk : k ∉ positions) (hle : k ≤ max i j) :
      (dropAt positions (List.range (max i j + 1)))[innerPosition positions k]? = some k := by
    rw [getElem?_dropAt hnodup hk, List.getElem?_range (by omega)]
  have hi' := hget i hi (Nat.le_max_left i j)
  rw [h, hget j hj (Nat.le_max_right i j)] at hi'
  exact (Option.some.inj hi').symm

/-- What is left stood at a position that is left. -/
theorem exists_of_mem_dropAt {xs : List α} {x : α} (h : x ∈ dropAt positions xs) :
    ∃ i, i ∉ positions ∧ xs[i]? = some x := by
  obtain ⟨⟨y, i⟩, hmem, rfl⟩ := List.mem_map.mp h
  obtain ⟨hentry, hi⟩ := List.mem_filter.mp hmem
  exact ⟨i, of_decide_eq_true hi, List.mem_zipIdx_iff_getElem?.mp hentry⟩

theorem map_innerPosition_inj (hnodup : positions.Nodup) {xs ys : List Nat}
    (hxs : ∀ k ∈ xs, k ∉ positions) (hys : ∀ k ∈ ys, k ∉ positions)
    (h : xs.map (innerPosition positions) = ys.map (innerPosition positions)) :
    xs = ys := by
  induction xs generalizing ys with
  | nil => exact (List.map_eq_nil_iff.mp h.symm).symm
  | cons x xs ih =>
    obtain ⟨y, ys, rfl, hhead, htail⟩ := List.map_eq_cons_iff.mp h.symm
    rw [List.forall_mem_cons] at hxs hys
    rw [innerPosition_inj hnodup hxs.1 hys.1 hhead.symm, ih hxs.2 hys.2 htail.symm]

/-- Every element that is left stood at a position that was not dropped. -/
theorem exists_of_getElem?_dropAt (hnodup : positions.Nodup) {xs : List α} {j : Nat} {x : α}
    (h : (dropAt positions xs)[j]? = some x) :
    ∃ i, i ∉ positions ∧ xs[i]? = some x ∧ innerPosition positions i = j := by
  -- drop from the elements with their positions, which are distinct
  have hfst : (dropAt positions xs.zipIdx).map Prod.fst = dropAt positions xs := by
    rw [← dropAt_map, List.zipIdx_map_fst]
  rw [← hfst, List.getElem?_map, Option.map_eq_some_iff] at h
  obtain ⟨⟨y, i⟩, hentry, rfl⟩ := h
  obtain ⟨k, hk, hget⟩ := exists_of_mem_dropAt (List.mem_of_getElem? hentry)
  obtain ⟨hi, rfl⟩ : xs[k]? = some y ∧ k = i := by
    rw [List.getElem?_zipIdx, Option.map_eq_some_iff] at hget
    obtain ⟨z, hz, heq⟩ := hget
    cases heq
    exact ⟨hz, (Nat.zero_add k).symm⟩
  refine ⟨k, hk, hi, ?_⟩
  have hat : (dropAt positions xs.zipIdx)[innerPosition positions k]? = some (y, k) := by
    rw [getElem?_dropAt hnodup hk, hget]
  have hdistinct : xs.zipIdx.Nodup := by
    refine List.Nodup.of_map Prod.snd ?_
    rw [List.zipIdx_map_snd]
    exact List.nodup_range'
  exact (List.getElem?_inj (List.getElem?_eq_some_iff.mp hat).1
    ((dropAt_sublist positions xs.zipIdx).nodup hdistinct)).mp (hat.trans hentry.symm)

end positions

/-! ## Origins -/

namespace Plan

/-- The position of a parameter among those of the inner function; a constant one has none. -/
def innerParam? (plan : Plan) (k : Nat) : Option Nat :=
  if k ∈ plan.positions then none else some (innerPosition plan.positions k)

/-- What a value is known to be inside the section. -/
def innerOrigin (plan : Plan) : Origin → Origin
  | .unknown => .unknown
  | .equal k => (plan.innerParam? k).elim .unknown .equal
  | .smaller k => (plan.innerParam? k).elim .unknown .smaller

theorem innerOrigin_field (plan : Plan) (origin : Origin) :
    plan.innerOrigin origin.field = (plan.innerOrigin origin).field := by
  cases origin with
  | unknown => rfl
  | equal k | smaller k => simp only [Origin.field, innerOrigin]; cases plan.innerParam? k <;> rfl

/-- A part of a parameter is a part of that parameter inside, if it is left there. -/
theorem smaller?_innerOrigin (plan : Plan) (origin : Origin) :
    (plan.innerOrigin origin).smaller? = origin.smaller?.bind plan.innerParam? := by
  cases origin with
  | unknown => rfl
  | equal k | smaller k =>
    simp only [innerOrigin]; cases h : plan.innerParam? k <;> simp [Origin.smaller?, h]

theorem innerOrigin_pattern (plan : Plan) (origin : Origin) (p : Pattern) :
    plan.innerOrigin (p.origin origin) = p.origin (plan.innerOrigin origin) := by
  cases p with
  | con name vars => exact plan.innerOrigin_field origin
  | _ => rfl

end Plan

/-- The scopes around a part of a function and around that part of the inner function. No inner
function is hidden. -/
structure Inside (plan : Plan) (bound : List Name) (o o' : Origins) : Prop where
  defined : ∀ n, o.isDefined n = decide (n ∈ bound)
  origin : ∀ n, (o'.lookup n).getD .unknown = plan.innerOrigin ((o.lookup n).getD .unknown)
  inner : ∀ g inner, plan.innerNames.get? g = some inner → o'.isDefined inner = false

namespace Inside

variable {c : Counters} {plan : Plan} {group bound : List Name} {o o' : Origins}

/-- Under names of one origin. -/
theorem enter (h : Inside plan bound o o') {names : List Name}
    (hnames : ∀ g inner, plan.innerNames.get? g = some inner → inner ∉ names) (origin : Origin) :
    Inside plan (names ++ bound) (o.enter (names.map (·, origin)))
      (o'.enter (names.map (·, plan.innerOrigin origin))) := by
  refine ⟨fun n => ?_, fun n => ?_, fun g inner hget => ?_⟩
  · rw [ScopeStack.isDefined_enter_map, h.defined]
    simp
  · rw [ScopeStack.lookup_enter, ScopeStack.lookup_enter]
    split
    · rfl
    · exact h.origin n
  · rw [ScopeStack.isDefined_enter_map, h.inner g inner hget, decide_eq_false (hnames g inner hget)]
    rfl

/-- **Under binders.** -/
theorem enterBinders (h : Inside plan bound o o') (hnames : InnerNames c plan group)
    {binders : List Binder} (huses : ∀ b ∈ binders, b.Uses c.Settled fun _ => True) :
    Inside plan (binderNames binders ++ bound) (o.enterBinders binders)
      (o'.enterBinders binders) := by
  rw [Origins.enterBinders_eq, Origins.enterBinders_eq]
  exact h.enter (hnames.notMem_binders huses) .unknown

/-- **Under a pattern**, whose variables are parts of the scrutinee. -/
theorem enterPattern (h : Inside plan bound o o') (hnames : InnerNames c plan group) {p : Pattern}
    (huses : ∀ b ∈ p.binders, b.Uses c.Settled fun _ => True) {scrutinee scrutinee' : Origin}
    (hscrutinee : scrutinee' = plan.innerOrigin scrutinee) :
    Inside plan (p.names ++ bound) (o.enterPattern scrutinee p) (o'.enterPattern scrutinee' p) := by
  rw [Origins.enterPattern_eq, Origins.enterPattern_eq, hscrutinee, ← plan.innerOrigin_pattern]
  exact h.enter (hnames.notMem_binders huses) (p.origin scrutinee)

theorem of_inner (h : Inside plan bound o o') {g inner : Name}
    (hget : plan.innerNames.get? g = some inner) (note : Note) :
    o'.of (.var note inner) = .unknown := by
  have hnone := h.inner g inner hget
  rw [ScopeStack.isDefined_eq_isSome, Option.isSome_eq_false_iff,
    Option.isNone_iff_eq_none] at hnone
  rw [Origins.of, hnone]
  rfl

end Inside

theorem Applied.of (h : Applied head args e) (o : Origins) :
    o.of e = if args = [] then o.of head else .unknown := by
  induction h with
  | nil => rfl
  | type _ ih => simpa [Origins.of] using ih
  | value _ ih => simpa [Origins.of] using ih

theorem of_withNote (o : Origins) (note : Note) (e : Expr) :
    o.of (e.withNote note) = o.of e := by cases e <;> rfl

/-- What a redirected expression is known to be. -/
theorem of_redirectOnto {plan : Plan} {bound : List Name} {o o' : Origins}
    (h : Inside plan bound o o') :
    (e : Expr) → (args : List (Note × Arg)) →
      o'.of (plan.redirectOnto bound e args) =
        if args = [] then plan.innerOrigin (o.of e) else .unknown
  | .var note n, args => by
    rw [Plan.redirectOnto]
    cases hinner : plan.inner? bound n with
    | none =>
      simp only
      rw [(applied_reapply (.var note n) args).of]
      exact if_congr List.map_eq_nil_iff (h.origin n) rfl
    | some inner =>
      -- neither the function nor its inner function is a variable in scope
      obtain ⟨hfree, hget⟩ := inner?_eq_some hinner
      have hnone : o.lookup n = none := by
        have hdefined := h.defined n
        rwa [decide_eq_false hfree, ScopeStack.isDefined_eq_isSome, Option.isSome_eq_false_iff,
          Option.isNone_iff_eq_none] at hdefined
      simp only [Expr.withTy, of_withNote, Plan.innerCall]
      rw [(applied_applyArgs _ _).of, h.of_inner hget, Origins.of, hnone]
      simp [Plan.innerOrigin]
  | .app note fn arg, args => by
    rw [Plan.redirectOnto, of_redirectOnto h fn]
    simp [Origins.of, Plan.innerOrigin]
  | .typeApp note fn ty, args => by
    rw [Plan.redirectOnto, of_redirectOnto h fn]
    simp [Origins.of, Plan.innerOrigin]
  | .cond .., args | .case .., args | .lam .., args | .letRec .., args => by
    rw [Plan.redirectOnto, (applied_reapply _ args).of]
    simp [Origins.of, Plan.innerOrigin]
  | .con .., args | .intLit .., args | .undefined _, args | .error .., args => by
    rw [Plan.redirectOnto]
    · rw [(applied_reapply _ args).of]
      simp [Origins.of, Plan.innerOrigin]
    all_goals simp

/-! ## Calls -/

/-- A call of the group and the call of an inner function that it becomes. -/
structure CallReduced (plan : Plan) (call call' : CallSite) : Prop where
  caller : plan.innerNames.get? call.caller = some call'.caller
  callee : plan.innerNames.get? call.callee = some call'.callee
  args : call'.args.map CallArg.smallerThan
    = (dropAt plan.positions call.args).map (·.smallerThan.bind plan.innerParam?)

/-- The calls of an application are those of its head, and then those of its arguments. -/
theorem Applied.callsIn (h : Applied head args e) (d : FuncDecl) (group : List Name) (o : Origins)
    (values : List Expr) :
    d.callsIn group o e values
      = d.callsIn group o head (valuesOf args ++ values) ++
        (valuesOf args).flatMap (d.callsIn group o · []) := by
  induction h with
  | nil => exact (List.append_nil _).symm
  | type _ ih => exact ih
  | value _ ih => exact ih.trans (List.append_assoc _ _ _)

theorem callsIn_withNote (d : FuncDecl) (group : List Name) (o : Origins) (note : Note) (e : Expr)
    (values : List Expr) :
    d.callsIn group o (e.withNote note) values = d.callsIn group o e values := by cases e <;> rfl

/-- What is dropped may be left out if it yields nothing. -/
theorem flatMap_dropAt (f : α → List β) {positions : List Nat} {xs : List α}
    (h : ∀ p ∈ positions, ∀ x, xs[p]? = some x → f x = []) :
    (dropAt positions xs).flatMap f = xs.flatMap f := by
  -- by induction on the list, with the position of its first element
  have hfrom : ∀ start, (∀ p ∈ positions, start ≤ p → ∀ x, xs[p - start]? = some x → f x = []) →
      (((xs.zipIdx start).filter fun entry => entry.2 ∉ positions).map Prod.fst).flatMap f =
        xs.flatMap f := by
    clear h
    induction xs with
    | nil => exact fun _ _ => rfl
    | cons x xs ih =>
      intro start h
      have hrest := ih (start + 1) fun p hp hle y hy => h p hp (by omega) y (by
        rwa [show p - start = (p - (start + 1)) + 1 by omega, List.getElem?_cons_succ])
      rw [List.zipIdx_cons]
      by_cases hstart : start ∈ positions
      · rw [List.filter_cons_of_neg (by simpa using hstart), hrest, List.flatMap_cons,
          h start hstart le_rfl x (by rw [Nat.sub_self]; rfl), List.nil_append]
      · rw [List.filter_cons_of_pos (by simpa using hstart), List.map_cons, List.flatMap_cons,
          List.flatMap_cons, hrest]
  exact hfrom 0 fun p hp _ => h p hp

/-- Elements that go together are dropped together. -/
theorem forall₂_dropAt {R : α → β → Prop} {xs : List α} {ys : List β} (h : List.Forall₂ R xs ys)
    (positions : List Nat) : List.Forall₂ R (dropAt positions xs) (dropAt positions ys) := by
  have hfrom : ∀ start, List.Forall₂ R
      (((xs.zipIdx start).filter fun entry => entry.2 ∉ positions).map Prod.fst)
      (((ys.zipIdx start).filter fun entry => entry.2 ∉ positions).map Prod.fst) := by
    induction h with
    | nil => exact fun _ => .nil
    | cons hfirst _ ih =>
      intro start
      rw [List.zipIdx_cons, List.zipIdx_cons]
      by_cases hstart : start ∈ positions
      · rw [List.filter_cons_of_neg (by simpa using hstart),
          List.filter_cons_of_neg (by simpa using hstart)]
        exact ih (start + 1)
      · rw [List.filter_cons_of_pos (by simpa using hstart),
          List.filter_cons_of_pos (by simpa using hstart)]
        exact .cons hfirst (ih (start + 1))
  exact hfrom 0

/-- A function and its inner function, with the names of both groups. -/
structure InnerOf (c : Counters) (plan : Plan) (group inner : List Name) (d d' : FuncDecl) :
    Prop where
  names : InnerNames c plan group
  self : plan.innerNames.get? d.name = some d'.name
  total : ∀ g ∈ group, ∃ n ∈ inner, plan.innerNames.get? g = some n
  new : ∀ n ∈ inner, ¬ c.Settled n

section calls

variable {c : Counters} {plan : Plan} {group inner bound : List Name} {d d' : FuncDecl}
  {o o' : Origins}
variable {n : Name} {values : List Expr}

theorem InnerOf.mem (h : InnerOf c plan group inner d d') {g : Name}
    (hget : plan.innerNames.get? g = some n) : g ∈ group ∧ n ∈ inner := by
  have hg := h.names.mem g n hget
  obtain ⟨n', hn', hget'⟩ := h.total g hg
  obtain rfl := Option.some.inj (hget.symm.trans hget')
  exact ⟨hg, hn'⟩

/-- An argument before it is redirected and after: it makes the same calls, and what is known of it
is the same. -/
structure ArgReduced (plan : Plan) (group inner : List Name) (d d' : FuncDecl) (o o' : Origins)
    (e e' : Expr) : Prop where
  calls : List.Forall₂ (CallReduced plan) (d.callsIn group o e []) (d'.callsIn inner o' e' [])
  origin : o'.of e' = plan.innerOrigin (o.of e)

theorem ArgReduced.flatMap {values' : List Expr}
    (h : List.Forall₂ (ArgReduced plan group inner d d' o o') values values') :
    List.Forall₂ (CallReduced plan) (values.flatMap (d.callsIn group o · []))
      (values'.flatMap (d'.callsIn inner o' · [])) :=
  List.rel_flatMap h fun _ _ harg => harg.calls

/-- Arguments are smaller than the same parameters inside. -/
theorem ArgReduced.smallerThan {values' : List Expr}
    (h : List.Forall₂ (ArgReduced plan group inner d d' o o') values values') :
    (values'.map (d'.callArg o')).map CallArg.smallerThan
      = (values.map (d.callArg o)).map (·.smallerThan.bind plan.innerParam?) := by
  induction h with
  | nil => rfl
  | @cons e e' _ _ hfirst _ ih =>
    have hsmaller : (o'.of e').smaller? = (o.of e).smaller?.bind plan.innerParam? := by
      rw [hfirst.origin, plan.smaller?_innerOrigin]
    exact congrArg₂ List.cons hsmaller ih

/-- An expression that is applied to values, and what it becomes together with them: the calls are
those of the expression and then those of the values. -/
def CallsReduced (plan : Plan) (group inner : List Name) (d d' : FuncDecl) (o o' : Origins)
    (e : Expr) (values : List Expr) (e' : Expr) : Prop :=
  List.Forall₂ (CallReduced plan)
    (d.callsIn group o e values ++ values.flatMap (d.callsIn group o · []))
    (d'.callsIn inner o' e' [])

theorem CallsReduced.alone {e' : Expr} (h : CallsReduced plan group inner d d' o o' e [] e') :
    List.Forall₂ (CallReduced plan) (d.callsIn group o e []) (d'.callsIn inner o' e' []) := by
  rwa [CallsReduced, List.flatMap_nil, List.append_nil] at h

/-- A variable that is bound around makes no call. -/
theorem callsIn_of_defined {note : Note} (h : o.isDefined n = true) (values : List Expr) :
    d.callsIn group o (.var note n) values = [] := by
  rw [FuncDecl.callsIn, h]
  simp

/-- **A call of an inner function.** -/
theorem innerCall_calls (h : InnerOf c plan group inner d d') (hinside : Inside plan bound o o')
    {note : Note} {n' : Name} {span : Span} (hinner : plan.inner? bound n = some n')
    (hargs : List.Forall₂ (ArgReduced plan group inner d d' o o') values (valuesOf args))
    (hcalls : PassesOn d group plan o (.var note n) values) :
    CallsReduced plan group inner d d' o o' (.var note n) values
      (plan.innerCall n n' span args) := by
  obtain ⟨hfree, hget⟩ := inner?_eq_some hinner
  obtain ⟨hn, hn'⟩ := h.mem hget
  have hundefined : o.isDefined n = false := (hinside.defined n).trans (decide_eq_false hfree)
  -- the arguments that the call loses are variables, which make no calls
  have hlost : ∀ p ∈ plan.positions, ∀ e, values[p]? = some e → d.callsIn group o e [] = [] := by
    intro p hp e he
    obtain ⟨note', y, hpassed, hbottom, _⟩ := hcalls.passed hn hundefined hp
    obtain rfl := Option.some.inj (he.symm.trans hpassed)
    exact callsIn_of_defined (ScopeStack.isDefined_of_refersToBottom hbottom) []
  rw [CallsReduced, Plan.innerCall, (applied_applyArgs _ _).callsIn, List.append_nil,
    valuesOf_keptArgs, FuncDecl.callsIn,
    FuncDecl.callsIn, hundefined, hinside.inner n n' hget, decide_eq_true hn, decide_eq_true hn',
    ← flatMap_dropAt (d.callsIn group o · []) hlost]
  refine .cons ⟨h.self, hget, ?_⟩ (ArgReduced.flatMap (forall₂_dropAt hargs plan.positions))
  rw [dropAt_map]
  exact ArgReduced.smallerThan (forall₂_dropAt hargs plan.positions)

/-- An application of anything else. -/
theorem reapply_calls {head' : Expr} {args : List (Note × Arg)}
    (hargs : List.Forall₂ (ArgReduced plan group inner d d' o o') values
      (valuesOf (args.map Prod.snd)))
    (hhead : List.Forall₂ (CallReduced plan) (d.callsIn group o head values)
      (d'.callsIn inner o' head' (valuesOf (args.map Prod.snd)))) :
    CallsReduced plan group inner d d' o o' head values (Plan.reapply head' args) := by
  rw [CallsReduced, (applied_reapply head' args).callsIn, List.append_nil]
  exact List.rel_append hhead (ArgReduced.flatMap hargs)

mutual

/-- **The calls of a redirected expression.** By induction on the expression, with the arguments
that it is applied to. -/
theorem redirectOnto_calls (h : InnerOf c plan group inner d d') :
    (e : Expr) → (args : List (Note × Arg)) → {o o' : Origins} → {bound : List Name} →
      {values : List Expr} →
      Inside plan bound o o' →
      List.Forall₂ (ArgReduced plan group inner d d' o o') values (valuesOf (args.map Prod.snd)) →
      e.Uses c.Settled (fun _ => True) → PassesOn d group plan o e values →
        CallsReduced plan group inner d d' o o' e values (plan.redirectOnto bound e args)
  | .var note n, args, o, o', bound, values, hinside, hargs, huses, hcalls => by
    rw [Plan.redirectOnto]
    cases hinner : plan.inner? bound n with
    | some n' =>
      simp only [CallsReduced, Expr.withTy, callsIn_withNote]
      exact innerCall_calls h hinside hinner hargs hcalls
    | none =>
      refine reapply_calls hargs ?_
      -- the variable is bound around or is no function of the group, and it is no inner function
      -- either
      have hnone : d.callsIn group o (.var note n) values = [] := by
        by_cases hbound : n ∈ bound
        · exact callsIn_of_defined ((hinside.defined n).trans (decide_eq_true hbound)) values
        · have hother : n ∉ group := by
            intro hn
            obtain ⟨n', _, hget⟩ := h.total n hn
            rw [Plan.inner?, if_neg hbound, hget] at hinner
            cases hinner
          rw [FuncDecl.callsIn, decide_eq_false hother]
          rfl
      have hnone' : d'.callsIn inner o' (.var note n) (valuesOf (args.map Prod.snd)) = [] := by
        rw [FuncDecl.callsIn, decide_eq_false fun hn => h.new n hn huses.2]
        rfl
      rw [hnone, hnone']
      exact .nil
  | .con .., _, _, _, _, _, _, hargs, _, _ | .intLit .., _, _, _, _, _, _, hargs, _, _
  | .undefined _, _, _, _, _, _, _, hargs, _, _ | .error .., _, _, _, _, _, _, hargs, _, _ => by
    rw [Plan.redirectOnto]
    · exact reapply_calls hargs .nil
    all_goals simp
  | .app _ fn arg, args, _, _, _, _, hinside, hargs, huses, hcalls => by
    rw [Plan.redirectOnto]
    obtain ⟨hfn, harg⟩ := hcalls.append rfl
    -- an argument keeps its origin and its own calls
    have harg' : ArgReduced plan group inner d d' _ _ arg _ :=
      ⟨(redirectOnto_calls h arg [] hinside .nil huses.2.2 harg).alone,
        of_redirectOnto hinside arg []⟩
    rw [CallsReduced, FuncDecl.callsIn, List.append_assoc]
    exact redirectOnto_calls h fn _ hinside (.cons harg' hargs) huses.2.1 hfn
  | .typeApp _ fn ty, args, _, _, _, _, hinside, hargs, huses, hcalls => by
    rw [Plan.redirectOnto]
    exact redirectOnto_calls h fn _ hinside hargs huses.2.1 hcalls
  | .cond _ test thenBranch elseBranch, _, _, _, _, _, hinside, hargs, huses, hcalls => by
    rw [Plan.redirectOnto]
    obtain ⟨hfirst, helse⟩ := hcalls.append rfl
    obtain ⟨htest, hthen⟩ := List.forall_mem_append.mp hfirst
    have htest' := redirectOnto_calls h test [] hinside .nil huses.2.1 htest
    have hthen' := redirectOnto_calls h thenBranch [] hinside .nil huses.2.2.1 hthen
    have helse' := redirectOnto_calls h elseBranch [] hinside .nil huses.2.2.2 helse
    exact reapply_calls hargs
      (List.rel_append (List.rel_append htest'.alone hthen'.alone) helse'.alone)
  | .case _ scrutinee alts, _, _, _, _, _, hinside, hargs, huses, hcalls => by
    rw [Plan.redirectOnto]
    obtain ⟨hscrutinee, halts⟩ := hcalls.append rfl
    have hscrutinee' := redirectOnto_calls h scrutinee [] hinside .nil huses.2.1 hscrutinee
    have halts' :=
      redirectAlts_calls h alts hinside (of_redirectOnto hinside scrutinee []) huses.2.2 halts
    exact reapply_calls hargs (List.rel_append hscrutinee'.alone halts')
  | .lam _ params body, _, _, _, _, _, hinside, hargs, huses, hcalls => by
    rw [Plan.redirectOnto]
    have hbody :=
      redirectOnto_calls h body [] (hinside.enterBinders h.names huses.2.1) .nil huses.2.2 hcalls
    exact reapply_calls hargs hbody.alone
  | .letRec note binds body, _, _, _, bound, _, hinside, hargs, huses, hcalls => by
    rw [Plan.redirectOnto]
    obtain ⟨hbinds, hbody⟩ := hcalls.append rfl
    -- the binders scope over right-hand sides and body, in both versions
    have hinside' := hinside.enterBinders h.names huses.2.1
    have hbinds' := redirectBinds_calls h binds hinside' huses.2.2.1 hbinds
    have hbody' := redirectOnto_calls h body [] hinside' .nil huses.2.2.2 hbody
    refine reapply_calls hargs ?_
    rw [FuncDecl.callsIn, FuncDecl.callsIn, binders_redirectBinds]
    exact List.rel_append hbinds' hbody'.alone

/-- The alternatives of a `case`. -/
theorem redirectAlts_calls (h : InnerOf c plan group inner d d') :
    (alts : Alts) → {o o' : Origins} → {bound : List Name} → {scrutinee scrutinee' : Origin} →
      Inside plan bound o o' →
      scrutinee' = plan.innerOrigin scrutinee → Expr.UsesAlts c.Settled (fun _ => True) alts →
      (∀ call ∈ d.callsInAlts group o scrutinee alts, ∀ p ∈ plan.positions,
        call.passesUnchanged p = true) →
        List.Forall₂ (CallReduced plan) (d.callsInAlts group o scrutinee alts)
          (d'.callsInAlts inner o' scrutinee' (plan.redirectAlts bound alts))
  | [], _, _, _, _, _, _, _, _, _ => by
    rw [Plan.redirectAlts]
    exact .nil
  | (pattern, rhs) :: rest, _, _, _, _, _, hinside, hscrutinee, huses, hcalls => by
    rw [Plan.redirectAlts]
    obtain ⟨hrhs, hrest⟩ := List.forall_mem_append.mp hcalls
    have hrhs' :=
      redirectOnto_calls h rhs [] (hinside.enterPattern h.names huses.1 hscrutinee) .nil
        huses.2.1 hrhs
    exact List.rel_append hrhs'.alone (redirectAlts_calls h rest hinside hscrutinee huses.2.2 hrest)

/-- The bindings of a `let`. -/
theorem redirectBinds_calls (h : InnerOf c plan group inner d d') :
    (binds : Binds) → {o o' : Origins} → {bound : List Name} → Inside plan bound o o' →
      Expr.UsesRhss c.Settled (fun _ => True) binds →
      (∀ call ∈ d.callsInRhss group o binds, ∀ p ∈ plan.positions, call.passesUnchanged p = true) →
        List.Forall₂ (CallReduced plan) (d.callsInRhss group o binds)
          (d'.callsInRhss inner o' (plan.redirectBinds bound binds))
  | [], _, _, _, _, _, _ => by
    rw [Plan.redirectBinds]
    exact .nil
  | (b, rhs) :: rest, _, _, _, hinside, huses, hcalls => by
    rw [Plan.redirectBinds]
    obtain ⟨hrhs, hrest⟩ := List.forall_mem_append.mp hcalls
    have hrhs' := redirectOnto_calls h rhs [] hinside .nil huses.1 hrhs
    exact List.rel_append hrhs'.alone (redirectBinds_calls h rest hinside huses.2 hrest)

end

end calls

/-! ## The inner group -/

/-- The parameters of a function and those of its inner function. -/
theorem inside_ofParams {plan : Plan} {d : FuncDecl} (hnodup : plan.positions.Nodup)
    (hparams : d.paramNames.Nodup)
    (hinner : ∀ g inner, plan.innerNames.get? g = some inner → inner ∉ d.paramNames) :
    Inside plan d.paramNames (Origins.ofParams d.params)
      (Origins.ofParams (dropAt plan.positions d.params)) := by
  have hnames : binderNames (dropAt plan.positions d.params) = dropAt plan.positions d.paramNames :=
    (dropAt_map Binder.name plan.positions d.params).symm
  have hsublist : (dropAt plan.positions d.paramNames).Sublist d.paramNames :=
    dropAt_sublist plan.positions d.paramNames
  have hnone {n : Name} (hn : n ∉ dropAt plan.positions d.paramNames) :
      (Origins.ofParams (dropAt plan.positions d.params)).lookup n = none :=
    Origins.lookup_ofParams_eq_none (hnames ▸ hn)
  refine ⟨fun n => Origins.isDefined_ofParams d.params n, fun n => ?_, fun g inner hget => ?_⟩
  · by_cases hn : n ∈ d.paramNames
    · obtain ⟨k, hk⟩ := List.mem_iff_getElem?.mp hn
      rw [Origins.lookup_ofParams hparams hk, Option.getD_some, Plan.innerOrigin, Plan.innerParam?]
      split
      next hconstant =>
        -- a constant parameter is no parameter of the inner function
        rw [hnone fun hmem => ?_]
        · rfl
        obtain ⟨i, hi, hget⟩ := exists_of_mem_dropAt hmem
        exact hi
          ((List.getElem?_inj (List.getElem?_eq_some_iff.mp hk).1 hparams).mp
            (hk.trans hget.symm) ▸ hconstant)
      next hkept =>
        have hget :
            (binderNames (dropAt plan.positions d.params))[innerPosition plan.positions k]? =
            some n := by
          rw [hnames, getElem?_dropAt hnodup hkept, hk]
        rw [Origins.lookup_ofParams (hnames ▸ hsublist.nodup hparams) hget]
        rfl
    · rw [Origins.lookup_ofParams_eq_none (n := n) hn, hnone fun hmem => hn (hsublist.subset hmem)]
      rfl
  · rw [Origins.isDefined_ofParams, hnames,
      decide_eq_false fun hmem => hinner g inner hget (hsublist.subset hmem)]

section group

variable {c c' : Counters} {decls : List FuncDecl} {entries : List (Name × Name)} {plan : Plan}
  {refs : List Name} {markers : Name → Prop} {d : FuncDecl}

theorem nodup_constantPositions (decls : List FuncDecl) : (constantPositions decls).Nodup :=
  List.nodup_range.filter _

/-- The plan of a group fits each of its functions. -/
theorem PlanFor.innerOf (h : PlanFor c c' decls entries plan)
    (hgroup : GroupScoped c refs markers decls) (hd : d ∈ decls) :
    InnerOf c plan (decls.map FuncDecl.name) ((decls.map plan.reduce).map FuncDecl.name) d
      (plan.reduce d) where
  names := h.innerNames hgroup.settled
  self := h.get?_name hgroup.nodup hd
  total g hg := by
    obtain ⟨e, he, rfl⟩ := List.mem_map.mp hg
    exact ⟨_, List.mem_map_of_mem (List.mem_map_of_mem he), h.get?_name hgroup.nodup he⟩
  new n hn := (h.new n (h.reduced_names hgroup.nodup ▸ hn)).1

/-- **The calls of an inner function** are those of the function. -/
theorem PlanFor.calls (h : PlanFor c c' decls entries plan)
    (hgroup : GroupScoped c refs markers decls)
    (hpositions : plan.positions = constantPositions decls) (hd : d ∈ decls) :
    List.Forall₂ (CallReduced plan) (d.calls (decls.map FuncDecl.name))
      ((plan.reduce d).calls ((decls.map plan.reduce).map FuncDecl.name)) := by
  have hinner := h.innerOf hgroup hd
  obtain ⟨hparams, hsettled⟩ := hgroup.params d hd
  have hnodup : plan.positions.Nodup := hpositions ▸ nodup_constantPositions decls
  have hinside := inside_ofParams hnodup hparams
    fun g inner hget hmem => hinner.names.new g inner hget (hsettled inner hmem)
  have hcalls :=
    redirectOnto_calls hinner d.rhs [] hinside .nil (hgroup.uses_rhs hd)
      (passesUnchanged_of_constant hpositions hd)
  exact hcalls.alone

/-- **The calls of a group** correspond one by one to those inside. -/
theorem PlanFor.groupCalls (h : PlanFor c c' decls entries plan)
    (hgroup : GroupScoped c refs markers decls)
    (hpositions : plan.positions = constantPositions decls) :
    List.Forall₂ (CallReduced plan) (groupCalls decls) (groupCalls (decls.map plan.reduce)) := by
  have hsame : List.Forall₂ (fun d d' => d ∈ decls ∧ d' = plan.reduce d) decls
      (decls.map plan.reduce) :=
    List.forall₂_map_right_iff.mpr (List.forall₂_same.mpr fun d hd => ⟨hd, rfl⟩)
  refine List.rel_flatMap hsame fun d d' hd => ?_
  obtain ⟨hd, rfl⟩ := hd
  exact h.calls hgroup hpositions hd

/-! ## Choices -/

/-- **A call decreases** inside as it does outside. -/
theorem CallReduced.decreases {call call' : CallSite} (h : CallReduced plan call call')
    (hnodup : plan.positions.Nodup) {k l : Nat} (hk : k ∉ plan.positions)
    (hl : l ∉ plan.positions) :
    call'.decreases (innerPosition plan.positions k) (innerPosition plan.positions l) =
      call.decreases k l := by
  have hsmaller (site : CallSite) (i j : Nat) :
      site.decreases i j = (site.args.map CallArg.smallerThan)[i]?.any (· = some j) := by
    rw [List.getElem?_map, Option.any_map]
    rfl
  rw [hsmaller, h.args, List.getElem?_map, getElem?_dropAt hnodup hk, Option.any_map,
    CallSite.decreases]
  refine congrArg (Option.any · call.args[k]?) (funext fun arg => decide_eq_decide.mpr ?_)
  cases arg.smallerThan with
  | none => simp
  | some m =>
    rw [Option.bind_some, Plan.innerParam?]
    split
    next hconstant => exact iff_of_false (by simp) fun heq => hl (Option.some.inj heq ▸ hconstant)
    next hkept =>
      rw [Option.some_inj, Option.some_inj]
      exact ⟨innerPosition_inj hnodup hkept hl, fun heq => heq ▸ rfl⟩

/-- A parameter that is not constant is a parameter of the inner function. -/
theorem lt_arity_reduce_iff (hnodup : plan.positions.Nodup) (d : FuncDecl) {k : Nat}
    (hk : k ∉ plan.positions) :
    innerPosition plan.positions k < (plan.reduce d).arity ↔ k < d.arity := by
  have hget : (plan.reduce d).params[innerPosition plan.positions k]? = d.params[k]? :=
    getElem?_dropAt hnodup hk d.params
  rw [← not_iff_not, Nat.not_lt, Nat.not_lt]
  exact List.getElem?_eq_none_iff.symm.trans (hget ▸ List.getElem?_eq_none_iff)

variable {env env' : Environment} {choice : List Nat}

theorem exists_zip_left {xs : List α} {ys : List β} (h : xs.length = ys.length) {x : α}
    (hx : x ∈ xs) : ∃ y, (x, y) ∈ xs.zip ys := by
  rw [← List.map_fst_zip h.le, List.mem_map] at hx
  obtain ⟨⟨x, y⟩, hmem, rfl⟩ := hx
  exact ⟨y, hmem⟩

theorem exists_zip_right {xs : List α} {ys : List β} (h : xs.length = ys.length) {y : β}
    (hy : y ∈ ys) : ∃ x, (x, y) ∈ xs.zip ys := by
  rw [← List.map_snd_zip h.ge, List.mem_map] at hy
  obtain ⟨⟨x, y⟩, hmem, rfl⟩ := hy
  exact ⟨x, hmem⟩

/-- The ends of a call are found by name, and inner functions have names of their own. -/
theorem PlanFor.name_iff (h : PlanFor c c' decls entries plan)
    (hgroup : GroupScoped c refs markers decls) (hd : d ∈ decls) {n n' : Name}
    (hget : plan.innerNames.get? n = some n') :
    n' = (plan.reduce d).name ↔ n = d.name := by
  have hinner := h.innerOf hgroup hd
  constructor
  · rintro rfl
    exact hinner.names.injective n d.name _ hget hinner.self
  · rintro rfl
    exact Option.some.inj (hget.symm.trans hinner.self)

/-- **The valid choices of the inner group** are the valid choices of the group that take no
constant parameter. -/
theorem PlanFor.valid_iff (h : PlanFor c c' decls entries plan)
    (hgroup : GroupScoped c refs markers decls)
    (hpositions : plan.positions = constantPositions decls)
    (hpragmas : ∀ d ∈ decls, env.pragmas.get? d.name = none)
    (hpragmas' : ∀ d ∈ decls, env'.pragmas.get? (plan.reduce d).name = none)
    (hchoice : ∀ k ∈ choice, k ∉ plan.positions) :
    Decreasing.Valid env' (decls.map plan.reduce) (choice.map (innerPosition plan.positions)) ↔
      Decreasing.Valid env decls choice := by
  have hnodup : plan.positions.Nodup := hpositions ▸ nodup_constantPositions decls
  have hmem {p : FuncDecl × Nat} (hp : p ∈ decls.zip choice) : p.1 ∈ decls ∧ p.2 ∉ plan.positions :=
    (List.of_mem_zip (a := p.1) (b := p.2) hp).imp_right (hchoice p.2)
  -- a position is permitted if there is a parameter there, before and after
  have hpermits : List.Forall₂ (Decreasing.Permits env') (decls.map plan.reduce)
      (choice.map (innerPosition plan.positions)) ↔
      List.Forall₂ (Decreasing.Permits env) decls choice := by
    rw [List.forall₂_map_left_iff, List.forall₂_map_right_iff, List.forall₂_iff_zip,
      List.forall₂_iff_zip]
    refine and_congr_right fun _ => forall₂_congr fun d k => imp_congr_right fun hp => ?_
    obtain ⟨hd, hk⟩ := hmem hp
    rw [Decreasing.permits_iff (hpragmas' d hd), Decreasing.permits_iff (hpragmas d hd),
      lt_arity_reduce_iff hnodup d hk]
  -- calls correspond, and so do the pairs of functions they go between
  have hdecreases :
      (∀ caller ∈ (decls.map plan.reduce).zip (choice.map (innerPosition plan.positions)),
      ∀ callee ∈ (decls.map plan.reduce).zip (choice.map (innerPosition plan.positions)),
      ∀ call ∈ StructRec.groupCalls (decls.map plan.reduce), call.caller = caller.1.name →
        call.callee = callee.1.name → call.decreases callee.2 caller.2 = true) ↔
      ∀ caller ∈ decls.zip choice, ∀ callee ∈ decls.zip choice, ∀ call ∈ StructRec.groupCalls decls,
        call.caller = caller.1.name → call.callee = callee.1.name →
          call.decreases callee.2 caller.2 = true := by
    rw [zip_reduced, List.forall_mem_map]
    refine forall₂_congr fun caller hcaller => ?_
    rw [List.forall_mem_map]
    refine forall₂_congr fun callee hcallee =>
      ((h.groupCalls hgroup hpositions).forall_mem_iff ?_).symm
    intro call call' hcall
    rw [h.name_iff hgroup (hmem hcaller).1 hcall.caller,
      h.name_iff hgroup (hmem hcallee).1 hcall.callee,
      hcall.decreases hnodup (hmem hcallee).2 (hmem hcaller).2]
  exact ⟨fun hvalid => ⟨hpermits.mp hvalid.permits, hdecreases.mp hvalid.decreases⟩,
    fun hvalid => ⟨hpermits.mpr hvalid.permits, hdecreases.mpr hvalid.decreases⟩⟩

/-- Every choice of parameters for the inner functions is one of parameters that are not
constant. -/
theorem exists_choice (hnodup : plan.positions.Nodup)
    (h : List.Forall₂ (Decreasing.Permits env') (decls.map plan.reduce) choice) :
    ∃ outer : List Nat, (∀ k ∈ outer, k ∉ plan.positions) ∧
      outer.map (innerPosition plan.positions) = choice := by
  rw [List.forall₂_map_left_iff] at h
  induction h with
  | nil => exact ⟨[], List.forall_mem_nil _, rfl⟩
  | cons hfirst _ ih =>
    obtain ⟨outer, houter, rfl⟩ := ih
    obtain ⟨k, hk, _, rfl⟩ :=
      exists_of_getElem?_dropAt hnodup (List.getElem?_eq_getElem hfirst.lt_arity)
    exact ⟨k :: outer, List.forall_mem_cons.mpr ⟨hk, houter⟩, rfl⟩

/-- A constant parameter is not chosen for a function that is called: the call passes it on, and no
part of it. -/
theorem notMem_constantPositions (h : Decreasing.Valid env decls choice)
    (hcalled : ∀ d ∈ decls, ∃ call ∈ groupCalls decls, call.callee = d.name) :
    ∀ k ∈ choice, k ∉ constantPositions decls := by
  intro k hk hconstant
  obtain ⟨hlength, hpermits⟩ := List.forall₂_iff_zip.mp h.permits
  obtain ⟨d, hd⟩ := exists_zip_right hlength hk
  obtain ⟨call, hcall, hto⟩ := hcalled d (List.of_mem_zip hd).1
  obtain ⟨e, he, hmem⟩ := List.mem_flatMap.mp hcall
  obtain ⟨l, hl⟩ := exists_zip_left hlength he
  have hdecreases := h.decreases (e, l) hl (d, k) hd call hcall (e.mem_callsIn _ _ _ _ hmem).1 hto
  have hpasses := (of_mem_constantPositions hconstant).2 e he call hmem
  rw [CallSite.decreases, Option.any_eq_true] at hdecreases
  obtain ⟨arg, harg, hsmaller⟩ := hdecreases
  rw [CallSite.passesUnchanged, harg, Option.any_some, decide_eq_true_iff] at hpasses
  rw [FuncDecl.smallerThan_eq_none hmem (List.mem_of_getElem? harg) hpasses] at hsmaller
  cases of_decide_eq_true hsmaller

/-- **The decreasing parameters of the inner group**, where every function of the group is
called. -/
theorem PlanFor.choose_eq_ok_iff (h : PlanFor c c' decls entries plan)
    (hgroup : GroupScoped c refs markers decls)
    (hpositions : plan.positions = constantPositions decls)
    (hpragmas : ∀ d ∈ decls, env.pragmas.get? d.name = none)
    (hpragmas' : ∀ d ∈ decls, env'.pragmas.get? (plan.reduce d).name = none)
    (hcalled : ∀ d ∈ decls, ∃ call ∈ StructRec.groupCalls decls, call.callee = d.name)
    (inner : List Nat) :
    Decreasing.choose env' (decls.map plan.reduce) = .ok inner ↔
      ∃ chosen, Decreasing.choose env decls = .ok chosen ∧
        inner = chosen.map (innerPosition plan.positions) := by
  have hnodup : plan.positions.Nodup := hpositions ▸ nodup_constantPositions decls
  have hne : decls ≠ [] := List.ne_nil_of_mem h.nonempty.choose_spec
  have hnodup' : ((decls.map plan.reduce).map FuncDecl.name).Nodup :=
    h.reduced_names hgroup.nodup ▸ h.nodup
  have hvalid {choice : List Nat} (hchoice : ∀ k ∈ choice, k ∉ plan.positions) :=
    h.valid_iff hgroup hpositions hpragmas hpragmas' hchoice
  -- a constant parameter is in no valid choice, so a choice loses nothing inside
  have hkept {choice : List Nat} (hchoice : Decreasing.Valid env decls choice) : ∀ k ∈ choice,
      k ∉ plan.positions :=
    hpositions ▸ notMem_constantPositions hchoice hcalled
  rw [Decreasing.choose_eq_ok_iff_of_free hnodup' (List.map_eq_nil_iff.not.mpr hne)
    (List.forall_mem_map.mpr hpragmas')]
  simp only [Decreasing.choose_eq_ok_iff_of_free hgroup.nodup hne hpragmas]
  constructor
  · rintro ⟨hinner, hunique⟩
    obtain ⟨chosen, hchosen, rfl⟩ := exists_choice hnodup hinner.permits
    refine ⟨chosen, ⟨(hvalid hchosen).mp hinner, fun other hother => ?_⟩, rfl⟩
    exact map_innerPosition_inj hnodup (hkept hother) hchosen
      (hunique _ ((hvalid (hkept hother)).mpr hother))
  · rintro ⟨chosen, ⟨hchosen, hunique⟩, rfl⟩
    refine ⟨(hvalid (hkept hchosen)).mpr hchosen, fun other hother => ?_⟩
    obtain ⟨outer, houter, rfl⟩ := exists_choice hnodup hother.permits
    rw [hunique outer ((hvalid houter).mp hother)]

end group

end Hoist

/-- In a recursive component every function is called that is not named like a marker. -/
theorem exists_call_of_recursive {all decls : List FuncDecl}
    (h : Component.recursive decls ∈ Dependency.components all) {d : FuncDecl} (hd : d ∈ decls)
    (hname : ¬ (d.name = Expr.undefinedKey ∨ d.name = Expr.errorKey)) :
    ∃ call ∈ groupCalls decls, call.callee = d.name := by
  obtain ⟨e, he, hreference⟩ := Dependency.exists_referrer h hd
  rcases FuncDecl.mem_references_iff.mp hreference with ⟨hfree, hparam⟩ | hmarker
  · obtain ⟨call, hcall, hcallee⟩ := FuncDecl.exists_call hfree hparam (List.mem_map_of_mem hd)
    exact ⟨call, List.mem_flatMap.mpr ⟨e, he, hcall⟩, hcallee⟩
  · exact absurd (Expr.mem_markers e.rhs _ hmarker) hname

/-- **Hoisting keeps the decreasing parameters.** Take a recursive component without pragmas that
has constant parameters. Where it has functions that are named like the markers `undefined` and
`error`, let them be called: a marker refers to such a function without a call. The inner functions
have decreasing parameters if and only if the functions have, and these are the same parameters,
counted without the constant ones before them. -/
theorem hoisting_keeps_decreasing {all decls : List FuncDecl}
    (hcomponent : .recursive decls ∈ Dependency.components all)
    (hsome : constantPositions decls ≠ []) (hdistinct : (decls.map FuncDecl.name).Nodup)
    (hparams : ∀ d ∈ decls, d.paramNames.Nodup)
    (hnames : ∀ d ∈ decls, ∀ n ∈ d.names, n.isMarked = false)
    (hmarkers : ∀ d ∈ decls, d.name = Expr.undefinedKey ∨ d.name = Expr.errorKey →
      ∃ call ∈ groupCalls decls, call.callee = d.name) (σ : Session) :
    ∃ plan, Hoist.plan? decls (constantPositions decls) σ = some plan ∧
      ∀ env env' : Environment, (∀ d ∈ decls, env.pragmas.get? d.name = none) →
        (∀ d ∈ decls, env'.pragmas.get? (plan.reduce d).name = none) →
        ∀ inner, Decreasing.choose env' (decls.map plan.reduce) = .ok inner ↔
          ∃ chosen, Decreasing.choose env decls = .ok chosen ∧
            inner = chosen.map fun k => k - ((constantPositions decls).filter (· < k)).length := by
  have hgroup : GroupScoped σ.counters (outerNames decls) (fun _ => True) decls :=
    .of_unmarked hdistinct hparams hnames fun _ _ _ _ => trivial
  -- in a recursive component every function is called, unless its name is that of a marker
  have hcalled : ∀ d ∈ decls, ∃ call ∈ groupCalls decls, call.callee = d.name := fun d hd =>
    (em _).elim (hmarkers d hd) (exists_call_of_recursive hcomponent hd)
  obtain ⟨plan, entries, c', hplan, hpositions, hplanFor, _⟩ := Hoist.exists_plan (σ := σ) hsome
  refine ⟨plan, hplan, fun env env' hpragmas hpragmas' => ?_⟩
  rw [← hpositions]
  exact hplanFor.choose_eq_ok_iff hgroup hpositions hpragmas hpragmas' hcalled

/-- Two functions of a list that call each other and share `k`. One is named like a marker. -/
def passOn : List FuncDecl :=
  let function (name other first : Name) : FuncDecl :=
    { name, params := [{ name := first }, { name := "k" }, { name := "xs" }]
      rhs :=
        .case {} (.var {} "xs")
          [(.con "Nil" [], .var {} "k"), (.con "Cons" [{ name := "y" }, { name := "ys" }],
        .app {} (.app {} (.app {} (.var {} other) (.var {} "y")) (.var {} "k")) (.var {} "ys"))] }
  [function "f" "error" "a", function "error" "f" "b"]

/-- Two functions that pass on their second argument and recurse on the third. -/
theorem passOn_keeps_decreasing :
    constantPositions passOn = [1] ∧ Decreasing.choose {} passOn = .ok [2, 2] ∧
      ∃ plan, Hoist.plan? passOn (constantPositions passOn) {} = some plan ∧
        Decreasing.choose {} (passOn.map plan.reduce) = .ok [1, 1] := by
  have hconstant : constantPositions passOn = [1] := by decide +kernel
  have hchoose : Decreasing.choose {} passOn = .ok [2, 2] := by decide +kernel
  have hcomponents : Dependency.components passOn = [.recursive passOn] := by rfl
  have hcomponent : .recursive passOn ∈ Dependency.components passOn :=
    hcomponents ▸ List.mem_singleton.mpr rfl
  obtain ⟨plan, hplan, hiff⟩ := hoisting_keeps_decreasing hcomponent
    (by rw [hconstant]; decide) (by decide) (by decide) (by decide) (by decide +kernel) {}
  refine ⟨hconstant, hchoose, plan, hplan,
    (hiff {} {} (fun _ _ => rfl) (fun _ _ => rfl) [1, 1]).mpr ⟨[2, 2], hchoose, ?_⟩⟩
  rw [hconstant]
  rfl

/-- Two functions that refer to each other by markers, without a call. -/
def uncalled : List FuncDecl :=
  [{ name := "undefined", params := [{ name := "x" }, { name := "y" }], rhs := .error {} "boom" },
   { name := "error", params := [{ name := "x" }, { name := "z" }], rhs := .undefined {} }]

/-- There are two parameters to choose from for each function, and only one for its inner
function. -/
theorem uncalled_not_keeps_decreasing :
    .recursive uncalled ∈ Dependency.components uncalled ∧ constantPositions uncalled ≠ [] ∧
      (uncalled.map FuncDecl.name).Nodup ∧ (∀ d ∈ uncalled, d.paramNames.Nodup) ∧
      (∀ d ∈ uncalled, ∀ n ∈ d.names, n.isMarked = false) ∧
      (¬ ∃ chosen, Decreasing.choose {} uncalled = .ok chosen) ∧
      ∃ plan, Hoist.plan? uncalled (constantPositions uncalled) {} = some plan ∧
        Decreasing.choose {} (uncalled.map plan.reduce) = .ok [0, 0] := by
  have hcomponents : Dependency.components uncalled = [.recursive uncalled] := by rfl
  have herror : (Decreasing.choose {} uncalled).toOption = none := by decide +kernel
  refine ⟨hcomponents ▸ List.mem_singleton.mpr rfl,
    by decide +kernel, by decide, by decide, by decide, ?_, _, rfl, by decide +kernel⟩
  rintro ⟨chosen, hchosen⟩
  rw [hchosen] at herror
  cases herror

end StructRec
