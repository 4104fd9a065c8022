import StructRec.Proofs.DefinitionOrder
import StructRec.Proofs.UniqueChoice

/-!
# StructRec — calls stand in the cases on the decreasing parameter

A variable is known to be a strict part of a parameter only inside of a `case` on that parameter. So
if every call of a function passes a strict part of the decreasing parameter, then all calls stand
in cases that become helpers, and the main function refers to no function of the group.

Main functions that do not refer to each other can be inlined, in whatever order they come. A group
of functions that give each other their types is therefore split without an error once a valid
choice is found.
-/

namespace StructRec

/-! ## Outside of the cases -/

/-- Nothing is known of a value with respect to this parameter. -/
def Origin.Apart (own : Nat) (o : Origin) : Prop := o ≠ .equal own ∧ o ≠ .smaller own

theorem Origin.apart_unknown (own : Nat) : Apart own .unknown :=
  ⟨Origin.noConfusion, Origin.noConfusion⟩

theorem Origin.eq_smaller_of_smaller {o : Origin} {own : Nat} (h : o.smaller? = some own) :
    o = .smaller own := by
  cases o with
  | smaller k => exact congrArg smaller (Option.some.inj h)
  | _ => cases h

/-- Patterns of another value bind nothing smaller than the own argument. -/
theorem Origin.Apart.pattern {own : Nat} {o : Origin} (h : o.Apart own) (pattern : Pattern) :
    (pattern.origin o).Apart own := by
  cases pattern with
  | var b | lit value | wildcard => exact h
  | con name vars =>
    cases o with
    | unknown => exact h
    -- the fields of a parameter are parts of that parameter only
    | equal k =>
      exact ⟨Origin.noConfusion, fun heq => h.1 (congrArg Origin.equal (Origin.smaller.inj heq))⟩
    | smaller k => exact h

/-- Only of a variable something is known. -/
theorem Origins.lookup_of_eq {o : Origins} {e : Expr} {origin : Origin} (h : o.of e = origin)
    (hknown : origin ≠ .unknown) : ∃ n, e.asVar? = some n ∧ o.lookup n = some origin := by
  cases e with
  | var note n =>
    refine ⟨n, rfl, ?_⟩
    rw [Origins.of] at h
    cases hlookup : o.lookup n with
    | none =>
      rw [hlookup] at h
      exact absurd h.symm hknown
    | some found =>
      rw [hlookup] at h
      exact congrArg some h
  | _ => exact absurd h.symm hknown

/-- Outside of the cases on the parameter `x`, where some names are hidden: no variable but `x` has
its value, and none is a strict part of it. -/
structure Origins.Outside (own : Nat) (x : Name) (hidden : List Name) (o : Origins) : Prop where
  whole : ∀ n, o.lookup n = some (.equal own) → n = x ∧ x ∉ hidden
  part : ∀ n, o.lookup n ≠ some (.smaller own)

namespace Origins.Outside

variable {own : Nat} {x : Name} {hidden : List Name} {o : Origins}

/-- At first only the parameter itself is the decreasing argument. -/
theorem ofParams {params : List Binder} {b : Binder} (h : params[own]? = some b) :
    (Origins.ofParams params).Outside own b.name [] := by
  refine ⟨fun n hn => ⟨?_, List.not_mem_nil⟩, fun n hn => ?_⟩
  · obtain ⟨k, hk, hequal⟩ := Origins.exists_of_lookup_ofParams hn
    obtain rfl := Origin.equal.inj hequal
    rw [binderNames, List.getElem?_map, h] at hk
    exact (Option.some.inj hk).symm
  · obtain ⟨_, _, hequal⟩ := Origins.exists_of_lookup_ofParams hn
    cases hequal

/-- Under binders of which nothing is known with respect to the parameter. -/
theorem enter (h : o.Outside own x hidden) (names : List Name) {origin : Origin}
    (horigin : origin.Apart own) :
    Outside own x (names ++ hidden) (ScopeStack.enter o (names.map (·, origin))) := by
  refine ⟨fun n hn => ?_, fun n hn => ?_⟩
  · rw [ScopeStack.lookup_enter] at hn
    split at hn
    next => exact absurd (Option.some.inj hn) horigin.1
    next hother =>
      -- the name is not bound here, so the parameter is not hidden
      obtain ⟨rfl, hfree⟩ := h.whole n hn
      exact ⟨rfl, List.not_mem_append hother hfree⟩
  · rw [ScopeStack.lookup_enter] at hn
    split at hn
    next => exact absurd (Option.some.inj hn) horigin.2
    next => exact h.part n hn

theorem enterBinders (h : o.Outside own x hidden) (vars : List Binder) :
    (o.enterBinders vars).Outside own x (binderNames vars ++ hidden) := by
  rw [Origins.enterBinders_eq]
  exact h.enter _ (Origin.apart_unknown own)

theorem enterPattern (h : o.Outside own x hidden) {scrutinee : Origin}
    (hscrutinee : scrutinee.Apart own) (pattern : Pattern) :
    (o.enterPattern scrutinee pattern).Outside own x (pattern.names ++ hidden) := by
  rw [Origins.enterPattern_eq]
  exact h.enter _ (hscrutinee.pattern pattern)

/-- Outside of its cases nothing is smaller than the argument. -/
theorem of_ne_smaller (h : o.Outside own x hidden) (e : Expr) : o.of e ≠ .smaller own := by
  intro hof
  obtain ⟨n, _, hlookup⟩ := Origins.lookup_of_eq hof Origin.noConfusion
  exact h.part n hlookup

/-- The scrutinee of any other case. -/
theorem of_apart (h : o.Outside own x hidden) {e : Expr} (he : ¬ (e.asVar? = some x ∧ x ∉ hidden)) :
    (o.of e).Apart own := by
  refine ⟨fun hof => ?_, h.of_ne_smaller e⟩
  obtain ⟨n, hvar, hlookup⟩ := Origins.lookup_of_eq hof Origin.noConfusion
  obtain ⟨rfl, hfree⟩ := h.whole n hlookup
  exact he ⟨hvar, hfree⟩

end Origins.Outside

/-! ## References outside of the cases -/

namespace FuncDecl

variable {d : FuncDecl} {group : List Name} {own : Nat} {x : Name}

/-- A strict part of the parameter is passed. -/
def PassesPart (own : Nat) (call : CallSite) : Prop := ∃ arg ∈ call.args, arg.smallerThan = some own

theorem passesPart_of_decreases {call : CallSite} {position : Nat}
    (h : call.decreases position own = true) : PassesPart own call := by
  rw [CallSite.decreases, Option.any_eq_true] at h
  obtain ⟨arg, hget, hpart⟩ := h
  exact ⟨arg, List.mem_of_getElem? hget, of_decide_eq_true hpart⟩

/-- What is bound around is not a reference to the group. -/
theorem isDefined_under {o : Origins} {names occs : List Name} {origin : Origin}
    (h : ∀ n ∈ occs, n ∈ group →
      ScopeStack.isDefined (ScopeStack.enter o (names.map (·, origin))) n = true) :
    ∀ n ∈ occs.filter (· ∉ names), n ∈ group → o.isDefined n = true := by
  intro n hn hgroup
  obtain ⟨hmem, hfree⟩ := List.mem_filter.mp hn
  have hdefined := h n hmem hgroup
  rwa [ScopeStack.isDefined_enter_map, decide_eq_false (of_decide_eq_true hfree),
    Bool.false_or] at hdefined

mutual

/-- **No call stands outside of the cases.** By induction on the expression, with the values that it
is applied to. -/
theorem isDefined_of_mem_outsideOccs :
    (e : Expr) → {args : List Expr} → {o : Origins} → {hidden : List Name} →
      o.Outside own x hidden →
      (∀ call ∈ d.callsIn group o e args, PassesPart own call) →
        ∀ n ∈ e.outsideOccs x hidden, n ∈ group → o.isDefined n = true
  | .var _ name, args, o, _, ho, hcalls => by
    intro n hn hgroup
    obtain rfl := List.mem_singleton.mp hn
    by_contra hfree
    rw [Bool.not_eq_true] at hfree
    rw [callsIn, if_pos (by simp [hgroup, hfree])] at hcalls
    -- a call has an argument that is a strict part, and no expression is one here
    obtain ⟨arg, harg, hpart⟩ := hcalls _ (List.mem_singleton.mpr rfl)
    obtain ⟨e, _, rfl⟩ := List.mem_map.mp harg
    exact ho.of_ne_smaller e (Origin.eq_smaller_of_smaller hpart)
  | .con .., _, _, _, _, _ | .intLit .., _, _, _, _, _ | .undefined _, _, _, _, _, _
  | .error .., _, _, _, _, _ =>
    fun _ hn => absurd hn List.not_mem_nil
  | .app _ fn arg, _, _, _, ho, hcalls => by
    obtain ⟨hfn, harg⟩ := List.forall_mem_append.mp hcalls
    exact List.forall_mem_append.mpr
      ⟨isDefined_of_mem_outsideOccs fn ho hfn, isDefined_of_mem_outsideOccs arg ho harg⟩
  | .typeApp _ fn _, _, _, _, ho, hcalls => isDefined_of_mem_outsideOccs fn ho hcalls
  | .cond _ test thenBranch elseBranch, _, _, _, ho, hcalls => by
    obtain ⟨hfirst, helse⟩ := List.forall_mem_append.mp hcalls
    obtain ⟨htest, hthen⟩ := List.forall_mem_append.mp hfirst
    exact List.forall_mem_append.mpr
      ⟨List.forall_mem_append.mpr ⟨isDefined_of_mem_outsideOccs test ho htest,
      isDefined_of_mem_outsideOccs thenBranch ho hthen⟩,
        isDefined_of_mem_outsideOccs elseBranch ho helse⟩
  | .case _ scrutinee alts, _, _, hidden, ho, hcalls => by
    rw [Expr.outsideOccs]
    split
    next => exact List.forall_mem_nil _
    next hother =>
      -- a case on anything else makes no parts of the parameter known
      obtain ⟨hscrutinee, halts⟩ := List.forall_mem_append.mp hcalls
      exact List.forall_mem_append.mpr ⟨isDefined_of_mem_outsideOccs scrutinee ho hscrutinee,
        isDefined_of_mem_outsideOccsAlts alts ho (ho.of_apart hother) halts⟩
  | .lam _ params body, _, o, _, ho, hcalls => by
    have hbody := isDefined_of_mem_outsideOccs body (ho.enterBinders params) hcalls
    rw [Origins.enterBinders_eq] at hbody
    exact isDefined_under hbody
  | .letRec _ binds body, _, _, _, ho, hcalls => by
    obtain ⟨hbinds, hbody⟩ := List.forall_mem_append.mp hcalls
    have hinside := List.forall_mem_append.mpr
      ⟨isDefined_of_mem_outsideOccsRhss binds (ho.enterBinders (Binds.binders binds)) hbinds,
        isDefined_of_mem_outsideOccs body (ho.enterBinders (Binds.binders binds)) hbody⟩
    rw [Origins.enterBinders_eq] at hinside
    exact isDefined_under hinside

theorem isDefined_of_mem_outsideOccsAlts :
    (alts : Alts) → {o : Origins} → {scrutinee : Origin} → {hidden : List Name} →
      o.Outside own x hidden →
      scrutinee.Apart own → (∀ call ∈ d.callsInAlts group o scrutinee alts, PassesPart own call) →
        ∀ n ∈ Expr.outsideOccsAlts x hidden alts, n ∈ group → o.isDefined n = true
  | [], _, _, _, _, _, _ => List.forall_mem_nil _
  | (pattern, rhs) :: rest, _, _, _, ho, hscrutinee, hcalls => by
    obtain ⟨hrhs, hrest⟩ := List.forall_mem_append.mp hcalls
    have hrhs' := isDefined_of_mem_outsideOccs rhs (ho.enterPattern hscrutinee pattern) hrhs
    rw [Origins.enterPattern_eq] at hrhs'
    exact List.forall_mem_append.mpr
      ⟨isDefined_under hrhs', isDefined_of_mem_outsideOccsAlts rest ho hscrutinee hrest⟩

theorem isDefined_of_mem_outsideOccsRhss :
    (binds : Binds) → {o : Origins} → {hidden : List Name} → o.Outside own x hidden →
      (∀ call ∈ d.callsInRhss group o binds, PassesPart own call) →
        ∀ n ∈ Expr.outsideOccsRhss x hidden binds, n ∈ group → o.isDefined n = true
  | [], _, _, _, _ => List.forall_mem_nil _
  | (_, rhs) :: rest, _, _, ho, hcalls => by
    obtain ⟨hrhs, hrest⟩ := List.forall_mem_append.mp hcalls
    exact List.forall_mem_append.mpr ⟨isDefined_of_mem_outsideOccs rhs ho hrhs,
      isDefined_of_mem_outsideOccsRhss rest ho hrest⟩

end

/-- **A main function refers to no function of the group**, if every call passes a strict part of
the parameter. -/
theorem notMem_outerVars (h : ∀ call ∈ d.calls group, PassesPart own call) {n : Name}
    (hn : n ∈ d.outerVars own) : n ∉ group := by
  intro hgroup
  unfold outerVars at hn
  split at hn
  next => cases hn
  next b hb =>
    split at hn
    next =>
      obtain ⟨hmem, hfree⟩ := List.mem_filter.mp hn
      have hdefined := isDefined_of_mem_outsideOccs d.rhs (.ofParams hb) h n hmem hgroup
      rw [Origins.isDefined_ofParams] at hdefined
      exact of_decide_eq_true hfree (of_decide_eq_true hdefined)
    next => cases hn

end FuncDecl

/-! ## Groups with a valid choice -/

namespace Split

variable {decls : List FuncDecl} {positions : List Nat} {σ : Session}

/-- The session of the split goes on, with the environment in which the helpers are registered. -/
theorem pragmas_of_toSentences (hpositions : List.Forall₂ (fun d i => i < d.arity) decls positions)
    {sentences : List Sentence} {σ' : Session}
    (h : toSentences decls positions σ = .ok sentences σ') : σ'.env.pragmas = σ.env.pragmas := by
  obtain @⟨helpers, mains, inlined, bodies, σ₁, σ₂, hsplit, hinline, hbodies⟩ := toSentences_ok.mp h
  obtain ⟨_, _, _, hsplit', hkept, _⟩ :=
    splitAll_remainder (fun p hp => (List.forall₂_iff_zip.mp hpositions).2 hp) σ
  obtain ⟨_, rfl⟩ := EStateM.Result.ok.inj (hsplit'.symm.trans hsplit)
  exact (pragmas_markDecreasing bodies mains _).trans hkept

/-- **A group with a valid choice is split without an error.** -/
theorem Ready.succeeds_of_valid (h : Ready σ.counters decls positions)
    (hvalid : Decreasing.isValid (decls.map FuncDecl.name) (groupCalls decls) positions = true) :
    ∃ sentences σ', toSentences decls positions σ = .ok sentences σ' ∧
      σ'.env.pragmas = σ.env.pragmas := by
  have hdecreases := (Decreasing.isValid_iff h.nodup h.positions.length_eq).mp hvalid
  have hback : RefersBack (outerReferences decls positions) := by
    refine Hoist.refersBack_of_disjoint (List.forall_mem_map.mpr fun p hp n hn hmem => ?_)
    rw [outerReferences, List.map_map] at hn
    change n ∈ (decls.zip positions).map (·.1.name) at hn
    rw [h.map_zip] at hn
    refine FuncDecl.notMem_outerVars (fun call hcall => ?_) hmem hn
    -- validity looks at the callee too, which is a function of the group
    obtain ⟨hcaller, hcallee⟩ := FuncDecl.mem_callsIn p.1 _ _ p.1.rhs [] hcall
    rw [← h.map_zip] at hcallee
    obtain ⟨q, hq, hname⟩ := List.mem_map.mp hcallee
    exact FuncDecl.passesPart_of_decreases (hdecreases p hp q hq call
      (List.mem_flatMap.mpr ⟨p.1, (List.of_mem_zip hp).1, hcall⟩) hcaller hname.symm)
  obtain ⟨sentences, σ', hrun, _⟩ := (toSentences_inOrder_iff h [] [] (fun _ _ => List.not_mem_nil)
    (List.forall_mem_nil _) fun _ _ _ _ hlater => absurd hlater List.not_mem_nil).mpr hback
  exact ⟨sentences, σ', hrun, pragmas_of_toSentences h.positions hrun⟩

end Split

end StructRec
