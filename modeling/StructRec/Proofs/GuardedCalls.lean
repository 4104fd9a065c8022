import StructRec.Call.Site
import StructRec.Proofs.Guardedness
import StructRec.Proofs.Scopes

/-!
# StructRec — guarded expressions and call sites

The call sites of a function record what its arguments are known to be, for all parameters at once.
A view follows one parameter, the decreasing one. The two agree where every variable is what its
origin says; there a scoped expression is guarded exactly if each of its call sites decreases
(**`guarded_iff_calls_decrease`**).

So guardedness is a sound and complete reading of the call sites: it can be taken from the analysis
of a source function, and it gives the analysis of the function that was made of it.
-/

namespace StructRec

/-! ## Scoped expressions -/

namespace Expr

mutual

/-- The names bound inside an expression, in reading order. -/
def boundNames : Expr → List Name
  | var _ _ | con _ _ | intLit _ _ | undefined _ | error _ _ => []
  | app _ fn arg => fn.boundNames ++ arg.boundNames
  | typeApp _ fn _ => fn.boundNames
  | cond _ test thenBranch elseBranch =>
    test.boundNames ++ (thenBranch.boundNames ++ elseBranch.boundNames)
  | case _ scrutinee alts => scrutinee.boundNames ++ boundNamesAlts alts
  | lam _ params body => binderNames params ++ body.boundNames
  | letRec _ binds body => Binds.names binds ++ (boundNamesRhss binds ++ body.boundNames)

def boundNamesAlts : Alts → List Name
  | [] => []
  | (pattern, rhs) :: rest => (pattern.names ++ rhs.boundNames) ++ boundNamesAlts rest

def boundNamesRhss : Binds → List Name
  | [] => []
  | (_, rhs) :: rest => rhs.boundNames ++ boundNamesRhss rest

end

end Expr

/-- Free variables are in scope, markers are admitted and bound names are settled. -/
structure Scoped (c : Counters) (v : View) (free markers bound : List Name) : Prop where
  free : ∀ n ∈ free, ∃ k, v.facts n = some k
  markers : ∀ m ∈ markers, v.markers m
  bound : ∀ n ∈ bound, c.Settled n

namespace Scoped

variable {c : Counters} {v : View} {free free' markers markers' bound bound' names : List Name}

/-- Parts of an expression share their scope. -/
theorem append_iff :
    Scoped c v (free ++ free') (markers ++ markers') (bound ++ bound') ↔
      Scoped c v free markers bound ∧ Scoped c v free' markers' bound' := by
  constructor
  · intro h
    exact ⟨⟨fun n hn => h.free n (List.mem_append_left _ hn),
        fun m hm => h.markers m (List.mem_append_left _ hm),
        fun n hn => h.bound n (List.mem_append_left _ hn)⟩,
      ⟨fun n hn => h.free n (List.mem_append_right _ hn),
        fun m hm => h.markers m (List.mem_append_right _ hm),
        fun n hn => h.bound n (List.mem_append_right _ hn)⟩⟩
  · rintro ⟨h, h'⟩
    exact ⟨fun n hn => (List.mem_append.mp hn).elim (h.free n) (h'.free n),
      fun m hm => (List.mem_append.mp hm).elim (h.markers m) (h'.markers m),
      fun n hn => (List.mem_append.mp hn).elim (h.bound n) (h'.bound n)⟩

/-- Under binders, the bound names are in scope and have to be settled. -/
theorem bindAll_iff (size : Size) :
    Scoped c v (free.filter (· ∉ names)) markers (names ++ bound) ↔
      (∀ n ∈ names, c.Settled n) ∧ Scoped c (v.bindAll names size) free markers bound := by
  constructor
  · intro h
    refine ⟨fun n hn => h.bound n (List.mem_append_left _ hn), fun n hn => ?_, h.markers,
      fun n hn => h.bound n (List.mem_append_right _ hn)⟩
    by_cases hbound : n ∈ names
    · exact ⟨.value size, if_pos hbound⟩
    · rw [View.facts_bindAll, if_neg hbound]
      exact h.free n (List.mem_filter.mpr ⟨hn, decide_eq_true hbound⟩)
  · rintro ⟨hnames, h⟩
    refine ⟨fun n hn => ?_, h.markers,
      fun n hn => (List.mem_append.mp hn).elim (hnames n) (h.bound n)⟩
    obtain ⟨hn, hbound⟩ := List.mem_filter.mp hn
    have hfree := h.free n hn
    rwa [View.facts_bindAll, if_neg (of_decide_eq_true hbound)] at hfree

theorem nil : Scoped c v [] [] [] := ⟨nofun, nofun, nofun⟩

end Scoped

mutual

/-- A guarded expression is scoped. -/
theorem Guarded.scoped {c : Counters} {v : View} :
    (e : Expr) → {args : List Size} → Guarded c v e args →
      Scoped c v e.freeOccs e.markers e.boundNames
  | .var _ n, _, ⟨k, hk, _⟩ => ⟨fun _ hm => ⟨k, List.mem_singleton.mp hm ▸ hk⟩, nofun, nofun⟩
  | .con .., _, _ | .intLit .., _, _ => .nil
  | .undefined _, _, h | .error .., _, h => ⟨nofun, fun _ hm => List.mem_singleton.mp hm ▸ h, nofun⟩
  | .app _ fn arg, _, h => Scoped.append_iff.mpr ⟨h.1.scoped fn, h.2.scoped arg⟩
  | .typeApp _ fn _, _, h => Guarded.scoped fn h
  | .cond _ test thenBranch elseBranch, _, h => by
    rw [Expr.freeOccs, Expr.markers, List.append_assoc, List.append_assoc]
    exact Scoped.append_iff.mpr ⟨h.1.scoped test,
      Scoped.append_iff.mpr ⟨h.2.1.scoped thenBranch, h.2.2.scoped elseBranch⟩⟩
  | .case _ scrutinee alts, _, h => Scoped.append_iff.mpr ⟨h.1.scoped scrutinee, h.2.scoped alts⟩
  | .lam _ _ body, _, h => (Scoped.bindAll_iff .any).mpr ⟨h.1, h.2.scoped body⟩
  | .letRec _ binds body, _, h =>
    (Scoped.bindAll_iff .any).mpr
      ⟨h.1, Scoped.append_iff.mpr ⟨h.2.1.scoped binds, h.2.2.scoped body⟩⟩

theorem GuardedAlts.scoped {c : Counters} {v : View} {size : Size} :
    (alts : Alts) → GuardedAlts c v size alts →
      Scoped c v (Expr.freeOccsAlts alts) (Expr.markersAlts alts) (Expr.boundNamesAlts alts)
  | [], _ => .nil
  | (_, rhs) :: rest, h =>
    Scoped.append_iff.mpr ⟨(Scoped.bindAll_iff _).mpr ⟨h.1, h.2.1.scoped rhs⟩, h.2.2.scoped rest⟩

theorem GuardedRhss.scoped {c : Counters} {v : View} :
    (binds : Binds) → GuardedRhss c v binds →
      Scoped c v (Expr.freeOccsRhss binds) (Expr.markersRhss binds) (Expr.boundNamesRhss binds)
  | [], _ => .nil
  | (_, rhs) :: rest, h => Scoped.append_iff.mpr ⟨h.1.scoped rhs, h.2.scoped rest⟩

end

/-! ## Origins and views -/

/-- What an origin says of a value, compared to the parameter at a position. -/
def Origin.sizeAt (own : Nat) : Origin → Size
  | unknown => .any
  | equal param => if param = own then .whole else .any
  | smaller param => if param = own then .part else .any

theorem Origin.sizeAt_field (own : Nat) (o : Origin) :
    o.field.sizeAt own = (o.sizeAt own).field := by
  cases o with
  | unknown => rfl
  | equal param | smaller param =>
    by_cases h : param = own <;> simp [field, sizeAt, h, Size.field]

/-- Only what is smaller than the own argument counts as a part of it. -/
theorem Origin.sizeAt_eq_part_iff (own : Nat) (o : Origin) :
    o.sizeAt own = .part ↔ o.smaller? = some own := by
  cases o with
  | unknown => simp [sizeAt, smaller?]
  | equal param => by_cases h : param = own <;> simp [sizeAt, smaller?, h]
  | smaller param => by_cases h : param = own <;> simp [sizeAt, smaller?, h]

/-- A view that follows the parameter at position `own` knows of every local variable what its
origin says, of the functions of the group the positions to decrease at, and nothing of other
names. -/
structure View.Agrees (v : View) (group : List Name) (position : Name → Nat) (own : Nat)
    (o : Origins) : Prop where
  bound : ∀ n origin, o.lookup n = some origin → v.facts n = some (.value (origin.sizeAt own))
  called : ∀ n, o.lookup n = none → n ∈ group → v.facts n = some (.callee (position n))
  free : ∀ n, o.lookup n = none → n ∉ group → ∀ k, v.facts n = some k → k = .value .any

namespace View.Agrees

variable {v : View} {group : List Name} {position : Name → Nat} {own : Nat} {o : Origins}

/-- A binding keeps the view in agreement with the origins. -/
theorem bind (h : v.Agrees group position own o) (n : Name) (origin : Origin) :
    (v.bind n (origin.sizeAt own)).Agrees group position own (o.bind n origin) := by
  have hne : ∀ m, (o.bind n origin).lookup m = none → m ≠ n ∧ o.lookup m = none := by
    intro m hm
    rw [ScopeStack.lookup_bind] at hm
    split at hm
    · cases hm
    · next hne => exact ⟨Ne.symm hne, hm⟩
  refine ⟨fun m origin' hm => ?_, fun m hm hgroup => ?_, fun m hm hgroup k hk => ?_⟩
  · rw [ScopeStack.lookup_bind] at hm
    by_cases hmn : n = m
    · rw [if_pos hmn, Option.some.injEq] at hm
      exact hm ▸ if_pos hmn.symm
    · rw [if_neg hmn] at hm
      exact (if_neg (Ne.symm hmn)).trans (h.bound m origin' hm)
  · obtain ⟨hmn, hm⟩ := hne m hm
    exact (if_neg hmn).trans (h.called m hm hgroup)
  · obtain ⟨hmn, hm⟩ := hne m hm
    exact h.free m hm hgroup k ((if_neg hmn).symm.trans hk)

theorem binds (h : v.Agrees group position own o) (bindings : List (Name × Origin)) :
    (v.binds (bindings.map fun b => (b.1, b.2.sizeAt own))).Agrees group position own
      (o.bindAll bindings) := by
  induction bindings generalizing v o with
  | nil => exact h
  | cons binding rest ih => exact ih (h.bind binding.1 binding.2)

theorem push (h : v.Agrees group position own o) : v.Agrees group position own o.push :=
  ⟨h.bound, h.called, h.free⟩

/-- Under binders of one origin. -/
theorem enter (h : v.Agrees group position own o) (binders : List Binder) (origin : Origin) :
    (v.bindAll (binderNames binders) (origin.sizeAt own)).Agrees group position own
      (o.enter (binders.map fun b => (b.name, origin))) := by
  have hbinds := h.push.binds (binders.map fun b => (b.name, origin))
  have heq : (binders.map fun b => (b.name, origin)).map (fun b => (b.1, b.2.sizeAt own))
      = (binderNames binders).map (·, origin.sizeAt own) := by
    simp [binderNames, Function.comp_def]
  rw [heq, View.binds_uniform] at hbinds
  exact hbinds

theorem enterPattern (h : v.Agrees group position own o) (origin : Origin) (p : Pattern) :
    (v.bindAll p.names (p.size (origin.sizeAt own))).Agrees group position own
      (o.enterPattern origin p) := by
  cases p with
  | con name vars =>
    have henter := h.enter vars origin.field
    rwa [Origin.sizeAt_field] at henter
  | var b => exact h.enter [b] origin
  | lit value => exact h.enter [] origin
  | wildcard => exact h.enter [] origin

/-- An argument is of the size that its origin says. -/
theorem sizeOf_eq (h : v.Agrees group position own o) (e : Expr) :
    v.sizeOf e = (o.of e).sizeAt own := by
  cases e with
  | var note n =>
    rw [View.sizeOf_var, Origins.of]
    cases hlookup : o.lookup n with
    | some origin => rw [h.bound n origin hlookup]; rfl
    | none =>
      by_cases hgroup : n ∈ group
      · rw [h.called n hlookup hgroup]; rfl
      · cases hk : v.facts n with
        | none => rfl
        | some k => rw [h.free n hlookup hgroup k hk]; rfl
  | _ => rfl

end View.Agrees

/-! ## Guarded is decreasing -/

section calls

variable {d : FuncDecl} {group : List Name} {position : Name → Nat} {own : Nat} {c : Counters}

/-- The argument that a call passes at the callee's position is a strict part. -/
theorem decreases_iff {v : View} {o : Origins} (h : v.Agrees group position own o) (callee : Name)
    (args : List Expr) (i : Nat) :
    CallSite.decreases { caller := d.name, callee, args := args.map (d.callArg o) } i own = true ↔
      (args.map v.sizeOf)[i]? = some .part := by
  rw [CallSite.decreases, List.getElem?_map, List.getElem?_map]
  cases args[i]? with
  | none => simp
  | some arg => simp [FuncDecl.callArg, h.sizeOf_eq, Origin.sizeAt_eq_part_iff]

mutual

/-- **A scoped expression is guarded exactly if its call sites decrease.** -/
theorem guarded_iff_calls_decrease {v : View} {o : Origins} (h : v.Agrees group position own o) :
    (e : Expr) → (args : List Expr) → Scoped c v e.freeOccs e.markers e.boundNames →
      (Guarded c v e (args.map v.sizeOf) ↔
        ∀ call ∈ d.callsIn group o e args, call.decreases (position call.callee) own = true)
  | .var _ n, args, hscoped => by
    obtain ⟨k, hk⟩ := hscoped.free n (List.mem_singleton.mpr rfl)
    rw [Guarded, FuncDecl.callsIn, ScopeStack.isDefined_eq_isSome]
    cases hlookup : o.lookup n with
    -- a local name is no call
    | some origin =>
      have hfacts := h.bound n origin hlookup
      simp [hfacts, Known.Admits]
    | none =>
      by_cases hgroup : n ∈ group
      · -- a call by its name: the view demands what `decreases` checks
        have hfacts := h.called n hlookup hgroup
        simp [hfacts, hgroup, Known.Admits, decreases_iff h]
      · obtain rfl := h.free n hlookup hgroup k hk
        simp [hk, hgroup, Known.Admits]
  | .con .., _, _ | .intLit .., _, _ => by simp [Guarded, FuncDecl.callsIn]
  | .undefined _, _, hscoped | .error .., _, hscoped => by
    simpa [Guarded, FuncDecl.callsIn] using hscoped.markers _ (List.mem_singleton.mpr rfl)
  -- the argument is passed on, so that the call at the head sees all of them
  | .app _ fn arg, args, hscoped => by
    obtain ⟨hfn, harg⟩ := Scoped.append_iff.mp hscoped
    rw [Guarded, FuncDecl.callsIn, List.forall_mem_append]
    exact and_congr (guarded_iff_calls_decrease h fn (arg :: args) hfn)
      (guarded_iff_calls_decrease h arg [] harg)
  | .typeApp _ fn _, args, hscoped => guarded_iff_calls_decrease h fn args hscoped
  | .cond _ test thenBranch elseBranch, _, hscoped => by
    rw [Expr.freeOccs, Expr.markers, List.append_assoc, List.append_assoc] at hscoped
    obtain ⟨htest, hbranches⟩ := Scoped.append_iff.mp hscoped
    obtain ⟨hthen, helse⟩ := Scoped.append_iff.mp hbranches
    rw [Guarded, FuncDecl.callsIn, List.append_assoc, List.forall_mem_append,
      List.forall_mem_append]
    exact and_congr (guarded_iff_calls_decrease h test [] htest)
      (and_congr (guarded_iff_calls_decrease h thenBranch [] hthen)
        (guarded_iff_calls_decrease h elseBranch [] helse))
  | .case _ scrutinee alts, _, hscoped => by
    obtain ⟨hscrutinee, halts⟩ := Scoped.append_iff.mp hscoped
    rw [Guarded, FuncDecl.callsIn, List.forall_mem_append, h.sizeOf_eq]
    exact and_congr (guarded_iff_calls_decrease h scrutinee [] hscrutinee)
      (guardedAlts_iff_calls_decrease h (o.of scrutinee) alts halts)
  | .lam _ params body, _, hscoped => by
    obtain ⟨hnames, hbody⟩ := (Scoped.bindAll_iff .any).mp hscoped
    rw [Guarded, FuncDecl.callsIn, and_iff_right hnames]
    exact guarded_iff_calls_decrease (h.enter params .unknown) body [] hbody
  -- bindings and body are read under all the binders
  | .letRec _ binds body, _, hscoped => by
    obtain ⟨hnames, hinner⟩ := (Scoped.bindAll_iff .any).mp hscoped
    obtain ⟨hbinds, hbody⟩ := Scoped.append_iff.mp hinner
    have hagrees := h.enter (Binds.binders binds) .unknown
    rw [Guarded, FuncDecl.callsIn, and_iff_right hnames, List.forall_mem_append]
    exact and_congr (guardedRhss_iff_calls_decrease hagrees binds hbinds)
      (guarded_iff_calls_decrease hagrees body [] hbody)

/-- Alternatives, with what their patterns say of the scrutinee. -/
theorem guardedAlts_iff_calls_decrease {v : View} {o : Origins} (h : v.Agrees group position own o)
    (scrutinee : Origin) :
    (alts : Alts) → Scoped c v (Expr.freeOccsAlts alts) (Expr.markersAlts alts)
      (Expr.boundNamesAlts alts) →
      (GuardedAlts c v (scrutinee.sizeAt own) alts ↔
        ∀ call ∈ d.callsInAlts group o scrutinee alts,
          call.decreases (position call.callee) own = true)
  | [], _ => by simp [GuardedAlts, FuncDecl.callsInAlts]
  | (pattern, rhs) :: rest, hscoped => by
    obtain ⟨hfirst, hrest⟩ := Scoped.append_iff.mp hscoped
    obtain ⟨hnames, hrhs⟩ := (Scoped.bindAll_iff (pattern.size (scrutinee.sizeAt own))).mp hfirst
    rw [GuardedAlts, FuncDecl.callsInAlts, and_iff_right hnames, List.forall_mem_append]
    exact and_congr (guarded_iff_calls_decrease (h.enterPattern scrutinee pattern) rhs [] hrhs)
      (guardedAlts_iff_calls_decrease h scrutinee rest hrest)

theorem guardedRhss_iff_calls_decrease {v : View} {o : Origins}
    (h : v.Agrees group position own o) :
    (binds : Binds) → Scoped c v (Expr.freeOccsRhss binds) (Expr.markersRhss binds)
      (Expr.boundNamesRhss binds) →
      (GuardedRhss c v binds ↔
        ∀ call ∈ d.callsInRhss group o binds, call.decreases (position call.callee) own = true)
  | [], _ => by simp [GuardedRhss, FuncDecl.callsInRhss]
  | (_, rhs) :: rest, hscoped => by
    obtain ⟨hrhs, hrest⟩ := Scoped.append_iff.mp hscoped
    rw [GuardedRhss, FuncDecl.callsInRhss, List.forall_mem_append]
    exact and_congr (guarded_iff_calls_decrease h rhs [] hrhs)
      (guardedRhss_iff_calls_decrease h rest hrest)

end

end calls

/-! ## The bodies of functions -/

/-- What is known of the parameters of a function: `size` of the one at position `own`, nothing of
the others. -/
def paramSizes (count own : Nat) (size : Size) : List Size :=
  (List.range count).map fun i => if i = own then size else .any

theorem length_paramSizes (count own : Nat) (size : Size) :
    (paramSizes count own size).length = count := by
  simp [paramSizes]

theorem getElem_paramSizes {count own : Nat} {size : Size} {i : Nat}
    (h : i < (paramSizes count own size).length) :
    (paramSizes count own size)[i] = if i = own then size else .any := by
  simp [paramSizes]

namespace FuncDecl

mutual

/-- A call site names the function it stands in and a function of the group. -/
theorem mem_callsIn (d : FuncDecl) (group : List Name) {call : CallSite} (o : Origins) :
    (e : Expr) → (args : List Expr) → call ∈ d.callsIn group o e args →
      call.caller = d.name ∧ call.callee ∈ group
  | .var _ n, args, h => by
    rw [callsIn] at h
    split at h
    · next hgroup =>
      obtain rfl := List.mem_singleton.mp h
      exact ⟨rfl, of_decide_eq_true (Bool.and_eq_true_iff.mp hgroup).1⟩
    · cases h
  | .con .., _, h | .intLit .., _, h | .undefined _, _, h | .error .., _, h => by cases h
  | .app _ fn arg, _, h =>
    (List.mem_append.mp h).elim (mem_callsIn d group o fn _) (mem_callsIn d group o arg _)
  | .typeApp _ fn _, _, h => mem_callsIn d group o fn _ h
  | .cond _ test thenBranch elseBranch, _, h =>
    (List.mem_append.mp h).elim
      (fun h => (List.mem_append.mp h).elim (mem_callsIn d group o test _)
        (mem_callsIn d group o thenBranch _))
      (mem_callsIn d group o elseBranch _)
  | .case _ scrutinee alts, _, h =>
    (List.mem_append.mp h).elim (mem_callsIn d group o scrutinee _)
      (mem_callsInAlts d group o _ alts)
  | .lam _ _ body, _, h => mem_callsIn d group _ body _ h
  | .letRec _ binds body, _, h =>
    (List.mem_append.mp h).elim (mem_callsInRhss d group _ binds) (mem_callsIn d group _ body _)

theorem mem_callsInAlts (d : FuncDecl) (group : List Name) {call : CallSite} (o : Origins)
    (scrutinee : Origin) :
    (alts : Alts) → call ∈ d.callsInAlts group o scrutinee alts →
      call.caller = d.name ∧ call.callee ∈ group
  | (_, rhs) :: rest, h =>
    (List.mem_append.mp h).elim (mem_callsIn d group _ rhs _)
      (mem_callsInAlts d group o scrutinee rest)

theorem mem_callsInRhss (d : FuncDecl) (group : List Name) {call : CallSite} (o : Origins) :
    (binds : Binds) → call ∈ d.callsInRhss group o binds →
      call.caller = d.name ∧ call.callee ∈ group
  | (_, rhs) :: rest, h =>
    (List.mem_append.mp h).elim (mem_callsIn d group o rhs _) (mem_callsInRhss d group o rest)

end

end FuncDecl

namespace View

/-- Outside of all functions: the functions of a group with their decreasing positions, and other
names that may be referred to. -/
def ofGroup (callees : List (Name × Nat)) (refs : List Name) (markers : Name → Prop) : View where
  facts n := match callees.lookup n with
    | some position => some (.callee position)
    | none => if n ∈ refs then some (.value .any) else none
  markers := markers

/-- In the body of a function: its parameters are values, and `size` is known of the one at position
`own`. -/
def ofParams (v : View) (params : List Name) (own : Nat) (size : Size) : View :=
  v.binds (params.zip (paramSizes params.length own size))

/-- Outside of functions the view of a group agrees with it. -/
theorem ofGroup_agrees (callees : List (Name × Nat)) (refs : List Name) (markers : Name → Prop)
    (own : Nat) :
    (ofGroup callees refs markers).Agrees (callees.map Prod.fst)
      (fun n => (callees.lookup n).getD 0) own {} := by
  have hmem : ∀ n, (callees.lookup n).isSome = true ↔ n ∈ callees.map Prod.fst :=
    Table.isSome_lookup callees
  refine ⟨nofun, fun n _ hn => ?_, fun n _ hn k hk => ?_⟩
  · obtain ⟨position, hposition⟩ := Option.isSome_iff_exists.mp ((hmem n).mpr hn)
    simp [ofGroup, hposition]
  · have hnone : callees.lookup n = none := by
      rw [← Option.not_isSome_iff_eq_none, hmem n]
      exact hn
    simp only [ofGroup, hnone] at hk
    split at hk
    · exact (Option.some.inj hk).symm
    · cases hk

/-- Parameters come into view from their positions. -/
theorem ofParams_agrees {v : View} {group : List Name} {position : Name → Nat} {own : Nat}
    (h : v.Agrees group position own {}) (params : List Binder) :
    (v.ofParams (binderNames params) own .whole).Agrees group position own
      (Origins.ofParams params) := by
  have hbinds := h.binds (params.zipIdx.map fun p => (p.1.name, .equal p.2))
  have heq : (params.zipIdx.map fun p => (p.1.name, Origin.equal p.2)).map
      (fun b => (b.1, b.2.sizeAt own))
      = (binderNames params).zip (paramSizes (binderNames params).length own .whole) := by
    rw [List.zipIdx_eq_zip_range', List.map_map]
    simp [binderNames, paramSizes, List.range_eq_range', List.zip_map, Function.comp_def, Prod.map,
      Origin.sizeAt]
  rw [heq] at hbinds
  exact hbinds

end View

/-- The body of a function is guarded exactly if all its calls decrease. -/
theorem FuncDecl.guarded_iff (d : FuncDecl) {callees : List (Name × Nat)} {refs : List Name}
    {markers : Name → Prop}
    {own : Nat} {c : Counters}
    (hscoped : Scoped c ((View.ofGroup callees refs markers).ofParams d.paramNames own .whole)
      d.rhs.freeOccs d.rhs.markers d.rhs.boundNames) :
    Guarded c ((View.ofGroup callees refs markers).ofParams d.paramNames own .whole) d.rhs [] ↔
      ∀ call ∈ d.calls (callees.map Prod.fst),
        call.decreases ((callees.lookup call.callee).getD 0) own = true :=
  guarded_iff_calls_decrease
    (View.ofParams_agrees (View.ofGroup_agrees callees refs markers own) d.params) d.rhs [] hscoped

end StructRec
