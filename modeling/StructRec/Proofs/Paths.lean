import StructRec.Call.Site
import StructRec.Proofs.Scopes

/-!
# StructRec — paths to variables

An occurrence of a variable in an expression stands under binders and is applied to values. The
binders come in frames, each an alternative of a `case`, a lambda or a `let`, and the frames on the
way to the occurrence are its path. This says nothing of what variables are known to be, so an
analysis can be compared to it.

The calls of a function are read off the occurrences: each is an occurrence of a function of the
group that no binder on the way hides (`FuncDecl.occurrencesOf`), and its arguments are judged by
the origins along the path.
-/

namespace StructRec

namespace ScopeStack

variable {α : Type}

/-- Names bound to one value hide what they stood for. -/
theorem lookup_bindAll (s : ScopeStack α) (names : List Name) (x : α) (n : Name) :
    (s.bindAll (names.map (·, x))).lookup n = if n ∈ names then some x else s.lookup n := by
  induction names generalizing s with
  | nil => rfl
  | cons name rest ih =>
    change ((s.bind name x).bindAll (rest.map (·, x))).lookup n = _
    rw [ih, lookup_bind]
    by_cases hrest : n ∈ rest
    · simp [hrest]
    · simp [hrest, eq_comm]

/-- What a name stands for is bound here or further out. -/
theorem mem_of_lookup_bindAll {s : ScopeStack α} {bindings : List (Name × α)} {n : Name} {x : α}
    (h : (s.bindAll bindings).lookup n = some x) : (n, x) ∈ bindings ∨ s.lookup n = some x := by
  induction bindings generalizing s with
  | nil => exact .inr h
  | cons binding rest ih =>
    change ((s.bind binding.1 binding.2).bindAll rest).lookup n = some x at h
    rcases ih h with hrest | hfirst
    · exact .inl (List.mem_cons_of_mem _ hrest)
    rw [lookup_bind] at hfirst
    split at hfirst
    next hname =>
      cases hfirst
      exact .inl (hname ▸ List.mem_cons_self)
    next => exact .inr hfirst

/-- In a scope whose bindings all have one value. -/
theorem lookup_enter (s : ScopeStack α) (names : List Name) (x : α) (n : Name) :
    (s.enter (names.map (·, x))).lookup n = if n ∈ names then some x else s.lookup n := by
  rw [enter, lookup_bindAll, lookup_push]

theorem isDefined_enter_map (s : ScopeStack α) (names : List Name) (x : α) (n : Name) :
    (s.enter (names.map (·, x))).isDefined n = (decide (n ∈ names) || s.isDefined n) := by
  have hkeys : (names.map (·, x)).map Prod.fst = names := by simp [Function.comp_def]
  rw [isDefined_enter, hkeys]

end ScopeStack

/-! ## Sites -/

/-- The binders of one node around an occurrence. -/
inductive Frame where
  /-- An alternative of a `case` on this expression. -/
  | alternative (scrutinee : Expr) (pattern : Pattern)
  /-- The parameters of a lambda, or the variables of a `let`. -/
  | binders (vars : List Binder)

def Frame.names : Frame → List Name
  | alternative _ pattern => pattern.names
  | binders vars => binderNames vars

/-- An occurrence of a variable, with the binders on the way to it, the outermost first, and the
values that it is applied to. -/
structure Occurrence where
  path : List Frame := []
  name : Name
  args : List Expr

namespace Occurrence

/-- The same occurrence seen from outside of a frame. -/
def under (frame : Frame) (p : Occurrence) : Occurrence := { p with path := frame :: p.path }

/-- The names that are bound on the way to an occurrence. -/
def bound (p : Occurrence) : List Name := p.path.flatMap Frame.names

/-- The names at the occurrences that no binder on the way hides. -/
def freeNames (occurrences : List Occurrence) : List Name :=
  (occurrences.filter fun p => p.name ∉ p.bound).map name

theorem freeNames_append (occurrences occurrences' : List Occurrence) :
    freeNames (occurrences ++ occurrences') = freeNames occurrences ++ freeNames occurrences' := by
  rw [freeNames, List.filter_append, List.map_append]
  rfl

/-- A frame takes its own names off. -/
theorem freeNames_under (frame : Frame) (occurrences : List Occurrence) :
    freeNames (occurrences.map (under frame)) =
      (freeNames occurrences).filter (· ∉ frame.names) := by
  rw [freeNames, freeNames, List.filter_map, List.filter_map, List.filter_filter, List.map_map]
  congr 1
  refine List.filter_congr fun p _ => ?_
  rw [Bool.eq_iff_iff]
  simp [under, bound]

end Occurrence

namespace Expr

mutual

/-- The occurrences of variables in an expression that is applied to values, in reading order. -/
def occurrences : Expr → List Expr → List Occurrence
  | var _ name, args => [{ name, args }]
  | con _ _, _ | intLit _ _, _ | undefined _, _ | error _ _, _ => []
  | app _ fn arg, args => fn.occurrences (arg :: args) ++ arg.occurrences []
  | typeApp _ fn _, args => fn.occurrences args
  | cond _ test thenBranch elseBranch, _ =>
      test.occurrences [] ++ thenBranch.occurrences [] ++ elseBranch.occurrences []
  | case _ scrutinee alts, _ => scrutinee.occurrences [] ++ occurrencesAlts scrutinee alts
  | lam _ params body, _ => (body.occurrences []).map (.under (.binders params))
  | letRec _ binds body, _ =>
    (occurrencesRhss binds ++ body.occurrences []).map (.under (.binders (Binds.binders binds)))

def occurrencesAlts (scrutinee : Expr) : Alts → List Occurrence
  | [] => []
  | (pattern, rhs) :: rest =>
    (rhs.occurrences []).map (.under (.alternative scrutinee pattern)) ++
      occurrencesAlts scrutinee rest

def occurrencesRhss : Binds → List Occurrence
  | [] => []
  | (_, rhs) :: rest => rhs.occurrences [] ++ occurrencesRhss rest

end

mutual

/-- **Free variables** are the occurrences that no binder hides. -/
theorem freeOccs_eq : (e : Expr) → (args : List Expr) →
    e.freeOccs = Occurrence.freeNames (e.occurrences args)
  | var .., _ | con .., _ | intLit .., _ | undefined _, _ | error .., _ => rfl
  | app _ fn arg, args => by
    rw [freeOccs, occurrences, Occurrence.freeNames_append, ← freeOccs_eq fn, ← freeOccs_eq arg]
  | typeApp _ fn _, args => by rw [freeOccs, occurrences, ← freeOccs_eq fn]
  | cond _ test thenBranch elseBranch, _ => by
    rw [freeOccs, occurrences, Occurrence.freeNames_append, Occurrence.freeNames_append,
      ← freeOccs_eq test, ← freeOccs_eq thenBranch, ← freeOccs_eq elseBranch]
  | case _ scrutinee alts, _ => by
    rw [freeOccs, occurrences, Occurrence.freeNames_append, ← freeOccs_eq scrutinee,
      ← freeOccsAlts_eq scrutinee alts]
  | lam _ params body, _ => by
    rw [freeOccs, occurrences, Occurrence.freeNames_under, ← freeOccs_eq body]
    rfl
  | letRec _ binds body, _ => by
    rw [freeOccs, occurrences, Occurrence.freeNames_under, Occurrence.freeNames_append,
      ← freeOccsRhss_eq binds, ← freeOccs_eq body]
    rfl

theorem freeOccsAlts_eq (scrutinee : Expr) : (alts : Alts) →
    freeOccsAlts alts = Occurrence.freeNames (occurrencesAlts scrutinee alts)
  | [] => rfl
  | (pattern, rhs) :: rest => by
    rw [freeOccsAlts, occurrencesAlts, Occurrence.freeNames_append, Occurrence.freeNames_under,
      ← freeOccs_eq rhs, ← freeOccsAlts_eq scrutinee rest]
    rfl

theorem freeOccsRhss_eq : (binds : Binds) →
    freeOccsRhss binds = Occurrence.freeNames (occurrencesRhss binds)
  | [] => rfl
  | (_, rhs) :: rest => by
    rw [freeOccsRhss, occurrencesRhss, Occurrence.freeNames_append, ← freeOccs_eq rhs,
      ← freeOccsRhss_eq rest]

end

end Expr

/-! ## Origins along a path -/

/-- What the variables of a pattern are known to be, given what the scrutinee is. -/
def Pattern.origin (scrutinee : Origin) : Pattern → Origin
  | con _ _ => scrutinee.field
  | var _ | lit _ | wildcard => scrutinee

namespace Origins

variable {n : Name} {params : List Binder}

/-- Under the binders of a frame. -/
def enterFrame (o : Origins) : Frame → Origins
  | .alternative scrutinee pattern => o.enterPattern (o.of scrutinee) pattern
  | .binders vars => o.enterBinders vars

def enterPath (o : Origins) (path : List Frame) : Origins := path.foldl enterFrame o

/-- The variables of a pattern are bound in a scope of their own. -/
theorem enterPattern_eq (o : Origins) (scrutinee : Origin) (pattern : Pattern) :
    o.enterPattern scrutinee pattern =
      o.enter (pattern.names.map (·, pattern.origin scrutinee)) := by
  cases pattern with
  | con name vars =>
    rw [enterPattern, Pattern.names, Pattern.binders, binderNames, List.map_map]
    rfl
  | _ => rfl

theorem enterBinders_eq (o : Origins) (vars : List Binder) :
    o.enterBinders vars = o.enter ((binderNames vars).map (·, .unknown)) := by
  rw [enterBinders, binderNames, List.map_map]
  rfl

/-- What the variables of a frame are known to be. -/
def ofFrame (o : Origins) : Frame → Origin
  | .alternative scrutinee pattern => pattern.origin (o.of scrutinee)
  | .binders _ => .unknown

theorem enterFrame_eq (o : Origins) (frame : Frame) :
    o.enterFrame frame = o.enter (frame.names.map (·, o.ofFrame frame)) := by
  cases frame with
  | alternative scrutinee pattern => exact enterPattern_eq o (o.of scrutinee) pattern
  | binders vars => exact enterBinders_eq o vars

theorem lookup_enterFrame (o : Origins) (frame : Frame) (n : Name) :
    (o.enterFrame frame).lookup n =
      if n ∈ frame.names then some (o.ofFrame frame) else o.lookup n := by
  rw [enterFrame_eq, ScopeStack.lookup_enter]

theorem refersToBottom_enterFrame (o : Origins) (frame : Frame) (n : Name) :
    (o.enterFrame frame).refersToBottom n = (o.refersToBottom n && decide (n ∉ frame.names)) := by
  rw [enterFrame_eq, ScopeStack.refersToBottom_enter, List.map_map]
  simp [Function.comp_def]

/-- A name refers to the bottom unless the path binds it. -/
theorem refersToBottom_enterPath (o : Origins) (path : List Frame) (n : Name) :
    (o.enterPath path).refersToBottom n =
      (o.refersToBottom n && decide (n ∉ path.flatMap Frame.names)) := by
  induction path generalizing o with
  | nil => simp [enterPath]
  | cons frame rest ih =>
    change ((o.enterFrame frame).enterPath rest).refersToBottom n = _
    rw [ih, refersToBottom_enterFrame, List.flatMap_cons, Bool.and_assoc]
    simp [List.mem_append, not_or]

/-- What the path does not bind is looked up outside. -/
theorem lookup_enterPath_of_notMem (o : Origins) {path : List Frame}
    (h : n ∉ path.flatMap Frame.names) : (o.enterPath path).lookup n = o.lookup n := by
  induction path generalizing o with
  | nil => rfl
  | cons frame rest ih =>
    rw [List.flatMap_cons, List.mem_append, not_or] at h
    exact (ih (o.enterFrame frame) h.2).trans ((lookup_enterFrame o frame n).trans (if_neg h.1))

theorem isDefined_enterPath (o : Origins) (path : List Frame) (n : Name) :
    (o.enterPath path).isDefined n = (o.isDefined n || decide (n ∈ path.flatMap Frame.names)) := by
  induction path generalizing o with
  | nil => simp [enterPath]
  | cons frame rest ih =>
    change ((o.enterFrame frame).enterPath rest).isDefined n = _
    rw [ih, ScopeStack.isDefined_eq_isSome, ScopeStack.isDefined_eq_isSome, lookup_enterFrame,
      List.flatMap_cons]
    by_cases hframe : n ∈ frame.names <;> simp [hframe]

theorem isDefined_ofParams (params : List Binder) (n : Name) :
    (ofParams params).isDefined n = decide (n ∈ binderNames params) := by
  rw [ofParams, ScopeStack.isDefined_bindAll, List.map_map]
  have hnames : params.zipIdx.map (Binder.name ∘ Prod.fst) = binderNames params := by
    rw [← List.map_map, List.zipIdx_map_fst]
    rfl
  change (decide (n ∈ params.zipIdx.map (Binder.name ∘ Prod.fst)) || false) = _
  rw [hnames, Bool.or_false]

/-- A parameter is known to be the one at a position of its name. -/
theorem exists_of_lookup_ofParams {origin : Origin} (h : (ofParams params).lookup n = some origin) :
    ∃ k, (binderNames params)[k]? = some n ∧ origin = .equal k := by
  rcases ScopeStack.mem_of_lookup_bindAll h with hmem | hnone
  · obtain ⟨⟨b, k⟩, hb, heq⟩ := List.mem_map.mp hmem
    obtain ⟨rfl, rfl⟩ := Prod.mk.injEq .. ▸ heq
    refine ⟨k, ?_, rfl⟩
    rw [binderNames, List.getElem?_map, List.mem_zipIdx_iff_getElem?.mp hb]
    rfl
  · cases hnone

/-- A parameter comes from its own position. -/
theorem lookup_ofParams (hnodup : (binderNames params).Nodup) {k : Nat}
    (h : (binderNames params)[k]? = some n) : (ofParams params).lookup n = some (.equal k) := by
  have hdefined := isDefined_ofParams params n
  rw [decide_eq_true (List.mem_of_getElem? h), ScopeStack.isDefined_eq_isSome,
    Option.isSome_iff_exists] at hdefined
  obtain ⟨origin, horigin⟩ := hdefined
  -- some parameter of the name is found, and there is only one
  obtain ⟨l, hl, rfl⟩ := exists_of_lookup_ofParams horigin
  obtain rfl := (List.getElem?_inj (List.getElem?_eq_some_iff.mp h).1 hnodup).mp (h.trans hl.symm)
  exact horigin

theorem lookup_ofParams_eq_none (h : n ∉ binderNames params) :
    (ofParams params).lookup n = none := by
  have hdefined := isDefined_ofParams params n
  rwa [decide_eq_false h, ScopeStack.isDefined_eq_isSome, Option.isSome_eq_false_iff,
    Option.isNone_iff_eq_none] at hdefined

end Origins

/-! ## Calls -/

namespace FuncDecl

/-- Whether the variable at an occurrence is a function of the group. -/
def isCall (group : List Name) (o : Origins) (p : Occurrence) : Bool :=
  p.name ∈ group && !(o.enterPath p.path).isDefined p.name

/-- The call site at an occurrence. -/
def callAt (d : FuncDecl) (o : Origins) (p : Occurrence) : CallSite where
  caller := d.name
  callee := p.name
  args := p.args.map (d.callArg (o.enterPath p.path))

/-- The call sites at some occurrences. -/
def callsAt (d : FuncDecl) (group : List Name) (o : Origins) (occurrences : List Occurrence) :
    List CallSite :=
  (occurrences.filter (isCall group o)).map (d.callAt o)

variable (d : FuncDecl) (group : List Name)

theorem callsAt_append (o : Origins) (occurrences occurrences' : List Occurrence) :
    d.callsAt group o (occurrences ++ occurrences') =
      d.callsAt group o occurrences ++ d.callsAt group o occurrences' := by
  rw [callsAt, List.filter_append, List.map_append]
  rfl

/-- A frame is entered before the calls below it are read. -/
theorem callsAt_under (o : Origins) (frame : Frame) (occurrences : List Occurrence) :
    d.callsAt group o (occurrences.map (.under frame)) =
      d.callsAt group (o.enterFrame frame) occurrences := by
  rw [callsAt, List.filter_map, List.map_map]
  rfl

mutual

/-- **The call sites of an expression** are those of its occurrences. -/
theorem callsIn_eq : (e : Expr) → (o : Origins) → (args : List Expr) →
    d.callsIn group o e args = d.callsAt group o (e.occurrences args)
  | .var _ name, o, args => by
    rw [callsIn, Expr.occurrences, callsAt, List.filter_singleton]
    change _ = List.map _ (bif name ∈ group && !o.isDefined name then _ else _)
    cases decide (name ∈ group) && !o.isDefined name <;> rfl
  | .con .., _, _ | .intLit .., _, _ | .undefined _, _, _ | .error .., _, _ => rfl
  | .app _ fn arg, o, args => by
    rw [callsIn, Expr.occurrences, callsAt_append, callsIn_eq fn, callsIn_eq arg]
  | .typeApp _ fn _, o, args => by rw [callsIn, Expr.occurrences, callsIn_eq fn]
  | .cond _ test thenBranch elseBranch, o, _ => by
    rw [callsIn, Expr.occurrences, callsAt_append, callsAt_append, callsIn_eq test,
      callsIn_eq thenBranch, callsIn_eq elseBranch]
  | .case _ scrutinee alts, o, _ => by
    rw [callsIn, Expr.occurrences, callsAt_append, callsIn_eq scrutinee,
      callsInAlts_eq scrutinee alts]
  | .lam _ params body, o, _ => by
    rw [callsIn, Expr.occurrences, callsAt_under, callsIn_eq body]
    rfl
  | .letRec _ binds body, o, _ => by
    rw [callsIn, Expr.occurrences, callsAt_under, callsAt_append, ← callsInRhss_eq binds,
      ← callsIn_eq body]
    rfl

theorem callsInAlts_eq (scrutinee : Expr) :
    (alts : Alts) → (o : Origins) →
      d.callsInAlts group o (o.of scrutinee) alts =
        d.callsAt group o (Expr.occurrencesAlts scrutinee alts)
  | [], _ => rfl
  | (pattern, rhs) :: rest, o => by
    rw [callsInAlts, Expr.occurrencesAlts, callsAt_append, callsAt_under, callsIn_eq rhs,
      callsInAlts_eq scrutinee rest]
    rfl

theorem callsInRhss_eq : (binds : Binds) → (o : Origins) →
    d.callsInRhss group o binds = d.callsAt group o (Expr.occurrencesRhss binds)
  | [], _ => rfl
  | (_, rhs) :: rest, o => by
    rw [callsInRhss, Expr.occurrencesRhss, callsAt_append, callsIn_eq rhs, callsInRhss_eq rest]

end

/-- The occurrences of the functions of a group in a function, unless a parameter or a binder on the
way hides the name. -/
def occurrencesOf : List Occurrence :=
  (d.rhs.occurrences []).filter fun p => p.name ∈ group && p.name ∉ d.paramNames && p.name ∉ p.bound

/-- **The call sites of a function** are those of the occurrences where it refers to the group. -/
theorem calls_eq : d.calls group =
    (d.occurrencesOf group).map (d.callAt (Origins.ofParams d.params)) := by
  rw [calls, callsIn_eq, callsAt, occurrencesOf]
  congr 1
  refine List.filter_congr fun p _ => ?_
  rw [isCall, Origins.isDefined_enterPath, Origins.isDefined_ofParams, Bool.not_or, Bool.and_assoc,
    ← decide_not, ← decide_not]
  rfl

/-- **The calls to a part of a group** are those of the calls to the group. -/
theorem calls_filter {part : List Name} (h : part ⊆ group) :
    d.calls part = (d.calls group).filter (·.callee ∈ part) := by
  rw [calls_eq, calls_eq, List.filter_map, occurrencesOf, occurrencesOf, List.filter_filter]
  congr 1
  refine List.filter_congr fun p _ => ?_
  change _ = (decide (p.name ∈ part) && _)
  by_cases hpart : p.name ∈ part
  · simp [hpart, h hpart]
  · simp [hpart]

variable {d group}

/-- A free variable of a function that is in the group is called. -/
theorem exists_call {n : Name} (hfree : n ∈ d.rhs.freeOccs) (hparam : n ∉ d.paramNames)
    (hgroup : n ∈ group) : ∃ call ∈ d.calls group, call.callee = n := by
  rw [Expr.freeOccs_eq d.rhs [], Occurrence.freeNames, List.mem_map] at hfree
  obtain ⟨p, hp, rfl⟩ := hfree
  obtain ⟨hmem, hbound⟩ := List.mem_filter.mp hp
  refine ⟨d.callAt (Origins.ofParams d.params) p, ?_, rfl⟩
  rw [calls_eq]
  refine List.mem_map_of_mem (List.mem_filter.mpr ⟨hmem, ?_⟩)
  simp [hgroup, hparam, of_decide_eq_true hbound]

/-- An argument that is a parameter is no strict part of one. -/
theorem smallerThan_eq_none {call : CallSite} (h : call ∈ d.calls group) {arg : CallArg}
    (harg : arg ∈ call.args) {k : Nat} (hparam : arg.param = some k) :
    arg.smallerThan = none := by
  rw [calls_eq] at h
  obtain ⟨p, _, rfl⟩ := List.mem_map.mp h
  obtain ⟨e, _, rfl⟩ := List.mem_map.mp harg
  cases e with
  | var note n =>
    change (if ((Origins.ofParams d.params).enterPath p.path).refersToBottom n
      then d.paramPosition? n else none) = some k at hparam
    split at hparam
    next hbottom =>
      rw [Origins.refersToBottom_enterPath, Bool.and_eq_true, decide_eq_true_iff] at hbottom
      -- nothing on the way hides the name, so it is known to be a parameter and not a part of one
      have hlookup := Origins.lookup_enterPath_of_notMem (Origins.ofParams d.params) hbottom.2
      change ((((Origins.ofParams d.params).enterPath p.path).lookup n).getD .unknown).smaller? =
        none
      rw [hlookup]
      cases horigin : (Origins.ofParams d.params).lookup n with
      | none => rfl
      | some origin =>
        obtain ⟨l, _, rfl⟩ := Origins.exists_of_lookup_ofParams horigin
        rfl
    next => cases hparam
  | _ => cases hparam

end FuncDecl

end StructRec
