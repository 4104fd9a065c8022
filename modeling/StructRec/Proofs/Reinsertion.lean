import StructRec.Proofs.DefinitionOrder
import StructRec.Proofs.Definitions

/-!
# StructRec — hoisting undone

An inner function is a function of a group without its constant parameters. Calls inside the group
go to inner functions and do not pass constant arguments. Nothing is lost: put the variables of the
section back at their positions wherever an inner function is called, restore the name of the
function, and the right-hand side is the original one but for spans, annotations and type
applications (`Expr.bare`). No local binder hides a variable of the section where it is put back.
The definition after the section passes the parameters in the order in which the inner function
takes them once the section is closed.
-/

namespace StructRec

/-! ## Bare expressions -/

def Binder.bare (b : Binder) : Binder := { name := b.name }

def Pattern.bare : Pattern → Pattern
  | con name vars => con name (vars.map Binder.bare)
  | lit value => lit value
  | var binder => var binder.bare
  | wildcard => wildcard

namespace Expr

mutual

/-- The expression without spans, annotations and type applications. -/
def bare : Expr → Expr
  | var _ name => var {} name
  | con _ name => con {} name
  | app _ fn arg => app {} fn.bare arg.bare
  | typeApp _ fn _ => fn.bare
  | cond _ test thenBranch elseBranch => cond {} test.bare thenBranch.bare elseBranch.bare
  | case _ scrutinee alts => case {} scrutinee.bare (bareAlts alts)
  | lam _ params body => lam {} (params.map Binder.bare) body.bare
  | letRec _ binds body => letRec {} (bareBinds binds) body.bare
  | intLit _ value => intLit {} value
  | undefined _ => undefined {}
  | error _ message => error {} message

def bareAlts : Alts → Alts
  | [] => []
  | (pattern, rhs) :: rest => (pattern.bare, rhs.bare) :: bareAlts rest

def bareBinds : Binds → Binds
  | [] => []
  | (binder, rhs) :: rest => (binder.bare, rhs.bare) :: bareBinds rest

end

/-- Apply to values in order, without spans. -/
def applyBare (fn : Expr) (args : List Expr) : Expr := args.foldl (app {}) fn

theorem bare_withNote (note : Note) (e : Expr) :
    (e.withNote note).bare = e.bare := by cases e <;> rfl

end Expr

@[simp]
theorem binderNames_bare (binders : List Binder) :
    binderNames (binders.map Binder.bare) = binderNames binders :=
  List.map_map

@[simp]
theorem Pattern.names_bare (p : Pattern) : p.bare.names = p.names := by
  cases p with
  | con name vars => exact binderNames_bare vars
  | lit value | var b | wildcard => rfl

@[simp]
theorem Binds.names_bare (binds : Binds) :
    Binds.names (Expr.bareBinds binds) = Binds.names binds := by
  induction binds with
  | nil => rfl
  | cons bind rest ih => exact congrArg (bind.1.name :: ·) ih

theorem GroupScoped.uses_rhs {c : Counters} {refs : List Name} {markers : Name → Prop}
    {decls : List FuncDecl} (h : GroupScoped c refs markers decls) {d : FuncDecl} (hd : d ∈ decls) :
    d.rhs.Uses c.Settled fun _ => True := by
  refine (Expr.uses_iff _).mpr ⟨fun n hn => ?_, h.bound d hd, fun _ _ => trivial⟩
  rcases h.free d hd n hn with hparam | hfunction | hother
  · exact (h.params d hd).2 n hparam
  · obtain ⟨d', hd', rfl⟩ := List.mem_map.mp hfunction
    exact h.settled d' hd'
  · exact (h.others n hother).1

namespace Hoist

variable {head e : Expr} {args : List Arg} {n : Name}

/-- Types are not seen in a bare expression. -/
theorem Applied.bare (h : Applied head args e) :
    e.bare = head.bare.applyBare ((valuesOf args).map Expr.bare) := by
  induction h with
  | nil => rfl
  | type _ ih => exact ih
  | value _ ih => exact ih

/-! ## Lists taken apart by position -/

/-- A list consists of elements at given positions, counted from a start, and of the others. -/
inductive Interleaves {α : Type} : Nat → List Nat → List α → List α → List α → Prop where
  | nil (start : Nat) : Interleaves start [] [] [] []
  | taken {start : Nat} {positions : List Nat} {x : α} {taken others xs : List α}
      (h : Interleaves (start + 1) positions taken others xs) :
      Interleaves start (start :: positions) (x :: taken) others (x :: xs)
  | other {start : Nat} {positions : List Nat} {x : α} {taken others xs : List α}
      (h : Interleaves (start + 1) positions taken others xs) :
      Interleaves start positions taken (x :: others) (x :: xs)

/-- Insert elements, each so that it stands at its position, in the order of the positions. -/
def insertAll {α : Type} (positions : List Nat) (taken others : List α) : List α :=
  (positions.zip taken).foldl (fun xs entry => xs.insertIdx entry.1 entry.2) others

section interleaves

variable {α : Type} {start : Nat} {positions : List Nat} {taken others xs : List α}

theorem Interleaves.le (h : Interleaves start positions taken others xs) :
    ∀ p ∈ positions, start ≤ p := by
  induction h with
  | nil => exact List.forall_mem_nil _
  | taken _ ih =>
    exact List.forall_mem_cons.mpr ⟨le_rfl, fun p hp => (Nat.le_succ _).trans (ih p hp)⟩
  | other _ ih => exact fun p hp => (Nat.le_succ _).trans (ih p hp)

/-- All elements are still there. -/
theorem Interleaves.perm (h : Interleaves start positions taken others xs) :
    (taken ++ others).Perm xs := by
  induction h with
  | nil => exact .nil
  | taken _ ih => exact ih.cons _
  | other _ ih => exact List.perm_middle.trans (ih.cons _)

/-- Elements at later positions are inserted behind the first one. -/
theorem foldl_insertIdx_cons {entries : List (Nat × α)} (h : ∀ entry ∈ entries, start + 1 ≤ entry.1)
    (x : α) (ys : List α) :
    entries.foldl (fun xs entry => xs.insertIdx (entry.1 - start) entry.2) (x :: ys)
      = x :: entries.foldl (fun xs entry => xs.insertIdx (entry.1 - (start + 1)) entry.2) ys := by
  induction entries generalizing ys with
  | nil => rfl
  | cons entry rest ih =>
    rw [List.forall_mem_cons] at h
    have hpred : entry.1 - start = entry.1 - (start + 1) + 1 := by omega
    rw [List.foldl_cons, List.foldl_cons, hpred, List.insertIdx_succ_cons, ih h.2]

/-- **Putting back** one by one, from the left, restores the list. -/
theorem Interleaves.insert (h : Interleaves start positions taken others xs) :
    (positions.zip taken).foldl (fun xs entry => xs.insertIdx (entry.1 - start) entry.2)
      others = xs := by
  induction h with
  | nil => rfl
  | @taken start positions x taken others xs h ih =>
    rw [List.zip_cons_cons, List.foldl_cons, Nat.sub_self, List.insertIdx_zero,
      foldl_insertIdx_cons fun entry hentry => h.le _ (List.of_mem_zip hentry).1, ih]
  | other h ih =>
    rw [foldl_insertIdx_cons fun entry hentry => h.le _ (List.of_mem_zip hentry).1, ih]

theorem Interleaves.insertAll_eq (h : Interleaves 0 positions taken others xs) :
    insertAll positions taken others = xs :=
  h.insert

/-- Positions behind the first element are positions in the rest. -/
theorem forall₂_getElem?_cons {x : α} (hstart : start ∉ positions)
    (h : List.Forall₂ (fun p y => start ≤ p ∧ (x :: xs)[p - start]? = some y) positions taken) :
    List.Forall₂ (fun p y => start + 1 ≤ p ∧ xs[p - (start + 1)]? = some y) positions taken := by
  induction h with
  | nil => exact .nil
  | @cons p y _ _ hfirst _ ih =>
    rw [List.mem_cons, not_or] at hstart
    have hpred : p - start = p - (start + 1) + 1 := by omega
    have hget := hfirst.2
    rw [hpred, List.getElem?_cons_succ] at hget
    exact .cons ⟨by omega, hget⟩ (ih hstart.2)

/-- Dropping elements takes a list apart. By induction on the list, with the position of its first
element. -/
theorem interleaves_filter (hascending : positions.Pairwise (· < ·))
    (h : List.Forall₂ (fun p x => start ≤ p ∧ xs[p - start]? = some x) positions taken) :
    Interleaves start positions taken
      (((xs.zipIdx start).filter fun entry => entry.2 ∉ positions).map Prod.fst) xs := by
  induction xs generalizing start positions taken with
  | nil =>
    cases h with
    | nil => exact .nil start
    | cons hfirst _ => cases hfirst.2
  | cons x xs ih =>
    rw [List.zipIdx_cons]
    by_cases hstart : start ∈ positions
    · -- the positions are ascending, so this one is the first
      cases h with
      | nil => cases hstart
      | @cons p y rest _ hfirst hrest =>
        obtain ⟨hless, hrestAscending⟩ := List.pairwise_cons.mp hascending
        obtain rfl : p = start := by
          rcases List.mem_cons.mp hstart with heq | hmem
          · exact heq.symm
          · exact absurd (hless start hmem) (Nat.not_lt.mpr hfirst.1)
        obtain rfl : x = y := by simpa using hfirst.2
        have hnot : p ∉ rest := fun hmem => Nat.lt_irrefl p (hless p hmem)
        have hsame : (xs.zipIdx (p + 1)).filter (fun entry => entry.2 ∉ p :: rest)
            = (xs.zipIdx (p + 1)).filter fun entry => entry.2 ∉ rest := by
          refine List.filter_congr fun entry hentry => decide_eq_decide.mpr ?_
          have hle : p + 1 ≤ entry.2 := List.le_snd_of_mem_zipIdx hentry
          rw [List.mem_cons, not_or]
          exact and_iff_right (by omega)
        rw [List.filter_cons_of_neg (by simp), hsame]
        exact .taken (ih hrestAscending (forall₂_getElem?_cons hnot hrest))
    · rw [List.filter_cons_of_pos (by simpa using hstart), List.map_cons]
      exact .other (ih hascending (forall₂_getElem?_cons hstart h))

/-- What is taken out at positions interleaves with what is left. -/
theorem interleaves_dropAt (hascending : positions.Pairwise (· < ·))
    (h : List.Forall₂ (fun p x => xs[p]? = some x) positions taken) :
    Interleaves 0 positions taken (dropAt positions xs) xs :=
  interleaves_filter hascending (h.imp fun _ _ hget => ⟨Nat.zero_le _, hget⟩)

end interleaves

theorem dropAt_map {α β : Type} (f : α → β) (positions : List Nat) (xs : List α) :
    dropAt positions (xs.map f) = (dropAt positions xs).map f := by
  rw [dropAt, dropAt, List.zipIdx_map, List.filter_map, List.map_map, List.map_map]
  rfl

/-- The values that an inner call keeps. -/
theorem valuesOf_keptArgs (hoisted positions : List Nat) (args : List Arg) :
    valuesOf (Plan.keptArgs hoisted positions 0 0 args) = dropAt positions (valuesOf args) := by
  -- both counts move in the recursion; only the count of values decides about a value
  have hfrom : ∀ (types values : Nat), valuesOf (Plan.keptArgs hoisted positions types values args)
      = (((valuesOf args).zipIdx values).filter fun entry => entry.2 ∉ positions).map Prod.fst := by
    induction args with
    | nil => exact fun _ _ => rfl
    | cons arg rest ih =>
      intro types values
      cases arg with
      | type ty =>
        rw [Plan.keptArgs]
        split
        · exact ih (types + 1) values
        · exact ih (types + 1) values
      | value e =>
        have hvalues : valuesOf (.value e :: rest) = e :: valuesOf rest := rfl
        rw [Plan.keptArgs, hvalues, List.zipIdx_cons]
        split
        · next hdropped =>
          rw [List.filter_cons_of_neg (by simpa using hdropped)]
          exact ih types (values + 1)
        · next hkept =>
          rw [List.filter_cons_of_pos (by simpa using hkept)]
          exact congrArg (e :: ·) (ih types (values + 1))
  exact hfrom 0 0

/-! ## Putting variables back -/

namespace Plan

/-- The function whose inner function has a name, unless a local binder hides the name. -/
def outer? (plan : Plan) (bound : List Name) (name : Name) : Option Name :=
  if name ∈ bound then none else plan.innerNames.keys.find? (plan.innerNames.get? · = some name)

/-- The values of a call with the variables of the section at their positions. Where a local binder
hides one of the variables there is no such call. -/
def supply? (plan : Plan) (bound : List Name) (args : List Expr) : Option (List Expr) :=
  if ∀ n ∈ binderNames plan.vars, n ∉ bound then
    some (insertAll plan.positions ((binderNames plan.vars).map (Expr.var {})) args)
  else none

mutual

/-- Turn the calls of inner functions back into calls of the functions of the group, in an
expression that is applied to values. The names bound around it are given. -/
def reinsertOnto? (plan : Plan) (bound : List Name) : Expr → List Expr → Option Expr
  | .var note name, args =>
    match plan.outer? bound name with
    | some function => (plan.supply? bound args).map (Expr.applyBare (.var note function))
    | none => some ((Expr.var note name).applyBare args)
  | .app _ fn arg, args => do
    let arg ← plan.reinsertOnto? bound arg []
    plan.reinsertOnto? bound fn (arg :: args)
  | .typeApp _ fn _, args => plan.reinsertOnto? bound fn args
  | .cond note test thenBranch elseBranch, args => do
    let test ← plan.reinsertOnto? bound test []
    let thenBranch ← plan.reinsertOnto? bound thenBranch []
    let elseBranch ← plan.reinsertOnto? bound elseBranch []
    return (Expr.cond note test thenBranch elseBranch).applyBare args
  | .case note scrutinee alts, args => do
    let scrutinee ← plan.reinsertOnto? bound scrutinee []
    let alts ← plan.reinsertAlts? bound alts
    return (Expr.case note scrutinee alts).applyBare args
  | .lam note params body, args => do
    let body ← plan.reinsertOnto? (binderNames params ++ bound) body []
    return (Expr.lam note params body).applyBare args
  | .letRec note binds body, args => do
    let inside := Binds.names binds ++ bound
    let binds ← plan.reinsertBinds? inside binds
    let body ← plan.reinsertOnto? inside body []
    return (Expr.letRec note binds body).applyBare args
  | e, args => some (e.applyBare args)

def reinsertAlts? (plan : Plan) (bound : List Name) : Alts → Option Alts
  | [] => some []
  | (pattern, rhs) :: rest => do
    let rhs ← plan.reinsertOnto? (pattern.names ++ bound) rhs []
    let rest ← plan.reinsertAlts? bound rest
    return (pattern, rhs) :: rest

def reinsertBinds? (plan : Plan) (bound : List Name) : Binds → Option Binds
  | [] => some []
  | (binder, rhs) :: rest => do
    let rhs ← plan.reinsertOnto? bound rhs []
    let rest ← plan.reinsertBinds? bound rest
    return (binder, rhs) :: rest

end

/-- The right-hand side of a function of the section as one outside of it, but for spans,
annotations and type applications. -/
def reinsert? (plan : Plan) (d : FuncDecl) : Option Expr :=
  plan.reinsertOnto? d.paramNames d.rhs.bare []

end Plan

section reinsert

variable {c : Counters} {plan : Plan} {group : List Name} {d : FuncDecl} {origins : Origins}
  {bound hidden : List Name}
variable {values : List Expr} {T : Name → Prop}

/-- Arguments are put back before they are passed. -/
theorem reinsertOnto?_applyBare (head : Expr) {args args' : List Expr} (rest : List Expr)
    (h : args.map (plan.reinsertOnto? hidden · []) = args'.map some) :
    plan.reinsertOnto? hidden (head.applyBare args) rest =
      plan.reinsertOnto? hidden head (args' ++ rest) := by
  induction args generalizing head args' with
  | nil =>
    obtain rfl := List.map_eq_nil_iff.mp h.symm
    rfl
  | cons arg later ih =>
    obtain ⟨arg', later', rfl, harg, hlater⟩ := List.map_eq_cons_iff.mp h.symm
    have harg' : plan.reinsertOnto? hidden arg [] = some arg' := harg.symm
    have hlater' := ih (.app {} head arg) hlater.symm
    rw [Plan.reinsertOnto?, harg'] at hlater'
    exact hlater'

theorem reinsertOnto?_applied (h : Applied head args e)
    (hargs : (valuesOf args).map (fun v => plan.reinsertOnto? hidden v.bare []) =
      values.map fun v => some v.bare) :
    plan.reinsertOnto? hidden e.bare [] =
      plan.reinsertOnto? hidden head.bare (values.map Expr.bare) := by
  have hargs' : ((valuesOf args).map Expr.bare).map (plan.reinsertOnto? hidden · []) =
      (values.map Expr.bare).map some := by
    rw [List.map_map, List.map_map]
    exact hargs
  rw [h.bare, reinsertOnto?_applyBare head.bare [] hargs', List.append_nil]

/-- A name that was settled before is none of the inner functions. -/
theorem outer?_of_settled (hnames : InnerNames c plan group) (hn : c.Settled n) :
    plan.outer? hidden n = none := by
  unfold Plan.outer?
  split
  · rfl
  · rw [List.find?_eq_none]
    intro g _ hget
    exact hnames.new g n (of_decide_eq_true hget) hn

/-- The inner functions lead back to their own, unless they are hidden. -/
theorem outer?_of_inner (hnames : InnerNames c plan group) {g inner : Name}
    (hget : plan.innerNames.get? g = some inner) (hhidden : inner ∉ hidden) :
    plan.outer? hidden inner = some g := by
  rw [Plan.outer?, if_neg hhidden]
  have hkey : g ∈ plan.innerNames.keys :=
    (Table.contains_iff_mem_keys _ _).mp (Option.isSome_iff_exists.mpr ⟨inner, hget⟩)
  obtain ⟨g', hfound⟩ : ∃ g',
      plan.innerNames.keys.find? (plan.innerNames.get? · = some inner) = some g' :=
    Option.isSome_iff_exists.mp (List.find?_isSome.mpr ⟨g, hkey, decide_eq_true hget⟩)
  have hget' : plan.innerNames.get? g' = some inner := by simpa using List.find?_some hfound
  rw [hfound, hnames.injective g' g inner hget' hget]

/-- A plan whose inner functions have new names and whose variables are the parameters of a function
at its positions. -/
structure Shares (c : Counters) (plan : Plan) (group : List Name) (d : FuncDecl) :
    Prop extends InnerNames c plan group where
  ascending : plan.positions.Pairwise (· < ·)
  shared : List.Forall₂ (fun p (b : Binder) => d.paramNames[p]? = some b.name)
    plan.positions plan.vars

/-- Where an expression stands: the names bound around it in the function and in the inner function.
A reference to a constant parameter is none to a local binder. -/
structure Around (c : Counters) (plan : Plan) (origins : Origins) (bound hidden : List Name) :
    Prop where
  defined : ∀ n, origins.isDefined n = decide (n ∈ bound)
  visible : ∀ n ∈ binderNames plan.vars, origins.refersToBottom n = true → n ∉ hidden
  settled : ∀ n ∈ hidden, c.Settled n

/-- Binders with settled names, however their origins are found. -/
theorem Around.enter (h : Around c plan origins bound hidden) {names : List Name} {inside : Origins}
    (hdefined : ∀ n, inside.isDefined n = decide (n ∈ names ++ bound))
    (hbottom : ∀ n, inside.refersToBottom n = (origins.refersToBottom n && decide (n ∉ names)))
    (hnames : ∀ n ∈ names, c.Settled n) :
    Around c plan inside (names ++ bound) (names ++ hidden) := by
  refine ⟨hdefined, fun n hn hrefers => ?_, List.forall_mem_append.mpr ⟨hnames, h.settled⟩⟩
  rw [hbottom, Bool.and_eq_true, decide_eq_true_eq] at hrefers
  rw [List.mem_append, not_or]
  exact ⟨hrefers.2, h.visible n hn hrefers.1⟩

theorem settled_binderNames {binders : List Binder} (h : ∀ b ∈ binders, b.Uses c.Settled T) :
    ∀ n ∈ binderNames binders, c.Settled n := List.forall_mem_map.mpr fun b hb => (h b hb).name

theorem Around.enterBinders (h : Around c plan origins bound hidden) {binders : List Binder}
    (hbinders : ∀ b ∈ binders, b.Uses c.Settled T) :
    Around c plan (origins.enterBinders binders) (binderNames binders ++ bound)
      (binderNames binders ++ hidden) := by
  refine h.enter (isDefined_enterBinders h.defined binders) (fun n => ?_)
    (settled_binderNames hbinders)
  rw [Origins.enterBinders, ScopeStack.refersToBottom_enter, List.map_map]
  rfl

theorem Around.enterPattern (h : Around c plan origins bound hidden) (scrutinee : Origin)
    {p : Pattern} (hbinders : ∀ b ∈ p.binders, b.Uses c.Settled T) :
    Around c plan (origins.enterPattern scrutinee p) (p.names ++ bound) (p.names ++ hidden) := by
  refine h.enter (isDefined_enterPattern h.defined scrutinee p) (fun n => ?_)
    (settled_binderNames hbinders)
  cases p with
  | con name vars =>
    rw [Origins.enterPattern, ScopeStack.refersToBottom_enter, List.map_map]
    rfl
  | var b => exact ScopeStack.refersToBottom_enter origins [(b.name, scrutinee)] n
  | lit value | wildcard => exact (Bool.and_true _).symm

/-- **A call of an inner function.** The dropped arguments of the call are the variables of the
section. -/
theorem innerCall_reinserted (h : Shares c plan group d)
    (haround : Around c plan origins bound hidden) {note : Note}
    {inner : Name} {span : Span} (hinner : plan.inner? bound n = some inner)
    (hcalls : PassesOn d group plan origins (.var note n) values)
    (hargs : (valuesOf args).map (fun v => plan.reinsertOnto? hidden v.bare []) =
      values.map fun v => some v.bare) :
    plan.reinsertOnto? hidden (plan.innerCall n inner span args).bare []
      = some ((Expr.var {} n).applyBare (values.map Expr.bare)) := by
  obtain ⟨hfree, hget⟩ := inner?_eq_some hinner
  have hundefined : origins.isDefined n = false := (haround.defined n).trans (decide_eq_false hfree)
  have hpassed :=
    fun {p : Nat} (hp : p ∈ plan.positions) => hcalls.passed (h.mem n inner hget) hundefined hp
  -- what is dropped at a position is the variable of the section
  have hdropped : List.Forall₂ (fun p x => (values.map Expr.bare)[p]? = some x) plan.positions
      ((binderNames plan.vars).map (Expr.var {})) := by
    rw [List.forall₂_map_right_iff, binderNames, List.forall₂_map_right_iff, List.forall₂_iff_zip]
    refine ⟨h.shared.length_eq, fun {p b} hpb => ?_⟩
    obtain ⟨note', y, hvalue, _, hparam⟩ := hpassed (List.of_mem_zip hpb).1
    obtain rfl : y = b.name := Option.some.inj (hparam.symm.trans (List.forall₂_zip h.shared hpb))
    rw [List.getElem?_map, hvalue]
    rfl
  have hvisible : ∀ m ∈ binderNames plan.vars, m ∉ hidden := by
    refine List.forall_mem_map.mpr fun b hb => ?_
    obtain ⟨p, hp, hname⟩ := h.shared.exists_left hb
    obtain ⟨_, y, _, hbottom, hparam⟩ := hpassed hp
    obtain rfl : y = b.name := Option.some.inj (hparam.symm.trans hname)
    exact haround.visible _ (List.mem_map_of_mem hb) hbottom
  have hsupply : plan.supply? hidden (dropAt plan.positions (values.map Expr.bare)) =
      some (values.map Expr.bare) := by
    rw [Plan.supply?, if_pos hvisible, (interleaves_dropAt h.ascending hdropped).insertAll_eq]
  have hkept :
      (valuesOf (Plan.keptArgs ((plan.hoistedTypes.get? n).getD []) plan.positions 0 0 args)).map
      (fun v => plan.reinsertOnto? hidden v.bare []) = (dropAt plan.positions values).map fun v =>
        some v.bare := by
    rw [valuesOf_keptArgs, ← dropAt_map, hargs, dropAt_map]
  -- the arguments that are kept have been undone before, and no binder has the name of an inner
  -- function
  have hhidden : inner ∉ hidden := fun hmem => h.new n inner hget (haround.settled inner hmem)
  rw [Plan.innerCall, reinsertOnto?_applied (applied_applyArgs _ _) hkept, Expr.bare,
    Plan.reinsertOnto?, outer?_of_inner h.toInnerNames hget hhidden, ← dropAt_map]
  simp only [hsupply, Option.map_some]

/-- An application of anything else. -/
theorem reapply_reinserted {args : List (Note × Arg)}
    (hargs : (valuesOf (args.map Prod.snd)).map (fun v => plan.reinsertOnto? hidden v.bare []) =
      values.map fun v => some v.bare)
    (hhead : ∀ args, plan.reinsertOnto? hidden head.bare args = some (e.applyBare args)) :
    plan.reinsertOnto? hidden (Plan.reapply head args).bare [] =
      some (e.applyBare (values.map Expr.bare)) := by
  rw [reinsertOnto?_applied (applied_reapply head args) hargs, hhead]

mutual

/-- **Redirected expressions.** By induction on the expression, with the arguments that it is
applied to. -/
theorem redirectOnto_reinserted (h : Shares c plan group d) :
    (e : Expr) → (args : List (Note × Arg)) → {origins : Origins} → {bound hidden : List Name} →
      {values : List Expr} →
      Around c plan origins bound hidden → e.Uses c.Settled (fun _ => True) →
        PassesOn d group plan origins e values →
      (valuesOf (args.map Prod.snd)).map (fun v => plan.reinsertOnto? hidden v.bare []) =
        values.map (fun v => some v.bare) →
        plan.reinsertOnto? hidden (plan.redirectOnto bound e args).bare [] =
          some (e.bare.applyBare (values.map Expr.bare))
  | .var note n, args, _, bound, hidden, values, haround, huses, hcalls, hargs => by
    rw [Plan.redirectOnto]
    cases hinner : plan.inner? bound n with
    | some inner =>
      simp only [Expr.withTy, Expr.bare_withNote]
      exact innerCall_reinserted h haround hinner hcalls hargs
    | none =>
      -- the names of inner functions are new, so this is none of them
      refine reapply_reinserted hargs fun args => ?_
      rw [Expr.bare, Plan.reinsertOnto?, outer?_of_settled h.toInnerNames huses.2]
  | .con .., _, _, _, _, _, _, _, _, hargs | .intLit .., _, _, _, _, _, _, _, _, hargs
  | .undefined _, _, _, _, _, _, _, _, _, hargs | .error .., _, _, _, _, _, _, _, _, hargs => by
    rw [Plan.redirectOnto]
    · exact reapply_reinserted hargs fun _ => rfl
    all_goals simp
  | .app note fn arg, args, _, bound, hidden, values, haround, huses, hcalls, hargs => by
    obtain ⟨hfn, harg⟩ := hcalls.append rfl
    have harg' := redirectOnto_reinserted h arg [] haround huses.2.2 harg rfl
    -- the function is then applied to one value more, before and after
    rw [Plan.redirectOnto]
    refine redirectOnto_reinserted h fn _ haround huses.2.1 hfn ?_
    exact congrArg₂ List.cons harg' hargs
  | .typeApp note fn ty, args, _, bound, hidden, values, haround, huses, hcalls, hargs => by
    rw [Plan.redirectOnto]
    exact redirectOnto_reinserted h fn _ haround huses.2.1 hcalls hargs
  | .cond note test thenBranch elseBranch, args, _, bound, hidden, values, haround, huses,
      hcalls, hargs => by
    obtain ⟨hfirst, helse⟩ := hcalls.append rfl
    obtain ⟨htest, hthen⟩ := List.forall_mem_append.mp hfirst
    have htest' := redirectOnto_reinserted h test [] haround huses.2.1 htest rfl
    have hthen' := redirectOnto_reinserted h thenBranch [] haround huses.2.2.1 hthen rfl
    have helse' := redirectOnto_reinserted h elseBranch [] haround huses.2.2.2 helse rfl
    rw [Plan.redirectOnto]
    refine reapply_reinserted hargs fun args => ?_
    rw [Expr.bare, Plan.reinsertOnto?, htest', hthen', helse']
    rfl
  | .case note scrutinee alts, args, _, bound, hidden, values, haround, huses, hcalls, hargs => by
    obtain ⟨hscrutinee, halts⟩ := hcalls.append rfl
    have hscrutinee' := redirectOnto_reinserted h scrutinee [] haround huses.2.1 hscrutinee rfl
    have halts' := redirectAlts_reinserted h alts haround huses.2.2 halts
    rw [Plan.redirectOnto]
    refine reapply_reinserted hargs fun args => ?_
    rw [Expr.bare, Plan.reinsertOnto?, hscrutinee', halts']
    rfl
  | .lam note params body, args, _, bound, hidden, values, haround, huses, hcalls, hargs => by
    have hbody :=
      redirectOnto_reinserted h body [] (haround.enterBinders huses.2.1) huses.2.2 hcalls rfl
    rw [Plan.redirectOnto]
    refine reapply_reinserted hargs fun args => ?_
    rw [Expr.bare, Plan.reinsertOnto?, binderNames_bare, hbody]
    rfl
  | .letRec note binds body, args, _, bound, hidden, values, haround, huses, hcalls, hargs => by
    obtain ⟨hbinds, hbody⟩ := hcalls.append rfl
    have hinside : Around c plan _ (Binds.names binds ++ bound) (Binds.names binds ++ hidden) :=
      haround.enterBinders huses.2.1
    have hbinds' := redirectBinds_reinserted h binds hinside huses.2.2.1 hbinds
    have hbody' := redirectOnto_reinserted h body [] hinside huses.2.2.2 hbody rfl
    rw [Plan.redirectOnto]
    refine reapply_reinserted hargs fun args => ?_
    rw [Expr.bare, Plan.reinsertOnto?]
    simp only [Binds.names_bare, names_redirectBinds, hbinds', hbody']
    rfl

/-- The alternatives of a `case`. -/
theorem redirectAlts_reinserted (h : Shares c plan group d) :
    (alts : Alts) → {origins : Origins} → {scrutinee : Origin} → {bound hidden : List Name} →
      Around c plan origins bound hidden → Expr.UsesAlts c.Settled (fun _ => True) alts →
      (∀ call ∈ d.callsInAlts group origins scrutinee alts, ∀ p ∈ plan.positions,
        call.passesUnchanged p = true) →
        plan.reinsertAlts? hidden (Expr.bareAlts (plan.redirectAlts bound alts)) =
          some (Expr.bareAlts alts)
  | [], _, _, _, _, _, _, _ => by
    rw [Plan.redirectAlts, Expr.bareAlts, Plan.reinsertAlts?]
  | (pattern, rhs) :: rest, _, scrutinee, _, _, haround, huses, hcalls => by
    obtain ⟨hrhs, hrest⟩ := List.forall_mem_append.mp hcalls
    have hrhs' :=
      redirectOnto_reinserted h rhs [] (haround.enterPattern scrutinee huses.1) huses.2.1 hrhs rfl
    have hrest' := redirectAlts_reinserted h rest haround huses.2.2 hrest
    rw [Plan.redirectAlts, Expr.bareAlts, Plan.reinsertAlts?, Pattern.names_bare, hrhs', hrest']
    rfl

/-- The bindings of a `let`. -/
theorem redirectBinds_reinserted (h : Shares c plan group d) :
    (binds : Binds) → {origins : Origins} → {bound hidden : List Name} →
      Around c plan origins bound hidden →
      Expr.UsesRhss c.Settled (fun _ => True) binds →
      (∀ call ∈ d.callsInRhss group origins binds, ∀ p ∈ plan.positions,
        call.passesUnchanged p = true) →
        plan.reinsertBinds? hidden (Expr.bareBinds (plan.redirectBinds bound binds)) =
          some (Expr.bareBinds binds)
  | [], _, _, _, _, _, _ => by
    rw [Plan.redirectBinds, Expr.bareBinds, Plan.reinsertBinds?]
  | (b, rhs) :: rest, _, _, _, haround, huses, hcalls => by
    obtain ⟨hrhs, hrest⟩ := List.forall_mem_append.mp hcalls
    have hrhs' := redirectOnto_reinserted h rhs [] haround huses.1 hrhs rfl
    have hrest' := redirectBinds_reinserted h rest haround huses.2 hrest
    rw [Plan.redirectBinds, Expr.bareBinds, Plan.reinsertBinds?, hrhs', hrest']
    rfl

end

end reinsert

/-! ## Groups -/

section group

variable {c c' : Counters} {decls : List FuncDecl} {entries : List (Name × Name)} {plan : Plan}
  {refs : List Name} {markers : Name → Prop} {d : FuncDecl}
variable {σ : Session}

theorem constantPositions_ascending (decls : List FuncDecl) :
    (constantPositions decls).Pairwise (· < ·) :=
  List.pairwise_lt_range.filter _

theorem PlanFor.shares (h : PlanFor c c' decls entries plan)
    (hgroup : GroupScoped c refs markers decls)
    (hpositions : plan.positions = constantPositions decls) (hd : d ∈ decls) :
    Shares c plan (decls.map FuncDecl.name) d :=
  ⟨h.innerNames hgroup.settled, hpositions ▸ constantPositions_ascending decls, h.shared d hd⟩

/-- The variables of the section and the parameters of the inner function are the parameters of the
function. -/
theorem Shares.perm {group : List Name} (h : Shares c plan group d) :
    (binderNames (plan.vars ++ (plan.reduce d).params)).Perm d.paramNames := by
  have htaken : List.Forall₂ (fun p n => d.paramNames[p]? = some n) plan.positions
      (binderNames plan.vars) :=
    List.forall₂_map_right_iff.mpr h.shared
  have hperm := (interleaves_dropAt h.ascending htaken).perm
  rw [FuncDecl.paramNames, binderNames, binderNames, dropAt_map, ← List.map_append] at hperm
  exact hperm

/-- The variables of the section and the remaining parameters are distinct. -/
theorem Shares.nodup {group : List Name} (h : Shares c plan group d)
    (hparams : d.paramNames.Nodup) :
    (binderNames plan.vars ++ (plan.reduce d).paramNames).Nodup := by
  have hnodup := h.perm.nodup_iff.mpr hparams
  rwa [binderNames, List.map_append] at hnodup

/-- **Inner functions**: with the variables of the section put back they are the functions of the
group. -/
theorem PlanFor.reduce_reinserted (h : PlanFor c c' decls entries plan)
    (hgroup : GroupScoped c refs markers decls)
    (hpositions : plan.positions = constantPositions decls) (hd : d ∈ decls) :
    plan.reinsert? (plan.reduce d) = some d.rhs.bare := by
  have hshares := h.shares hgroup hpositions hd
  obtain ⟨hnodup, hsettled⟩ := hgroup.params d hd
  -- the inner function has no parameter that is named like a variable of the section
  have hdisjoint := List.disjoint_of_nodup_append (hshares.nodup hnodup)
  have haround : Around c plan (Origins.ofParams d.params) d.paramNames
      (plan.reduce d).paramNames := by
    refine ⟨Origins.isDefined_ofParams d.params, fun n hn _ hmem => hdisjoint hn hmem,
      fun n hn => ?_⟩
    exact hsettled n (((dropAt_sublist plan.positions d.params).map Binder.name).subset hn)
  exact redirectOnto_reinserted hshares d.rhs [] haround (hgroup.uses_rhs hd)
    (passesUnchanged_of_constant hpositions hd) rfl

/-- Every call of a function of the group has become one of an inner function. -/
theorem PlanFor.notMem_group (h : PlanFor c c' decls entries plan)
    (hgroup : GroupScoped c refs markers decls) (hd : d ∈ decls)
    (hn : n ∈ (plan.reduce d).rhs.freeOccs) (hother : n ∉ d.paramNames) :
    n ∉ decls.map FuncDecl.name := by
  intro hmem
  obtain ⟨k, hk⟩ := (h.reduced_inScope hgroup hd).free n hn
  have hscope := (View.mem_of_facts_ofGroup hk).resolve_left List.not_mem_nil
  rw [List.mem_append, List.mem_append, List.mem_append] at hscope
  rcases hscope with hparam | hinner | hrefs | hvar
  · exact hother (((dropAt_sublist plan.positions d.params).map Binder.name).subset hparam)
  · obtain ⟨d', hd', rfl⟩ := List.mem_map.mp hmem
    exact (h.new _ hinner).1 (hgroup.settled d' hd')
  · exact (hgroup.others n hrefs).2 hmem
  · exact hother (h.mem_vars hd hvar)

theorem valuesOf_append (xs ys : List Arg) : valuesOf (xs ++ ys) = valuesOf xs ++ valuesOf ys :=
  List.filterMap_append

theorem valuesOf_types {α : Type} (f : α → Ty) (xs : List α) :
    valuesOf (xs.map fun x => .type (f x)) = [] := by
  induction xs with
  | nil => rfl
  | cons _ _ ih => exact ih

theorem valuesOf_params (params : List Binder) :
    (valuesOf (params.map (.value ·.toExpr))).map Expr.bare =
      (binderNames params).map (Expr.var {}) := by
  induction params with
  | nil => rfl
  | cons b _ ih => exact congrArg (Expr.var {} b.name :: ·) ih

/-- **The definition after the section** is the function itself but for its right-hand side. This
applies the inner function to the variables of the section and to its own parameters. -/
theorem wrapper_bare {w : FuncDecl} (hw : plan.wrapper? d = some w)
    (hshared : List.Forall₂ (fun p (b : Binder) => d.paramNames[p]? = some b.name)
      plan.positions plan.vars) :
    w = { d with rhs := w.rhs } ∧ w.rhs.bare = (Expr.var {} (plan.reduce d).name).applyBare
      ((binderNames (plan.vars ++ (plan.reduce d).params)).map (Expr.var {})) := by
  unfold Plan.wrapper? at hw
  obtain ⟨shared, hmapM, hw⟩ := Option.bind_eq_some_iff.mp hw
  obtain rfl := Option.some.inj hw
  -- the parameters at the positions are named like the variables of the section
  have hnames : binderNames shared = binderNames plan.vars := by
    have hparams : List.Forall₂ (fun p n => d.paramNames[p]? = some n) plan.positions
        (binderNames shared) := by
      refine List.forall₂_map_right_iff.mpr
        ((List.forall₂_of_mapM_eq_some hmapM).imp fun p b hb => ?_)
      rw [FuncDecl.paramNames, binderNames, List.getElem?_map, hb]
      rfl
    have hvars : List.Forall₂ (fun p n => d.paramNames[p]? = some n) plan.positions
        (binderNames plan.vars) :=
      List.forall₂_map_right_iff.mpr hshared
    exact List.right_unique_forall₂'
      (fun _ _ _ h h' => Option.some.inj (h.symm.trans h')) hparams hvars
  refine ⟨rfl, ?_⟩
  rw [Expr.withSpan, Expr.bare_withNote, (applied_applyArgs _ _).bare, valuesOf_append,
    valuesOf_append, valuesOf_append,
    valuesOf_types, valuesOf_types, List.nil_append, List.append_nil, List.map_append,
      valuesOf_params, valuesOf_params,
    hnames, ← List.map_append, binderNames, binderNames, ← List.map_append]
  rfl

/-- The plan of the section that hoisting makes for a group. -/
def plan? (decls : List FuncDecl) (positions : List Nat) (σ : Session) : Option Plan := do
  let vars ← sectionVariables? decls positions
  let typeVars := typeVarsOf vars
  return { positions, vars, typeVars
           innerNames := Table.ofList (freshInnerNames decls σ).1
           hoistedTypes :=
             Table.ofList (decls.map fun d => (d.name, hoistedTypePositions typeVars d)) }

theorem plan?_eq_some {positions : List Nat} (h : plan? decls positions σ = some plan) :
    plan.positions = positions ∧ sectionVariables? decls positions = some plan.vars ∧
      plan.innerNames = Table.ofList (freshInnerNames decls σ).1 := by
  obtain ⟨vars, hvars, heq⟩ := Option.bind_eq_some_iff.mp h
  obtain rfl := Option.some.inj heq
  exact ⟨rfl, hvars, rfl⟩

/-- There is a plan for every group with a constant parameter, and with it a definition for every
function. -/
theorem exists_plan (hsome : constantPositions decls ≠ []) :
    ∃ plan entries c', plan? decls (constantPositions decls) σ = some plan ∧
      plan.positions = constantPositions decls ∧
      PlanFor σ.counters c' decls entries plan ∧ ∀ d ∈ decls, ∃ w, plan.wrapper? d = some w := by
  obtain ⟨first, hfirst⟩ : ∃ first, decls.head? = some first := by
    cases decls with
    | nil => exact absurd rfl hsome
    | cons first rest => exact ⟨first, rfl⟩
  obtain ⟨vars, hvars⟩ := sectionVariables?_isSome hfirst
  obtain ⟨plan, hplan⟩ : ∃ plan, plan? decls (constantPositions decls) σ = some plan := by
    unfold plan?
    rw [hvars]
    exact ⟨_, rfl⟩
  obtain ⟨hpositions, hvars', hnames⟩ := plan?_eq_some hplan
  -- the name of the section does not matter
  obtain ⟨name, σ₂, hname⟩ : ∃ name σ₂,
    freshName first.name (freshInnerNames decls σ).2 = (name, σ₂) := ⟨_, _, rfl⟩
  refine ⟨plan, _, _, hplan, hpositions, planFor_of_run rfl hname hnames hpositions hvars' hfirst,
    fun d hd => ?_⟩
  obtain ⟨wrappers, hwrappers⟩ := wrapper?_isSome plan hpositions
  obtain ⟨w, _, hw⟩ := (List.forall₂_of_mapM_eq_some hwrappers).exists_right hd
  exact ⟨w, hw⟩

/-- The plan of a run is the plan of the group. -/
theorem plan?_of_run {positions : List Nat} {σ₁ : Session} (hpositions : plan.positions = positions)
    (hvars : sectionVariables? decls positions = some plan.vars)
    (htypeVars : plan.typeVars = typeVarsOf plan.vars)
    (hnames : plan.innerNames = Table.ofList entries)
    (hhoisted : plan.hoistedTypes =
      Table.ofList (decls.map fun d => (d.name, hoistedTypePositions plan.typeVars d)))
    (hfresh : freshInnerNames decls σ = (entries, σ₁)) : plan? decls positions σ = some plan := by
  obtain ⟨_, vars, typeVars, _, _⟩ := plan
  unfold plan?
  simp only at hpositions hvars htypeVars hnames hhoisted
  rw [hvars, hfresh, hnames, hhoisted, htypeVars, hpositions]
  rfl

/-- No function of a section is named like a variable of the section: the functions have new
names. -/
theorem PlanFor.vars_notMem {σ₃ σ₄ σ₅ : Session} {u : Unit} {chosen : List Nat}
    {inner : List Sentence}
    (hplan : PlanFor σ.counters σ₃.counters decls entries plan)
    (hgroup : GroupScoped σ.counters refs markers decls)
    (hopened : σ₃.env.pragmas = σ.env.pragmas)
    (hregister :
      ((decls.zip (decls.map plan.reduce)).forM fun (d, inner) =>
      registerInner plan.positions d inner) σ₃
      = .ok u σ₄)
    (hchoose : Decreasing.choose σ₄.env (decls.map plan.reduce) = .ok chosen)
    (hsplit : Split.toSentences (decls.map plan.reduce) chosen σ₄ = .ok inner σ₅) :
    ∀ n ∈ binderNames plan.vars, n ∉ Sentence.funcNames inner := by
  intro n hn hmem
  obtain ⟨d, hd⟩ := hplan.nonempty
  have hsettled : σ.counters.Settled n := (hgroup.params d hd).2 n (hplan.mem_vars hd hn)
  obtain @⟨leading, mains, hmains, hdraws, _, _⟩ :=
    Split.toSentences_emitted hsplit (Decreasing.length_of_choose hchoose)
  rw [Sentence.funcNames_append, Sentence.funcNames_definitions, List.mem_append, hmains,
    hplan.reduced_names hgroup.nodup] at hmem
  rcases hmem with hhelper | hinner
  · refine hdraws.new n hhelper ?_
    rw [(pragmas_of_run hplan hgroup hopened hregister).1]
    exact hsettled.mono hplan.grows
  · exact (hplan.new n hinner).1 hsettled

/-- **What hoisting emits**: the section with what the inner functions are split into, and the
definitions of the plan. When the section is closed, an inner function takes the variables of the
section before its own parameters. -/
theorem toSentences_section {σ' : Session} {sentences : List Sentence}
    (h : toSentences decls (constantPositions decls) σ = .ok sentences σ')
    (hgroup : GroupScoped σ.counters refs markers decls)
    (hplan : plan? decls (constantPositions decls) σ = some plan) :
    ∃ name inner wrappers,
      sentences = .shared name (plan.typeVars.map ({ name := · })) plan.vars inner ::
        wrappers.map .definition ∧
      (∃ chosen τ τ', Split.toSentences (decls.map plan.reduce) chosen τ = .ok inner τ') ∧
      List.Forall₂ (fun d w => plan.wrapper? d = some w) decls wrappers ∧
      ∀ d ∈ decls, σ'.env.shape? (plan.reduce d).name
        = some (.func ((plan.reduce d).signature.closeOver plan.typeVars plan.vars)) := by
  obtain @⟨plan', entries, first, name, previous, chosen, inner, wrappers, σ₁, σ₂, σ₃, σ₄, σ₅,
    hpositions, hvars, htypeVars,
    hnames, hhoisted, hfresh, hfirst, hname, hopen, hregister, hchoose, hsplit, hwrappers⟩ :=
      toSentences_ok.mp h
  -- the run and the statement speak of one plan
  obtain rfl : plan' = plan :=
    Option.some.inj
      ((plan?_of_run hpositions hvars htypeVars hnames hhoisted hfresh).symm.trans hplan)
  have hplanFor := planFor_of_run hfresh hname hnames hpositions hvars hfirst
  obtain ⟨hcounters, hopened⟩ := openSection_ok hopen
  rw [(freshName_spec hname).1, (freshInnerNames_spec hfresh).1] at hopened
  rw [← hcounters] at hplanFor
  -- the variables are parameters of the first function
  have hvarsNodup : (binderNames plan'.vars).Nodup := by
    have hmem : first ∈ decls := List.mem_of_mem_head? hfirst
    have hnodup := (hplanFor.shares hgroup hpositions hmem).nodup (hgroup.params first hmem).1
    exact (List.nodup_append.mp hnodup).1
  have hemits :=
    section_emits hplanFor hgroup.nodup hfresh hname hopen hregister hchoose hsplit hvarsNodup
      (hplanFor.vars_notMem hgroup hopened hregister hchoose hsplit)
  refine ⟨name, inner, wrappers, rfl, ⟨chosen, σ₄, σ₅, hsplit⟩,
    List.forall₂_of_mapM_eq_some hwrappers, fun d hd => ?_⟩
  have hemitted :=
    Split.mem_emitted hsplit (Decreasing.length_of_choose hchoose) (List.mem_map_of_mem hd)
  exact hemits.shapes _
    (Sentence.emittedOfAll_section name plan'.typeVars plan'.vars inner ▸
      List.mem_map_of_mem hemitted)

end group

end Hoist

/-- **Hoisting constant parameters loses nothing.** Every group with constant parameters has a plan.
An inner function refers to the group through inner functions only, and putting the variables of the
section back gives the function. The definition after the section applies the inner function to the
parameters of the function, in the order in which the inner function takes them. Conversion emits
these definitions, and the inner functions are registered with the parameters of the section before
their own. -/
theorem hoisting_loses_nothing (decls : List FuncDecl) (σ : Session)
    (hsome : constantPositions decls ≠ []) (hdistinct : (decls.map FuncDecl.name).Nodup)
    (hparams : ∀ d ∈ decls, d.paramNames.Nodup)
    (hnames : ∀ d ∈ decls, ∀ n ∈ d.names, n.isMarked = false) :
    ∃ plan, Hoist.plan? decls (constantPositions decls) σ = some plan ∧
      (∀ d ∈ decls,
        List.Forall₂ (fun p (b : Binder) => d.paramNames[p]? = some b.name)
          (constantPositions decls) plan.vars ∧
        (∀ n ∈ (plan.reduce d).rhs.freeOccs, n ∉ d.paramNames → n ∉ decls.map FuncDecl.name) ∧
        plan.reinsert? (plan.reduce d) = some d.rhs.bare ∧
        ∃ w, plan.wrapper? d = some w ∧ w = { d with rhs := w.rhs } ∧
          w.rhs.bare = (Expr.var {} (plan.reduce d).name).applyBare
            ((binderNames (plan.vars ++ (plan.reduce d).params)).map (Expr.var {})) ∧
          (binderNames (plan.vars ++ (plan.reduce d).params)).Perm d.paramNames) ∧
      ∀ sentences σ', groupToSentences decls σ = .ok sentences σ' →
        ∃ name inner wrappers,
          sentences = .shared name (plan.typeVars.map ({ name := · })) plan.vars inner ::
            wrappers.map .definition ∧
          (∃ chosen τ τ', Split.toSentences (decls.map plan.reduce) chosen τ = .ok inner τ') ∧
          List.Forall₂ (fun d w => plan.wrapper? d = some w) decls wrappers ∧
          ∀ d ∈ decls, σ'.env.shape? (plan.reduce d).name
            = some (.func ((plan.reduce d).signature.closeOver plan.typeVars plan.vars)) := by
  have hgroup : GroupScoped σ.counters (outerNames decls) (fun _ => True) decls :=
    .of_unmarked hdistinct hparams hnames fun _ _ _ _ => trivial
  obtain ⟨plan, entries, c', hplan, hpositions, hplanFor, hwrapper⟩ :=
    Hoist.exists_plan (σ := σ) hsome
  refine ⟨plan, hplan, fun d hd => ?_, fun sentences σ' hrun => ?_⟩
  · have hshares := hplanFor.shares hgroup hpositions hd
    obtain ⟨w, hw⟩ := hwrapper d hd
    obtain ⟨hsame, hbare⟩ := Hoist.wrapper_bare hw hshares.shared
    exact ⟨hpositions ▸ hshares.shared, fun n => hplanFor.notMem_group hgroup hd,
      hplanFor.reduce_reinserted hgroup hpositions hd, w, hw, hsame, hbare, hshares.perm⟩
  · -- there is a constant argument, so the group is hoisted
    cases groupToSentences_ok.mp hrun with
    | split hnone _ _ => exact absurd hnone hsome
    | hoist _ hhoist => exact Hoist.toSentences_section hhoist hgroup hplan

/-- Two functions that share `k` and `z` and differ in the parameters between and after them. The
first calls the second with a type, with a call among the arguments and with one argument too many;
elsewhere a binder hides `z`. The second has a local variable that is named like the first and is
passed other arguments. -/
def interleavedGroup : List FuncDecl :=
  let var : Name → Expr := .var {}
  let call (callee : Name) (args : List Expr) : Expr :=
    (Expr.typeApp {} (var callee) (.var "a")).applyBare args
  [{ name := "f", typeParams := [{ name := "a" }]
     params :=
       [{ name := "k", ty := some (.var "a") }, { name := "xs" }, { name := "z" },
         { name := "acc" }]
     rhs := .case {} (var "xs") [(.con "Nil" [], .lam {} [{ name := "z" }] (var "z")),
       (.con "Cons" [{ name := "y" }, { name := "ys" }],
         call "g"
           [var "k", var "ys", var "z", call "f" [var "k", var "ys", var "z", var "y"],
             var "acc"])] },
   { name := "g", typeParams := [{ name := "a" }]
     params := [{ name := "k" }, { name := "ys" }, { name := "z" }, { name := "w" }]
     rhs :=
       .case {} (var "ys")
         [(.con "Nil" [], .lam {} [{ name := "f" }] ((var "f").applyBare [var "z", var "k"])),
       (.con "Cons" [{ name := "y" }, { name := "xs" }],
         call "f" [var "k", var "xs", var "z", var "w"])] }]

/-- Two arguments that are passed on unchanged, with another between them. -/
theorem interleavedGroup_loses_nothing :
    (constantPositions interleavedGroup = [0, 2] ∧ (interleavedGroup.map FuncDecl.name).Nodup ∧
      (∀ d ∈ interleavedGroup, d.paramNames.Nodup) ∧ ∀ d ∈ interleavedGroup, ∀ n ∈ d.names,
        n.isMarked = false) ∧
    ∃ plan, Hoist.plan? interleavedGroup (constantPositions interleavedGroup) {} = some plan ∧
      (∀ d ∈ interleavedGroup, plan.reinsert? (plan.reduce d) = some d.rhs.bare) ∧
      ∃ sentences σ', groupToSentences interleavedGroup {} = .ok sentences σ' ∧
        ∀ d ∈ interleavedGroup, σ'.env.shape? (plan.reduce d).name
          = some (.func ((plan.reduce d).signature.closeOver plan.typeVars plan.vars)) := by
  have hpositions : constantPositions interleavedGroup = [0, 2] := by decide +kernel
  have hdistinct : (interleavedGroup.map FuncDecl.name).Nodup := by decide
  have hparams : ∀ d ∈ interleavedGroup, d.paramNames.Nodup := by decide
  have hnames : ∀ d ∈ interleavedGroup, ∀ n ∈ d.names, n.isMarked = false := by decide
  obtain ⟨plan, hplan, hfunctions, hrun⟩ :=
    hoisting_loses_nothing interleavedGroup {} (by rw [hpositions]; decide) hdistinct hparams hnames
  obtain ⟨sentences, σ', h, _⟩ := Compile.exists_of_succeedsWith (p := fun _ => true)
    (x := groupToSentences interleavedGroup) (s := {}) (by decide +kernel)
  obtain ⟨_, _, _, _, _, _, hshapes⟩ := hrun sentences σ' h
  exact ⟨⟨hpositions, hdistinct, hparams, hnames⟩, plan, hplan, fun d hd => (hfunctions d hd).2.2.1,
    sentences, σ', h, hshapes⟩

end StructRec
