import StructRec.Proofs.Fixpoints
import StructRec.Proofs.Paths
import StructRec.Proofs.Tables

/-!
# StructRec — the only valid choice

The decreasing parameters of a group are searched among the positions that every function's calls to
itself leave open. A choice may as well take any parameter of every function: the search misses no
valid choice, and it accepts a group if and only if there is exactly one.
-/

namespace StructRec

namespace Decreasing

variable {env : Environment} {decls : List FuncDecl} {choice : List Nat}
variable {d : FuncDecl} {position : Nat}

/-- A position can be chosen for a function: that of its pragma, or any if there is none. -/
structure Permits (env : Environment) (d : FuncDecl) (position : Nat) : Prop where
  lt_arity : position < d.arity
  pragma : ∀ k, ofPragma env d = .ok (some k) → position = k

theorem permits_iff (h : env.pragmas.get? d.name = none) :
    Permits env d position ↔ position < d.arity := by
  refine ⟨Permits.lt_arity, fun hlt => ⟨hlt, fun k hk => ?_⟩⟩
  rw [ofPragma, h] at hk
  cases hk

/-- A choice for the functions of a group: every call passes a strict part of the caller's chosen
parameter at the chosen position of the callee. -/
structure Valid (env : Environment) (decls : List FuncDecl) (choice : List Nat) : Prop where
  permits : List.Forall₂ (Permits env) decls choice
  decreases : ∀ caller ∈ decls.zip choice, ∀ callee ∈ decls.zip choice, ∀ call ∈ groupCalls decls,
    call.caller = caller.1.name → call.callee = callee.1.name →
      call.decreases callee.2 caller.2 = true

/-! ## Choices -/

/-- A choice takes one position from each list. -/
theorem mem_choices_iff {options : List (List Nat)} :
    choice ∈ choices options ↔ List.Forall₂ (· ∈ ·) choice options := by
  induction options generalizing choice with
  | nil =>
    rw [choices, List.mem_singleton, List.forall₂_nil_right_iff]
  | cons first rest ih =>
    rw [choices, List.mem_flatMap, List.forall₂_cons_right_iff]
    simp only [List.mem_map, ih]
    grind

/-- No choice is listed twice. -/
theorem nodup_choices {options : List (List Nat)} (h : ∀ positions ∈ options, positions.Nodup) :
    (choices options).Nodup := by
  induction options with
  | nil => exact List.nodup_singleton _
  | cons first rest ih =>
    rw [List.forall_mem_cons] at h
    rw [choices, List.nodup_flatMap]
    refine ⟨fun k _ => (ih h.2).map fun _ _ heq => (List.cons.inj heq).2,
      h.1.imp fun hne c hc hc' => ?_⟩
    -- choices that start with different positions differ
    obtain ⟨_, _, rfl⟩ := List.mem_map.mp hc
    obtain ⟨_, _, heq⟩ := List.mem_map.mp hc'
    exact hne (List.cons.inj heq).1.symm

/-- The position of a function in a choice is found by its name. -/
theorem lookup_zip_iff (hnames : (decls.map FuncDecl.name).Nodup)
    (hlength : decls.length = choice.length) {n : Name} {k : Nat} :
    ((decls.map FuncDecl.name).zip choice).lookup n = some k ↔
      ∃ d, (d, k) ∈ decls.zip choice ∧ d.name = n := by
  have hkeys : (((decls.map FuncDecl.name).zip choice).map Prod.fst).Nodup := by
    rwa [List.map_fst_zip (by rw [List.length_map, hlength])]
  refine (Table.mem_entries_iff (t := ⟨(decls.map FuncDecl.name).zip choice, hkeys⟩)).symm.trans ?_
  change (n, k) ∈ (decls.map FuncDecl.name).zip choice ↔ _
  rw [List.zip_map_left, List.mem_map]
  constructor
  · rintro ⟨⟨d, l⟩, hmem, heq⟩
    cases heq
    exact ⟨d, hmem, rfl⟩
  · rintro ⟨d, hmem, rfl⟩
    exact ⟨(d, k), hmem, rfl⟩

/-- The check of a choice, in terms of the group. -/
theorem isValid_iff (hnames : (decls.map FuncDecl.name).Nodup)
    (hlength : decls.length = choice.length) {calls : List CallSite} :
    isValid (decls.map FuncDecl.name) calls choice = true ↔
      ∀ caller ∈ decls.zip choice, ∀ callee ∈ decls.zip choice, ∀ call ∈ calls,
        call.caller = caller.1.name → call.callee = callee.1.name →
          call.decreases callee.2 caller.2 = true := by
  rw [isValid, List.all_eq_true]
  constructor
  · intro h caller hcaller callee hcallee call hcall hfrom hto
    have hvalid := h call hcall
    simp only at hvalid
    rw [(lookup_zip_iff hnames hlength).mpr ⟨caller.1, hcaller, hfrom.symm⟩,
      (lookup_zip_iff hnames hlength).mpr ⟨callee.1, hcallee, hto.symm⟩] at hvalid
    exact hvalid
  · intro h call hcall
    split
    next k l hk hl =>
      obtain ⟨caller, hcaller, hfrom⟩ := (lookup_zip_iff hnames hlength).mp hk
      obtain ⟨callee, hcallee, hto⟩ := (lookup_zip_iff hnames hlength).mp hl
      exact h _ hcaller _ hcallee call hcall hfrom.symm hto.symm
    next => rfl

/-! ## The search -/

/-- The positions that the search tries for a function. -/
def options (d : FuncDecl) : Option Nat → List Nat
  | some k => [k]
  | none => d.decreasingCandidates

theorem nodup_options (d : FuncDecl) (pragma : Option Nat) : (options d pragma).Nodup := by
  cases pragma with
  | some k => exact List.nodup_singleton k
  | none => exact List.nodup_range.filter _

/-- The valid choices that the search finds. -/
def found (decls : List FuncDecl) (pragmas : List (Option Nat)) : List (List Nat) :=
  (choices ((decls.zip pragmas).map fun entry => options entry.1 entry.2)).filter
    (isValid (decls.map FuncDecl.name) (groupCalls decls))

variable {pragmas : List (Option Nat)}

/-- A group without pragmas has the one choice that is found. -/
theorem choose_of_found (hpragmas : decls.mapM (ofPragma env) = .ok pragmas)
    (hfree : pragmas.mapM id = none) (h : found decls pragmas = [choice]) :
    choose env decls = .ok choice := by
  rw [choose, hpragmas]
  simp only [bind, Except.bind, hfree]
  split
  next only heq =>
    obtain rfl := List.singleton_injective (heq.symm.trans h)
    rfl
  next hne => exact absurd h (hne choice)

theorem choose_of_not_found (hpragmas : decls.mapM (ofPragma env) = .ok pragmas)
    (hfree : pragmas.mapM id = none) (h : ∀ choice, found decls pragmas ≠ [choice]) :
    choose env decls = .error (.ofCauseAt ((decls.head?.map FuncDecl.span).getD .generated)
      (.decreasingUndetermined (decls.map FuncDecl.name) !(found decls pragmas).isEmpty)) := by
  rw [choose, hpragmas]
  simp only [bind, Except.bind, hfree]
  split
  next choice heq => exact absurd heq (h choice)
  next => rfl

theorem nodup_found (decls : List FuncDecl) (pragmas : List (Option Nat)) :
    (found decls pragmas).Nodup := by
  refine (nodup_choices fun positions hpositions => ?_).filter _
  obtain ⟨entry, _, rfl⟩ := List.mem_map.mp hpositions
  exact nodup_options entry.1 entry.2

/-- The search tries a position of a function. -/
def Tries (env : Environment) (d : FuncDecl) (position : Nat) : Prop :=
  ∃ pragma, ofPragma env d = .ok pragma ∧ position ∈ options d pragma

theorem Tries.permits (h : Tries env d position) : Permits env d position := by
  obtain ⟨pragma, hpragma, hmem⟩ := h
  cases pragma with
  | some k =>
    obtain rfl := List.mem_singleton.mp hmem
    refine ⟨lt_of_ofPragma hpragma, fun k hk => ?_⟩
    exact Option.some.inj (Except.ok.inj (hpragma.symm.trans hk))
  | none =>
    refine ⟨List.mem_range.mp (List.mem_filter.mp hmem).1, fun k hk => ?_⟩
    cases hpragma.symm.trans hk

/-- The search tries every position that the calls of the function to itself allow. -/
theorem Permits.tries (h : Permits env d position)
    (hresolves : ∃ pragma, ofPragma env d = .ok pragma)
    (hself : ∀ call ∈ d.calls [d.name], call.decreases position position = true) :
    Tries env d position := by
  obtain ⟨pragma, hpragma⟩ := hresolves
  refine ⟨pragma, hpragma, ?_⟩
  cases pragma with
  | some k => exact List.mem_singleton.mpr (h.pragma k hpragma)
  | none => exact List.mem_filter.mpr ⟨List.mem_range.mpr h.lt_arity, List.all_eq_true.mpr hself⟩

/-- The choices tried are those that the pragmas permit. -/
theorem mem_choices_options_iff
    (h : List.Forall₂ (fun d pragma => ofPragma env d = .ok pragma) decls pragmas) :
    choice ∈ choices ((decls.zip pragmas).map fun entry => options entry.1 entry.2) ↔
      List.Forall₂ (Tries env) decls choice := by
  induction h generalizing choice with
  | nil =>
    rw [List.zip_nil_left, List.map_nil, mem_choices_iff, List.forall₂_nil_right_iff,
      List.forall₂_nil_left_iff]
  | @cons d pragma _ _ hfirst _ ih =>
    have htries (k : Nat) : Tries env d k ↔ k ∈ options d pragma := by simp [Tries, hfirst]
    rw [List.zip_cons_cons, List.map_cons, mem_choices_iff, List.forall₂_cons_right_iff,
      List.forall₂_cons_left_iff]
    simp only [htries, ← ih, mem_choices_iff]

/-- The calls of a function to itself are calls of the group. -/
theorem mem_groupCalls_of_self (hd : d ∈ decls) {call : CallSite} (h : call ∈ d.calls [d.name]) :
    call ∈ groupCalls decls ∧ call.caller = d.name ∧ call.callee = d.name := by
  have hname : d.name ∈ decls.map FuncDecl.name := List.mem_map_of_mem hd
  obtain ⟨hcaller, hcallee⟩ := d.mem_callsIn _ _ _ _ h
  rw [d.calls_filter _ (List.cons_subset.mpr ⟨hname, List.nil_subset _⟩), List.mem_filter] at h
  exact ⟨List.mem_flatMap.mpr ⟨d, hd, h.1⟩, hcaller, List.mem_singleton.mp hcallee⟩

/-- **The search finds every valid choice**, and no other. -/
theorem mem_found_iff (hnames : (decls.map FuncDecl.name).Nodup)
    (hresolves : ∀ d ∈ decls, ∃ pragma, ofPragma env d = .ok pragma)
    (hpragmas : List.Forall₂ (fun d pragma => ofPragma env d = .ok pragma) decls pragmas) :
    choice ∈ found decls pragmas ↔ Valid env decls choice := by
  rw [found, List.mem_filter, mem_choices_options_iff hpragmas]
  constructor
  · rintro ⟨htries, hvalid⟩
    exact ⟨htries.imp fun _ _ => Tries.permits, (isValid_iff hnames htries.length_eq).mp hvalid⟩
  · intro h
    refine ⟨List.forall₂_iff_zip.mpr ⟨h.permits.length_eq, fun {d k} hmem => ?_⟩,
      (isValid_iff hnames h.permits.length_eq).mpr h.decreases⟩
    have hd := (List.of_mem_zip hmem).1
    refine ((List.forall₂_iff_zip.mp h.permits).2 hmem).tries (hresolves d hd) fun call hcall => ?_
    obtain ⟨hgroup, hcaller, hcallee⟩ := mem_groupCalls_of_self hd hcall
    exact h.decreases (d, k) hmem (d, k) hmem call hgroup hcaller hcallee

/-! ## The answer -/

theorem exists_pragmas (hresolves : ∀ d ∈ decls, ∃ pragma, ofPragma env d = .ok pragma) :
    ∃ pragmas, decls.mapM (ofPragma env) = .ok pragmas := by
  induction decls with
  | nil => exact ⟨[], rfl⟩
  | cons d rest ih =>
    rw [List.forall_mem_cons] at hresolves
    obtain ⟨pragma, hpragma⟩ := hresolves.1
    obtain ⟨pragmas, hpragmas⟩ := ih hresolves.2
    refine ⟨pragma :: pragmas, ?_⟩
    rw [List.mapM_cons, hpragma, hpragmas]
    rfl

/-- Where the pragmas resolve, the only error is that of the search. -/
theorem kind_of_choose_error (hresolves : ∀ d ∈ decls, ∃ pragma, ofPragma env d = .ok pragma)
    {report : Diagnostic} (h : choose env decls = .error report) :
    report.kind = .decreasingArgument := by
  obtain ⟨pragmas, hpragmas⟩ := exists_pragmas hresolves
  rw [choose, hpragmas] at h
  simp only [bind, Except.bind] at h
  split at h
  · cases h
  · split at h
    · cases h
    · cases h
      rfl

/-- There is exactly one valid choice if and only if the search finds exactly one. -/
theorem found_eq_singleton_iff (hnames : (decls.map FuncDecl.name).Nodup)
    (hresolves : ∀ d ∈ decls, ∃ pragma, ofPragma env d = .ok pragma)
    (hpragmas : List.Forall₂ (fun d pragma => ofPragma env d = .ok pragma) decls pragmas) :
    found decls pragmas = [choice] ↔
      Valid env decls choice ∧ ∀ other, Valid env decls other → other = choice := by
  simp only [← mem_found_iff hnames hresolves hpragmas]
  constructor
  · intro h
    simp [h]
  · rintro ⟨hmem, hunique⟩
    have hperm :=
      (List.perm_ext_iff_of_nodup (nodup_found decls pragmas) (List.nodup_singleton choice)).mpr
        fun other =>
      ⟨fun hother => List.mem_singleton.mpr (hunique other hother),
        fun heq => List.mem_singleton.mp heq ▸ hmem⟩
    exact List.perm_singleton.mp hperm

section answer

variable (hnames : (decls.map FuncDecl.name).Nodup)
  (hfree : ∃ d ∈ decls, env.pragmas.get? d.name = none)
  (hresolves : ∀ d ∈ decls, ∃ pragma, ofPragma env d = .ok pragma)

include hnames hfree hresolves

/-- **The answer is the only valid choice.** -/
theorem choose_eq_ok_iff (choice : List Nat) :
    choose env decls = .ok choice ↔
      Valid env decls choice ∧ ∀ other, Valid env decls other → other = choice := by
  obtain ⟨pragmas, hpragmas⟩ := exists_pragmas hresolves
  have hresolved := ofPragma_mapM hpragmas
  have hopen := mapM_id_eq_none hresolved hfree
  rw [← found_eq_singleton_iff hnames hresolves hresolved]
  constructor
  · intro h
    by_contra hne
    by_cases hfound : ∃ other, found decls pragmas = [other]
    · obtain ⟨other, hother⟩ := hfound
      rw [choose_of_found hpragmas hopen hother] at h
      exact hne (Except.ok.inj h ▸ hother)
    · rw [choose_of_not_found hpragmas hopen (not_exists.mp hfound)] at h
      cases h
  · exact choose_of_found hpragmas hopen

omit hfree hresolves in
/-- In a group without pragmas. -/
theorem choose_eq_ok_iff_of_free (hne : decls ≠ [])
    (hpragmas : ∀ d ∈ decls, env.pragmas.get? d.name = none) (choice : List Nat) :
    choose env decls = .ok choice ↔
      Valid env decls choice ∧ ∀ other, Valid env decls other → other = choice := by
  obtain ⟨d, hd⟩ := List.exists_mem_of_ne_nil decls hne
  refine choose_eq_ok_iff hnames ⟨d, hd, hpragmas d hd⟩ (fun d hd => ⟨none, ?_⟩) choice
  rw [ofPragma, hpragmas d hd]

/-- Without exactly one valid choice the failure names the group. -/
theorem choose_eq_error (h : ¬ ∃! choice, Valid env decls choice) :
    ∃ span ambiguous, choose env decls =
        .error (.ofCauseAt span (.decreasingUndetermined (decls.map FuncDecl.name) ambiguous)) ∧
      (ambiguous = true ↔ ∃ choice, Valid env decls choice) := by
  obtain ⟨pragmas, hpragmas⟩ := exists_pragmas hresolves
  have hresolved := ofPragma_mapM hpragmas
  refine ⟨_, _, choose_of_not_found hpragmas (mapM_id_eq_none hresolved hfree)
    fun choice hfound => h ?_, ?_⟩
  · exact ⟨choice, (found_eq_singleton_iff hnames hresolves hresolved).mp hfound⟩
  · rw [Bool.not_eq_true', List.isEmpty_eq_false_iff_exists_mem]
    simp only [mem_found_iff hnames hresolves hresolved]

/-- **The decreasing parameters of a group are the only valid choice.** The group is accepted with a
choice if and only if it is valid and no other is, where a choice takes any parameter of every
function, or the one of its pragma. Otherwise the group is refused, and the report says whether
there are several valid choices or none. -/
theorem choose_unique :
    (∀ choice, choose env decls = .ok choice ↔
      Valid env decls choice ∧ ∀ other, Valid env decls other → other = choice) ∧
    ((¬ ∃! choice, Valid env decls choice) → ∃ span ambiguous,
      let report :=
        Diagnostic.ofCauseAt span (.decreasingUndetermined (decls.map FuncDecl.name) ambiguous)
      choose env decls = .error report ∧ report.kind = .decreasingArgument ∧
        (ambiguous = true ↔ ∃ choice, Valid env decls choice)) := by
  refine ⟨choose_eq_ok_iff hnames hfree hresolves, fun h => ?_⟩
  obtain ⟨span, ambiguous, herror, hambiguous⟩ := choose_eq_error hnames hfree hresolves h
  exact ⟨span, ambiguous, herror, rfl, hambiguous⟩

end answer

/-- A function of two lists that goes on with the tail of the first, and that asks another about the
second. -/
def firstOf (name other : Name) : FuncDecl where
  name := name
  params := [{ name := "xs" }, { name := "ys" }]
  rhs :=
    .case {} (.var {} "xs")
      [(.con "Nil" [], .var {} "ys"), (.con "Cons" [{ name := "z" }, { name := "zs" }],
    .cond {} (.app {} (.app {} (.var {} other) (.var {} "zs")) (.var {} "zs"))
      (.app {} (.app {} (.var {} name) (.var {} "zs")) (.var {} "ys")) (.var {} "z"))]

/-- Two functions with a pragma for one. -/
theorem firstOf_choose_unique :
    let decls := [firstOf "f" "g", firstOf "g" "f"]
    let env := ({} : Environment).addPragma "f" { param := .name "xs", span := .generated }
    choose env decls = .ok [0, 0] ∧ Valid env decls [0, 0] ∧ ∀ other, Valid env decls other →
      other = [0, 0] := by
  intro decls env
  have hok : choose env decls = .ok [0, 0] := by decide +kernel
  refine ⟨hok, ((choose_unique ?_ ?_ ?_).1 [0, 0]).mp hok⟩
  · decide
  · exact ⟨firstOf "g" "f", List.mem_cons_of_mem _ List.mem_cons_self, rfl⟩
  · exact List.forall_mem_cons.mpr
      ⟨⟨some 0, rfl⟩, List.forall_mem_cons.mpr ⟨⟨none, rfl⟩, List.forall_mem_nil _⟩⟩

end Decreasing

end StructRec
