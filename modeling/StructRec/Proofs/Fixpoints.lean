import Mathlib.Data.List.Forall2
import StructRec.Call.Decreasing
import StructRec.Proofs.Helpers
import StructRec.Proofs.Tables

/-!
# StructRec — the fixpoint of a group

A group that is guarded on its decreasing positions is split into helpers and main functions. The
main functions are inlined into the helpers, which makes them the bodies of a fixpoint. Each body is
guarded in the view of the fixpoint, in which the bodies stand in place of the functions of the
group (`View.ofBodies`).
-/

namespace StructRec

variable {position : Nat} {d : FuncDecl}

/-! ## Views of groups -/

namespace View

variable {callees : List (Name × Nat)} {refs : List Name} {markers : Name → Prop} {n : Name}

theorem facts_ofGroup_of_mem (hnodup : (callees.map Prod.fst).Nodup) (h : (n, position) ∈ callees) :
    (ofGroup callees refs markers).facts n = some (.callee position) := by
  simp only [ofGroup, Table.lookup_of_mem hnodup h]

/-- Any other name is a value if it may be referred to. -/
theorem facts_ofGroup_of_notMem (h : n ∉ callees.map Prod.fst) :
    (ofGroup callees refs markers).facts n = if n ∈ refs then some (.value .any) else none := by
  have hlookup : callees.lookup n = none := by
    rwa [← Option.not_isSome_iff_eq_none, Table.isSome_lookup]
  simp only [ofGroup, hlookup]

/-- What a view of a group knows is a function of the group or another name that may be referred
to. -/
theorem mem_of_facts_ofGroup {k : Known} (h : (ofGroup callees refs markers).facts n = some k) :
    n ∈ callees.map Prod.fst ∨ n ∈ refs := by
  by_cases hn : n ∈ callees.map Prod.fst
  · exact .inl hn
  · rw [facts_ofGroup_of_notMem hn] at h
    exact .inr (by_contra fun hrefs => by simp [hrefs] at h)

/-- Outside of functions nothing is known of any value. -/
theorem blank_ofGroup (callees : List (Name × Nat)) (refs : List Name) (markers : Name → Prop) :
    Split.Blank (ofGroup callees refs markers) := by
  intro n size h
  simp only [ofGroup] at h
  split at h
  · cases h
  · split at h
    · exact (Known.value.inj (Option.some.inj h)).symm
    · cases h

/-- A view restricted to some names. -/
def restrict (v : View) (names : List Name) : View where
  facts n := if n ∈ names then v.facts n else none
  markers := v.markers

/-- What is known of fewer names is known no better. -/
theorem restrict_leAt (v : View) (names : List Name) (n : Name) : (v.restrict names).LeAt v n := by
  intro k hk
  change (if n ∈ names then v.facts n else none) = some k at hk
  split at hk
  · exact LeAt.refl v n k hk
  · cases hk

/-- Outside of a fixpoint and in its bodies: the bodies with their decreasing positions, and other
names. -/
def ofBodies (bodies : List FixpointBody) (refs : List Name) (markers : Name → Prop) : View :=
  ofGroup (bodies.map fun b => (b.decl.name, b.decreasing.index)) refs markers

end View

/-! ## Sentences -/

namespace Split

variable {inlined mains : List FuncDecl}

/-- A group of distinct functions that is guarded on its decreasing positions. Beside its functions
it may refer to some other names. -/
structure GroupGuarded (c : Counters) (refs : List Name) (markers : Name → Prop)
    (decls : List FuncDecl) (positions : List Nat) : Prop where
  length_eq : positions.length = decls.length
  nodup : (decls.map FuncDecl.name).Nodup
  settled : ∀ d ∈ decls, c.Settled d.name
  others : ∀ n ∈ refs, c.Settled n ∧ n ∉ decls.map FuncDecl.name
  guarded : ∀ p ∈ decls.zip positions,
    FuncGuarded c (View.ofGroup ((decls.map FuncDecl.name).zip positions) refs markers) p.1 p.2

/-- What a group becomes: a fixpoint with bodies that are guarded on their decreasing parameters,
under new names, and a main function for every function of the group. -/
structure IsSplit (c : Counters) (refs : List Name) (markers : Name → Prop) (decls : List FuncDecl)
    (bodies : List FixpointBody) (mains : List FuncDecl) : Prop where
  nonempty : decls ≠ [] → bodies ≠ []
  new : ∀ b ∈ bodies, ¬ c.Settled b.decl.name
  nodup : (bodies.map (·.decl.name)).Nodup
  decreasing : ∀ b ∈ bodies, b.decl.paramNames[b.decreasing.index]? = some b.decreasing.name
  guarded : ∃ c', ∀ b ∈ bodies,
    Guarded c'
      ((View.ofBodies bodies refs markers).ofParams b.decl.paramNames b.decreasing.index .whole)
      b.decl.rhs []
  names : mains.map FuncDecl.name = decls.map FuncDecl.name
  mainsGuarded : ∃ c', ∀ main ∈ mains, ∃ position,
    Guarded c'
      ((View.ofBodies bodies refs markers).ofParams main.paramNames position .part) main.rhs []

/-- The helpers of a group with their decreasing positions. -/
def Helper.callees (helpers : List Helper) : List (Name × Nat) :=
  helpers.map fun h => (h.decl.name, h.decreasing)

theorem Helper.names_callees (helpers : List Helper) :
    (Helper.callees helpers).map Prod.fst = helpers.map (·.decl.name) := List.map_map

section group

variable {σ σ' : Session} {refs : List Name} {markers : Name → Prop} {decls : List FuncDecl}
  {positions : List Nat} {helpers : List Helper}
variable {g : View}

theorem GroupGuarded.names_callees (h : GroupGuarded σ.counters refs markers decls positions) :
    ((decls.map FuncDecl.name).zip positions).map Prod.fst = decls.map FuncDecl.name := by
  rw [List.map_fst_zip]
  rw [List.length_map, h.length_eq]

/-- Names that are settled are none of the helpers. -/
theorem HelpersGuarded.facts_of_settled (h : HelpersGuarded g σ σ' helpers) {n : Name}
    (hn : σ.counters.Settled n) :
    (View.ofGroup (Helper.callees helpers) refs markers).facts n =
      if n ∈ refs then some (.value .any) else none := by
  refine View.facts_ofGroup_of_notMem fun hmem => ?_
  rw [Helper.names_callees] at hmem
  obtain ⟨x, hx, rfl⟩ := List.mem_map.mp hmem
  exact (h.new x hx).1 hn

theorem HelpersGuarded.calls (h : HelpersGuarded g σ σ' helpers) :
    Calls (View.ofGroup (Helper.callees helpers) refs markers) helpers := by
  intro x hx
  refine View.facts_ofGroup_of_mem ?_ (List.mem_map.mpr ⟨x, hx, rfl⟩)
  rw [Helper.names_callees]
  exact h.nodup

/-- The other names of a group are known in the view of its helpers. -/
theorem GroupGuarded.raised (h : GroupGuarded σ.counters refs markers decls positions)
    (hhelpers : HelpersGuarded g σ σ' helpers) :
    Raised (View.ofGroup ((decls.map FuncDecl.name).zip positions) refs markers)
      (View.ofGroup (Helper.callees helpers) refs markers) where
  values n size hsize := by
    obtain rfl := View.blank_ofGroup _ _ _ n size hsize
    have hn : n ∈ refs := by
      by_contra hrefs
      unfold View.ofGroup at hsize
      simp only [hrefs, if_false] at hsize
      split at hsize <;> cases hsize
    rw [hhelpers.facts_of_settled (h.others n hn).1, if_pos hn]
    exact ⟨_, rfl, le_rfl⟩
  markers _ hm := hm

theorem GroupGuarded.callee_of_mem (h : GroupGuarded σ.counters refs markers decls positions)
    {p : FuncDecl × Nat} (hp : p ∈ decls.zip positions) :
    (View.ofGroup ((decls.map FuncDecl.name).zip positions) refs markers).facts p.1.name =
      some (.callee p.2) := by
  refine View.facts_ofGroup_of_mem ?_ ?_
  · rw [h.names_callees]
    exact h.nodup
  · rw [List.zip_map_left]
    exact List.mem_map_of_mem hp

/-- In the view of the helpers all names are settled, and none is a function of the group. -/
theorem GroupGuarded.settled_after (h : GroupGuarded σ.counters refs markers decls positions)
    (hhelpers : HelpersGuarded g σ σ' helpers) {n : Name} {k : Known}
    (hk : (View.ofGroup (Helper.callees helpers) refs markers).facts n = some k) :
    σ'.counters.Settled n ∧ n ∉ decls.map FuncDecl.name := by
  rcases View.mem_of_facts_ofGroup hk with hn | hn
  · rw [Helper.names_callees] at hn
    obtain ⟨x, hx, rfl⟩ := List.mem_map.mp hn
    refine ⟨(hhelpers.new x hx).2, fun hmem => ?_⟩
    obtain ⟨d, hd, hname⟩ := List.mem_map.mp hmem
    exact (hhelpers.new x hx).1 (hname ▸ h.settled d hd)
  · exact ⟨(h.others n hn).1.mono hhelpers.grows, (h.others n hn).2⟩

/-- A right-hand side has no free variables but its parameters and the globals. -/
theorem restrict_globals {c : Counters} {base : View} {main : FuncDecl} (hmem : main ∈ mains)
    (h : Inline.MainGuarded c base main position) :
    Inline.MainGuarded c (base.restrict (Inline.Context.ofDecls mains).globals) main position := by
  refine ⟨h.nodup, h.settled,
    h.body.mono le_rfl _ ⟨fun n hn => .binds fun hparam => .of_eq ?_, fun m hm => ?_⟩ (.refl _)⟩
  · rw [View.map_fst_zip_paramSizes] at hparam
    have hfree : n ∈ main.rhs.freeVars.filter (· ∉ main.paramNames) := by
      rw [List.mem_filter, Expr.mem_freeVars]
      exact ⟨hn, decide_eq_true hparam⟩
    exact if_pos (List.mem_flatMap.mpr ⟨main, hmem, hfree⟩)
  · rw [View.markers_binds] at hm ⊢
    exact hm

/-- **The main functions may be inlined** into the helpers. -/
theorem GroupGuarded.inlines (h : GroupGuarded σ.counters refs markers decls positions)
    (hnames : mains.map FuncDecl.name = decls.map FuncDecl.name)
    (hhelpers : HelpersGuarded
      (View.ofGroup ((decls.map FuncDecl.name).zip positions) refs markers) σ σ' helpers)
    (hmains : ∀ main ∈ mains, ∃ p ∈ decls.zip positions, main.name = p.1.name ∧
      Inline.MainGuarded σ'.counters
        (View.ofGroup (Helper.callees helpers) refs markers) main p.2) :
    let ctx := Inline.Context.ofDecls mains
    let after := View.ofGroup (Helper.callees helpers) refs markers
    ctx.Covers (after.restrict ctx.globals) ∧
      Inline.Inlines ctx (after.restrict ctx.globals) σ'.counters
        (View.ofGroup ((decls.map FuncDecl.name).zip positions) refs markers) after := by
  intro ctx after
  have hkeys : (mains.map fun d => (d.name, d)).map Prod.fst = decls.map FuncDecl.name := by
    rw [← hnames, List.map_map]
    rfl
  -- at the top nothing is shadowed
  have hdecl : ∀ n, ctx.decl? n = ctx.decls.get? n := fun n => if_neg List.not_mem_nil
  constructor
  · intro n k hk
    change (if n ∈ ctx.globals then after.facts n else none) = some k at hk
    split at hk
    · next hmem =>
        exact ⟨hmem, Table.get?_ofList_eq_none (hkeys.symm ▸ (h.settled_after hhelpers hk).2)⟩
    · cases hk
  · refine ⟨fun n d hd k hk => ?_, fun n hn => ?_, after.restrict_leAt _, fun n k hk => ?_,
      fun n k hk => (h.settled_after hhelpers hk).1, fun _ hm => hm, fun _ hm => hm⟩
    · rw [hdecl] at hd
      obtain ⟨main, hmem, heq⟩ := List.mem_map.mp (Table.mem_of_get?_ofList hd)
      obtain ⟨rfl, rfl⟩ := Prod.mk.inj heq
      obtain ⟨p, hp, hname, hmain⟩ := hmains main hmem
      rw [hname, h.callee_of_mem hp] at hk
      exact ⟨p.2, (Option.some.inj hk).symm, restrict_globals hmem hmain⟩
    · -- what is not inlined is no function of the group
      have hmem : n ∉ decls.map FuncDecl.name := by
        rw [← hnames]
        intro hmem
        obtain ⟨main, hmain, rfl⟩ := List.mem_map.mp hmem
        have hget : ctx.decls.get? main.name = some main :=
          Table.get?_ofList_of_mem (hkeys.symm ▸ h.nodup) (List.mem_map.mpr ⟨main, hmain, rfl⟩)
        rw [hdecl, hget] at hn
        cases hn
      intro k hk
      rw [View.facts_ofGroup_of_notMem (h.names_callees.symm ▸ hmem)] at hk
      split at hk
      · next hrefs =>
        refine ⟨k, ?_, .refl k⟩
        rw [hhelpers.facts_of_settled (h.others n hrefs).1, if_pos hrefs, hk]
      · cases hk
    · rcases View.mem_of_facts_ofGroup hk with hn | hn
      · rw [h.names_callees] at hn
        obtain ⟨d, hd, rfl⟩ := List.mem_map.mp hn
        exact (h.settled d hd).mono hhelpers.grows
      · exact (h.others n hn).1.mono hhelpers.grows

end group

/-! ## Runs -/

/-- The body made of a helper whose calls are inlined: it decreases on the parameter at the helper's
position. -/
structure IsBody (h : Helper) (inlined : FuncDecl) (b : FixpointBody) : Prop where
  decl : b.decl = inlined
  index : b.decreasing.index = h.decreasing
  param : inlined.paramNames[h.decreasing]? = some b.decreasing.name

/-- The helper of an inlined function is registered with its decreasing position, which is that of a
parameter. -/
structure FindsHelper (env : Environment) (h : Helper) (inlined : FuncDecl) : Prop where
  registered : ∃ param, env.decreasing.get? inlined.name =
    some { index := h.decreasing, name := param }
  inRange : h.decreasing < inlined.arity

/-- A body takes its decreasing argument from the environment. -/
theorem toBody_ok {h : Helper} {inlined : FuncDecl} {b : FixpointBody} {σ σ' : Session}
    (hfinds : FindsHelper σ.env h inlined) :
    toBody inlined σ = .ok b σ' ↔ IsBody h inlined b ∧ σ = σ' := by
  obtain ⟨registered, hget⟩ := hfinds.registered
  have hparams : inlined.paramNames[h.decreasing]? =
      inlined.params[h.decreasing]?.map Binder.name := by
    rw [FuncDecl.paramNames, binderNames, List.getElem?_map]
  simp only [toBody, Compile.bind_ok, Compile.lift_ok, Session.getEnv_eq, Compile.expect_ok,
    Compile.pure_ok]
  constructor
  · rintro ⟨env, _, ⟨rfl, rfl⟩, found, _, ⟨hfound, rfl⟩, param, _, ⟨hparam, rfl⟩, rfl, rfl⟩
    obtain rfl := Option.some.inj (hget.symm.trans hfound)
    exact ⟨⟨rfl, rfl, by rw [hparams, hparam]; rfl⟩, rfl⟩
  · rintro ⟨hbody, rfl⟩
    obtain ⟨param, hparam, hname⟩ := Option.map_eq_some_iff.mp (hparams.symm.trans hbody.param)
    refine ⟨_, σ, ⟨rfl, rfl⟩, _, σ, ⟨hget, rfl⟩, param, σ, ⟨hparam, rfl⟩, ?_, rfl⟩
    obtain ⟨decl, index, name⟩ := b
    obtain ⟨rfl, rfl, _⟩ := hbody
    rw [hname]

/-- All bodies, one by one. -/
theorem toBodies_ok {helpers : List Helper} {bodies : List FixpointBody} {σ σ' : Session}
    (hfinds : List.Forall₂ (FindsHelper σ.env) helpers inlined) :
    inlined.mapM toBody σ = .ok bodies σ' ↔
      List.Forall₂ (fun p b => IsBody p.1 p.2 b) (helpers.zip inlined) bodies ∧ σ = σ' := by
  induction hfinds generalizing bodies with
  | nil =>
    rw [List.mapM_nil, Compile.pure_ok, List.zip_nil_left, List.forall₂_nil_left_iff, eq_comm]
  | cons hfirst _ ih =>
    simp only [List.mapM_cons, Compile.bind_ok, Compile.pure_ok, List.zip_cons_cons]
    constructor
    · rintro ⟨b, σ₁, hrun, later, σ₂, hrest, rfl, rfl⟩
      obtain ⟨hbody, rfl⟩ := (toBody_ok hfirst).mp hrun
      obtain ⟨hlater, rfl⟩ := ih.mp hrest
      exact ⟨.cons hbody hlater, rfl⟩
    · rintro ⟨h, rfl⟩
      cases h with
      | cons hbody hlater =>
        exact ⟨_, σ, (toBody_ok hfirst).mpr ⟨hbody, rfl⟩, _, σ, ih.mpr ⟨hlater, rfl⟩, rfl, rfl⟩

/-- Inlining keeps the names of helpers and the number of their parameters, so the helpers are
found. -/
theorem findsHelpers {decls : List (FuncDecl × Nat)} {helpers : List Helper} {σ σ₁ σ₂ : Session}
    (hsplit : splitAll decls σ = .ok (helpers, mains) σ₁)
    (hinline : helpers.mapM (fun h => inlineDecl mains h.decl) σ₁ = .ok inlined σ₂) :
    List.Forall₂ (FindsHelper σ₁.env) helpers inlined := by
  have hinRange := (splitAll_registers hsplit).1.inRange
  have hregistered := (splitAll_registers hsplit).1.decreasing
  generalize σ₁.env = env at hregistered
  have hrun := Compile.mapM_ok hinline
  clear hinline hsplit
  induction hrun with
  | nil => exact .nil
  | cons hfirst _ ih =>
    rw [List.forall_mem_cons] at hregistered hinRange
    obtain ⟨hname, hlength⟩ := inlineDecl_kept hfirst
    exact .cons ⟨hname ▸ hregistered.1, hinRange.1.trans_eq hlength.symm⟩
      (ih hinRange.2 hregistered.2)

/-- The environment after a split: the bodies decrease on their parameters, the main functions on
none. -/
def markDecreasing (bodies : List FixpointBody) (mains : List FuncDecl) (env : Environment) :
    Environment :=
  mains.foldl (fun env main => env.eraseDecreasing main.name)
    (bodies.foldl (fun env body => env.setDecreasing body.decl.name body.decreasing) env)

theorem pragmas_markDecreasing (bodies : List FixpointBody) (mains : List FuncDecl)
    (env : Environment) : (markDecreasing bodies mains env).pragmas = env.pragmas := by
  refine (Environment.pragmas_foldl ?_ mains _).trans (Environment.pragmas_foldl ?_ bodies env)
  · exact fun _ _ => rfl
  · exact fun _ _ => rfl

/-- A run of a split: helpers and main functions are made, the main functions are inlined into the
helpers, and what inlining does to the environment is undone. -/
inductive Run (decls : List FuncDecl) (positions : List Nat) (σ : Session) :
    List Sentence → Session → Prop where
  | intro {helpers : List Helper} {mains inlined : List FuncDecl} {bodies : List FixpointBody}
      {σ₁ σ₂ : Session} (hsplit : splitAll (decls.zip positions) σ = .ok (helpers, mains) σ₁)
      (hinline : helpers.mapM (fun h => inlineDecl mains h.decl) σ₁ = .ok inlined σ₂)
      (hbodies : List.Forall₂ (fun p b => IsBody p.1 p.2 b) (helpers.zip inlined) bodies) :
      Run decls positions σ (.fixpoint bodies :: mains.map .definition)
        { σ₂ with env := markDecreasing bodies mains σ₁.env }

/-- **Splitting a group**, step by step. -/
theorem toSentences_ok {decls : List FuncDecl} {positions : List Nat} {sentences : List Sentence}
    {σ σ' : Session} :
    toSentences decls positions σ = .ok sentences σ' ↔ Run decls positions σ sentences σ' := by
  simp only [toSentences, Compile.bind_ok, Compile.isolated_ok, Compile.forM_modifyEnv_ok,
    Compile.pure_ok]
  constructor
  · rintro ⟨⟨helpers, mains⟩, σ₁, hsplit, inlined, _, ⟨σ₂, hinline, rfl⟩, bodies, _, htoBodies, _,
      _, rfl, _, _, rfl, rfl, rfl⟩
    have hfinds := findsHelpers hsplit hinline
    obtain ⟨hbodies, rfl⟩ := (toBodies_ok (σ := { σ₂ with env := σ₁.env }) hfinds).mp htoBodies
    exact @Run.intro decls positions σ helpers mains inlined bodies σ₁ σ₂ hsplit hinline hbodies
  · rintro @⟨helpers, mains, inlined, bodies, σ₁, σ₂, hsplit, hinline, hbodies⟩
    have hfinds := findsHelpers hsplit hinline
    have htoBodies := (toBodies_ok (σ := { σ₂ with env := σ₁.env }) hfinds).mpr ⟨hbodies, rfl⟩
    exact ⟨(helpers, mains), σ₁, hsplit, inlined, _, ⟨σ₂, hinline, rfl⟩, bodies, _, htoBodies, (),
      _, rfl, (), _, rfl, rfl, rfl⟩

/-! ## The group as a whole -/

/-- Inlining into helpers in order keeps each guarded on its decreasing position. -/
theorem inlineAll_guarded {helpers : List Helper} {σ σ' : Session} {base u u' : View}
    (h : Compile.MapRun (fun h : Helper => inlineDecl mains h.decl) helpers σ inlined σ')
    (hcovers : (Inline.Context.ofDecls mains).Covers base)
    (hinlines : Inline.Inlines (.ofDecls mains) base σ.counters u u')
    (hguarded : ∀ x ∈ helpers, HelperGuarded σ.counters u x) :
    σ.counters ≤ σ'.counters ∧ List.Forall₂ (fun (x : Helper) d => d.name = x.decl.name ∧
      Guarded σ'.counters (u'.ofParams d.paramNames x.decreasing .whole) d.rhs [])
        helpers inlined := by
  induction h with
  | nil => exact ⟨le_rfl, .nil⟩
  | cons hfirst hrest ih =>
    have hhelper := hguarded _ List.mem_cons_self
    obtain ⟨hgrows, hname, hrhs⟩ :=
      inlineDecl_guarded hfirst hcovers hinlines hhelper.settled hhelper.body
    obtain ⟨hgrows', hlater⟩ := ih (hinlines.grow hgrows)
      fun x hx => (hguarded x (List.mem_cons_of_mem _ hx)).grow hgrows
    exact ⟨hgrows.trans hgrows', .cons ⟨hname, hrhs.grow hgrows'⟩ hlater⟩

/-- The bodies of the fixpoint are the inlined helpers, and the decreasing parameters are given by
their names. -/
theorem toBodies_guarded {c : Counters} {u' : View} {helpers : List Helper}
    {bodies : List FixpointBody}
    (hinlined : List.Forall₂ (fun (x : Helper) d => d.name = x.decl.name ∧
      Guarded c (u'.ofParams d.paramNames x.decreasing .whole) d.rhs []) helpers inlined)
    (h : List.Forall₂ (fun p b => IsBody p.1 p.2 b) (helpers.zip inlined) bodies) :
    bodies.map (fun b => (b.decl.name, b.decreasing.index)) = Helper.callees helpers ∧
      ∀ b ∈ bodies, b.decl.paramNames[b.decreasing.index]? = some b.decreasing.name ∧
        Guarded c (u'.ofParams b.decl.paramNames b.decreasing.index .whole) b.decl.rhs [] := by
  induction hinlined generalizing bodies with
  | nil =>
    cases h
    exact ⟨rfl, nofun⟩
  | @cons x d helpers inlined hfirst _ ih =>
    rw [List.zip_cons_cons] at h
    cases h with
    | @cons _ b _ _ hbody hrest =>
      obtain ⟨hdecl, hindex, hparam⟩ : IsBody x d b := hbody
      obtain ⟨hcallees, hlater⟩ := ih hrest
      refine ⟨?_, List.forall_mem_cons.mpr ⟨⟨?_, ?_⟩, hlater⟩⟩
      · rw [List.map_cons, hcallees, hdecl, hindex, hfirst.1]
        rfl
      · rw [hdecl, hindex, hparam]
      · rw [hdecl, hindex]
        exact hfirst.2

/-- **A guarded group** becomes a fixpoint whose bodies are guarded, and main functions that call
only the bodies. -/
theorem toSentences_sound {refs : List Name} {markers : Name → Prop} {decls : List FuncDecl}
    {positions : List Nat} {sentences : List Sentence} {σ σ' : Session}
    (h : toSentences decls positions σ = .ok sentences σ')
    (hgroup : GroupGuarded σ.counters refs markers decls positions) :
    σ'.env.pragmas = σ.env.pragmas ∧ ∃ bodies mains,
      sentences = .fixpoint bodies :: mains.map .definition ∧
      IsSplit σ.counters refs markers decls bodies mains := by
  obtain @⟨helpers, mains, inlined, bodies, σ₁, σ₂, hsplit, hinline, hbodies⟩ := toSentences_ok.mp h
  obtain ⟨hhelpers, hsome, hnames, hmains⟩ :=
    splitAll_guarded (View.blank_ofGroup _ _ _) hgroup.guarded hsplit
  have hzip : (decls.zip positions).map (·.1.name) = decls.map FuncDecl.name := by
    rw [← hgroup.names_callees, List.zip_map_left, List.map_map]
    rfl
  -- all helpers are made now, so every main function can be read in the view of the helpers
  have hready : ∀ main ∈ mains, ∃ p ∈ decls.zip positions, main.name = p.1.name ∧
      Inline.MainGuarded σ₁.counters (View.ofGroup (Helper.callees helpers) refs markers)
        main p.2 := by
    intro main hmem
    obtain ⟨p, hp, hname, hmain⟩ := hmains main hmem
    exact ⟨p, hp, hname, hmain _ _ le_rfl (hgroup.raised hhelpers) hhelpers.calls⟩
  rw [hzip] at hnames
  obtain ⟨hcovers, hinlines⟩ := hgroup.inlines hnames hhelpers hready
  obtain ⟨_, hinlined⟩ :=
    inlineAll_guarded (Compile.mapM_ok hinline) hcovers hinlines hhelpers.guarded
  obtain ⟨hcallees, hguarded⟩ := toBodies_guarded hinlined hbodies
  have hbodyNames : bodies.map (·.decl.name) = helpers.map (·.decl.name) := by
    rw [← Helper.names_callees, ← hcallees, List.map_map]
    rfl
  refine ⟨?_, bodies, mains, rfl, ?_⟩
  · exact (pragmas_markDecreasing bodies mains σ₁.env).trans hhelpers.pragmas
  refine ⟨fun hdecls hempty => ?_, fun b hb => ?_, hbodyNames ▸ hhelpers.nodup,
    fun b hb => (hguarded b hb).1, ⟨σ₂.counters, fun b hb => ?_⟩,
    hnames, ⟨σ₁.counters, fun main hmem => ?_⟩⟩
  · refine hsome (fun hnil => ?_)
      (List.map_eq_nil_iff.mp (hbodyNames.symm.trans (List.map_eq_nil_iff.mpr hempty)))
    rw [hnil] at hzip
    exact hdecls (List.map_eq_nil_iff.mp hzip.symm)
  · obtain ⟨x, hx, hname⟩ := List.mem_map.mp (hbodyNames ▸ List.mem_map_of_mem hb)
    exact hname ▸ (hhelpers.new x hx).1
  · rw [View.ofBodies, hcallees]
    exact (hguarded b hb).2
  · obtain ⟨p, _, _, hmain⟩ := hready main hmem
    rw [View.ofBodies, hcallees]
    exact ⟨p.2, hmain.body⟩

end Split

/-! ## The choice of positions -/

namespace Decreasing

/-- A pragma gives the position of a parameter. -/
theorem lt_of_ofPragma {env : Environment} {i : Nat} (h : ofPragma env d = .ok (some i)) :
    i < d.arity := by
  unfold ofPragma at h
  split at h
  · cases h
  · split at h
    · next hlt =>
      obtain rfl := Option.some.inj (Except.ok.inj h)
      exact hlt
    · cases h
  · split at h
    · next j hj =>
      obtain rfl := Option.some.inj (Except.ok.inj h)
      have hlt := (List.findIdx?_eq_some_iff_getElem.mp hj).1
      rwa [FuncDecl.paramNames, length_binderNames] at hlt
    · cases h

/-- The pragma of a function, or else what its calls to itself leave open, allows a position. -/
def Allows (env : Environment) (d : FuncDecl) (position : Nat) : Prop :=
  ofPragma env d = .ok (some position) ∨ position ∈ d.decreasingCandidates

theorem Allows.lt_arity {env : Environment} (h : Allows env d position) :
    position < d.arity := by
  rcases h with hpragma | hcandidate
  · exact lt_of_ofPragma hpragma
  · exact List.mem_range.mp (List.mem_filter.mp hcandidate).1

section choice

variable {env : Environment} {decls : List FuncDecl} {pragmas : List (Option Nat)}
  {positions : List Nat}

/-- The pragmas of a group, function by function. -/
theorem ofPragma_mapM (h : decls.mapM (ofPragma env) = .ok pragmas) :
    List.Forall₂ (fun d pragma => ofPragma env d = .ok pragma) decls pragmas := by
  induction decls generalizing pragmas with
  | nil =>
    obtain rfl := Except.ok.inj h
    exact .nil
  | cons d rest ih =>
    rw [List.mapM_cons] at h
    cases hfirst : ofPragma env d with
    | error diagnostic =>
      rw [hfirst] at h
      cases h
    | ok pragma =>
      rw [hfirst] at h
      cases hrest : rest.mapM (ofPragma env) with
      | error diagnostic =>
        rw [hrest] at h
        cases h
      | ok later =>
        rw [hrest] at h
        obtain rfl := Except.ok.inj h
        exact .cons hfirst (ih hrest)

theorem forall₂_of_fixed
    (h : List.Forall₂ (fun d pragma => ofPragma env d = .ok pragma) decls pragmas)
    (hfixed : pragmas.mapM id = some positions) :
    List.Forall₂ (fun d k => ofPragma env d = .ok (some k)) decls positions := by
  induction h generalizing positions with
  | nil =>
    obtain rfl := Option.some.inj hfixed
    exact .nil
  | cons hfirst _ ih =>
    rw [List.mapM_cons] at hfixed
    obtain ⟨k, rfl, hrest⟩ := Option.bind_eq_some_iff.mp hfixed
    obtain ⟨later, hlater, heq⟩ := Option.bind_eq_some_iff.mp hrest
    obtain rfl := Option.some.inj heq
    exact .cons hfirst (ih hlater)

/-- Where some function has no pragma, the pragmas leave the choice open. -/
theorem mapM_id_eq_none
    (h : List.Forall₂ (fun d pragma => ofPragma env d = .ok pragma) decls pragmas)
    (hfree : ∃ d ∈ decls, env.pragmas.get? d.name = none) :
    pragmas.mapM id = none := by
  cases hfixed : pragmas.mapM id with
  | none => rfl
  | some positions =>
    obtain ⟨d, hd, hnone⟩ := hfree
    have hall := forall₂_of_fixed h hfixed
    obtain ⟨i, rfl⟩ := List.mem_iff_get.mp hd
    have hsome := (List.forall₂_iff_get.mp hall).2 i i.2 (hall.length_eq ▸ i.2)
    rw [ofPragma] at hsome
    rw [Fin.eta, hnone] at hsome
    cases hsome

/-- A choice follows the pragmas, and takes an option where there is none. -/
theorem forall₂_of_mem_choices
    (h : List.Forall₂ (fun d pragma => ofPragma env d = .ok pragma) decls pragmas)
    {options : FuncDecl × Option Nat → List Nat} (hsome : ∀ d k, options (d, some k) = [k])
    (hnone : ∀ d, options (d, none) = d.decreasingCandidates)
    (hmem : positions ∈ choices ((decls.zip pragmas).map options)) :
    List.Forall₂ (Allows env) decls positions := by
  induction h generalizing positions with
  | nil =>
    obtain rfl := List.mem_singleton.mp hmem
    exact .nil
  | @cons d pragma _ _ hfirst _ ih =>
    rw [List.zip_cons_cons, List.map_cons, choices] at hmem
    obtain ⟨k, hk, hmem⟩ := List.mem_flatMap.mp hmem
    obtain ⟨later, hlater, rfl⟩ := List.mem_map.mp hmem
    refine .cons ?_ (ih hlater)
    cases pragma with
    | none => exact .inr (hnone d ▸ hk)
    | some k' =>
      rw [hsome, List.mem_singleton] at hk
      exact .inl (hk ▸ hfirst)

/-- What a choice consists of. It is valid unless all functions have a pragma. -/
theorem choose_ok (h : choose env decls = .ok positions) :
    List.Forall₂ (Allows env) decls positions ∧ ((∃ d ∈ decls, env.pragmas.get? d.name = none) →
      isValid (decls.map FuncDecl.name) (groupCalls decls) positions = true) := by
  unfold choose at h
  cases hrun : decls.mapM (ofPragma env) with
  | error diagnostic =>
    rw [hrun] at h
    cases h
  | ok pragmas =>
    have hpragmas := ofPragma_mapM hrun
    rw [hrun] at h
    simp only [bind, Except.bind] at h
    cases hfixed : pragmas.mapM id with
    -- pragmas for all functions leave nothing to choose
    | some fixed =>
      rw [hfixed] at h
      obtain rfl := Except.ok.inj h
      have hall := forall₂_of_fixed hpragmas hfixed
      refine ⟨hall.imp fun _ _ => .inl, fun hfree => ?_⟩
      rw [mapM_id_eq_none hpragmas hfree] at hfixed
      cases hfixed
    | none =>
      rw [hfixed] at h
      simp only at h
      split at h
      · -- the choice is the only one that passes the check
        next choice heq =>
        obtain rfl := Except.ok.inj h
        have hmem : choice ∈ [choice] := List.mem_singleton.mpr rfl
        rw [← heq, List.mem_filter] at hmem
        exact ⟨forall₂_of_mem_choices hpragmas (fun _ _ => rfl) (fun _ => rfl) hmem.1,
          fun _ => hmem.2⟩
      · cases h

theorem length_of_choose (h : choose env decls = .ok positions) : positions.length = decls.length :=
  (choose_ok h).1.length_eq.symm

end choice

end Decreasing

/-! ## Groups with a valid choice -/

namespace FuncDecl

/-- References are free variables that are no parameters, and markers. -/
theorem mem_references_iff {n : Name} :
    n ∈ d.references ↔ (n ∈ d.rhs.freeOccs ∧ n ∉ d.paramNames) ∨ n ∈ d.rhs.markers := by
  rw [references, List.mem_eraseDups, List.mem_append, List.mem_filter, decide_eq_true_eq,
    Expr.mem_freeVars]

/-- The name of a function, its parameters, what it refers to and what is bound in it. -/
def names (d : FuncDecl) : List Name :=
  d.name :: (d.paramNames ++ (d.references ++ d.rhs.boundNames))

end FuncDecl

/-- What a group refers to beside its own functions. -/
def outerNames (decls : List FuncDecl) : List Name :=
  (decls.flatMap FuncDecl.references).filter (· ∉ decls.map FuncDecl.name)

/-- A group of distinct functions with distinct parameters, and where its names come from. -/
structure GroupScoped (c : Counters) (refs : List Name) (markers : Name → Prop)
    (decls : List FuncDecl) : Prop where
  nodup : (decls.map FuncDecl.name).Nodup
  settled : ∀ d ∈ decls, c.Settled d.name
  others : ∀ n ∈ refs, c.Settled n ∧ n ∉ decls.map FuncDecl.name
  params : ∀ d ∈ decls, d.paramNames.Nodup ∧ ∀ n ∈ d.paramNames, c.Settled n
  free : ∀ d ∈ decls, ∀ n ∈ d.rhs.freeOccs,
    n ∈ d.paramNames ∨ n ∈ decls.map FuncDecl.name ∨ n ∈ refs
  markers : ∀ d ∈ decls, ∀ m ∈ d.rhs.markers, markers m
  bound : ∀ d ∈ decls, ∀ n ∈ d.rhs.boundNames, c.Settled n

namespace GroupScoped

variable {c : Counters} {refs : List Name} {markers : Name → Prop} {decls : List FuncDecl}
  {positions : List Nat}

/-- **A group without marked names** is scoped in every state of the counters. -/
theorem of_unmarked (hnodup : (decls.map FuncDecl.name).Nodup)
    (hparams : ∀ d ∈ decls, d.paramNames.Nodup)
    (hunmarked : ∀ d ∈ decls, ∀ n ∈ d.names, n.isMarked = false)
    (hmarkers : ∀ d ∈ decls, ∀ m ∈ d.rhs.markers, markers m) :
    GroupScoped c (outerNames decls) markers decls := by
  have hsettled : ∀ d ∈ decls, ∀ n ∈ d.names, c.Settled n := fun d hd n hn =>
    Counters.settled_of_unmarked (hunmarked d hd n hn)
  refine ⟨hnodup, fun d hd => hsettled d hd _ List.mem_cons_self, fun n hn => ?_,
    fun d hd => ⟨hparams d hd, fun n hn => ?_⟩, fun d hd n hn => ?_, hmarkers, fun d hd n hn => ?_⟩
  · obtain ⟨hmem, hother⟩ := List.mem_filter.mp hn
    obtain ⟨d, hd, hreferences⟩ := List.mem_flatMap.mp hmem
    refine ⟨hsettled d hd n ?_, of_decide_eq_true hother⟩
    exact List.mem_cons_of_mem _ (List.mem_append_right _ (List.mem_append_left _ hreferences))
  · exact hsettled d hd n (List.mem_cons_of_mem _ (List.mem_append_left _ hn))
  · by_cases hparam : n ∈ d.paramNames
    · exact .inl hparam
    · refine .inr (or_iff_not_imp_left.mpr fun hother =>
        List.mem_filter.mpr ⟨?_, decide_eq_true hother⟩)
      exact List.mem_flatMap.mpr ⟨d, hd, FuncDecl.mem_references_iff.mpr (.inl ⟨hn, hparam⟩)⟩
  · exact hsettled d hd n
      (List.mem_cons_of_mem _ (List.mem_append_right _ (List.mem_append_right _ hn)))

/-- **All of a right-hand side is in scope**: parameters, functions of the group, and outer
names. -/
theorem scoped_rhs (h : GroupScoped c refs markers decls)
    (hlength : positions.length = decls.length) (hd : d ∈ decls) (own : Nat) (size : Size) :
    Scoped c
      ((View.ofGroup ((decls.map FuncDecl.name).zip positions) refs markers).ofParams
        d.paramNames own size)
      d.rhs.freeOccs d.rhs.markers d.rhs.boundNames := by
  have hkeys : ((decls.map FuncDecl.name).zip positions).map Prod.fst = decls.map FuncDecl.name :=
    List.map_fst_zip (by rw [List.length_map, hlength])
  refine ⟨fun n hn => ?_, fun m hm => ?_, h.bound d hd⟩
  · -- a name is a parameter, a function of the group, or known from outside
    by_cases hparam : n ∈ d.paramNames
    · obtain ⟨size', _, hfacts, _⟩ := View.facts_binds_of_mem
        (View.ofGroup ((decls.map FuncDecl.name).zip positions) refs markers)
        (View.ofGroup ((decls.map FuncDecl.name).zip positions) refs markers)
        ((View.map_fst_zip_paramSizes d.paramNames own size).symm ▸ hparam)
      exact ⟨_, hfacts⟩
    · rw [View.ofParams, View.facts_binds_of_notMem _
        ((View.map_fst_zip_paramSizes _ _ _).symm ▸ hparam)]
      by_cases hgroup : n ∈ decls.map FuncDecl.name
      · obtain ⟨entry, hentry, rfl⟩ := List.mem_map.mp (hkeys.symm ▸ hgroup)
        exact ⟨_, View.facts_ofGroup_of_mem (hkeys.symm ▸ h.nodup) hentry⟩
      · rw [View.facts_ofGroup_of_notMem (hkeys.symm ▸ hgroup),
          if_pos (((h.free d hd n hn).resolve_left hparam).resolve_left hgroup)]
        exact ⟨_, rfl⟩
  · rw [View.markers_ofParams]
    exact h.markers d hd m hm

/-- A group with a valid choice of positions is guarded on them. -/
theorem guarded (h : GroupScoped c refs markers decls) (hlength : positions.length = decls.length)
    (hvalid : Decreasing.isValid (decls.map FuncDecl.name) (groupCalls decls) positions = true) :
    Split.GroupGuarded c refs markers decls positions := by
  have hkeys : ((decls.map FuncDecl.name).zip positions).map Prod.fst = decls.map FuncDecl.name :=
    List.map_fst_zip (by rw [List.length_map, hlength])
  refine ⟨hlength, h.nodup, h.settled, h.others, fun p hp => ?_⟩
  obtain ⟨d, position⟩ := p
  have hd : d ∈ decls := (List.of_mem_zip hp).1
  refine ⟨(h.params d hd).1, (h.params d hd).2,
    (d.guarded_iff (h.scoped_rhs hlength hd position .whole)).mpr ?_⟩
  rw [hkeys]
  intro call hcall
  obtain ⟨hcaller, hcallee⟩ := FuncDecl.mem_callsIn d _ _ d.rhs [] hcall
  -- validity looks both ends of a call up by name; names are distinct, so it finds the positions
  -- meant
  have hown : ((decls.map FuncDecl.name).zip positions).lookup call.caller = some position := by
    rw [hcaller]
    refine Table.lookup_of_mem (by rw [hkeys]; exact h.nodup) ?_
    rw [List.zip_map_left]
    exact List.mem_map_of_mem hp
  rw [← hkeys, ← Table.isSome_lookup] at hcallee
  obtain ⟨g, hg⟩ := Option.isSome_iff_exists.mp hcallee
  have hall := List.all_eq_true.mp hvalid call (List.mem_flatMap.mpr ⟨d, hd, hcall⟩)
  simp only [hown, hg] at hall
  rw [hg, Option.getD_some]
  exact hall

/-- **A group with a choice of positions** that not all functions fix by a pragma. -/
theorem toSentences_sound {env : Environment} {sentences : List Sentence} {σ σ' : Session}
    (h : GroupScoped σ.counters refs markers decls)
    (hfree : ∃ d ∈ decls, env.pragmas.get? d.name = none)
    (hchoose : Decreasing.choose env decls = .ok positions)
    (hrun : Split.toSentences decls positions σ = .ok sentences σ') :
    σ'.env.pragmas = σ.env.pragmas ∧ ∃ bodies mains,
      sentences = .fixpoint bodies :: mains.map .definition ∧
      Split.IsSplit σ.counters refs markers decls bodies mains := by
  have hlength := Decreasing.length_of_choose hchoose
  have hvalid := (Decreasing.choose_ok hchoose).2 hfree
  exact Split.toSentences_sound hrun (h.guarded hlength hvalid)

end GroupScoped

end StructRec
