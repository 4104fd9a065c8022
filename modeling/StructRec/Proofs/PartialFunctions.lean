import StructRec.Proofs.Conversions

/-!
# StructRec — partial functions lead to a marker

Functions are classified in one pass over the components. That it finds every marker a function
leads to rests on the order of the pass and on what a component is: a call leads into the same
component or into one that is classified already, and the functions of a component lead to each
other, so they share one answer.
-/

namespace StructRec

open Relation

/-! ## What a function leads to -/

/-- One of the names of the markers is among the references of a function. -/
def FuncDecl.RefersToMarker (d : FuncDecl) : Prop :=
  Expr.undefinedKey ∈ d.references ∨ Expr.errorKey ∈ d.references

/-- A function refers to one of these functions. -/
def Calls (decls : List FuncDecl) (d e : FuncDecl) : Prop := e ∈ decls ∧ e.name ∈ d.references

/-- Zero or more calls lead from a function to one that refers to a marker. -/
def LeadsToMarker (decls : List FuncDecl) (d : FuncDecl) : Prop :=
  ∃ e, ReflTransGen (Calls decls) d e ∧ e.RefersToMarker

namespace Expr

mutual

/-- There are two kinds of markers. -/
theorem mem_markers : (e : Expr) → ∀ key ∈ e.markers, key = undefinedKey ∨ key = errorKey
  | undefined _ => List.forall_mem_singleton.mpr (.inl rfl)
  | error _ _ => List.forall_mem_singleton.mpr (.inr rfl)
  | var _ _ | con _ _ | intLit _ _ => List.forall_mem_nil _
  | app _ fn arg => List.forall_mem_append.mpr ⟨mem_markers fn, mem_markers arg⟩
  | typeApp _ fn _ => mem_markers fn
  | cond _ test thenBranch elseBranch => List.forall_mem_append.mpr
      ⟨List.forall_mem_append.mpr ⟨mem_markers test, mem_markers thenBranch⟩,
        mem_markers elseBranch⟩
  | case _ scrutinee alts =>
      List.forall_mem_append.mpr ⟨mem_markers scrutinee, mem_markersAlts alts⟩
  | lam _ _ body => mem_markers body
  | letRec _ binds body => List.forall_mem_append.mpr ⟨mem_markersRhss binds, mem_markers body⟩

theorem mem_markersAlts : (alts : Alts) → ∀ key ∈ markersAlts alts,
    key = undefinedKey ∨ key = errorKey
  | [] => List.forall_mem_nil _
  | (_, rhs) :: rest => List.forall_mem_append.mpr ⟨mem_markers rhs, mem_markersAlts rest⟩

theorem mem_markersRhss : (binds : Binds) → ∀ key ∈ markersRhss binds,
    key = undefinedKey ∨ key = errorKey
  | [] => List.forall_mem_nil _
  | (_, rhs) :: rest => List.forall_mem_append.mpr ⟨mem_markers rhs, mem_markersRhss rest⟩

end

theorem hasMarker_iff (e : Expr) :
    e.hasMarker = true ↔ undefinedKey ∈ e.markers ∨ errorKey ∈ e.markers := by
  rw [hasMarker, Bool.not_eq_true', List.isEmpty_eq_false_iff]
  constructor
  · intro hne
    obtain ⟨key, hkey⟩ := List.exists_mem_of_ne_nil _ hne
    rcases e.mem_markers key hkey with rfl | rfl
    · exact .inl hkey
    · exact .inr hkey
  · rintro (hkey | hkey)
    · exact List.ne_nil_of_mem hkey
    · exact List.ne_nil_of_mem hkey

end Expr

/-- What refers to a marker uses it, or a free variable of that name that is no parameter. -/
theorem FuncDecl.refersToMarker_iff (d : FuncDecl) :
    d.RefersToMarker ↔ d.rhs.hasMarker = true ∨
      ∃ key, (key = Expr.undefinedKey ∨ key = Expr.errorKey) ∧ d.rhs.occursFree key = true ∧
        key ∉ d.paramNames := by
  rw [RefersToMarker, Expr.hasMarker_iff, mem_references_iff, mem_references_iff]
  simp only [Expr.occursFree_iff_mem_freeOccs, or_and_right, exists_or, exists_eq_left]
  tauto

namespace Dependency

variable {decls : List FuncDecl}

/-- References between positions are calls between the functions there. -/
theorem calls_of_leads {i j : Nat} {d e : FuncDecl} (h : Leads decls i j) (hi : decls[i]? = some d)
    (hj : decls[j]? = some e) : ReflTransGen (Calls decls) d e := by
  induction h generalizing e with
  | refl =>
    obtain rfl := Option.some.inj (hi.symm.trans hj)
    exact .refl
  | tail _ hrefers ih =>
    obtain ⟨d', e', hd', he', hname, _⟩ := hrefers
    obtain rfl := Option.some.inj (hj.symm.trans he')
    exact (ih hd').tail ⟨List.mem_of_getElem? hj, hname⟩

/-- The functions of a component lead to each other. -/
theorem calls_within {c : Component FuncDecl} (hc : c ∈ components decls) {d e : FuncDecl}
    (hd : d ∈ c.decls) (he : e ∈ c.decls) :
    ReflTransGen (Calls decls) d e := by
  obtain ⟨a, ha⟩ := List.getElem?_of_mem hc
  obtain ⟨members, hmembers, hof⟩ := exists_class ha
  obtain ⟨i, hi, hdi⟩ := hof.mem_decls.mp hd
  obtain ⟨j, hj, hej⟩ := hof.mem_decls.mp he
  have hlinked := (isArrangement_order decls).linked members (List.mem_of_getElem? hmembers) i hi j
  exact calls_of_leads (hlinked.mp hj).1 hdi hej

end Dependency

/-! ## Recording an answer -/

namespace Environment

/-- An update changes one function. -/
theorem func?_updateFunc (env : Environment) (name : Name) (f : FuncEntry → FuncEntry) (n : Name) :
    (env.updateFunc name f).func? n = if name = n then (env.func? n).map f else env.func? n := by
  by_cases hname : name = n
  · subst hname
    rw [if_pos rfl, updateFunc]
    cases hfunc : env.func? name with
    | none => exact hfunc
    | some entry =>
      refine func?_eq_some_iff.mpr ?_
      rw [Table.get?_insert, if_pos rfl]
  · rw [if_neg hname, updateFunc]
    cases env.func? name with
    | none => rfl
    | some entry => rw [func?, Table.get?_insert, if_neg hname, func?]

theorem func?_addFunc (env : Environment) (entry : FuncEntry) (n : Name) :
    (env.addFunc entry).func? n = if entry.name = n then some entry else env.func? n := by
  have hget : (env.addFunc entry).values.get? n =
      if entry.name = n then some (.func entry) else env.values.get? n :=
    Table.get?_insert _ _ _ _
  by_cases hname : entry.name = n
  · rw [if_pos hname] at hget ⊢
    exact func?_eq_some_iff.mpr hget
  · rw [if_neg hname] at hget ⊢
    rw [func?, hget, func?]

/-- The last of the functions with a name is registered, as it is declared. -/
theorem func?_foldl_addFunc (decls : List FuncDecl) (env : Environment) (n : Name) :
    (n ∉ decls.map FuncDecl.name ∧
      (decls.foldl (fun env d => env.addFunc (.ofDecl d)) env).func? n = env.func? n) ∨
      ∃ d ∈ decls, d.name = n ∧
        (decls.foldl (fun env d => env.addFunc (.ofDecl d)) env).func? n = some (.ofDecl d) := by
  induction decls generalizing env with
  | nil => exact .inl ⟨List.not_mem_nil, rfl⟩
  | cons d rest ih =>
    rw [List.foldl_cons]
    rcases ih (env.addFunc (.ofDecl d)) with ⟨hnot, hget⟩ | ⟨e, he, hname, hget⟩
    · have hadd := env.func?_addFunc (.ofDecl d) n
      by_cases hname : d.name = n
      · rw [if_pos (show (FuncEntry.ofDecl d).name = n from hname)] at hadd
        exact .inr ⟨d, List.mem_cons_self, hname, hget.trans hadd⟩
      · rw [if_neg (show (FuncEntry.ofDecl d).name ≠ n from hname)] at hadd
        refine .inl ⟨fun hmem => ?_, hget.trans hadd⟩
        exact (List.mem_cons.mp hmem).elim (fun heq => hname heq.symm) hnot
    · exact .inr ⟨e, List.mem_cons_of_mem _ he, hname, hget⟩

/-- One answer for several functions. -/
theorem func?_foldl_setPartial (env : Environment) (names : List Name) (b : Bool) (n : Name) :
    (names.foldl (fun env name => env.setPartial name b) env).func? n =
      if n ∈ names then (env.func? n).map ({ · with isPartial := b }) else env.func? n := by
  induction names generalizing env with
  | nil => rfl
  | cons name rest ih =>
    rw [List.foldl_cons, ih, setPartial, func?_updateFunc]
    by_cases hrest : n ∈ rest <;> by_cases hname : name = n
    · rw [if_pos hrest, if_pos hname, if_pos (List.mem_cons_of_mem _ hrest), Option.map_map]
      rfl
    · rw [if_pos hrest, if_neg hname, if_pos (List.mem_cons_of_mem _ hrest)]
    · rw [if_neg hrest, if_pos hname, if_pos (hname ▸ List.mem_cons_self)]
    · have hnot : n ∉ name :: rest :=
        fun hmem => (List.mem_cons.mp hmem).elim (fun heq => hname heq.symm) hrest
      rw [if_neg hrest, if_neg hname, if_neg hnot]

end Environment

/-! ## Classifying components in order -/

/-- The functions with these names have been classified. The others are registered, and not known to
be partial. -/
structure Classified (decls : List FuncDecl) (done : List Name) (env : Environment) : Prop where
  registered : ∀ d ∈ decls, (env.func? d.name).isSome = true
  isPartial_iff : ∀ n, env.isPartial n = true ↔
    n ∈ done ∧ ∃ d ∈ decls, d.name = n ∧ LeadsToMarker decls d

namespace Partiality

variable {decls : List FuncDecl} {env : Environment} {pre post : List (Component FuncDecl)}
  {c : Component FuncDecl}

/-- **The answer for a component** is that of each of its functions. -/
theorem isPartialGroup_iff (hnodup : (decls.map FuncDecl.name).Nodup)
    (hcomponents : Dependency.components decls = pre ++ c :: post)
    (henv : Classified decls (pre.flatMap Component.names) env) {d : FuncDecl} (hd : d ∈ c.decls) :
    isPartialGroup env c.decls = true ↔ LeadsToMarker decls d := by
  have hc : c ∈ Dependency.components decls :=
    hcomponents ▸ List.mem_append_right _ List.mem_cons_self
  have hgroup : isPartialGroup env c.decls = true ↔ ∃ e ∈ c.decls, ∃ name ∈ e.references,
      (name = Expr.undefinedKey ∨ name = Expr.errorKey) ∨
        name ∉ c.decls.map FuncDecl.name ∧ env.isPartial name = true := by
    simp only [isPartialGroup, List.any_eq_true, Bool.or_eq_true, Bool.and_eq_true,
      decide_eq_true_eq]
  rw [hgroup]
  constructor
  · rintro ⟨e, he, name, hname, hmarker⟩
    -- the function leads to `e`, and `e` to a marker
    have hlead := Dependency.calls_within hc hd he
    rcases hmarker with (rfl | rfl) | ⟨_, hpartial⟩
    · exact ⟨e, hlead, .inl hname⟩
    · exact ⟨e, hlead, .inr hname⟩
    · obtain ⟨_, e', he', rfl, last, hlast, hmarker⟩ := (henv.isPartial_iff name).mp hpartial
      exact ⟨last, hlead.trans (.head ⟨he', hname⟩ hlast), hmarker⟩
  · rintro ⟨last, hlead, hmarker⟩
    -- along the calls: as long as they stay in the component nothing is found, and the first one
    -- that leaves it leads into an earlier component
    induction hlead using ReflTransGen.head_induction_on with
    | refl =>
      rcases hmarker with hkey | hkey
      · exact ⟨last, hd, _, hkey, .inl (.inl rfl)⟩
      · exact ⟨last, hd, _, hkey, .inl (.inr rfl)⟩
    | @head d e hcall hrest ih =>
      by_cases he : e ∈ c.decls
      · exact ih he
      · have hother : e.name ∉ c.decls.map FuncDecl.name := by
          intro hmem
          obtain ⟨e', he', hsame⟩ := List.mem_map.mp hmem
          exact he
            (List.inj_on_of_nodup_map hnodup (Dependency.mem_of_mem_components hc he')
              hcall.1 hsame ▸ he')
        have hearlier : e.name ∈ pre.flatMap Component.names :=
          (Dependency.components_earlier hcomponents hd hcall.2
            (List.mem_map_of_mem hcall.1)).resolve_left hother
        exact ⟨d, hd, e.name, hcall.2, .inr ⟨hother,
          (henv.isPartial_iff e.name).mpr ⟨hearlier, e, hcall.1, rfl, last, hrest, hmarker⟩⟩⟩

end Partiality

namespace Classified

variable {decls : List FuncDecl} {env : Environment}

/-- **One component.** Its functions get their answer, and nothing else changes. -/
theorem step {pre post : List (Component FuncDecl)} {c : Component FuncDecl}
    (hnodup : (decls.map FuncDecl.name).Nodup)
    (hcomponents : Dependency.components decls = pre ++ c :: post)
    (henv : Classified decls (pre.flatMap Component.names) env) :
    Classified decls ((pre ++ [c]).flatMap Component.names) (Partiality.classify env c) := by
  -- only the functions of the component are touched
  have hfunc : ∀ n, (Partiality.classify env c).func? n = if n ∈ c.names
      then (env.func? n).map ({ · with isPartial := Partiality.isPartialGroup env c.decls })
        else env.func? n :=
    env.func?_foldl_setPartial c.names _
  have hc : c ∈ Dependency.components decls :=
    hcomponents ▸ List.mem_append_right _ List.mem_cons_self
  have hdone : ∀ n, n ∈ (pre ++ [c]).flatMap Component.names ↔
      n ∈ pre.flatMap Component.names ∨ n ∈ c.names := by
    intro n
    rw [List.flatMap_append, List.mem_append, List.flatMap_singleton]
  constructor
  · intro d hd
    rw [hfunc]
    split
    · rw [Option.isSome_map]
      exact henv.registered d hd
    · exact henv.registered d hd
  · intro n
    rw [hdone, Environment.isPartial, hfunc]
    split
    · next hn =>
      obtain ⟨d, hd, hname⟩ := List.mem_map.mp hn
      have hdecl := Dependency.mem_of_mem_components hc hd
      -- a function of the component gets the answer of the whole group
      have hanswer :
          ((env.func? n).map fun entry =>
            { entry with isPartial := Partiality.isPartialGroup env c.decls }).any
          FuncEntry.isPartial = Partiality.isPartialGroup env c.decls := by
        obtain ⟨entry, hentry⟩ := Option.isSome_iff_exists.mp (henv.registered d hdecl)
        rw [← hname]
        change ((env.func? d.name).map _).any _ = _
        rw [hentry]
        rfl
      rw [hanswer, Partiality.isPartialGroup_iff hnodup hcomponents henv hd]
      constructor
      · intro hleads
        exact ⟨.inr hn, d, hdecl, hname, hleads⟩
      · rintro ⟨_, e, he, hname', hleads⟩
        exact List.inj_on_of_nodup_map hnodup he hdecl (hname'.trans hname.symm) ▸ hleads
    · next hn =>
      rw [or_iff_left hn]
      exact henv.isPartial_iff n

/-- **All components**, by induction along their order. -/
theorem run (pre : List (Component FuncDecl)) {post : List (Component FuncDecl)}
    (hnodup : (decls.map FuncDecl.name).Nodup)
    (hcomponents : Dependency.components decls = pre ++ post)
    (henv : Classified decls (pre.flatMap Component.names) env) :
    Classified decls (decls.map FuncDecl.name) (Partiality.classifyAll env post) := by
  induction post generalizing pre env with
  | nil =>
    refine ⟨henv.registered, fun n => (henv.isPartial_iff n).trans (and_congr_left fun _ => ?_)⟩
    have hperm := Dependency.flatMap_names_perm decls
    rw [hcomponents, List.append_nil] at hperm
    exact hperm.mem_iff
  | cons c rest ih =>
    exact ih (pre ++ [c]) (by rw [hcomponents, List.append_assoc, List.singleton_append])
      (henv.step hnodup hcomponents)

/-- Functions that have just been registered are not known to be partial. -/
theorem of_registered (m : Module) (pragmas : Table PragmaEntry) :
    Classified m.funcDecls []
      { m.funcDecls.foldl (fun env d => env.addFunc (.ofDecl d))
        ({} : Environment) with pragmas } := by
  have hfunc := Environment.func?_foldl_addFunc m.funcDecls {}
  refine ⟨fun d hd => ?_, fun n => ⟨fun hpartial => ?_, fun h => absurd h.1 List.not_mem_nil⟩⟩
  · rcases hfunc d.name with ⟨hnot, _⟩ | ⟨e, _, _, hget⟩
    · exact absurd (List.mem_map_of_mem hd) hnot
    · exact Option.isSome_of_eq_some hget
  · have hnone :
        ((m.funcDecls.foldl (fun env d => env.addFunc (.ofDecl d)) ({} : Environment)).func? n).any
        FuncEntry.isPartial = false := by
      rcases hfunc n with ⟨_, hget⟩ | ⟨e, _, _, hget⟩ <;> rw [hget] <;> rfl
    exact absurd hpartial (Bool.eq_false_iff.mp hnone)

/-- The environment in which the components of a module are converted. -/
theorem of_module {m : Module} (hnodup : (m.funcDecls.map FuncDecl.name).Nodup)
    (pragmas : Table PragmaEntry) :
    Classified m.funcDecls (m.funcDecls.map FuncDecl.name) (m.registered {} pragmas) :=
  run [] hnodup rfl (of_registered m pragmas)

end Classified

/-- **Partiality is reachability of a marker.** In a module with distinct function names, a function
is classified as partial exactly if zero or more references to functions of the module lead from it
to a function that refers to a marker: one with `undefined` or `error` in its right-hand side, or
with a free variable of that name that is no parameter. -/
theorem isPartial_iff_leads_to_marker {m : Module} (hnodup : (m.funcDecls.map FuncDecl.name).Nodup)
    {ordered : OrderedModule} {s' : Session} (h : m.prepare {} = .ok ordered s') :
    (∀ d ∈ m.funcDecls, s'.env.isPartial d.name = true ↔
      ∃ e, ReflTransGen (Calls m.funcDecls) d e ∧ e.RefersToMarker) ∧
    ∀ e : FuncDecl, e.RefersToMarker ↔ e.rhs.hasMarker = true ∨
      ∃ key, (key = Expr.undefinedKey ∨ key = Expr.errorKey) ∧ e.rhs.occursFree key = true ∧
        key ∉ e.paramNames := by
  obtain ⟨_, pragmas, henv⟩ := Module.prepare_ok h
  refine ⟨fun d hd => ?_, FuncDecl.refersToMarker_iff⟩
  rw [henv, (Classified.of_module hnodup pragmas).isPartial_iff]
  constructor
  · -- the name stands for one function only
    rintro ⟨_, e, he, hname, hleads⟩
    exact List.inj_on_of_nodup_map hnodup he hd hname ▸ hleads
  · intro hleads
    exact ⟨List.mem_map_of_mem hd, d, hd, rfl, hleads⟩

/-- Two functions that call each other, one of which fails for the empty list, a caller of them, and
a function with a parameter that has the name of a marker. -/
def alternation : Module where
  name := "Alternation"
  funcDecls := [
    { name := "everyOther", params := [{ name := "xs" }],
      rhs := .app {} (.var {} "keep") (.var {} "xs") },
    { name := "keep", params := [{ name := "xs" }]
      rhs := .case {} (.var {} "xs") [(.con "Nil" [], .con {} "Nil"),
        (.con "Cons" [{ name := "y" }, { name := "ys" }],
          .app {} (.var {} "skip") (.var {} "ys"))] },
    { name := "skip", params := [{ name := "xs" }]
      rhs := .case {} (.var {} "xs") [(.con "Nil" [], .error {} "odd"),
        (.con "Cons" [{ name := "y" }, { name := "ys" }],
          .app {} (.var {} "keep") (.var {} "ys"))] },
    { name := "same", params := [{ name := "error" }], rhs := .var {} "error" }]

/-- The caller leads to the marker, the parameter is none. -/
theorem alternation_leads_to_marker :
    (alternation.funcDecls.map FuncDecl.name).Nodup ∧ ∃ ordered s',
      alternation.prepare {} = .ok ordered s' ∧
      ∃ everyOther ∈ alternation.funcDecls, ∃ same ∈ alternation.funcDecls,
        everyOther.name = "everyOther" ∧ LeadsToMarker alternation.funcDecls everyOther ∧
        same.name = "same" ∧ ¬ LeadsToMarker alternation.funcDecls same := by
  have hnodup : (alternation.funcDecls.map FuncDecl.name).Nodup := by decide
  obtain ⟨ordered, s', h, hcheck⟩ := Compile.exists_of_endsWith
    (p := fun _ env => env.isPartial "everyOther" && !env.isPartial "same")
    (x := alternation.prepare) (s := {}) (by decide +kernel)
  obtain ⟨heveryOther, hsame⟩ := Bool.and_eq_true_iff.mp hcheck
  have hiff := (isPartial_iff_leads_to_marker hnodup h).1
  refine ⟨hnodup, ordered, s', h, _, List.mem_cons_self, _, List.mem_of_getElem? (i := 3) rfl,
    rfl, ?_, rfl, ?_⟩
  · exact (hiff _ List.mem_cons_self).mp heveryOther
  · rw [LeadsToMarker, ← hiff _ (List.mem_of_getElem? (i := 3) rfl)]
    intro hpartial
    rw [hpartial] at hsame
    cases hsame

end StructRec
