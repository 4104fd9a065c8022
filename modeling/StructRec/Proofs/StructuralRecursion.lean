import StructRec.Proofs.Components
import StructRec.Proofs.Hoisting

/-!
# StructRec — fixpoints are structurally recursive

A fixpoint is structurally recursive if every call among its bodies passes a strict part of the
caller's decreasing parameter at the callee's decreasing position. Calls are read off the emitted
bodies by the same analysis that chose the positions (`groupCalls`); what stands between is
splitting, inlining and hoisting.
-/

namespace StructRec

namespace Sentence

mutual

/-- The fixpoints of a sentence, also inside a section. -/
def fixpoints : Sentence → List (List FixpointBody)
  | dataTypes _ | synonym _ | definition _ => []
  | fixpoint bodies => [bodies]
  | shared _ _ _ sentences => fixpointsOfAll sentences

def fixpointsOfAll : List Sentence → List (List FixpointBody)
  | [] => []
  | s :: rest => s.fixpoints ++ fixpointsOfAll rest

end

theorem fixpointsOfAll_definitions (decls : List FuncDecl) :
    fixpointsOfAll (decls.map definition) = [] := by
  induction decls with
  | nil => rfl
  | cons d rest ih => exact ih

end Sentence

/-- The bodies have distinct names and name the parameters at their decreasing positions, and every
call from one body to another passes a strict part of the caller's decreasing parameter at the
callee's decreasing position. -/
structure StructurallyRecursive (bodies : List FixpointBody) : Prop where
  nodup : (bodies.map (·.decl.name)).Nodup
  decreasing : ∀ b ∈ bodies, b.decl.paramNames[b.decreasing.index]? = some b.decreasing.name
  calls : ∀ call ∈ groupCalls (bodies.map FixpointBody.decl), ∀ h ∈ bodies, ∀ g ∈ bodies,
    call.caller = h.decl.name → call.callee = g.decl.name →
      call.decreases g.decreasing.index h.decreasing.index = true

theorem structurallyRecursive_iff {bodies : List FixpointBody} :
    StructurallyRecursive bodies ↔ (bodies.map (·.decl.name)).Nodup ∧
      (∀ b ∈ bodies, b.decl.paramNames[b.decreasing.index]? = some b.decreasing.name) ∧
      ∀ call ∈ groupCalls (bodies.map FixpointBody.decl), ∀ h ∈ bodies, ∀ g ∈ bodies,
        call.caller = h.decl.name → call.callee = g.decl.name →
          call.decreases g.decreasing.index h.decreasing.index = true :=
  ⟨fun h => ⟨h.nodup, h.decreasing, h.calls⟩, fun h => ⟨h.1, h.2.1, h.2.2⟩⟩

instance (bodies : List FixpointBody) : Decidable (StructurallyRecursive bodies) :=
  decidable_of_iff _ structurallyRecursive_iff.symm

/-- Guarded bodies are structurally recursive. -/
theorem Split.IsSplit.structurallyRecursive {c : Counters} {refs : List Name}
    {markers : Name → Prop} {decls mains : List FuncDecl} {bodies : List FixpointBody}
    (h : IsSplit c refs markers decls bodies mains) : StructurallyRecursive bodies where
  nodup := h.nodup
  decreasing := h.decreasing
  calls call hcall caller hcaller callee hcallee hfrom hto := by
    have hkeys : (bodies.map fun b => (b.decl.name, b.decreasing.index)).map Prod.fst
        = (bodies.map FixpointBody.decl).map FuncDecl.name := by
      rw [List.map_map, List.map_map]
      rfl
    obtain ⟨d, hd, hcall⟩ := List.mem_flatMap.mp hcall
    obtain ⟨b, hb, rfl⟩ := List.mem_map.mp hd
    -- the caller is told by its name
    obtain rfl : b = caller := by
      refine List.inj_on_of_nodup_map h.nodup hb hcaller ?_
      exact (FuncDecl.mem_callsIn b.decl _ _ b.decl.rhs [] hcall).1.symm.trans hfrom
    have hposition : (bodies.map fun b => (b.decl.name, b.decreasing.index)).lookup call.callee
        = some callee.decreasing.index := by
      rw [hto]
      refine Table.lookup_of_mem ?_ (List.mem_map.mpr ⟨callee, hcallee, rfl⟩)
      rw [List.map_map]
      exact h.nodup
    obtain ⟨c', hguarded⟩ := h.guarded
    have hdecreases :=
      (b.decl.guarded_iff ((hguarded b hb).scoped _)).mp (hguarded b hb) call (hkeys ▸ hcall)
    rwa [hposition] at hdecreases

/-- **Emitted fixpoints are structurally recursive.** A group of distinct functions, of which one
has no pragma, becomes one fixpoint, at the top or in a section, and that is structurally recursive.
No pragma may be for a name that can still be generated. -/
theorem groupToSentences_structurallyRecursive {decls : List FuncDecl} {s s' : Session}
    {sentences : List Sentence}
    (h : groupToSentences decls s = .ok sentences s') (hnodup : (decls.map FuncDecl.name).Nodup)
    (hparams : ∀ d ∈ decls, d.paramNames.Nodup)
    (hunmarked : ∀ d ∈ decls, ∀ n ∈ d.names, n.isMarked = false)
    (hfree : ∃ d ∈ decls, s.env.pragmas.get? d.name = none)
    (hpragmas : ∀ n, s.env.pragmas.contains n = true →
      s.env.usesTarget n.target = true ∨ s.counters.Settled n) :
    ∃ bodies, Sentence.fixpointsOfAll sentences = [bodies] ∧ bodies ≠ [] ∧
      StructurallyRecursive bodies := by
  have hgroup : GroupScoped s.counters (outerNames decls) (fun _ => True) decls :=
    .of_unmarked hnodup hparams hunmarked fun _ _ _ _ => trivial
  -- markers play no role for recursion, so all are admitted above; a name that may be generated has
  -- no pragma
  have hgenerated : ∀ n, ¬ s.counters.Settled n → s.env.usesTarget n.target = false →
      s.env.pragmas.get? n = none := by
    intro n hnew htarget
    rw [← Option.not_isSome_iff_eq_none]
    intro hsome
    rcases hpragmas n hsome with hused | hsettled
    · rw [htarget] at hused
      cases hused
    · exact hnew hsettled
  have hdecls : decls ≠ [] := by
    obtain ⟨d, hd, _⟩ := hfree
    exact List.ne_nil_of_mem hd
  cases (groupToSentences_sound h hgroup hfree hgenerated).2 with
  | @split bodies mains hsplit =>
    refine ⟨bodies, ?_, hsplit.nonempty hdecls, hsplit.structurallyRecursive⟩
    exact congrArg (bodies :: ·) (Sentence.fixpointsOfAll_definitions mains)
  | @hoisted name typeVars vars bodies mains wrappers hhoisted =>
    obtain ⟨c', inner, _, hsplit⟩ := hhoisted.split
    refine ⟨bodies, ?_, hhoisted.nonempty, hsplit.structurallyRecursive⟩
    rw [Sentence.fixpointsOfAll, Sentence.fixpoints, Sentence.fixpointsOfAll, Sentence.fixpoints,
      Sentence.fixpointsOfAll_definitions, Sentence.fixpointsOfAll_definitions]
    rfl

/-- A function of a list: where it is not empty, the function passes `c` and an argument to
another. -/
def listFunction (name callee : Name) (arg : Expr) : FuncDecl where
  name := name
  params := [{ name := "c" }, { name := "x" }]
  rhs := .case {} (.var {} "x") [(.con "Nil" [], .var {} "c"),
    (.con "Cons" [{ name := "y" }, { name := "ys" }],
      .app {} (.app {} (.var {} callee) (.var {} "c")) arg)]

/-- Two functions that call each other and share the parameter `c`. -/
theorem alternating_structurallyRecursive :
    ∃ sentences s', groupToSentences
      [listFunction "f" "g" (.var {} "ys"), listFunction "g" "f" (.var {} "ys")] {}
        = .ok sentences s' ∧
      ∃ bodies, Sentence.fixpointsOfAll sentences = [bodies] ∧ bodies ≠ [] ∧
        StructurallyRecursive bodies := by
  obtain ⟨sentences, s', h, _⟩ := Compile.exists_of_succeedsWith (p := fun _ => true)
    (x :=
      groupToSentences
        [listFunction "f" "g" (.var {} "ys"), listFunction "g" "f" (.var {} "ys")]) (s := {})
    (by decide +kernel)
  refine ⟨sentences, s', h, groupToSentences_structurallyRecursive h ?_ ?_ ?_ ?_ ?_⟩
  · decide
  · decide
  · decide
  · exact ⟨_, List.mem_cons_self, rfl⟩
  · nofun

/-- A pragma for `f@0`, a name that is not registered. The inner function of `f` gets that name, and
with it the pragma: the call with `g ys`, which is no part of the parameter, is accepted. -/
theorem danglingPragma_not_structurallyRecursive :
    let d := listFunction "f" "f" (.app {} (.var {} "g") (.var {} "ys"))
    let env :=
      (({} : Environment).addFunc (.ofDecl d)).addPragma "f@0"
        { param := .index 0, span := .generated }
    (Dependency.components [d]).map (fun c => (c.isRecursive, c.names)) = [(true, [d.name])] ∧
      d.paramNames.Nodup ∧ (∀ n ∈ d.names, n.isMarked = false) ∧ env.pragmas.get? d.name = none ∧
      ∃ sentences s', groupToSentences [d] { env } = .ok sentences s' ∧
        ∃ bodies ∈ Sentence.fixpointsOfAll sentences, ¬ StructurallyRecursive bodies := by
  intro d env
  refine ⟨by decide +kernel, by decide, by decide, rfl, ?_⟩
  obtain ⟨sentences, s', h, hfixpoint⟩ := Compile.exists_of_succeedsWith
    (p :=
      fun sentences =>
        decide (∃ bodies ∈ Sentence.fixpointsOfAll sentences, ¬ StructurallyRecursive bodies))
    (x := groupToSentences [d]) (s := { env }) (by decide +kernel)
  exact ⟨sentences, s', h, of_decide_eq_true hfixpoint⟩

end StructRec
