import StructRec.Proofs.DefinitionOrder

/-!
# StructRec — pragmas of inner functions

Where a section takes the constant parameters of a function over, the pragma of the function becomes
one for its inner function. The position that it gives is counted down by the constant positions
before it, while the parameters of the inner function are those that are left when the constant ones
are dropped. Both ways lead to the same parameter, and a pragma is refused exactly if it points at
no parameter or at a constant one.
-/

namespace StructRec

/-- A pragma points at the parameter at this position: by the position itself, or by the name of the
parameter there. -/
def ParamRef.PointsAt (d : FuncDecl) : ParamRef → Nat → Prop
  | index k, i => k = i ∧ i < d.arity
  | name x, i => d.paramNames[i]? = some x

instance (d : FuncDecl) : (ref : ParamRef) → (i : Nat) → Decidable (ref.PointsAt d i)
  | .index k, i => inferInstanceAs (Decidable (k = i ∧ i < d.arity))
  | .name x, i => inferInstanceAs (Decidable (d.paramNames[i]? = some x))

section pragmas

variable {d : FuncDecl} {ref : ParamRef} {i j : Nat}

theorem ParamRef.PointsAt.lt_arity (h : ref.PointsAt d i) : i < d.arity := by
  cases ref with
  | index k => exact h.2
  | name x =>
    have hlt := (List.getElem?_eq_some_iff.mp h).1
    rwa [FuncDecl.paramNames, binderNames, List.length_map] at hlt

/-- Parameters with different names are found by their names. -/
theorem FuncDecl.paramPosition?_iff (hparams : d.paramNames.Nodup) {x : Name} :
    d.paramPosition? x = some i ↔ d.paramNames[i]? = some x := by
  rw [paramPosition?, List.idxOf?_eq_some_iff, List.getElem?_eq_some_iff]
  constructor
  · rintro ⟨hlt, hname, _⟩
    exact ⟨hlt, hname⟩
  · rintro ⟨hlt, rfl⟩
    refine ⟨hlt, rfl, fun k hk hname => ?_⟩
    rw [hparams.getElem_inj_iff] at hname
    omega

namespace Decreasing

/-- A pragma is read as the position that it points at. -/
theorem ofPragma_iff {env : Environment} {entry : PragmaEntry} (hparams : d.paramNames.Nodup)
    (hpragma : env.pragmas.get? d.name = some entry) :
    ofPragma env d = .ok (some i) ↔ entry.param.PointsAt d i := by
  obtain ⟨ref, span⟩ := entry
  unfold ofPragma
  rw [hpragma]
  cases ref with
  | index k =>
    simp only [ParamRef.PointsAt]
    split
    · next hk =>
      rw [Except.ok.injEq, Option.some.injEq]
      constructor
      · rintro rfl
        exact ⟨rfl, hk⟩
      · exact And.left
    · next hk =>
      refine iff_of_false (by simp) ?_
      rintro ⟨rfl, hlt⟩
      exact hk hlt
  | name x =>
    simp only [ParamRef.PointsAt, ← FuncDecl.paramPosition?_iff hparams]
    cases d.paramPosition? x <;> simp

end Decreasing

namespace Hoist

variable {positions : List Nat}

/-- Not more than `i` positions stand before position `i`, so counting down by them never stops at
zero. -/
theorem innerPosition_add (hnodup : positions.Nodup) (i : Nat) :
    innerPosition positions i + (positions.filter (· < i)).length = i := by
  have hsub : positions.filter (· < i) ⊆ List.range i := by
    intro k hk
    rw [List.mem_range]
    exact of_decide_eq_true (List.mem_filter.mp hk).2
  have hle := ((hnodup.filter _).subperm hsub).length_le
  rw [List.length_range] at hle
  exact Nat.sub_add_cancel hle

/-- A pragma becomes one for the inner function exactly if it points at a parameter that is not
constant. -/
theorem innerPragma_iff {env : Environment} {entry : PragmaEntry} (hparams : d.paramNames.Nodup)
    (hpragma : env.pragmas.get? d.name = some entry) {inner : Option PragmaEntry} :
    innerPragma env positions d = .ok inner ↔ ∃ i, entry.param.PointsAt d i ∧ i ∉ positions ∧
      inner = some { param := .index (innerPosition positions i), span := entry.span } := by
  constructor
  · intro h
    obtain ⟨ref, span⟩ := entry
    unfold innerPragma at h
    rw [hpragma] at h
    simp only at h
    split at h
    · cases h
    · next i b hfound =>
      split at h
      · cases h
      · next hi =>
        refine ⟨i, ?_, hi, (Except.ok.inj h).symm⟩
        -- the pragma gives a position, or a name that only one parameter has
        obtain ⟨k, hk, hparam⟩ := Option.bind_eq_some_iff.mp hfound
        obtain ⟨_, hb, heq⟩ := Option.map_eq_some_iff.mp hparam
        obtain ⟨rfl, rfl⟩ := Prod.mk.inj heq
        cases ref with
        | index k' =>
          obtain rfl := Option.some.inj hk
          exact ⟨rfl, (List.getElem?_eq_some_iff.mp hb).1⟩
        | name x => exact (FuncDecl.paramPosition?_iff hparams).mp hk
  · rintro ⟨i, hpoints, hi, rfl⟩
    obtain ⟨b, hb⟩ : ∃ b, d.params[i]? = some b := ⟨_, List.getElem?_eq_getElem hpoints.lt_arity⟩
    obtain ⟨ref, span⟩ := entry
    unfold innerPragma
    rw [hpragma]
    cases ref with
    | index k =>
      obtain ⟨rfl, _⟩ := hpoints
      simp only [Option.bind_some, hb, Option.map_some, if_neg hi]
      rfl
    | name x =>
      have hposition : d.paramPosition? x = some i :=
        (FuncDecl.paramPosition?_iff hparams).mpr hpoints
      simp only [hposition, Option.bind_some, hb, Option.map_some, if_neg hi]
      rfl

/-- Registering an inner function succeeds if the pragma becomes one for it, which is then
registered, too. -/
theorem registerInner_of_innerPragma {σ : Session} {p : PragmaEntry}
    (h : innerPragma σ.env positions d = .ok (some p)) (inner : FuncDecl) :
    ∃ σ', registerInner positions d inner σ = .ok () σ' ∧
      σ'.env.pragmas.get? inner.name = some p := by
  refine ⟨{ σ with env := (σ.env.addFunc { FuncEntry.ofDecl inner with
    needsFreeArgs := σ.env.needsFreeArgs d.name, isPartial :=
      σ.env.isPartial d.name }).addPragma inner.name p }, ?_, ?_⟩
  · refine Compile.bind_ok.mpr ⟨(), _, rfl, Compile.bind_ok.mpr ⟨_, _, rfl, ?_⟩⟩
    rw [show innerPragma (σ.env.addFunc _) positions d = .ok (some p) from h]
    rfl
  · exact (Table.get?_insert _ _ _ _).trans (if_pos rfl)

theorem innerPragma_of_registerInner {inner : FuncDecl} {σ σ' : Session}
    (h : registerInner positions d inner σ = .ok () σ') :
    ∃ pragma, innerPragma σ.env positions d = .ok pragma := by
  simp only [registerInner, Compile.bind_ok, Compile.lift_ok, Session.modifyEnv_eq,
    Session.getEnv_eq] at h
  obtain ⟨_, σ₁, rfl, _, _, ⟨rfl, rfl⟩, h⟩ := h
  cases hresult : innerPragma σ.env positions d with
  | error diagnostic =>
    rw [show innerPragma (σ.env.addFunc _) positions d = .error diagnostic from hresult] at h
    exact absurd h Compile.throw_ok
  | ok pragma => exact ⟨pragma, rfl⟩

/-- **The pragma of an inner function points at the parameter of the function.** For a function with
a pragma and distinct parameters, and any set of constant positions, the inner function is
registered exactly if the pragma points at a parameter that is not constant. The pragma of the inner
function is then read as the position of that parameter among those that are left. -/
theorem registerInner_points_alike (plan : Plan) (hpositions : plan.positions.Nodup) (d : FuncDecl)
    (hparams : d.paramNames.Nodup) (σ : Session) (entry : PragmaEntry)
    (hpragma : σ.env.pragmas.get? d.name = some entry) :
    ((∃ σ', registerInner plan.positions d (plan.reduce d) σ = .ok () σ') ↔
        ∃ i, entry.param.PointsAt d i ∧ i ∉ plan.positions) ∧
      ∀ σ', registerInner plan.positions d (plan.reduce d) σ = .ok () σ' →
        ∃ i j b, Decreasing.ofPragma σ.env d = .ok (some i) ∧ d.params[i]? = some b ∧
          Decreasing.ofPragma σ'.env (plan.reduce d) = .ok (some j) ∧
            (plan.reduce d).params[j]? = some b ∧
          j + (plan.positions.filter (· < i)).length = i := by
  have hinner (i : Nat) (hpoints : entry.param.PointsAt d i) (hi : i ∉ plan.positions) :
      ∃ σ' b, registerInner plan.positions d (plan.reduce d) σ = .ok () σ' ∧ d.params[i]? = some b ∧
        Decreasing.ofPragma σ'.env (plan.reduce d) = .ok (some (innerPosition plan.positions i)) ∧
        (plan.reduce d).params[innerPosition plan.positions i]? = some b := by
    obtain ⟨b, hb⟩ : ∃ b, d.params[i]? = some b := ⟨_, List.getElem?_eq_getElem hpoints.lt_arity⟩
    -- the parameter has moved to the left by the positions dropped before it
    have hmoved : (plan.reduce d).params[innerPosition plan.positions i]? = some b :=
      (getElem?_dropAt hpositions hi d.params).trans hb
    obtain ⟨σ', hrun, hregistered⟩ := registerInner_of_innerPragma
      ((innerPragma_iff hparams hpragma).mpr ⟨i, hpoints, hi, rfl⟩) (plan.reduce d)
    refine ⟨σ', b, hrun, hb, ?_, hmoved⟩
    have hdistinct : (plan.reduce d).paramNames.Nodup :=
      ((dropAt_sublist plan.positions d.params).map _).nodup hparams
    exact (Decreasing.ofPragma_iff hdistinct hregistered).mpr
      ⟨rfl, (List.getElem?_eq_some_iff.mp hmoved).1⟩
  -- a dropped parameter would have made the registration fail
  have hpoints {σ' : Session} (h : registerInner plan.positions d (plan.reduce d) σ = .ok () σ') :
      ∃ i, entry.param.PointsAt d i ∧ i ∉ plan.positions := by
    obtain ⟨pragma, hfound⟩ := innerPragma_of_registerInner h
    obtain ⟨i, hpoints, hi, _⟩ := (innerPragma_iff hparams hpragma).mp hfound
    exact ⟨i, hpoints, hi⟩
  constructor
  · constructor
    · rintro ⟨σ', h⟩
      exact hpoints h
    · rintro ⟨i, hpoints, hi⟩
      obtain ⟨σ', _, hrun, _⟩ := hinner i hpoints hi
      exact ⟨σ', hrun⟩
  · intro σ' h
    obtain ⟨i, hpoints, hi⟩ := hpoints h
    obtain ⟨σ'', b, hrun, hb, hread, hmoved⟩ := hinner i hpoints hi
    cases h.symm.trans hrun
    exact ⟨i, _, b, (Decreasing.ofPragma_iff hparams hpragma).mpr hpoints, hb, hread, hmoved,
      innerPosition_add hpositions i⟩

/-- `f a x b y` whose parameters `a` and `b` are constant. -/
def betweenConstants : FuncDecl :=
  { name := "f", params := [{ name := "a" }, { name := "x" }, { name := "b" }, { name := "y" }]
    rhs := .undefined {} }

/-- The section that takes `a` and `b` over. -/
def betweenConstantsPlan : Plan :=
  { positions := [0, 2], vars := [{ name := "a" }, { name := "b" }], typeVars := []
    innerNames := Table.ofList [("f", "f@0")], hoistedTypes := Table.ofList [("f", [])] }

/-- A pragma for `y` by its name is one for the second parameter of the inner function, which is `y`
again. -/
theorem betweenConstants_points_alike :
    ∃ σ' j, registerInner [0, 2] betweenConstants (betweenConstantsPlan.reduce betweenConstants)
        { env := { pragmas := .ofList [("f", { param := .name "y", span := Span.generated })] } }
          = .ok () σ' ∧
      Decreasing.ofPragma σ'.env (betweenConstantsPlan.reduce betweenConstants) =
        .ok (some j) ∧ j = 1 ∧
      (betweenConstantsPlan.reduce betweenConstants).paramNames[j]? = some "y" := by
  obtain ⟨hsucceeds, hreads⟩ :=
    registerInner_points_alike betweenConstantsPlan (by decide) betweenConstants (by decide)
      { env := { pragmas := .ofList [("f", { param := .name "y", span := Span.generated })] } } _
      rfl
  obtain ⟨σ', hrun⟩ := hsucceeds.mpr ⟨3, by decide, by decide⟩
  obtain ⟨i, j, b, hread, hb, hinner, hmoved, hcount⟩ := hreads σ' hrun
  obtain rfl : 3 = i := Option.some.inj (Except.ok.inj hread)
  obtain rfl : j = 1 := Nat.add_right_cancel hcount
  exact ⟨σ', 1, hrun, hinner, rfl, rfl⟩

end Hoist

end pragmas

end StructRec
