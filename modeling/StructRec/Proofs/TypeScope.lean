import StructRec.Proofs.GroupOccurrences

/-!
# StructRec — type variables stay in scope through sections

A section takes its type variables from the types of its variables, and each of these types from the
first function that annotates the parameter. The type parameters of these names leave the functions
of the section; the others stay. So inside the section every type variable is a type parameter of
its function or a type variable of the section.

After the section every function passes all type variables of the section on under their names. They
are in scope there only if each of them is a type parameter of each function (`SharesTypeParams`):
unlike the constant parameters themselves, which have one name in all functions, type parameters are
not compared.
-/

namespace StructRec

/-- The occurrences of type variables in the annotations and the visible type applications of a
function. -/
def FuncDecl.typeVarOccs (d : FuncDecl) : List Name :=
  d.params.flatMap (Expr.annotationOccs ·.ty) ++ Expr.annotationOccs d.returnTy ++ d.rhs.typeVarOccs

/-- Every type variable of a function is one of its type parameters or comes from around it. -/
def FuncDecl.TypeScoped (outer : List Name) (d : FuncDecl) : Prop :=
  ∀ t ∈ d.typeVarOccs, t ∈ outer ∨ t ∈ d.typeParamNames

instance (outer : List Name) (d : FuncDecl) : Decidable (d.TypeScoped outer) :=
  inferInstanceAs (Decidable (∀ t ∈ d.typeVarOccs, t ∈ outer ∨ t ∈ d.typeParamNames))

theorem FuncDecl.typeScoped_iff_uses {outer : List Name} {d : FuncDecl} :
    d.TypeScoped outer ↔ d.Uses (fun _ => True) (· ∈ outer) := by
  unfold TypeScoped typeVarOccs
  simp only [List.forall_mem_append]
  constructor
  · rintro ⟨⟨hparams, hreturn⟩, hrhs⟩
    exact ⟨trivial, binders_uses_iff.mpr ⟨fun _ _ => trivial, hparams⟩, hreturn,
      (Expr.uses_iff d.rhs).mpr ⟨fun _ _ => trivial, fun _ _ => trivial, hrhs⟩⟩
  · intro h
    exact ⟨⟨(binders_uses_iff.mp h.params).2, h.returnTy⟩, ((Expr.uses_iff d.rhs).mp h.rhs).2.2⟩

/-- The types of the shared parameters, each as first annotated, mention type parameters of all
functions only. -/
def SharesTypeParams (decls : List FuncDecl) (positions : List Nat) : Prop :=
  ∀ position ∈ positions, ∀ ty, Hoist.annotationAt? position decls = some (some ty) →
    ∀ t ∈ ty.varOccs, ∀ d ∈ decls, t ∈ d.typeParamNames

namespace Hoist

variable {decls : List FuncDecl} {positions : List Nat} {sentences : List Sentence} {σ σ' : Session}
variable {vars : List Binder}

/-- The section has the types of its variables from the functions in order. -/
theorem sectionVariables_types (h : sectionVariables? decls positions = some vars) :
    List.Forall₂ (fun p (b : Binder) => annotationAt? p decls = some b.ty) positions vars := by
  refine (List.forall₂_of_mapM_eq_some h).imp fun p b hb => ?_
  obtain ⟨_, _, hb⟩ := Option.bind_eq_some_iff.mp hb
  obtain ⟨_, _, hb⟩ := Option.bind_eq_some_iff.mp hb
  obtain ⟨ty, hty, hb⟩ := Option.bind_eq_some_iff.mp hb
  obtain rfl := Option.some.inj hb
  exact hty

theorem mem_typeVarsOf_iff {t : Name} :
    t ∈ typeVarsOf vars ↔ ∃ b ∈ vars, ∃ ty, b.ty = some ty ∧ t ∈ ty.varOccs := by
  rw [typeVarsOf, List.mem_eraseDups, List.mem_flatMap]
  refine exists_congr fun b => and_congr_right fun _ => ?_
  cases b.ty with
  | none => simp [Expr.annotationOccs]
  | some ty => simp [Expr.annotationOccs]

/-- What the functions have to share is what the section takes over. -/
theorem sharesTypeParams_iff (h : sectionVariables? decls positions = some vars) :
    SharesTypeParams decls positions ↔
      ∀ d ∈ decls, ∀ t ∈ typeVarsOf vars, t ∈ d.typeParamNames := by
  have htypes := sectionVariables_types h
  constructor
  · intro hshares d hd t ht
    obtain ⟨b, hb, ty, hty, ht⟩ := mem_typeVarsOf_iff.mp ht
    obtain ⟨p, hp, hnoted⟩ := htypes.exists_left hb
    exact hshares p hp ty (hty ▸ hnoted) t ht d hd
  · intro hall p hp ty hty t ht d hd
    obtain ⟨b, hb, hnoted⟩ := htypes.exists_right hp
    have hbty : b.ty = some ty := Option.some.inj (hnoted.symm.trans hty)
    exact hall d hd t (mem_typeVarsOf_iff.mpr ⟨b, hb, ty, hbty, ht⟩)

/-- **Type variables stay in scope inside a section**, and after it exactly if the functions share
the type parameters that the section takes over. -/
theorem toSentences_typeScoped (h : toSentences decls positions σ = .ok sentences σ')
    (hdecls : ∀ d ∈ decls, d.TypeScoped []) :
    ∃ name typeVars vars inner, ∃ wrappers : List FuncDecl,
      sentences = .shared name typeVars vars inner :: wrappers.map .definition ∧
      (∀ d ∈ Sentence.funcDeclsOfAll inner, d.TypeScoped (typeVars.map TypeParam.name)) ∧
      ((∀ w ∈ wrappers, w.TypeScoped []) ↔ SharesTypeParams decls positions) := by
  obtain @⟨plan, entries, first, name, previous, chosen, inner, wrappers, σ₁, σ₂, σ₃, σ₄, σ₅, _,
    hvars, htypeVars, _, _, _, _, _, _, _, _, hsplit, hwrappers⟩ := toSentences_ok.mp h
  have huses : ∀ d ∈ decls, d.Uses (fun _ => True) (· ∈ []) := fun d hd =>
    FuncDecl.typeScoped_iff_uses.mp (hdecls d hd)
  have hsection : (plan.typeVars.map fun t => ({ name := t } : TypeParam)).map TypeParam.name =
      plan.typeVars := by
    rw [List.map_map]
    exact List.map_id _
  refine ⟨name, _, plan.vars, inner, wrappers, rfl, fun d hd => ?_, ?_⟩
  · -- generated names matter for no type variable, so nothing has to be registered
    have hreduced : ∀ d ∈ decls.map plan.reduce, d.Uses (fun _ => True) fun t =>
        t ∈ [] ∨ t ∈ plan.typeVars :=
      List.forall_mem_map.mpr fun d hd => reduce_uses (fun _ _ _ => trivial) (huses d hd)
    have hsupplies : Supplies [] fun _ => True := fun _ _ => trivial
    obtain ⟨_, hinner⟩ := Split.toSentences_uses hsupplies hsplit hreduced nofun
    rw [FuncDecl.typeScoped_iff_uses, hsection]
    exact (hinner d hd).imp fun t ht => ht.resolve_left List.not_mem_nil
  · rw [sharesTypeParams_iff hvars, ← htypeVars]
    have hwrapper : ∀ d w, d ∈ decls → plan.wrapper? d = some w →
        (w.TypeScoped [] ↔ ∀ t ∈ plan.typeVars, t ∈ d.typeParamNames) := by
      intro d w hd hw
      rw [FuncDecl.typeScoped_iff_uses, wrapper_uses_iff (fun _ _ _ => trivial) hw (huses d hd)]
      exact forall₂_congr fun t _ => or_iff_right List.not_mem_nil
    have hall := List.forall₂_of_mapM_eq_some hwrappers
    constructor
    · intro hscoped d hd
      obtain ⟨w, hw, heq⟩ := hall.exists_right hd
      exact (hwrapper d w hd heq).mp (hscoped w hw)
    · intro hshares w hw
      obtain ⟨d, hd, heq⟩ := hall.exists_left hw
      exact (hwrapper d w hd heq).mpr (hshares d hd)

end Hoist

/-- A function with a type parameter and a constant `c` of that type: the last element of a list, or
`c`. It calls another function for the rest of the list. -/
def lastOr (name callee typeParam : Name) : FuncDecl where
  name := name
  typeParams := [{ name := typeParam }]
  params := [{ name := "c", ty := some (.var typeParam) }, { name := "x" }]
  rhs := .case {} (.var {} "x") [(.con "Nil" [], .var {} "c"),
    (.con "Cons" [{ name := "y" }, { name := "ys" }],
      .app {} (.app {} (.typeApp {} (.var {} callee) (.var typeParam)) (.var {} "c"))
        (.var {} "ys"))]

/-- Two functions that share `c` and name its type differently: the section takes over `a`, which is
no type parameter of the second function. -/
theorem renamedTypeParam_typeScoped :
    constantPositions [lastOr "f" "g" "a", lastOr "g" "f" "b"] = [0] ∧
      (∀ d ∈ [lastOr "f" "g" "a", lastOr "g" "f" "b"], d.TypeScoped []) ∧
      ∃ sentences s', Hoist.toSentences [lastOr "f" "g" "a", lastOr "g" "f" "b"] [0] {} =
        .ok sentences s' ∧
        ∃ name typeVars vars inner, ∃ wrappers : List FuncDecl,
          sentences = .shared name typeVars vars inner :: wrappers.map .definition ∧
          (∀ d ∈ Sentence.funcDeclsOfAll inner, d.TypeScoped (typeVars.map TypeParam.name)) ∧
          ¬ ∀ w ∈ wrappers, w.TypeScoped [] := by
  have hscoped : ∀ d ∈ [lastOr "f" "g" "a", lastOr "g" "f" "b"], d.TypeScoped [] := by decide
  refine ⟨by decide +kernel, hscoped, ?_⟩
  obtain ⟨sentences, s', h, _⟩ := Compile.exists_of_succeedsWith (p := fun _ => true)
    (x := Hoist.toSentences [lastOr "f" "g" "a", lastOr "g" "f" "b"] [0]) (s := {})
      (by decide +kernel)
  obtain ⟨name, typeVars, vars, inner, wrappers, rfl, hinner, hwrappers⟩ :=
    Hoist.toSentences_typeScoped h hscoped
  refine ⟨_, s', h, name, typeVars, vars, inner, wrappers, rfl, hinner, fun hall => ?_⟩
  have hshares :=
    hwrappers.mp hall 0 (by decide) (.var "a") rfl "a" (by decide) (lastOr "g" "f" "b")
      (List.mem_cons_of_mem _ List.mem_cons_self)
  revert hshares
  decide

end StructRec
