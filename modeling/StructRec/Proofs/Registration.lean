import StructRec.Proofs.SentenceScope

/-!
# StructRec — what the passes register

What the environment says of a value is read as its `Shape`: whether it is a constructor, a variable
of an open section, or a function of some signature. A pass that generates functions registers each
under a name that stood for nothing before, and leaves all other names alone (`Adds`). A section
hides what its variables are named like while it is open; closing it brings that back, and its
functions then take the variables of the section as well.

What sentences define is read as a list of `Emitted` functions, as they are called from outside of
all sections. A group defines its functions and others with new names, and each is registered as it
is defined (`Emits`).
-/

namespace StructRec

/-! ## Signatures and shapes -/

/-- What a call of a function has to match. -/
structure Signature where
  typeParams : List Name
  paramTys : List (Option Ty)
  returnTy : Option Ty
deriving DecidableEq

/-- The signature of a function outside of a section: the section's type variables and variables
come first. -/
def Signature.closeOver (typeVars : List Name) (vars : List Binder) (s : Signature) : Signature :=
  { s with typeParams := typeVars ++ s.typeParams, paramTys := vars.map Binder.ty ++ s.paramTys }

def FuncDecl.signature (d : FuncDecl) : Signature := ⟨d.typeParamNames, d.paramTys, d.returnTy⟩

def FuncEntry.signature (e : FuncEntry) : Signature := ⟨e.typeParams, e.paramTys, e.returnTy⟩

/-- What is registered under the name of a value. -/
inductive Shape where
  | constructor
  | var
  | func (signature : Signature)
deriving DecidableEq

/-- Change the signature of a function. -/
def Shape.onFunc (f : Signature → Signature) : Shape → Shape
  | func s => func (f s)
  | other => other

def ValueEntry.shape : ValueEntry → Shape
  | constructor _ => .constructor
  | var _ => .var
  | func e => .func e.signature

namespace Environment

/-- What stands under a name. -/
def shape? (env : Environment) (n : Name) : Option Shape := (env.values.get? n).map ValueEntry.shape

variable {env : Environment}

theorem shape?_insert (env : Environment) (name : Name) (entry : ValueEntry) (n : Name) :
    { env with values := env.values.insert name entry }.shape? n
      = if name = n then some entry.shape else env.shape? n := by
  rw [shape?, Table.get?_insert]
  split <;> rfl

/-- A registered function has its signature. -/
theorem shape?_addFunc (env : Environment) (entry : FuncEntry) (n : Name) :
    (env.addFunc entry).shape? n =
      if entry.name = n then some (.func entry.signature) else env.shape? n :=
  env.shape?_insert entry.name (.func entry) n

theorem func?_eq_some_iff {n : Name} {entry : FuncEntry} :
    env.func? n = some entry ↔ env.values.get? n = some (.func entry) := by
  unfold func?
  split
  · next entry' hget => rw [hget, Option.some.injEq, Option.some.injEq, ValueEntry.func.injEq]
  · next hother => exact ⟨nofun, fun hget => absurd hget (hother entry)⟩

/-- A change of a function's entry changes its signature and nothing else. -/
theorem shape?_updateFunc (env : Environment) (name : Name) {f : FuncEntry → FuncEntry}
    {g : Signature → Signature} (hf : ∀ entry, (f entry).signature = g entry.signature) (n : Name) :
    (env.updateFunc name f).shape? n =
      if name = n then (env.shape? n).map (Shape.onFunc g) else env.shape? n := by
  unfold updateFunc
  cases hfunc : env.func? name with
  | some entry =>
    simp only
    rw [shape?_insert]
    split
    · next heq =>
      subst heq
      rw [shape?, func?_eq_some_iff.mp hfunc]
      change some (Shape.func (f entry).signature) = some (Shape.func (g entry.signature))
      rw [hf]
    · rfl
  | none =>
    simp only
    split
    · next heq =>
      subst heq
      -- what is no function stays
      rw [shape?]
      cases hget : env.values.get? name with
      | none => rfl
      | some value =>
        cases value with
        | func entry => cases hfunc.symm.trans (func?_eq_some_iff.mpr hget)
        | constructor entry | var entry => rfl
    · rfl

/-- The names of values are registered names. -/
theorem shape?_eq_none {n : Name} (h : env.usesTarget n.target = false) : env.shape? n = none := by
  rw [shape?, Option.map_eq_none_iff, ← Option.not_isSome_iff_eq_none]
  intro hsome
  have hkey : n ∈ env.names := List.mem_append_right _ ((Table.contains_iff_mem_keys _ _).mp hsome)
  have hused : env.usesTarget n.target = true := List.any_eq_true.mpr ⟨n, hkey, decide_eq_true rfl⟩
  rw [h] at hused
  cases hused

end Environment

/-! ## New functions -/

/-- Functions with new names are registered, each under its signature. The rest of the environment
is as before. -/
structure Adds (decls : List FuncDecl) (env env' : Environment) : Prop where
  nodup : (decls.map FuncDecl.name).Nodup
  new : ∀ d ∈ decls, env.shape? d.name = none
  added : ∀ d ∈ decls, env'.shape? d.name = some (.func d.signature)
  kept : ∀ n, n ∉ decls.map FuncDecl.name → env'.shape? n = env.shape? n
  decreasing : ∀ n, n ∉ decls.map FuncDecl.name → env'.decreasing.get? n = env.decreasing.get? n

namespace Adds

variable {decls decls' : List FuncDecl} {env env' env'' : Environment}

theorem nil (env : Environment) : Adds [] env env :=
  ⟨List.nodup_nil, nofun, nofun, fun _ _ => rfl, fun _ _ => rfl⟩

/-- One function. -/
theorem one {d : FuncDecl} (hnew : env.shape? d.name = none)
    (hshape : ∀ n, env'.shape? n = if d.name = n then some (.func d.signature) else env.shape? n)
    (hdecreasing : ∀ n, d.name ≠ n → env'.decreasing.get? n = env.decreasing.get? n) :
    Adds [d] env env' where
  nodup := List.nodup_singleton _
  new := List.forall_mem_singleton.mpr hnew
  added := List.forall_mem_singleton.mpr ((hshape d.name).trans (if_pos rfl))
  kept n hn := (hshape n).trans (if_neg fun heq => hn (List.mem_singleton.mpr heq.symm))
  decreasing n hn := hdecreasing n fun heq => hn (List.mem_singleton.mpr heq.symm)

/-- The later functions are new after the earlier ones, so no two have one name. -/
theorem append (h : Adds decls env env') (h' : Adds decls' env' env'') :
    Adds (decls ++ decls') env env'' := by
  -- what was added first is not new any more
  have hdisjoint : ∀ d ∈ decls, d.name ∉ decls'.map FuncDecl.name := by
    intro d hd hmem
    obtain ⟨d', hd', hname⟩ := List.mem_map.mp hmem
    have hnone := h'.new d' hd'
    rw [hname, h.added d hd] at hnone
    cases hnone
  have hsplit : ∀ n, n ∉ (decls ++ decls').map FuncDecl.name →
      n ∉ decls.map FuncDecl.name ∧ n ∉ decls'.map FuncDecl.name := by
    intro n hn
    rwa [List.map_append, List.mem_append, not_or] at hn
  refine ⟨?_, List.forall_mem_append.mpr ⟨h.new, fun d hd => ?_⟩,
    List.forall_mem_append.mpr
      ⟨fun d hd => (h'.kept d.name (hdisjoint d hd)).trans (h.added d hd), h'.added⟩,
    fun n hn => (h'.kept n (hsplit n hn).2).trans (h.kept n (hsplit n hn).1),
    fun n hn => (h'.decreasing n (hsplit n hn).2).trans (h.decreasing n (hsplit n hn).1)⟩
  · rw [List.map_append]
    refine h.nodup.append h'.nodup fun n hn hn' => ?_
    obtain ⟨d, hd, rfl⟩ := List.mem_map.mp hn
    exact hdisjoint d hd hn'
  · have hown : d.name ∉ decls.map FuncDecl.name := by
      intro hmem
      obtain ⟨d', hd', hname⟩ := List.mem_map.mp hmem
      exact hdisjoint d' hd' (hname ▸ List.mem_map_of_mem hd)
    rw [← h.kept d.name hown]
    exact h'.new d hd

end Adds

/-! ## Splitting -/

namespace Split

variable {d : FuncDecl} {param : Name} {σ σ' σ'' : Session} {helpers helpers' : List Helper}

/-- A helper is registered under a new name. -/
theorem makeHelper_adds {returnTy : Option Ty} {vars : List (Name × Option Ty)} {body call : Expr}
    {helper : Helper} (h : makeHelper d param returnTy vars body σ = ((helper, call), σ')) :
    Adds [helper.decl] σ.env σ'.env := by
  simp only [makeHelper, Naming.bind_eq, Naming.pure_eq, Session.modifyEnv_eq] at h
  obtain ⟨name, σ₁, hfresh, _, _, rfl, heq, rfl⟩ := h
  obtain ⟨rfl, rfl⟩ := Prod.mk.inj heq
  obtain ⟨henv, _, _, _, htarget⟩ := freshName_spec hfresh
  refine .one (Environment.shape?_eq_none htarget) (fun n => ?_) fun n hn => ?_
  · rw [← henv]
    exact Environment.shape?_addFunc _ _ n
  · rw [← henv]
    exact (Table.get?_insert _ _ _ _).trans (if_neg hn)

/-- All helpers of a function are registered, each under a new name. -/
theorem Makes.adds (h : Makes d param σ helpers σ') :
    Adds (helpers.map Helper.decl) σ.env σ'.env := by
  induction h with
  | nil σ => exact .nil σ.env
  | cons _ hmade _ ih => exact (makeHelper_adds hmade).append ih

/-- **Splitting** registers the helpers; the main functions keep their signatures. -/
theorem splitAll_adds {decls : List (FuncDecl × Nat)} {mains : List FuncDecl}
    (h : splitAll decls σ = .ok (helpers, mains) σ') :
    Adds (helpers.map Helper.decl) σ.env σ'.env ∧
      List.Forall₂
        (fun (p : FuncDecl × Nat) main => main.name = p.1.name ∧ main.signature = p.1.signature)
        decls mains := by
  induction decls generalizing σ helpers mains with
  | nil =>
    obtain ⟨heq, rfl⟩ := Compile.pure_ok.mp h
    obtain ⟨rfl, rfl⟩ := Prod.mk.inj heq
    exact ⟨.nil σ.env, .nil⟩
  | cons p rest ih =>
    obtain ⟨d, position⟩ := p
    simp only [splitAll, Compile.bind_ok, Compile.pure_ok] at h
    obtain ⟨⟨helpers₁, main⟩, σ₁, hsplit, ⟨helpers₂, mains'⟩, σ₂, hrest, heq, rfl⟩ := h
    obtain ⟨rfl, rfl⟩ := Prod.mk.inj heq
    obtain ⟨param, hmakes, rhs, rfl⟩ := split_makes hsplit
    obtain ⟨hadds, hmains⟩ := ih hrest
    rw [List.map_append]
    exact ⟨hmakes.adds.append hadds, .cons ⟨rfl, rfl⟩ hmains⟩

end Split

/-! ### Inlining keeps signatures -/

/-- Entering binders substitutes types in annotations and changes no type replacement. -/
theorem Subst.enterBinders_tys {captured : List Name} {s s' : Subst}
    {binders binders' : List Binder} {σ σ' : Session}
    (h : enterBinders captured s binders σ = ((s', binders'), σ')) :
    binders'.map Binder.ty = binders.map fun b => b.ty.map s.applyTy := by
  replace h := enters_of_enterBinders h
  induction h with
  | nil => rfl
  | @renamed s _ b _ _ _ _ _ _ _ _ _ ih | @kept s _ b _ _ _ _ _ _ ih =>
    exact congrArg (b.ty.map s.applyTy :: ·) ih

/-- Inlining changes the right-hand side only. -/
theorem inlineDecl_signature {mains : List FuncDecl} {d d' : FuncDecl} {σ σ' : Session}
    (h : inlineDecl mains d σ = .ok d' σ') : d'.name = d.name ∧ d'.signature = d.signature := by
  simp only [inlineDecl, Compile.bind_ok, Compile.lift_ok, Compile.pure_ok] at h
  obtain ⟨⟨renames, params'⟩, σ₁, hcapture, rhs₁, σ₂, _, rhs', σ₃, _, rfl, rfl⟩ := h
  have htys : params'.map Binder.ty = d.params.map Binder.ty := by
    rw [Subst.enterBinders_tys hcapture]
    refine List.map_congr_left fun b _ => ?_
    rw [show (Subst.applyTy {} : Ty → Ty) = id from funext Ty.subst_empty, Option.map_id]
    rfl
  refine ⟨rfl, ?_⟩
  rw [FuncDecl.signature, FuncDecl.signature, FuncDecl.paramTys, FuncDecl.paramTys, htys]
  rfl

/-! ## Emitted functions -/

/-- A function that sentences define, as it is called from outside of all sections. -/
structure Emitted where
  name : Name
  signature : Signature
  /-- What it decreases on, if it is a body of a fixpoint. -/
  decreasing : Option DecreasingParam

/-- A function of a section takes the variables of the section first. -/
def Emitted.closeOver (typeVars : List Name) (vars : List Binder) (e : Emitted) : Emitted :=
  { e with
    signature := e.signature.closeOver typeVars vars
    decreasing := e.decreasing.map fun p => { p with index := p.index + vars.length } }

namespace Sentence

mutual

/-- The functions that a sentence defines, also inside a section. -/
def emitted : Sentence → List Emitted
  | dataTypes _ | synonym _ => []
  | definition d => [⟨d.name, d.signature, none⟩]
  | fixpoint bodies => bodies.map fun b => ⟨b.decl.name, b.decl.signature, some b.decreasing⟩
  | shared _ typeVars vars sentences =>
    (emittedOfAll sentences).map (Emitted.closeOver (typeVars.map TypeParam.name) vars)

def emittedOfAll : List Sentence → List Emitted
  | [] => []
  | s :: rest => s.emitted ++ emittedOfAll rest

end

mutual

theorem names_emitted : (s : Sentence) → s.emitted.map Emitted.name = s.funcDecls.map FuncDecl.name
  | dataTypes _ | synonym _ | definition _ => rfl
  | fixpoint bodies => by
    rw [emitted, funcDecls, List.map_map, List.map_map]
    rfl
  | shared _ _ _ sentences => by
    rw [emitted, funcDecls, List.map_map]
    exact names_emittedOfAll sentences

/-- What sentences emit is what they define. -/
theorem names_emittedOfAll : (sentences : List Sentence) →
    (emittedOfAll sentences).map Emitted.name = funcNames sentences
  | [] => rfl
  | s :: rest => by
    rw [emittedOfAll, funcNames_cons, List.map_append, names_emitted s, names_emittedOfAll rest]

end

theorem emittedOfAll_append (xs ys : List Sentence) :
    emittedOfAll (xs ++ ys) = emittedOfAll xs ++ emittedOfAll ys := by
  induction xs with
  | nil => rfl
  | cons s rest ih => rw [List.cons_append, emittedOfAll, emittedOfAll, ih, List.append_assoc]

theorem emittedOfAll_definitions (decls : List FuncDecl) :
    emittedOfAll (decls.map definition) = decls.map fun d => ⟨d.name, d.signature, none⟩ := by
  induction decls with
  | nil => rfl
  | cons d rest ih => exact congrArg (Emitted.mk d.name d.signature none :: ·) ih

/-- What a section emits takes the variables of the section too. -/
theorem emittedOfAll_section (name : Name) (typeVars : List Name) (vars : List Binder)
    (inner : List Sentence) :
    emittedOfAll [shared name (typeVars.map ({ name := · })) vars inner]
      = (emittedOfAll inner).map (Emitted.closeOver typeVars vars) := by
  rw [emittedOfAll, emittedOfAll, emitted, List.append_nil, List.map_map]
  exact congrArg (fun typeVars => (emittedOfAll inner).map (Emitted.closeOver typeVars vars))
    (List.map_id _)

theorem mem_funcNames_of_mem_emitted {sentences : List Sentence} {e : Emitted}
    (h : e ∈ emittedOfAll sentences) : e.name ∈ funcNames sentences := by
  rw [← names_emittedOfAll]
  exact List.mem_map_of_mem h

end Sentence

/-- Functions are defined by sentences and registered as such: some of given functions, all others
under new names. The rest of the environment is as before. -/
structure Emits (own : List Name) (sentences : List Sentence) (env env' : Environment) : Prop where
  nodup : (Sentence.funcNames sentences).Nodup
  new : ∀ n ∈ Sentence.funcNames sentences, n ∈ own ∨ env.shape? n = none
  shapes : ∀ e ∈ Sentence.emittedOfAll sentences, env'.shape? e.name = some (.func e.signature)
  decreasing : ∀ e ∈ Sentence.emittedOfAll sentences, env'.decreasing.get? e.name = e.decreasing
  kept : ∀ n, n ∉ Sentence.funcNames sentences → env'.shape? n = env.shape? n
  keptDecreasing : ∀ n, n ∉ Sentence.funcNames sentences →
    env'.decreasing.get? n = env.decreasing.get? n

namespace Emits

variable {own own' : List Name} {xs ys sentences : List Sentence} {env env' env'' : Environment}

theorem nil (own : List Name) (env : Environment) : Emits own [] env env :=
  ⟨List.nodup_nil, nofun, nofun, nofun, fun _ _ => rfl, fun _ _ => rfl⟩

/-- A defined function is registered. -/
theorem isSome_shape? (h : Emits own sentences env env') {n : Name}
    (hn : n ∈ Sentence.funcNames sentences) : (env'.shape? n).isSome = true := by
  rw [← Sentence.names_emittedOfAll] at hn
  obtain ⟨e, he, rfl⟩ := List.mem_map.mp hn
  rw [h.shapes e he]
  rfl

/-- What is registered and not among the given functions is not defined. -/
theorem notMem_of_registered (h : Emits own sentences env env') {n : Name} (hown : n ∉ own)
    (hshape : env.shape? n ≠ none) : n ∉ Sentence.funcNames sentences :=
  fun hn => (h.new n hn).elim hown hshape

theorem mono (h : Emits own sentences env env') (hsub : own ⊆ own') :
    Emits own' sentences env env' :=
  ⟨h.nodup, fun n hn => (h.new n hn).imp_left fun hown => hsub hown, h.shapes, h.decreasing, h.kept,
    h.keptDecreasing⟩

/-- **One list of sentences after another.** -/
theorem append (h : Emits own xs env env') (h' : Emits own' ys env' env'')
    (hdisjoint : ∀ n ∈ Sentence.funcNames xs, n ∉ own') :
    Emits (own ++ own') (xs ++ ys) env env'' := by
  have hother : ∀ n ∈ Sentence.funcNames xs, n ∉ Sentence.funcNames ys := by
    intro n hn
    refine h'.notMem_of_registered (hdisjoint n hn) ?_
    rw [Option.ne_none_iff_isSome]
    exact h.isSome_shape? hn
  have hsplit : ∀ n, n ∉ Sentence.funcNames (xs ++ ys) →
      n ∉ Sentence.funcNames xs ∧ n ∉ Sentence.funcNames ys := by
    intro n hn
    rwa [Sentence.funcNames_append, List.mem_append, not_or] at hn
  refine ⟨?_, fun n hn => ?_, ?_, ?_,
    fun n hn => (h'.kept n (hsplit n hn).2).trans (h.kept n (hsplit n hn).1),
    fun n hn => (h'.keptDecreasing n (hsplit n hn).2).trans (h.keptDecreasing n (hsplit n hn).1)⟩
  · rw [Sentence.funcNames_append]
    exact h.nodup.append h'.nodup hother
  · rw [Sentence.funcNames_append, List.mem_append] at hn
    rw [List.mem_append]
    rcases hn with hn | hn
    · exact (h.new n hn).imp_left .inl
    · rcases h'.new n hn with hown | hnew
      · exact .inl (.inr hown)
      · -- a name that is new after the first sentences is none of theirs
        refine .inr ((h.kept n fun hn' => ?_).symm.trans hnew)
        exact hother n hn' hn
  · rw [Sentence.emittedOfAll_append, List.forall_mem_append]
    refine ⟨fun e he => ?_, h'.shapes⟩
    rw [h'.kept e.name (hother _ (Sentence.mem_funcNames_of_mem_emitted he))]
    exact h.shapes e he
  · rw [Sentence.emittedOfAll_append, List.forall_mem_append]
    refine ⟨fun e he => ?_, h'.decreasing⟩
    rw [h'.keptDecreasing e.name (hother _ (Sentence.mem_funcNames_of_mem_emitted he))]
    exact h.decreasing e he

/-- Functions that are registered first and then all defined are new. -/
theorem of_adds {decls : List FuncDecl} (hadds : Adds decls env env')
    (h : Emits (decls.map FuncDecl.name) sentences env' env'')
    (hall : ∀ n ∈ decls.map FuncDecl.name, n ∈ Sentence.funcNames sentences) :
    Emits [] sentences env env'' := by
  refine ⟨h.nodup, fun n hn => .inr ?_, h.shapes, h.decreasing,
    fun n hn => (h.kept n hn).trans (hadds.kept n fun hmem => hn (hall n hmem)),
    fun n hn => (h.keptDecreasing n hn).trans (hadds.decreasing n fun hmem => hn (hall n hmem))⟩
  by_cases hmem : n ∈ decls.map FuncDecl.name
  · obtain ⟨d, hd, rfl⟩ := List.mem_map.mp hmem
    exact hadds.new d hd
  · rw [← hadds.kept n hmem]
    exact (h.new n hn).resolve_left hmem

/-- Registered functions without a decreasing parameter are defined as they are. -/
theorem definitions {decls : List FuncDecl} (hnodup : (decls.map FuncDecl.name).Nodup)
    (hshapes : ∀ d ∈ decls, env.shape? d.name = some (.func d.signature))
    (hdecreasing : ∀ d ∈ decls, env.decreasing.get? d.name = none) :
    Emits (decls.map FuncDecl.name) (decls.map .definition) env env := by
  refine ⟨?_, fun n hn => .inl ?_, ?_, ?_, fun _ _ => rfl, fun _ _ => rfl⟩
  · rw [Sentence.funcNames_definitions]
    exact hnodup
  · rwa [Sentence.funcNames_definitions] at hn
  · rw [Sentence.emittedOfAll_definitions]
    exact List.forall_mem_map.mpr hshapes
  · rw [Sentence.emittedOfAll_definitions]
    exact List.forall_mem_map.mpr hdecreasing

end Emits

/-! ## Groups -/

namespace Split

variable {bodies : List FixpointBody} {mains decls : List FuncDecl} {helpers : List Helper}
  {σ σ' : Session} {positions : List Nat} {sentences : List Sentence}

theorem decreasing_foldl_erase (mains : List FuncDecl) (env : Environment) (n : Name) :
    (mains.foldl (fun env main => env.eraseDecreasing main.name) env).decreasing.get? n
      = if n ∈ mains.map FuncDecl.name then none else env.decreasing.get? n := by
  induction mains generalizing env with
  | nil => rfl
  | cons main rest ih =>
    rw [List.foldl_cons, ih, List.map_cons]
    change (if _ then _ else (env.decreasing.erase main.name).get? n) = _
    rw [Table.get?_erase]
    by_cases hrest : n ∈ rest.map FuncDecl.name
    · rw [if_pos hrest, if_pos (List.mem_cons_of_mem _ hrest)]
    · simp only [List.mem_cons, hrest, or_false, if_false]

theorem decreasing_foldl_set_of_notMem (env : Environment) {n : Name}
    (h : n ∉ bodies.map (·.decl.name)) :
    (bodies.foldl (fun env body => env.setDecreasing body.decl.name body.decreasing)
      env).decreasing.get? n
      = env.decreasing.get? n := by
  induction bodies generalizing env with
  | nil => rfl
  | cons b rest ih =>
    rw [List.map_cons, List.mem_cons, not_or] at h
    rw [List.foldl_cons, ih _ h.2]
    exact (Table.get?_insert _ _ _ _).trans (if_neg fun heq => h.1 heq.symm)

/-- All bodies of a fixpoint have their decreasing argument registered. -/
theorem decreasing_foldl_set_of_mem (hnodup : (bodies.map (·.decl.name)).Nodup) (env : Environment)
    {b : FixpointBody} (h : b ∈ bodies) :
    (bodies.foldl (fun env body => env.setDecreasing body.decl.name body.decreasing)
      env).decreasing.get? b.decl.name
      = some b.decreasing := by
  induction bodies generalizing env with
  | nil => cases h
  | cons first rest ih =>
    rw [List.map_cons, List.nodup_cons] at hnodup
    rw [List.foldl_cons]
    rcases List.mem_cons.mp h with rfl | hrest
    · rw [decreasing_foldl_set_of_notMem _ hnodup.1]
      exact (Table.get?_insert _ _ _ _).trans (if_pos rfl)
    · exact ih hnodup.2 _ hrest

/-- Inlining keeps the helpers' names and signatures. -/
theorem inlineAll_signature {inlined : List FuncDecl}
    (h : Compile.MapRun (fun h : Helper => inlineDecl mains h.decl) helpers σ inlined σ') :
    List.Forall₂ (fun (x : Helper) d => d.name = x.decl.name ∧ d.signature = x.decl.signature)
      helpers inlined := by
  induction h with
  | nil => exact .nil
  | cons hfirst _ ih => exact .cons (inlineDecl_signature hfirst) ih

/-- The bodies of a fixpoint have the names and signatures of the helpers. -/
theorem bodies_signature {inlined : List FuncDecl}
    (hinlined : List.Forall₂
      (fun (x : Helper) d => d.name = x.decl.name ∧ d.signature = x.decl.signature) helpers inlined)
    (h : List.Forall₂ (fun p b => IsBody p.1 p.2 b) (helpers.zip inlined) bodies) :
    List.Forall₂ (fun (x : Helper) (b : FixpointBody) =>
      b.decl.name = x.decl.name ∧ b.decl.signature = x.decl.signature) helpers bodies := by
  induction hinlined generalizing bodies with
  | nil =>
    cases h
    exact .nil
  | @cons x d helpers inlined hfirst _ ih =>
    rw [List.zip_cons_cons] at h
    cases h with
    | @cons _ b _ _ hbody hrest =>
      have hdecl : b.decl = d := hbody.decl
      exact .cons (hdecl ▸ hfirst) (ih hrest)

/-- The fixpoint of a split defines the helpers. -/
theorem emits_fixpoint {env env' : Environment}
    (hadds : Adds (helpers.map Helper.decl) env env')
    (hbodies : List.Forall₂ (fun (x : Helper) (b : FixpointBody) =>
      b.decl.name = x.decl.name ∧ b.decl.signature = x.decl.signature) helpers bodies) :
    Emits [] [.fixpoint bodies] env
      (bodies.foldl (fun env body => env.setDecreasing body.decl.name body.decreasing) env') := by
  have hnames : bodies.map (·.decl.name) = (helpers.map Helper.decl).map FuncDecl.name := by
    rw [List.map_map]
    exact hbodies.flip.map_eq_map fun _ _ hsame => hsame.1
  have hfuncNames : Sentence.funcNames [.fixpoint bodies] = bodies.map (·.decl.name) := by
    rw [Sentence.funcNames_cons, Sentence.funcDecls, List.map_map,
      show Sentence.funcNames [] = [] from rfl, List.append_nil]
    rfl
  -- decreasing arguments are registered apart from shapes
  have hshape : ∀ n,
      (bodies.foldl (fun env body => env.setDecreasing body.decl.name body.decreasing) env').shape?
      n = env'.shape? n := fun n =>
    Environment.part_foldl
      (f := fun env (body : FixpointBody) => env.setDecreasing body.decl.name body.decreasing)
      (Environment.shape? · n) (fun _ _ => rfl) bodies env'
  refine ⟨?_, fun n hn => .inr ?_, ?_, ?_, fun n hn => ?_, fun n hn => ?_⟩
  · rw [hfuncNames, hnames]
    exact hadds.nodup
  · rw [hfuncNames, hnames] at hn
    obtain ⟨d, hd, rfl⟩ := List.mem_map.mp hn
    exact hadds.new d hd
  · rw [Sentence.emittedOfAll, Sentence.emittedOfAll, List.append_nil, Sentence.emitted,
      List.forall_mem_map]
    intro b hb
    obtain ⟨x, hx, hname, hsignature⟩ := hbodies.exists_left hb
    rw [hshape, hname, hsignature]
    exact hadds.added x.decl (List.mem_map_of_mem hx)
  · rw [Sentence.emittedOfAll, Sentence.emittedOfAll, List.append_nil, Sentence.emitted,
      List.forall_mem_map]
    exact fun b hb => decreasing_foldl_set_of_mem (hnames ▸ hadds.nodup) env' hb
  · rw [hfuncNames, hnames] at hn
    rw [hshape]
    exact hadds.kept n hn
  · rw [hfuncNames] at hn
    rw [decreasing_foldl_set_of_notMem env' hn]
    exact hadds.decreasing n (hnames ▸ hn)

/-- The main functions of a split have no decreasing parameter. -/
theorem emits_mains {env : Environment} (hnodup : (mains.map FuncDecl.name).Nodup)
    (hshapes : ∀ d ∈ mains, env.shape? d.name = some (.func d.signature)) :
    Emits (mains.map FuncDecl.name) (mains.map .definition) env
      (mains.foldl (fun env main => env.eraseDecreasing main.name) env) := by
  have hshape : ∀ n, (mains.foldl (fun env main => env.eraseDecreasing main.name) env).shape? n =
      env.shape? n := fun n =>
    Environment.part_foldl (f := fun env (main : FuncDecl) => env.eraseDecreasing main.name)
      (Environment.shape? · n) (fun _ _ => rfl) mains env
  refine ⟨?_, fun n hn => .inl ?_, ?_, ?_, fun n _ => hshape n, fun n hn => ?_⟩
  · rwa [Sentence.funcNames_definitions]
  · rwa [Sentence.funcNames_definitions] at hn
  · rw [Sentence.emittedOfAll_definitions, List.forall_mem_map]
    exact fun d hd => (hshape d.name).trans (hshapes d hd)
  · rw [Sentence.emittedOfAll_definitions, List.forall_mem_map]
    intro d hd
    rw [decreasing_foldl_erase, if_pos (List.mem_map_of_mem hd)]
  · rw [Sentence.funcNames_definitions] at hn
    rw [decreasing_foldl_erase, if_neg hn]

/-- The main functions have the names of the group. -/
theorem names_mains
    (hlength : positions.length = decls.length)
    (h : List.Forall₂
      (fun (p : FuncDecl × Nat) main => main.name = p.1.name ∧ main.signature = p.1.signature)
      (decls.zip positions) mains) : mains.map FuncDecl.name = decls.map FuncDecl.name := by
  have hzip : (decls.zip positions).map Prod.fst = decls := List.map_fst_zip hlength.ge
  conv_rhs => rw [← hzip, List.map_map]
  exact h.flip.map_eq_map fun _ _ hsame => hsame.1

/-- Every function of a group is defined. -/
theorem mem_funcNames (h : toSentences decls positions σ = .ok sentences σ')
    (hlength : positions.length = decls.length) {n : Name} (hn : n ∈ decls.map FuncDecl.name) :
    n ∈ Sentence.funcNames sentences := by
  obtain @⟨helpers, mains, inlined, bodies, σ₁, σ₂, hsplit, hinline, hbodies⟩ := toSentences_ok.mp h
  rw [Sentence.funcNames_cons, Sentence.funcNames_definitions,
    names_mains hlength (splitAll_adds hsplit).2]
  exact List.mem_append_right _ hn

/-- Every function of the group is defined with its own signature. -/
theorem mem_emitted (h : toSentences decls positions σ = .ok sentences σ')
    (hlength : positions.length = decls.length) {d : FuncDecl} (hd : d ∈ decls) :
    ⟨d.name, d.signature, none⟩ ∈ Sentence.emittedOfAll sentences := by
  obtain @⟨helpers, mains, inlined, bodies, σ₁, σ₂, hsplit, hinline, hbodies⟩ := toSentences_ok.mp h
  have hzip : (decls.zip positions).map Prod.fst = decls := List.map_fst_zip hlength.ge
  obtain ⟨p, hp, rfl⟩ := List.mem_map.mp (hzip.symm ▸ hd)
  obtain ⟨main, hmain, hname, hsignature⟩ := (splitAll_adds hsplit).2.exists_right hp
  rw [Sentence.emittedOfAll, Sentence.emittedOfAll_definitions, ← hname, ← hsignature]
  exact List.mem_append_right _ (List.mem_map_of_mem hmain)

/-- **A split** defines the functions of its group and helpers with new names. -/
theorem toSentences_emits (h : toSentences decls positions σ = .ok sentences σ')
    (hlength : positions.length = decls.length) (hnodup : (decls.map FuncDecl.name).Nodup)
    (hshapes : ∀ d ∈ decls, σ.env.shape? d.name = some (.func d.signature)) :
    Emits (decls.map FuncDecl.name) sentences σ.env σ'.env := by
  obtain @⟨helpers, mains, inlined, bodies, σ₁, σ₂, hsplit, hinline, hbodies⟩ := toSentences_ok.mp h
  obtain ⟨hadds, hmains⟩ := splitAll_adds hsplit
  have hfixpoint :=
    emits_fixpoint hadds (bodies_signature (inlineAll_signature (Compile.mapM_ok hinline)) hbodies)
  have hmainNames := names_mains hlength hmains
  -- the functions of the group are registered, so no helper is named like them
  have hother : ∀ d ∈ decls, d.name ∉ Sentence.funcNames [.fixpoint bodies] := by
    intro d hd
    refine hfixpoint.notMem_of_registered List.not_mem_nil ?_
    rw [hshapes d hd]
    nofun
  have hmainShapes : ∀ main ∈ mains,
      (bodies.foldl (fun env body => env.setDecreasing body.decl.name body.decreasing)
      σ₁.env).shape? main.name = some (.func main.signature) := by
    intro main hmain
    obtain ⟨p, hp, hname, hsignature⟩ := hmains.exists_left hmain
    have hd : p.1 ∈ decls := (List.of_mem_zip hp).1
    rw [hname, hsignature, hfixpoint.kept _ (hother p.1 hd)]
    exact hshapes p.1 hd
  rw [← hmainNames]
  refine hfixpoint.append (emits_mains (hmainNames ▸ hnodup) hmainShapes) fun n hn hmem => ?_
  rw [hmainNames] at hmem
  obtain ⟨d, hd, rfl⟩ := List.mem_map.mp hmem
  exact hother d hd hn

end Split

/-! ## Sections -/

/-- The variables of a section are distinct, and no function in it has the name of one. -/
def Sentence.SectionDistinct : Sentence → Prop
  | .shared _ _ vars sentences =>
      (binderNames vars).Nodup ∧ ∀ n ∈ binderNames vars, n ∉ Sentence.funcNames sentences
  | _ => True

instance : DecidablePred Sentence.SectionDistinct
  | .shared _ _ vars sentences =>
    inferInstanceAs
      (Decidable
        ((binderNames vars).Nodup ∧ ∀ n ∈ binderNames vars, n ∉ Sentence.funcNames sentences))
  | .dataTypes _ | .synonym _ | .definition _ | .fixpoint _ => .isTrue trivial

namespace Hoist

variable {vars : List Binder} {previous : List (Name × Option ValueEntry)} {σ σ' : Session}
variable {plan : Plan} {decls : List FuncDecl}

/-- While a section with distinct variables is open, other names stand for what they did before.
What its variables hide is remembered. -/
theorem openSection_spec (h : openSection vars σ = (previous, σ'))
    (hnodup : (binderNames vars).Nodup) :
    previous = vars.map (fun b => (b.name, σ.env.values.get? b.name)) ∧
      (∀ n, n ∉ binderNames vars → σ'.env.values.get? n = σ.env.values.get? n) ∧
      σ'.env.decreasing = σ.env.decreasing := by
  induction vars generalizing σ previous with
  | nil =>
    obtain ⟨rfl, rfl⟩ := Naming.pure_eq.mp h
    exact ⟨rfl, fun _ _ => rfl, rfl⟩
  | cons b rest ih =>
    simp only [openSection, Naming.bind_eq, Naming.pure_eq, Session.getEnv_eq,
      Session.modifyEnv_eq] at h
    obtain ⟨_, _, ⟨rfl, rfl⟩, _, _, rfl, later, σ₂, hrest, rfl, rfl⟩ := h
    rw [binderNames, List.map_cons, List.nodup_cons] at hnodup
    obtain ⟨hprevious, hkept, hdecreasing⟩ := ih hrest hnodup.2
    have hget : ∀ n, b.name ≠ n →
        (σ.env.addValue (.var { name := b.name, span := b.span, ty := b.ty })).values.get? n
        = σ.env.values.get? n := fun n hn => (Table.get?_insert _ _ _ _).trans (if_neg hn)
    refine ⟨?_, fun n hn => ?_, hdecreasing⟩
    · rw [hprevious, List.map_cons]
      refine congrArg ((b.name, σ.env.values.get? b.name) :: ·)
        (List.map_congr_left fun b' hb' => ?_)
      -- a later variable hides what it did before the section
      rw [hget b'.name fun heq => hnodup.1 (heq ▸ List.mem_map_of_mem hb')]
    · rw [binderNames, List.map_cons, List.mem_cons, not_or] at hn
      rw [hkept n hn.2]
      exact hget n fun heq => hn.1 heq.symm

theorem values_unshadow (env : Environment) (name : Name) (entry : Option ValueEntry) (n : Name) :
    (env.unshadow name entry).values.get? n = if name = n then entry else env.values.get? n := by
  cases entry with
  | some entry => exact Table.get?_insert _ _ _ _
  | none =>
    rw [Environment.unshadow, Table.get?_erase]
    simp only [eq_comm]

/-- Names of variables stand again for what they did before. -/
theorem values_foldl_unshadow (old : Name → Option ValueEntry) (env : Environment) (n : Name) :
    ((vars.map fun b => (b.name, old b.name)).foldl (fun env entry => env.unshadow entry.1 entry.2)
      env).values.get? n
      = if n ∈ binderNames vars then old n else env.values.get? n := by
  induction vars generalizing env with
  | nil => rfl
  | cons b rest ih =>
    rw [List.map_cons, List.foldl_cons, ih, values_unshadow, binderNames, binderNames,
      List.map_cons]
    by_cases hrest : n ∈ rest.map Binder.name
    · rw [if_pos hrest, if_pos (List.mem_cons_of_mem _ hrest)]
    · by_cases hfirst : b.name = n
      · subst hfirst
        rw [if_neg hrest, if_pos rfl, if_pos List.mem_cons_self]
      · rw [if_neg hrest, if_neg hfirst, if_neg]
        exact List.not_mem_cons_of_ne_of_not_mem (Ne.symm hfirst) hrest

/-! ### Closing a section -/

/-- Only the function that is closed over has another signature. -/
theorem shape?_closeOver (typeVars : List Name) (vars : List Binder) (function : Name)
    (env : Environment) (n : Name) :
    (closeOver typeVars vars function env).shape? n = if function = n
      then (env.shape? n).map (Shape.onFunc (Signature.closeOver typeVars vars))
        else env.shape? n := by
  rw [← env.shape?_updateFunc function (f := fun entry => { entry with
    typeParams := typeVars ++ entry.typeParams, paramTys :=
      vars.map Binder.ty ++ entry.paramTys }) (fun _ => rfl) n]
  unfold closeOver
  simp only
  split <;> rfl

theorem decreasing_updateFunc (env : Environment) (name : Name) (f : FuncEntry → FuncEntry) :
    (env.updateFunc name f).decreasing = env.decreasing := by
  unfold Environment.updateFunc
  split <;> rfl

/-- The decreasing argument moves behind the variables of the section. -/
theorem decreasing_closeOver (typeVars : List Name) (vars : List Binder) (function : Name)
    (env : Environment) (n : Name) :
    (closeOver typeVars vars function env).decreasing.get? n = if function = n
      then (env.decreasing.get? n).map (fun p => { p with index := p.index + vars.length })
      else env.decreasing.get? n := by
  unfold closeOver
  simp only [decreasing_updateFunc]
  cases hget : env.decreasing.get? function with
  | none =>
    simp only [decreasing_updateFunc]
    split
    · next heq => rw [← heq, hget]; rfl
    · rfl
  | some param =>
    simp only
    rw [Environment.setDecreasing]
    simp only [decreasing_updateFunc, Table.get?_insert]
    split
    · next heq => rw [← heq, hget]; rfl
    · rfl

section closing

variable (typeVars : List Name) (vars : List Binder) {functions : List FuncDecl} (env : Environment)
  {n : Name}

/-- A section is closed over its functions one after the other; a function that it does not define
stays. -/
theorem foldl_closeOver_of_notMem (h : n ∉ functions.map FuncDecl.name) :
    (functions.foldl (fun env d => closeOver typeVars vars d.name env) env).shape? n =
      env.shape? n ∧
      (functions.foldl (fun env d => closeOver typeVars vars d.name env) env).decreasing.get? n
        = env.decreasing.get? n := by
  induction functions generalizing env with
  | nil => exact ⟨rfl, rfl⟩
  | cons d rest ih =>
    rw [List.map_cons, List.mem_cons, not_or] at h
    obtain ⟨hshape, hdecreasing⟩ := ih (closeOver typeVars vars d.name env) h.2
    rw [List.foldl_cons, hshape, hdecreasing, shape?_closeOver, decreasing_closeOver,
      if_neg (Ne.symm h.1), if_neg (Ne.symm h.1)]
    exact ⟨rfl, rfl⟩

/-- A function that the section defines takes the variables of the section too. -/
theorem foldl_closeOver_of_mem (hnodup : (functions.map FuncDecl.name).Nodup)
    (h : n ∈ functions.map FuncDecl.name) :
    (functions.foldl (fun env d => closeOver typeVars vars d.name env) env).shape? n
        = (env.shape? n).map (Shape.onFunc (Signature.closeOver typeVars vars)) ∧
      (functions.foldl (fun env d => closeOver typeVars vars d.name env) env).decreasing.get? n
        = (env.decreasing.get? n).map fun p => { p with index := p.index + vars.length } := by
  induction functions generalizing env with
  | nil => cases h
  | cons d rest ih =>
    rw [List.map_cons, List.nodup_cons] at hnodup
    rw [List.foldl_cons]
    rcases List.mem_cons.mp h with rfl | hrest
    · obtain ⟨hshape, hdecreasing⟩ :=
        foldl_closeOver_of_notMem typeVars vars (closeOver typeVars vars d.name env) hnodup.1
      rw [hshape, hdecreasing, shape?_closeOver, decreasing_closeOver, if_pos rfl, if_pos rfl]
      exact ⟨rfl, rfl⟩
    · have hne : d.name ≠ n := fun heq => hnodup.1 (heq ▸ hrest)
      obtain ⟨hshape, hdecreasing⟩ := ih (closeOver typeVars vars d.name env) hnodup.2 hrest
      rw [hshape, hdecreasing, shape?_closeOver, decreasing_closeOver, if_neg hne, if_neg hne]
      exact ⟨rfl, rfl⟩

end closing

/-- **Closing a section** with distinct variables that are named like none of its functions: the
functions are new, and all other names stand for what they did before the section. -/
theorem emits_section (name : Name) {inner : List Sentence} {env : Environment}
    (hopen : openSection plan.vars σ = (previous, σ')) (hnodup : (binderNames plan.vars).Nodup)
    (hvars : ∀ n ∈ binderNames plan.vars, n ∉ Sentence.funcNames inner)
    (hinner : Emits [] inner σ'.env env) :
    Emits [] [.shared name (plan.typeVars.map ({ name := · })) plan.vars inner] σ.env
      (plan.closeSection previous (Sentence.funcDeclsOfAll inner) env) := by
  obtain ⟨rfl, hopened, hdecreasing⟩ := openSection_spec hopen hnodup
  have hfuncNames : Sentence.funcNames
      [.shared name (plan.typeVars.map ({ name := · })) plan.vars inner]
      = Sentence.funcNames inner := by
    rw [Sentence.funcNames_cons]
    exact List.append_nil _
  -- first the hidden names come back, then signatures are closed over
  generalize hrestored : (plan.vars.map fun b => (b.name, σ.env.values.get? b.name)).foldl
    (fun env entry => env.unshadow entry.1 entry.2) env = restored
  have hshape : ∀ n, restored.shape? n =
      if n ∈ binderNames plan.vars then σ.env.shape? n else env.shape? n := by
    intro n
    rw [Environment.shape?, ← hrestored, values_foldl_unshadow]
    split <;> rfl
  have hdecreasing' : restored.decreasing = env.decreasing := by
    rw [← hrestored]
    refine Environment.part_foldl Environment.decreasing (fun env entry => ?_) _ env
    cases entry.2 <;> rfl
  have hclosed : plan.closeSection (plan.vars.map fun b => (b.name, σ.env.values.get? b.name))
      (Sentence.funcDeclsOfAll inner) env
        = (Sentence.funcDeclsOfAll inner).foldl
          (fun env d => closeOver plan.typeVars plan.vars d.name env) restored := by
    rw [← hrestored]
    rfl
  have hemitted := Sentence.emittedOfAll_section name plan.typeVars plan.vars inner
  rw [hclosed]
  refine ⟨?_, fun n hn => .inr ?_, ?_, ?_, fun n hn => ?_, fun n hn => ?_⟩
  · rw [hfuncNames]
    exact hinner.nodup
  · rw [hfuncNames] at hn
    -- no function of the section is hidden by a variable of it
    have hother : n ∉ binderNames plan.vars := fun hmem => hvars n hmem hn
    rw [Environment.shape?, ← hopened n hother]
    exact (hinner.new n hn).resolve_left List.not_mem_nil
  · rw [hemitted, List.forall_mem_map]
    intro e he
    have hmem := Sentence.mem_funcNames_of_mem_emitted he
    have hother : e.name ∉ binderNames plan.vars := fun hvar => hvars e.name hvar hmem
    refine (foldl_closeOver_of_mem plan.typeVars plan.vars restored hinner.nodup hmem).1.trans ?_
    rw [hshape, if_neg hother, hinner.shapes e he]
    rfl
  · rw [hemitted, List.forall_mem_map]
    intro e he
    have hmem := Sentence.mem_funcNames_of_mem_emitted he
    refine (foldl_closeOver_of_mem plan.typeVars plan.vars restored hinner.nodup hmem).2.trans ?_
    rw [hdecreasing', hinner.decreasing e he]
    rfl
  · rw [hfuncNames] at hn
    rw [(foldl_closeOver_of_notMem plan.typeVars plan.vars restored hn).1, hshape]
    split
    · rfl
    · next hother =>
      rw [hinner.kept n hn, Environment.shape?, hopened n hother]
      rfl
  · rw [hfuncNames] at hn
    rw [(foldl_closeOver_of_notMem plan.typeVars plan.vars restored hn).2, hdecreasing',
      hinner.keptDecreasing n hn, hdecreasing]

/-! ### Inner functions -/

/-- An inner function is registered under a new name. -/
theorem registerInner_adds {positions : List Nat} {d inner : FuncDecl} {u : Unit}
    (h : registerInner positions d inner σ = .ok u σ') (hnew : σ.env.shape? inner.name = none) :
    Adds [inner] σ.env σ'.env := by
  simp only [registerInner, Compile.bind_ok, Compile.lift_ok, Session.modifyEnv_eq,
    Session.getEnv_eq] at h
  obtain ⟨_, σ₁, rfl, _, _, ⟨rfl, rfl⟩, h⟩ := h
  have hadds : Adds [inner] σ.env (σ.env.addFunc { FuncEntry.ofDecl inner with
      needsFreeArgs := σ.env.needsFreeArgs d.name, isPartial := σ.env.isPartial d.name }) :=
    .one hnew (fun n => Environment.shape?_addFunc _ _ n) fun _ _ => rfl
  generalize innerPragma _ positions d = result at h
  rcases result with diagnostic | _ | pragma
  · exact absurd h Compile.throw_ok
  · obtain ⟨_, rfl⟩ := Compile.pure_ok.mp h
    exact hadds
  · simp only [Compile.lift_ok, Session.modifyEnv_eq] at h
    subst h
    exact ⟨hadds.nodup, hadds.new, hadds.added, hadds.kept, hadds.decreasing⟩

/-- All inner functions are registered. -/
theorem registerAll_adds {positions : List Nat} {pairs : List (FuncDecl × FuncDecl)} {u : Unit}
    (h : (pairs.forM fun (d, inner) => registerInner positions d inner) σ = .ok u σ')
    (hnodup : ((pairs.map Prod.snd).map FuncDecl.name).Nodup)
    (hnew : ∀ inner ∈ pairs.map Prod.snd, σ.env.shape? inner.name = none) :
    Adds (pairs.map Prod.snd) σ.env σ'.env := by
  induction pairs generalizing σ with
  | nil =>
    obtain ⟨_, rfl⟩ := Compile.pure_ok.mp h
    exact .nil σ.env
  | cons p rest ih =>
    change (registerInner positions p.1 p.2 >>= fun _ => rest.forM _) σ = .ok u σ' at h
    obtain ⟨_, σ₁, hfirst, hrest⟩ := Compile.bind_ok.mp h
    rw [List.map_cons, List.forall_mem_cons] at hnew
    rw [List.map_cons, List.map_cons, List.nodup_cons] at hnodup
    have hadds := registerInner_adds hfirst hnew.1
    refine hadds.append (ih hrest hnodup.2 fun inner hinner => ?_)
    rw [hadds.kept inner.name]
    · exact hnew.2 inner hinner
    · intro hmem
      rw [← List.mem_singleton.mp hmem] at hnodup
      exact hnodup.1 (List.mem_map_of_mem hinner)

/-- The definition after the section has the signature of the function. -/
theorem wrappers_signature {wrappers : List FuncDecl}
    (h : decls.mapM plan.wrapper? = some wrappers) :
    List.Forall₂ (fun d w : FuncDecl => w.name = d.name ∧ w.signature = d.signature) decls
      wrappers := by
  refine (List.forall₂_of_mapM_eq_some h).imp fun d w hw => ?_
  unfold Plan.wrapper? at hw
  obtain ⟨shared, _, hw⟩ := Option.bind_eq_some_iff.mp hw
  obtain rfl := Option.some.inj hw
  exact ⟨rfl, rfl⟩

/-- The section of a run defines the inner functions and helpers of theirs, all with new names. -/
theorem section_emits {entries : List (Name × Name)} {name wanted : Name}
    {chosen : List Nat} {inner : List Sentence} {c' : Counters} {σ₁ σ₂ σ₃ σ₄ σ₅ : Session}
    (hplan : PlanFor σ.counters c' decls entries plan) (hnodup : (decls.map FuncDecl.name).Nodup)
    (hfresh : freshInnerNames decls σ = (entries, σ₁)) (hname : freshName wanted σ₁ = (name, σ₂))
    (hopen : openSection plan.vars σ₂ = (previous, σ₃))
    (hregister :
      ((decls.zip (decls.map plan.reduce)).forM fun (d, inner) =>
      registerInner plan.positions d inner) σ₃
      = .ok () σ₄)
    (hchoose : Decreasing.choose σ₄.env (decls.map plan.reduce) = .ok chosen)
    (hsplit : Split.toSentences (decls.map plan.reduce) chosen σ₄ = .ok inner σ₅)
    (hvars : (binderNames plan.vars).Nodup)
    (hother : ∀ n ∈ binderNames plan.vars, n ∉ Sentence.funcNames inner) :
    Emits [] [.shared name (plan.typeVars.map ({ name := · })) plan.vars inner] σ.env
      (plan.closeSection previous (Sentence.funcDeclsOfAll inner) σ₅.env) := by
  have hinnerNames := hplan.reduced_names hnodup
  obtain ⟨henv, _, _, _, hentries⟩ := freshInnerNames_spec hfresh
  have henv' : σ₂.env = σ.env := (freshName_spec hname).1.trans henv
  have hlength := Decreasing.length_of_choose hchoose
  have hall : ∀ n ∈ (decls.map plan.reduce).map FuncDecl.name, n ∈ Sentence.funcNames inner :=
    fun n hn => Split.mem_funcNames hsplit hlength hn
  -- the inner functions are new, and no variable of the section hides that
  have hadds : Adds (decls.map plan.reduce) σ₃.env σ₄.env := by
    have hsnd : (decls.zip (decls.map plan.reduce)).map Prod.snd = decls.map plan.reduce :=
      List.map_snd_zip (List.length_map _).le
    have hnew : ∀ d ∈ decls.map plan.reduce, σ₃.env.shape? d.name = none := by
      intro d hd
      have hmem : d.name ∈ (decls.map plan.reduce).map FuncDecl.name := List.mem_map_of_mem hd
      have hvisible : d.name ∉ binderNames plan.vars := fun hvar => hother _ hvar (hall _ hmem)
      rw [Environment.shape?, (openSection_spec hopen hvars).2.1 _ hvisible, henv']
      exact Environment.shape?_eq_none (hentries _ (hinnerNames ▸ hmem)).2.2
    have hregistered := registerAll_adds hregister
    rw [hsnd, hinnerNames] at hregistered
    exact hregistered hplan.nodup hnew
  have hinner : Emits [] inner σ₃.env σ₅.env :=
    .of_adds hadds
      (Split.toSentences_emits hsplit hlength (hinnerNames ▸ hplan.nodup) hadds.added) hall
  have hsection := emits_section name hopen hvars hother hinner
  rwa [henv'] at hsection

/-- **Hoisting** defines the functions of its group, and the functions of the section with new
names. -/
theorem toSentences_emits {sentences : List Sentence}
    (h : toSentences decls (constantPositions decls) σ = .ok sentences σ')
    (hnodup : (decls.map FuncDecl.name).Nodup)
    (hshapes : ∀ d ∈ decls, σ.env.shape? d.name = some (.func d.signature))
    (hdecreasing : ∀ d ∈ decls, σ.env.decreasing.get? d.name = none)
    (hdistinct : ∀ sentence ∈ sentences, sentence.SectionDistinct) :
    Emits (decls.map FuncDecl.name) sentences σ.env σ'.env := by
  obtain @⟨plan, entries, first, name, previous, chosen, inner, wrappers, σ₁, σ₂, σ₃, σ₄, σ₅,
    hpositions, hvars, _, hnames, _,
    hfresh, hfirst, hname, hopen, hregister, hchoose, hsplit, hwrappers⟩ := toSentences_ok.mp h
  obtain ⟨hvarsNodup, hvarsOther⟩ := hdistinct _ List.mem_cons_self
  have hplan := planFor_of_run hfresh hname hnames hpositions hvars hfirst
  have hsection :=
    section_emits hplan hnodup hfresh hname hopen hregister hchoose hsplit hvarsNodup hvarsOther
  -- the definitions after the section stand for the functions of the group
  have hwrapperSignatures := wrappers_signature hwrappers
  have hwrapperNames : wrappers.map FuncDecl.name = decls.map FuncDecl.name :=
    hwrapperSignatures.flip.map_eq_map fun _ _ hsame => hsame.1
  have hother : ∀ d ∈ decls, d.name ∉ Sentence.funcNames
      [.shared name (plan.typeVars.map ({ name := · })) plan.vars inner] := by
    intro d hd
    refine hsection.notMem_of_registered List.not_mem_nil ?_
    rw [hshapes d hd]
    nofun
  have hdefinitions := Emits.definitions (hwrapperNames ▸ hnodup)
    (fun w hw => by
      obtain ⟨d, hd, hname, hsignature⟩ := hwrapperSignatures.exists_left hw
      rw [hname, hsignature, hsection.kept _ (hother d hd)]
      exact hshapes d hd)
    (fun w hw => by
      obtain ⟨d, hd, hname, _⟩ := hwrapperSignatures.exists_left hw
      rw [hname, hsection.keptDecreasing _ (hother d hd)]
      exact hdecreasing d hd)
  rw [← hwrapperNames]
  refine hsection.append hdefinitions fun n hn hmem => ?_
  rw [hwrapperNames] at hmem
  obtain ⟨d, hd, rfl⟩ := List.mem_map.mp hmem
  exact hother d hd hn

end Hoist

/-- **A recursive group** defines its functions, and other functions with new names. -/
theorem groupToSentences_emits {decls : List FuncDecl} {sentences : List Sentence} {σ σ' : Session}
    (h : groupToSentences decls σ = .ok sentences σ') (hnodup : (decls.map FuncDecl.name).Nodup)
    (hshapes : ∀ d ∈ decls, σ.env.shape? d.name = some (.func d.signature))
    (hdecreasing : ∀ d ∈ decls, σ.env.decreasing.get? d.name = none)
    (hdistinct : ∀ sentence ∈ sentences, sentence.SectionDistinct) :
    Emits (decls.map FuncDecl.name) sentences σ.env σ'.env := by
  cases groupToSentences_ok.mp h with
  | split _ hchoose hrun =>
    exact Split.toSentences_emits hrun (Decreasing.length_of_choose hchoose) hnodup hshapes
  | hoist _ hrun => exact Hoist.toSentences_emits hrun hnodup hshapes hdecreasing hdistinct

end StructRec
