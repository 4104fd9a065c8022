import StructRec.Proofs.Splitting

/-!
# StructRec — helpers as they are registered

Splitting a function changes the state in one way only: it makes and registers helpers, one after
the other (`Makes`). Their names are generated, so no helper takes the place of another or of
anything that was registered before. Each takes the decreasing parameter of its function: it is the
scrutinee of the `case` that the helper is made for.
-/

namespace StructRec

theorem Environment.mem_names_addValue {env : Environment} {entry : ValueEntry} {n : Name} :
    n ∈ (env.addValue entry).names ↔ n = entry.name ∨ n ∈ env.names := by
  unfold names addValue
  rw [List.mem_append, List.mem_append, Table.mem_keys_insert, or_left_comm]

namespace Split

variable {d : FuncDecl} {param : Name} {σ σ' σ'' : Session} {helpers helpers' : List Helper}

/-! ## Helpers of one function -/

/-- Helpers of a function are made one after the other. Each takes the decreasing parameter. -/
inductive Makes (d : FuncDecl) (param : Name) : Session → List Helper → Session → Prop where
  | nil (σ : Session) : Makes d param σ [] σ
  | cons {returnTy : Option Ty} {vars : List (Name × Option Ty)} {body call : Expr}
      {helper : Helper}
      {helpers : List Helper} {σ σ₁ σ' : Session} (hparam : param ∈ vars.map Prod.fst)
      (hmade : makeHelper d param returnTy vars body σ = ((helper, call), σ₁))
      (hrest : Makes d param σ₁ helpers σ') :
      Makes d param σ (helper :: helpers) σ'

namespace Makes

theorem one {returnTy : Option Ty} {vars : List (Name × Option Ty)} {body call : Expr}
    {helper : Helper} (hparam : param ∈ vars.map Prod.fst)
    (h : makeHelper d param returnTy vars body σ = ((helper, call), σ')) :
    Makes d param σ [helper] σ' := .cons hparam h (.nil σ')

theorem append (h : Makes d param σ helpers σ') (h' : Makes d param σ' helpers' σ'') :
    Makes d param σ (helpers ++ helpers') σ'' := by
  induction h with
  | nil => exact h'
  | cons hparam hmade _ ih => exact .cons hparam hmade (ih h')

end Makes

/-- A `case` on the decreasing parameter uses it, and nothing hides it there. -/
theorem param_mem_captured {scope : ScopeStack (Option Ty)} {note : Note} {scrutinee : Expr}
    {alts : Alts} (h : isDecreasingCase param scope scrutinee = true) :
    param ∈ (captured scope (.case note scrutinee alts)).map Prod.fst := by
  obtain ⟨hvar, hbottom⟩ := Bool.and_eq_true_iff.mp h
  refine (Surface.mem_captured_iff _ _ _).mpr ⟨ScopeStack.isDefined_of_refersToBottom hbottom, ?_⟩
  exact List.mem_append_left _ (Expr.mem_freeOccs_of_asVar? (of_decide_eq_true hvar))

mutual

/-- Lifting cases makes helpers and does nothing else to the state. -/
theorem Lifts.makes {scope returnTy e σ helpers e' σ'}
    (h : Lifts d param scope returnTy e σ helpers e' σ') : Makes d param σ helpers σ' := by
  cases h with
  | leaf => exact .nil _
  | lift hcase hmake => exact .one (param_mem_captured hcase) hmake
  | case _ hscrutinee halts => exact hscrutinee.makes.append halts.makes
  | app hfn harg => exact hfn.makes.append harg.makes
  | typeApp hfn => exact hfn.makes
  | cond htest hthen helse => exact (htest.makes.append hthen.makes).append helse.makes
  | lam hbody => exact hbody.makes
  | letRec hbinds hbody => exact hbinds.makes.append hbody.makes

/-- Alternatives, one after the other. -/
theorem LiftsAlts.makes {scope alts σ helpers alts' σ'}
    (h : LiftsAlts d param scope alts σ helpers alts' σ') : Makes d param σ helpers σ' := by
  cases h with
  | nil => exact .nil _
  | cons hrhs hrest => exact hrhs.makes.append hrest.makes

theorem LiftsBinds.makes {scope binds σ helpers binds' σ'}
    (h : LiftsBinds d param scope binds σ helpers binds' σ') : Makes d param σ helpers σ' := by
  cases h with
  | nil => exact .nil _
  | cons hrhs hrest => exact hrhs.makes.append hrest.makes

end

/-- Splitting a function on one of its parameters makes helpers, and changes nothing of the function
but its right-hand side. -/
theorem splitAt_makes {main : FuncDecl} (h : splitAt d param σ = ((helpers, main), σ'))
    (hparam : param ∈ d.paramNames) :
    Makes d param σ helpers σ' ∧ ∃ rhs, main = { d with rhs } := by
  simp only [splitAt, Naming.bind_eq] at h
  obtain ⟨⟨helpers₁, rhs'⟩, σ₁, hextract, h⟩ := h
  have hmakes := (lifts_of_extract d.rhs hextract).makes
  split at h
  · next hempty =>
    simp only [Naming.bind_eq, Naming.pure_eq] at h
    obtain ⟨⟨helper, call⟩, σ₂, hmade, heq, rfl⟩ := h
    obtain ⟨rfl, rfl⟩ := Prod.mk.inj heq
    obtain rfl : helpers₁ = [] := List.isEmpty_iff.mp hempty
    have hvars : (d.params.map fun b => (b.name, b.ty)).map Prod.fst = d.paramNames := List.map_map
    exact ⟨hmakes.append (.one (hvars ▸ hparam) hmade), _, rfl⟩
  · obtain ⟨heq, rfl⟩ := Naming.pure_eq.mp h
    obtain ⟨rfl, rfl⟩ := Prod.mk.inj heq
    exact ⟨hmakes, _, rfl⟩

/-- **Splitting a function** makes helpers that take its decreasing argument. -/
theorem split_makes {position : Nat} {main : FuncDecl}
    (h : d.split position σ = .ok (helpers, main) σ') :
    ∃ param, Makes d param σ helpers σ' ∧ ∃ rhs, main = { d with rhs } := by
  obtain ⟨b, hparam, hsplitAt, _⟩ := split_ok h
  exact ⟨b.name, splitAt_makes hsplitAt (List.mem_map_of_mem (List.mem_of_getElem? hparam))⟩

/-! ## What is registered of helpers -/

/-- Helpers are registered with their decreasing positions, under names that were not in use. -/
structure RegistersHelpers (σ σ' : Session) (helpers : List Helper) : Prop where
  draws : σ.counters.Draws σ'.counters (helpers.map (·.decl.name))
  unused : ∀ h ∈ helpers, ∀ n ∈ σ.env.names, n.target ≠ h.decl.name.target
  names : σ.env.names ⊆ σ'.env.names
  decreasing : ∀ h ∈ helpers, ∃ param,
    σ'.env.decreasing.get? h.decl.name = some { index := h.decreasing, name := param }
  inRange : ∀ h ∈ helpers, h.decreasing < h.decl.arity
  kept : ∀ n, n ∉ helpers.map (·.decl.name) → σ'.env.decreasing.get? n = σ.env.decreasing.get? n

namespace RegistersHelpers

theorem nil (σ : Session) : RegistersHelpers σ σ [] :=
  ⟨.nil le_rfl, List.forall_mem_nil _, List.Subset.refl _, List.forall_mem_nil _,
    List.forall_mem_nil _, fun _ _ => rfl⟩

/-- Helpers made later have other names. -/
theorem append (h : RegistersHelpers σ σ' helpers) (h' : RegistersHelpers σ' σ'' helpers') :
    RegistersHelpers σ σ'' (helpers ++ helpers') := by
  have hdraws := h.draws.append h'.draws
  rw [← List.map_append] at hdraws
  refine ⟨hdraws, List.forall_mem_append.mpr
    ⟨h.unused, fun x hx n hn => h'.unused x hx n (h.names hn)⟩,
    List.Subset.trans h.names h'.names, List.forall_mem_append.mpr ⟨fun x hx => ?_, h'.decreasing⟩,
    List.forall_mem_append.mpr ⟨h.inRange, h'.inRange⟩, fun n hn => ?_⟩
  · -- the later names are new, so none of them is that of an earlier helper
    have hother : x.decl.name ∉ helpers'.map (·.decl.name) := fun hmem =>
      h'.draws.new _ hmem (h.draws.settled _ (List.mem_map_of_mem hx))
    rw [h'.kept _ hother]
    exact h.decreasing x hx
  · rw [List.map_append, List.mem_append, not_or] at hn
    rw [h'.kept n hn.2, h.kept n hn.1]

end RegistersHelpers

/-- **One helper** is registered under a new name. -/
theorem makeHelper_registers {returnTy : Option Ty} {vars : List (Name × Option Ty)}
    {body call : Expr} {helper : Helper} (hparam : param ∈ vars.map Prod.fst)
    (h : makeHelper d param returnTy vars body σ = ((helper, call), σ')) :
    RegistersHelpers σ σ' [helper] := by
  simp only [makeHelper, Naming.bind_eq, Naming.pure_eq, Session.modifyEnv_eq] at h
  obtain ⟨name, σ₁, hfresh, _, _, rfl, heq, rfl⟩ := h
  obtain ⟨rfl, rfl⟩ := Prod.mk.inj heq
  have hget : ∀ (t : Table DecreasingParam) n value,
      (t.insert name value).get? n = if name = n then some value else t.get? n :=
    fun t n value => Table.get?_insert t name n value
  have hdraws := freshName_draws hfresh
  have hunused := freshName_unregistered hfresh
  have hnames : σ.env.names ⊆ σ₁.env.names := (freshName_spec hfresh).1 ▸ List.Subset.refl _
  refine ⟨hdraws, List.forall_mem_singleton.mpr fun n hn => (hunused n hn).2,
    fun n hn => Environment.mem_names_addValue.mpr (.inr (hnames hn)),
    List.forall_mem_singleton.mpr ⟨param, ?_⟩, List.forall_mem_singleton.mpr ?_, fun n hn => ?_⟩
  · exact (hget _ _ _).trans (if_pos rfl)
  · have hbinders : binderNames
        (vars.map fun x => { name := x.1, ty := x.2, span := body.span : Binder }) =
        vars.map Prod.fst :=
      List.map_map
    rw [← hbinders] at hparam
    -- the parameter is among the variables that the helper takes
    have hlt := List.idxOf_lt_length_of_mem hparam
    rwa [length_binderNames] at hlt
  · have hne : name ≠ n := fun heq => hn (List.mem_singleton.mpr heq.symm)
    rw [← (freshName_spec hfresh).1]
    exact (hget _ _ _).trans (if_neg hne)

theorem Makes.registers (h : Makes d param σ helpers σ') : RegistersHelpers σ σ' helpers := by
  induction h with
  | nil σ => exact .nil σ
  | cons hparam hmade _ ih => exact (makeHelper_registers hparam hmade).append ih

/-- **Splitting a group** registers the helpers of all functions, and keeps the names of the
functions. -/
theorem splitAll_registers {decls : List (FuncDecl × Nat)} {mains : List FuncDecl}
    (h : splitAll decls σ = .ok (helpers, mains) σ') :
    RegistersHelpers σ σ' helpers ∧
      List.Forall₂ (fun p main => ∃ rhs, main = { p.1 with rhs }) decls mains := by
  induction decls generalizing σ helpers mains with
  | nil =>
    obtain ⟨heq, rfl⟩ := Compile.pure_ok.mp h
    obtain ⟨rfl, rfl⟩ := Prod.mk.inj heq
    exact ⟨.nil σ, .nil⟩
  | cons p rest ih =>
    obtain ⟨d, position⟩ := p
    simp only [splitAll, Compile.bind_ok, Compile.pure_ok] at h
    obtain ⟨⟨helpers₁, main⟩, σ₁, hsplit, ⟨helpers₂, mains'⟩, σ₂, hrest, heq, rfl⟩ := h
    obtain ⟨rfl, rfl⟩ := Prod.mk.inj heq
    obtain ⟨param, hmakes, hmain⟩ := split_makes hsplit
    obtain ⟨hregisters, hmains⟩ := ih hrest
    exact ⟨hmakes.registers.append hregisters, .cons hmain hmains⟩

end Split

end StructRec
