import StructRec.Pipeline
import StructRec.Proofs.Helpers
import StructRec.Proofs.NameHistories

/-!
# StructRec — what no run takes back

Converting functions never lowers a counter and never touches a type, whether the conversion
succeeds or fails somewhere on its way (`Session.Grows`). So a name that was generated for a
component that failed is not generated again, although nothing of that component is registered any
more.
-/

namespace StructRec

variable {α β : Type}
variable {s s' : Session}

/-! ## Growing runs -/

/-- A later state of a conversion of functions. -/
structure Session.Grows (s s' : Session) : Prop where
  counters : s.counters ≤ s'.counters
  types : s'.env.types = s.env.types

namespace Session.Grows

theorem refl (s : Session) : s.Grows s := ⟨le_rfl, rfl⟩

theorem trans {s s' s'' : Session} (h : s.Grows s') (h' : s'.Grows s'') : s.Grows s'' :=
  ⟨h.counters.trans h'.counters, h'.types.trans h.types⟩

end Session.Grows

def Naming.Grows (x : Naming α) : Prop := ∀ s : Session, s.Grows (x s).2

namespace Naming.Grows

variable {x : Naming α}

theorem pure (a : α) : Naming.Grows (Pure.pure a) := fun s => .refl s

/-- One step after the other. -/
theorem bind {f : α → Naming β} (hx : Naming.Grows x) (hf : ∀ a, Naming.Grows (f a)) :
    Naming.Grows (x >>= f) :=
  fun s => (hx s).trans (hf _ _)

/-- A change of the environment that leaves its types alone. -/
theorem modifyEnv {f : Environment → Environment} (h : ∀ env, (f env).types = env.types) :
    Naming.Grows (Session.modifyEnv f) := fun s => ⟨le_rfl, h s.env⟩

theorem getEnv : Naming.Grows Session.getEnv := fun s => .refl s

/-- A new name raises a counter. -/
theorem freshName (wanted : Name) : Naming.Grows (freshName wanted) := by
  intro s
  obtain ⟨henv, hle, _⟩ := freshName_spec (rfl : StructRec.freshName wanted s = (_, _))
  exact ⟨hle, congrArg Environment.types henv⟩

end Naming.Grows

def Compile.Grows (x : Compile α) : Prop := ∀ s : Session, s.Grows (x.stateAfter s)

/-- Nothing is taken back of a failed transaction that is passed over, beside the environment. -/
theorem Compile.counters_of_skipped {x : Compile α} {d : Diagnostic}
    (h : attempt (transaction x) s = .ok (.error d) s') :
    s'.counters = (x.stateAfter s).counters := by
  unfold attempt transaction at h
  unfold stateAfter
  cases hrun : x s with
  | ok a s₁ =>
    rw [hrun] at h
    cases h
  | error failure s₁ =>
    rw [hrun] at h
    cases failure with
    | error d' =>
      cases h
      rfl
    | bug b => cases h

namespace Compile.Grows

variable {x : Compile α}
variable {f : α → Compile β}

theorem of_ok {a : α} (h : x.Grows) (hrun : x s = .ok a s') : s.Grows s' := by
  have hs := h s
  rwa [stateAfter, hrun] at hs

theorem of_error {failure : Failure} (h : x.Grows) (hrun : x s = .error failure s') :
    s.Grows s' := by
  have hs := h s
  rwa [stateAfter, hrun] at hs

theorem pure (a : α) : Compile.Grows (Pure.pure a) := fun s => .refl s

theorem throw (failure : Failure) : Compile.Grows (throw failure : Compile α) := fun s => .refl s

/-- What follows a failure is not reached. -/
theorem throw_bind {failure : Failure} :
    Compile.Grows ((MonadExcept.throw failure : Compile α) >>= f) := fun s => .refl s

theorem lift {x : Naming α} (h : Naming.Grows x) : Compile.Grows (liftM x) := h

/-- A failure of the first part ends the run where that part left it. -/
theorem bind (hx : x.Grows) (hf : ∀ a, (f a).Grows) : (x >>= f).Grows := by
  intro s
  cases hrun : x s with
  | ok a s' =>
    rw [stateAfter_bind_ok hrun]
    exact (hx.of_ok hrun).trans (hf a s')
  | error failure s' =>
    rw [stateAfter_bind_error hrun]
    exact hx.of_error hrun

theorem lift_bind {x : Naming α} (hx : Naming.Grows x) (hf : ∀ a, (f a).Grows) :
    Compile.Grows (liftM x >>= f) := .bind (.lift hx) hf

theorem expect (bug : Bug) (o : Option α) : (expect bug o).Grows := by
  cases o with
  | none => exact .throw _
  | some a => exact .pure a

/-- What is undone concerns the environment, and the counters stay. -/
theorem isolated (hx : x.Grows) : (isolated x).Grows := by
  intro s
  refine ⟨(counters_isolated x s).symm ▸ (hx s).counters, ?_⟩
  unfold stateAfter Compile.isolated
  cases x s <;> rfl

/-- **A part that is given up** leaves its counters behind. -/
theorem counters_of_skipped {d : Diagnostic} {s s' : Session} (hx : x.Grows)
    (h : attempt (transaction x) s = .ok (.error d) s') : s.counters ≤ s'.counters :=
  (Compile.counters_of_skipped h).symm ▸ (hx s).counters

/-- Where an error is said to be has no effect on the state. -/
theorem locate {span : Span} (hx : x.Grows) : (locate span x).Grows := by
  intro s
  have hs := hx s
  unfold stateAfter at hs ⊢
  unfold Compile.locate
  -- a failure is passed on with another place, and the state with it
  cases hrun : x s with
  | ok a s' =>
    rw [hrun] at hs
    exact hs
  | error failure s' =>
    rw [hrun] at hs
    cases failure with
    | error d => exact hs
    | bug b => exact hs

theorem mapM {f : α → Compile β} (h : ∀ a, (f a).Grows) (xs : List α) : (xs.mapM f).Grows := by
  induction xs with
  | nil =>
    rw [List.mapM_nil]
    exact .pure []
  | cons a rest ih =>
    rw [List.mapM_cons]
    exact (h a).bind fun _ => ih.bind fun _ => .pure _

theorem forM {f : α → Compile PUnit} (h : ∀ a, (f a).Grows) (xs : List α) : (xs.forM f).Grows := by
  induction xs with
  | nil => exact .pure _
  | cons a rest ih => exact (h a).bind fun _ => ih

end Compile.Grows

/-! ## Substitution -/

namespace Subst

theorem enterBinders_grows (captured : List Name) (s : Subst) (binders : List Binder) :
    Naming.Grows (enterBinders captured s binders) := by
  induction binders generalizing s with
  | nil => exact .pure _
  | cons b rest ih =>
    refine .bind ?_ fun entered => (ih entered.1).bind fun _ => .pure _
    unfold enterBinder
    dsimp only
    split
    · exact (Naming.Grows.freshName _).bind fun _ => .pure _
    · exact .pure _

mutual

/-- Substitution draws names and does nothing else. -/
theorem onExpr_grows : (e : Expr) → (s : Subst) → Naming.Grows (s.onExpr e)
  | .var .., _ | .con .., _ | .intLit .., _ | .undefined _, _ | .error .., _ => .pure _
  | .app _ fn arg, s => (onExpr_grows fn s).bind fun _ => (onExpr_grows arg s).bind fun _ => .pure _
  | .typeApp _ fn _, s => (onExpr_grows fn s).bind fun _ => .pure _
  | .cond _ test thenBranch elseBranch, s =>
    (onExpr_grows test s).bind fun _ => (onExpr_grows thenBranch s).bind fun _ =>
      (onExpr_grows elseBranch s).bind fun _ => .pure _
  | .case _ scrutinee alts, s => (onExpr_grows scrutinee s).bind fun _ =>
      (onAlts_grows alts s).bind fun _ => .pure _
  | .lam _ _ body, _ => (enterBinders_grows _ _ _).bind fun entered =>
      (onExpr_grows body entered.1).bind fun _ => .pure _
  | .letRec _ binds body, _ =>
    (enterBinders_grows _ _ _).bind fun entered => (onRhss_grows binds entered.1).bind fun _ =>
      (onExpr_grows body entered.1).bind fun _ => .pure _

theorem onAlts_grows : (alts : Alts) → (s : Subst) → Naming.Grows (s.onAlts alts)
  | [], _ => .pure _
  | (_, rhs) :: rest, s =>
    (enterBinders_grows _ _ _).bind fun entered => (onExpr_grows rhs entered.1).bind fun _ =>
      (onAlts_grows rest s).bind fun _ => .pure _

theorem onRhss_grows : (binds : Binds) → (s : Subst) → Naming.Grows (s.onRhss binds)
  | [], _ => .pure _
  | (_, rhs) :: rest, s => (onExpr_grows rhs s).bind fun _ =>
      (onRhss_grows rest s).bind fun _ => .pure _

end

/-- Also where there is nothing to replace. -/
theorem apply_grows (s : Subst) (e : Expr) : Naming.Grows (s.apply e) := by
  unfold apply
  dsimp only
  split
  · exact .pure e
  · exact onExpr_grows e _

theorem applyAll_grows (s : Subst) (es : List Expr) : Naming.Grows (s.applyAll es) := by
  induction es with
  | nil => exact .pure _
  | cons e rest ih => exact (s.apply_grows e).bind fun _ => ih.bind fun _ => .pure _

end Subst

/-! ## Inlining -/

namespace Inline

theorem freshTypeParams_grows (s : Subst) (params : List TypeParam) :
    Naming.Grows (freshTypeParams s params) := by
  induction params generalizing s with
  | nil => exact .pure _
  | cons p rest ih => exact (Naming.Grows.freshName _).bind fun _ => (ih _).bind fun _ => .pure _

theorem instantiate_grows (d : FuncDecl) : Naming.Grows (instantiate d) :=
  (freshTypeParams_grows _ _).bind fun typed =>
      (Subst.enterBinders_grows _ typed.1 _).bind fun entered =>
    (entered.1.apply_grows d.rhs).bind fun _ => .pure _

theorem Pending.close_grows (p : Pending) : p.close.Grows := by
  unfold Pending.close
  split
  · exact .throw _
  · exact .pure _

theorem Pending.applyValue_grows (p : Pending) (note : Note) (arg : Expr) :
    (p.applyValue note arg).Grows := by
  unfold Pending.applyValue
  split
  · exact .throw _
  · exact .pure _
  · exact .lift_bind (Subst.apply_grows _ _) fun _ => .pure _

theorem Pending.applyType_grows (p : Pending) (note : Note) (ty : Ty) :
    (p.applyType note ty).Grows := by
  unfold Pending.applyType
  split
  · exact .pure _
  · exact .throw _
  · exact .lift_bind (Subst.apply_grows _ _) fun _ => .pure _

/-- **Inlining** only adds to the names taken. -/
theorem descend_grows (depth : Nat) (ctx : Context) (e : Expr) : (descend depth ctx e).Grows := by
  -- by induction on the depth; each form runs its parts in turn
  induction depth generalizing ctx e with
  | zero => exact .throw _
  | succ depth ih =>
    -- in most places the descent is followed by closing what it returns
    have hvalue : ∀ ctx e, Compile.Grows (do (← descend depth ctx e).close) := fun ctx e =>
      (ih ctx e).bind fun p => p.close_grows
    cases e with
    | var note name =>
      rw [descend]
      cases hdecl : ctx.decl? name with
      | none => exact .pure _
      | some d =>
        dsimp only
        split
        · exact .throw_bind
        · exact .lift_bind (instantiate_grows d) fun _ => (hvalue _ _).bind fun _ => .pure _
    | con note name | intLit note value | undefined note | error note message => exact .pure _
    | app note fn arg =>
      rw [descend]
      exact (ih ctx fn).bind fun p => (hvalue ctx arg).bind fun _ => p.applyValue_grows note _
    | typeApp note fn ty =>
      rw [descend]
      exact (ih ctx fn).bind fun p => p.applyType_grows note ty
    | cond note test thenBranch elseBranch =>
      rw [descend]
      exact (hvalue ctx _).bind fun _ => (hvalue ctx _).bind fun _ =>
        (hvalue ctx _).bind fun _ => .pure _
    | case note scrutinee alts =>
      rw [descend]
      refine (hvalue ctx _).bind fun _ => .bind (.mapM (fun alt => ?_) alts) fun _ => .pure _
      exact .lift_bind (Subst.enterBinders_grows _ _ _) fun entered =>
        .lift_bind (entered.1.apply_grows _) fun _ =>
          (hvalue _ _).bind fun _ => .pure _
    | lam note params body =>
      rw [descend]
      exact .lift_bind (Subst.enterBinders_grows _ _ _) fun entered =>
        .lift_bind (entered.1.apply_grows _) fun _ =>
          (hvalue _ _).bind fun _ => .pure _
    | letRec note binds body =>
      rw [descend]
      refine .lift_bind (Subst.enterBinders_grows _ _ _) fun entered =>
        .lift_bind (entered.1.applyAll_grows _) fun rhss => ?_
      exact .lift_bind (entered.1.apply_grows _) fun _ =>
        .bind (.mapM (fun _ => hvalue _ _) rhss) fun _ =>
          (hvalue _ _).bind fun _ => .pure _

end Inline

theorem inlineDecl_grows (decls : List FuncDecl) (d : FuncDecl) : (inlineDecl decls d).Grows :=
  .lift_bind (Subst.enterBinders_grows _ _ _) fun entered =>
      .lift_bind (entered.1.apply_grows _) fun _ =>
    .bind ((Inline.descend_grows _ _ _).bind fun p => p.close_grows) fun _ => .pure _

/-! ## Groups -/

namespace Split

theorem makeHelper_grows (d : FuncDecl) (param : Name) (returnTy : Option Ty)
    (vars : List (Name × Option Ty)) (body : Expr) :
    Naming.Grows (makeHelper d param returnTy vars body) :=
  (Naming.Grows.freshName _).bind fun _ =>
    (Naming.Grows.modifyEnv fun _ => by rfl).bind fun _ => .pure _

/-- Helpers are registered as values, which are no types. -/
theorem Makes.grows {d : FuncDecl} {param : Name} {helpers : List Helper} {σ σ' : Session}
    (h : Makes d param σ helpers σ') : σ.Grows σ' := by
  induction h with
  | nil σ => exact .refl σ
  | @cons returnTy vars body _ _ _ σ _ _ _ hmade _ ih =>
    have hfirst := makeHelper_grows d param returnTy vars body σ
    rw [hmade] at hfirst
    exact hfirst.trans ih

/-- **Splitting a function** only adds to the names taken. -/
theorem split_grows (d : FuncDecl) (position : Nat) : (d.split position).Grows := by
  unfold FuncDecl.split
  split
  · exact .throw _
  · next param hparam =>
    -- a split changes the state by making helpers only
    have hsplitAt : Naming.Grows (splitAt d param.name) := by
      intro σ
      rcases hrun : splitAt d param.name σ with ⟨⟨helpers, main⟩, σ'⟩
      exact (splitAt_makes hrun (List.mem_map_of_mem (List.mem_of_getElem? hparam))).1.grows
    refine .lift_bind hsplitAt fun result => ?_
    dsimp only
    split
    · exact .throw_bind
    · exact .pure _

theorem splitAll_grows (decls : List (FuncDecl × Nat)) : (splitAll decls).Grows := by
  induction decls with
  | nil => exact .pure _
  | cons p rest ih => exact (split_grows p.1 p.2).bind fun _ => ih.bind fun _ => .pure _

theorem toBody_grows (helper : FuncDecl) : (toBody helper).Grows :=
  .lift_bind .getEnv fun _ => (Compile.Grows.expect _ _).bind fun _ =>
    (Compile.Grows.expect _ _).bind fun _ => .pure _

theorem toSentences_grows (decls : List FuncDecl) (positions : List Nat) :
    (toSentences decls positions).Grows := by
  refine (splitAll_grows _).bind fun result => ?_
  obtain ⟨helpers, mains⟩ := result
  have hinline := Compile.Grows.mapM (fun x : Helper => inlineDecl_grows mains x.decl) helpers
  refine hinline.isolated.bind fun inlined => .bind (.mapM toBody_grows inlined) fun bodies => ?_
  refine .bind (.forM (fun _ => .lift (.modifyEnv fun _ => by rfl)) bodies) fun _ => ?_
  exact .bind (.forM (fun _ => .lift (.modifyEnv fun _ => by rfl)) mains) fun _ => .pure _

end Split

namespace Hoist

theorem freshInnerNames_grows (decls : List FuncDecl) : Naming.Grows (freshInnerNames decls) := by
  induction decls with
  | nil => exact .pure _
  | cons d rest ih => exact (Naming.Grows.freshName _).bind fun _ => ih.bind fun _ => .pure _

theorem openSection_grows (vars : List Binder) : Naming.Grows (openSection vars) := by
  induction vars with
  | nil => exact .pure _
  | cons b rest ih =>
    exact Naming.Grows.getEnv.bind fun _ => (Naming.Grows.modifyEnv fun _ => by rfl).bind fun _ =>
      ih.bind fun _ => .pure _

theorem registerInner_grows (positions : List Nat) (d inner : FuncDecl) :
    (registerInner positions d inner).Grows := by
  refine .lift_bind (.modifyEnv fun _ => by rfl) fun _ => .lift_bind .getEnv fun _ => ?_
  split
  · exact .throw _
  · exact .pure _
  · exact .lift (.modifyEnv fun _ => by rfl)

theorem types_updateFunc (env : Environment) (name : Name) (f : FuncEntry → FuncEntry) :
    (env.updateFunc name f).types = env.types := by
  unfold Environment.updateFunc
  split <;> rfl

/-- Closing a section changes signatures of functions only. -/
theorem types_closeOver (typeVars : List Name) (vars : List Binder) (function : Name)
    (env : Environment) : (closeOver typeVars vars function env).types = env.types := by
  unfold closeOver
  dsimp only
  split
  · exact types_updateFunc env function _
  · exact types_updateFunc env function _

theorem types_unshadow (env : Environment) (name : Name) (previous : Option ValueEntry) :
    (env.unshadow name previous).types = env.types := by
  cases previous <;> rfl

/-- A section is opened, filled and closed; on the way only values change. -/
theorem toSentences_grows (decls : List FuncDecl) (positions : List Nat) :
    (toSentences decls positions).Grows := by
  refine (Compile.Grows.expect _ _).bind fun vars =>
    .lift_bind (freshInnerNames_grows decls) fun entries => ?_
  refine (Compile.Grows.expect _ _).bind fun first => .lift_bind (.freshName _) fun name => ?_
  refine .lift_bind (openSection_grows vars) fun previous => ?_
  refine .bind (.forM (fun (p : FuncDecl × FuncDecl) => registerInner_grows _ p.1 p.2) _) fun _ =>
    .lift_bind .getEnv fun env => ?_
  -- the inner functions are converted only if their arguments are found
  dsimp only
  split
  · refine (Compile.Grows.pure _).bind fun chosen =>
      (Split.toSentences_grows _ _).bind fun sentences => ?_
    refine .bind
      (.forM (fun _ => .lift (.modifyEnv fun env => types_unshadow env _ _)) previous) fun _ => ?_
    refine .bind (.forM (fun _ => .lift (.modifyEnv (types_closeOver _ _ _))) _) fun _ => ?_
    exact (Compile.Grows.expect _ _).bind fun _ => .pure _
  · exact .throw_bind

end Hoist

/-- **Converting a recursive group** takes nothing back, even if it fails. -/
theorem groupToSentences_grows (decls : List FuncDecl) : (groupToSentences decls).Grows := by
  unfold groupToSentences
  split
  · refine .lift_bind .getEnv fun env => ?_
    split
    · exact Split.toSentences_grows decls _
    · exact .throw _
  · exact Hoist.toSentences_grows decls _

/-- **Converting a component of functions** keeps types and raises counters. -/
theorem Component.funcsToSentences_grows (c : Component FuncDecl) : c.funcsToSentences.Grows := by
  cases c with
  | single d => exact .pure _
  | recursive decls => exact (groupToSentences_grows decls).locate

end StructRec
