import StructRec.Pipeline

/-!
# StructRec — runs of computations

A computation that names things always ends with a value and a state; one that compiles can also
fail. These lemmas take a run apart: a run of a sequence is a run of its first part followed by a
run of the rest.
-/

namespace StructRec

variable {α β : Type}

namespace Naming

/-- A run of two parts, in terms of the runs of each. -/
theorem bind_eq {x : Naming α} {f : α → Naming β} {s s'' : Session} {b : β} :
    (x >>= f) s = (b, s'') ↔ ∃ a s', x s = (a, s') ∧ f a s' = (b, s'') := by
  change f (x s).1 (x s).2 = (b, s'') ↔ _
  constructor
  · intro h
    exact ⟨(x s).1, (x s).2, rfl, h⟩
  · rintro ⟨a, s', hx, hf⟩
    rw [hx]
    exact hf

theorem pure_eq {a b : α} {s s' : Session} : (pure a : Naming α) s = (b, s') ↔ a = b ∧ s = s' := by
  change (a, s) = (b, s') ↔ _
  rw [Prod.mk.injEq]

end Naming

namespace Session

theorem getEnv_eq {env : Environment} {s s' : Session} :
    getEnv s = (env, s') ↔ s.env = env ∧ s = s' := by
  change (s.env, s) = (env, s') ↔ _
  rw [Prod.mk.injEq]

theorem modifyEnv_eq {f : Environment → Environment} {u : Unit} {s s' : Session} :
    modifyEnv f s = (u, s') ↔ { s with env := f s.env } = s' := by
  change ((), { s with env := f s.env }) = (u, s') ↔ _
  rw [Prod.mk.injEq]
  exact ⟨fun h => h.2, fun h => ⟨rfl, h⟩⟩

end Session

namespace Compile

/-- A run of two parts succeeds if the first does and the second does from where the first ended. -/
theorem bind_ok {x : Compile α} {f : α → Compile β} {s s'' : Session} {b : β} :
    (x >>= f) s = .ok b s'' ↔ ∃ a s', x s = .ok a s' ∧ f a s' = .ok b s'' := by
  change EStateM.bind x f s = .ok b s'' ↔ _
  unfold EStateM.bind
  cases x s with
  | ok a s' =>
    constructor
    · intro h
      exact ⟨a, s', rfl, h⟩
    · rintro ⟨_, _, hx, hf⟩
      cases hx
      exact hf
  | error e s' =>
    constructor
    · intro h
      cases h
    · rintro ⟨_, _, hx, _⟩
      cases hx

theorem pure_ok {a b : α} {s s' : Session} :
    (pure a : Compile α) s = .ok b s' ↔ a = b ∧ s = s' := by
  change EStateM.Result.ok a s = .ok b s' ↔ _
  rw [EStateM.Result.ok.injEq]

theorem lift_ok {x : Naming α} {a : α} {s s' : Session} :
    (liftM x : Compile α) s = .ok a s' ↔ x s = (a, s') := by
  change EStateM.Result.ok (x s).1 (x s).2 = .ok a s' ↔ _
  rw [EStateM.Result.ok.injEq, Prod.ext_iff]

theorem throw_ok {e : Failure} {a : α} {s s' : Session} : ¬ (throw e : Compile α) s = .ok a s' := by
  change ¬ EStateM.Result.error e s = .ok a s'
  intro h
  cases h

/-- Something expected is there. -/
theorem expect_ok {bug : Bug} {x : Option α} {a : α} {s s' : Session} :
    expect bug x s = .ok a s' ↔ x = some a ∧ s = s' := by
  cases x with
  | none =>
    constructor
    · intro h
      exact absurd h throw_ok
    · rintro ⟨h, _⟩
      cases h
  | some b =>
    rw [Option.some.injEq]
    exact pure_ok

/-- What an isolated part registers is gone afterwards. -/
theorem isolated_ok {x : Compile α} {a : α} {s s' : Session} :
    isolated x s = .ok a s' ↔ ∃ s₁, x s = .ok a s₁ ∧ { s₁ with env := s.env } = s' := by
  unfold isolated
  cases x s <;> grind

/-- A transaction that succeeds is as if it were none. -/
theorem transaction_ok {x : Compile α} {a : α} {s s' : Session} :
    transaction x s = .ok a s' ↔ x s = .ok a s' := by
  unfold transaction
  cases x s <;> grind

theorem locate_ok {span : Span} {x : Compile α} {a : α} {s s' : Session} :
    locate span x s = .ok a s' ↔ x s = .ok a s' := by
  unfold locate
  cases x s with
  | ok b s₁ => grind
  | error e s₁ => cases e <;> grind

theorem attempt_ok {x : Compile α} {a : α} {s s' : Session} :
    attempt x s = .ok (.ok a) s' ↔ x s = .ok a s' := by
  unfold attempt
  cases x s with
  | ok b s₁ => grind
  | error e s₁ => cases e <;> grind

/-- A loop of changes of the environment is one change. -/
theorem forM_modifyEnv_ok {xs : List α} {f : α → Environment → Environment} {u : Unit}
    {s s' : Session} :
    (xs.forM fun x => (liftM (Session.modifyEnv (f x)) : Compile Unit)) s = .ok u s' ↔
      { s with env := xs.foldl (fun env x => f x env) s.env } = s' := by
  induction xs generalizing s with
  | nil =>
    change (pure u : Compile Unit) s = .ok u s' ↔ s = s'
    rw [pure_ok]
    exact ⟨fun h => h.2, fun h => ⟨rfl, h⟩⟩
  -- the first change, then the others from there
  | cons x rest ih =>
    change ((liftM (Session.modifyEnv (f x)) : Compile Unit) >>= fun _ => rest.forM _)
      s = .ok u s' ↔ _
    rw [bind_ok, List.foldl_cons]
    constructor
    · rintro ⟨_, s₁, hx, hrest⟩
      rw [lift_ok, Session.modifyEnv_eq] at hx
      subst hx
      exact ih.mp hrest
    · intro h
      exact ⟨(), _, lift_ok.mpr (Session.modifyEnv_eq.mpr rfl), ih.mpr h⟩

/-- Whether a run succeeds with a result that passes a test. -/
def succeedsWith (p : α → Bool) (x : Compile α) (s : Session) : Bool :=
  match x s with
  | .ok a _ => p a
  | .error .. => false

/-- A computed run, read as a statement. -/
theorem exists_of_succeedsWith {p : α → Bool} {x : Compile α} {s : Session}
    (h : succeedsWith p x s = true) : ∃ a s', x s = .ok a s' ∧ p a = true := by
  unfold succeedsWith at h
  cases hx : x s with
  | ok a s' =>
    rw [hx] at h
    exact ⟨a, s', rfl, h⟩
  | error e s' =>
    rw [hx] at h
    cases h

/-- Whether a run ends with an error of the module that passes a test. -/
def failsWith (p : Diagnostic → Bool) (x : Compile α) (s : Session) : Bool :=
  match x s with
  | .error (.error d) _ => p d
  | _ => false

/-- A computed failure, read as a statement. -/
theorem exists_of_failsWith {p : Diagnostic → Bool} {x : Compile α} {s : Session}
    (h : failsWith p x s = true) : ∃ d s', x s = .error (.error d) s' ∧ p d = true := by
  unfold failsWith at h
  cases hx : x s with
  | ok a s' =>
    rw [hx] at h
    cases h
  | error failure s' =>
    rw [hx] at h
    cases failure with
    | error d => exact ⟨d, s', rfl, h⟩
    | bug bug => cases h

/-- A run can be tested for its result and the environment it ends in. -/
theorem exists_of_endsWith {p : α → Environment → Bool} {x : Compile α} {s : Session}
    (h : succeedsWith (fun result => p result.1 result.2)
      (do return (← x, ← Session.getEnv)) s = true) :
    ∃ a s', x s = .ok a s' ∧ p a s'.env = true := by
  obtain ⟨⟨a, env⟩, s', h, hcheck⟩ := exists_of_succeedsWith h
  simp only [bind_ok, lift_ok, Session.getEnv_eq, pure_ok] at h
  obtain ⟨_, s₁, hrun, _, _, ⟨rfl, rfl⟩, heq, rfl⟩ := h
  obtain ⟨rfl, rfl⟩ := Prod.mk.inj heq
  exact ⟨_, s₁, hrun, hcheck⟩

/-- A computation is run for the elements of a list in order. -/
inductive MapRun (f : α → Compile β) : List α → Session → List β → Session → Prop where
  | nil (s : Session) : MapRun f [] s [] s
  | cons {x : α} {y : β} {xs : List α} {ys : List β} {s s₁ s' : Session} (hfirst : f x s = .ok y s₁)
      (hrest : MapRun f xs s₁ ys s') : MapRun f (x :: xs) s (y :: ys) s'

/-- **A run over a list**, element by element. -/
theorem mapM_ok {f : α → Compile β} {xs : List α} {ys : List β} {s s' : Session}
    (h : xs.mapM f s = .ok ys s') : MapRun f xs s ys s' := by
  induction xs generalizing s ys with
  | nil =>
    rw [List.mapM_nil] at h
    obtain ⟨rfl, rfl⟩ := pure_ok.mp h
    exact .nil s
  | cons x rest ih =>
    rw [List.mapM_cons] at h
    simp only [bind_ok, pure_ok] at h
    obtain ⟨y, s₁, hfirst, ys', s₂, hrest, rfl, rfl⟩ := h
    exact .cons hfirst (ih hrest)

/-! ## How runs end -/

/-- Such a result and state, or such a failure. -/
def Outcome (P : α → Session → Prop) (Q : Failure → Prop) : EStateM.Result Failure Session α → Prop
  | .ok a s' => P a s'
  | .error failure _ => Q failure

/-- A run ends with such a result and state, or with such a failure. -/
def Ends (x : Compile α) (s : Session) (P : α → Session → Prop) (Q : Failure → Prop) : Prop :=
  Outcome P Q (x s)

namespace Ends

variable {x : Compile α} {f : α → Compile β} {s s' : Session} {a : α} {failure : Failure}
  {P R : α → Session → Prop} {P' : β → Session → Prop} {Q : Failure → Prop}

/-- A run that is known to succeed. -/
theorem of_ok (hrun : x s = .ok a s') (h : P a s') : x.Ends s P Q := by
  unfold Ends
  rw [hrun]
  exact h

theorem ok (h : x.Ends s P Q) (hrun : x s = .ok a s') : P a s' := by
  unfold Ends at h
  rwa [hrun] at h

theorem error (h : x.Ends s P Q) (hrun : x s = .error failure s') : Q failure := by
  unfold Ends at h
  rwa [hrun] at h

/-- What is known of the results anyway. -/
theorem of_results (h : x.Ends s R Q) (hresults : ∀ a s', x s = .ok a s' → P a s') :
    x.Ends s P Q := by
  unfold Ends at *
  cases hrun : x s with
  | ok a s' => exact hresults a s' hrun
  | error failure s' =>
    rw [hrun] at h
    exact h

theorem pure (h : P a s) : Ends (Pure.pure a) s P Q := h

theorem throw (h : Q failure) : Ends (throw failure) s P Q := h

/-- What follows a failure is not reached. -/
theorem throw_bind (h : Q failure) : Ends (MonadExcept.throw failure >>= f) s P' Q := h

/-- What the first part ends with is where the second begins. -/
theorem bind (hx : x.Ends s R Q) (hf : ∀ a s', R a s' → (f a).Ends s' P' Q) :
    (x >>= f).Ends s P' Q := by
  change Outcome P' Q (EStateM.bind x f s)
  unfold Ends at hx
  unfold EStateM.bind
  cases hrun : x s with
  | ok a s' =>
    rw [hrun] at hx
    exact hf a s' hx
  | error failure s' =>
    rw [hrun] at hx
    exact hx

/-- What follows a computation that generates names. -/
theorem lift_bind {x : Naming α} (hf : ∀ a s', x s = (a, s') → (f a).Ends s' P' Q) :
    Ends (liftM x >>= f) s P' Q :=
  hf _ _ rfl

theorem modifyEnv {g : Environment → Environment} {P : Unit → Session → Prop}
    (h : P () { s with env := g s.env }) : Ends (liftM (Session.modifyEnv g)) s P Q :=
  h

/-- Something expected is there, or the fault is allowed for. -/
theorem expect_bind {bug : Bug} {o : Option α} (hbug : Q (.bug bug))
    (hf : ∀ a, o = some a → (f a).Ends s P' Q) : Ends (expect bug o >>= f) s P' Q := by
  cases o with
  | none => exact hbug
  | some a => exact hf a rfl

/-- An invariant of every step. -/
theorem forM {I : Session → Prop} {f : α → Compile PUnit} {xs : List α}
    (h : ∀ a ∈ xs, ∀ s, I s → (f a).Ends s (fun _ => I) Q) (hs : I s) :
    (xs.forM f).Ends s (fun _ => I) Q := by
  induction xs generalizing s with
  | nil => exact hs
  | cons a rest ih =>
    rw [List.forall_mem_cons] at h
    exact (h.1 s hs).bind fun _ s₁ hs₁ => ih h.2 hs₁

/-- Another place does not matter to what is said of errors. -/
theorem locate {span : Span} (hspan : ∀ d, Q (.error d) → Q (.error (d.withSpan span)))
    (hx : x.Ends s P Q) : (locate span x).Ends s P Q := by
  unfold Ends Compile.locate at *
  cases hrun : x s with
  | ok a s' =>
    rw [hrun] at hx
    exact hx
  | error failure s' =>
    rw [hrun] at hx
    cases failure with
    | error d => exact hspan d hx
    | bug bug => exact hx

/-- A failure that is an error of the module is handed out, with the environment of before. -/
theorem attempt_transaction (hx : x.Ends s P Q) :
    (attempt (transaction x)).Ends s (fun result s' =>
      (∃ a, result = .ok a ∧ P a s') ∨ ∃ d,
        result = .error d ∧ Q (.error d) ∧ s'.env = s.env) Q := by
  unfold Ends attempt transaction at *
  cases hrun : x s with
  | ok a s' =>
    rw [hrun] at hx
    exact .inl ⟨a, rfl, hx⟩
  | error failure s' =>
    rw [hrun] at hx
    cases failure with
    | error d => exact .inr ⟨d, rfl, hx, rfl⟩
    | bug bug => exact hx

end Ends

end Compile

/-! ## Changes that leave a part of the environment alone -/

namespace Environment

/-- A loop of changes that leave a part alone leaves it alone. -/
theorem part_foldl (part : Environment → β) {f : Environment → α → Environment}
    (hf : ∀ env x, part (f env x) = part env) (xs : List α) (env : Environment) :
    part (xs.foldl f env) = part env := by
  induction xs generalizing env with
  | nil => rfl
  | cons x rest ih => rw [List.foldl_cons, ih, hf]

theorem pragmas_foldl {f : Environment → α → Environment}
    (hf : ∀ env x, (f env x).pragmas = env.pragmas) (xs : List α) (env : Environment) :
    (xs.foldl f env).pragmas = env.pragmas := part_foldl pragmas hf xs env

theorem pragmas_updateFunc (env : Environment) (name : Name) (f : FuncEntry → FuncEntry) :
    (env.updateFunc name f).pragmas = env.pragmas := by
  unfold updateFunc
  split <;> rfl

theorem pragmas_unshadow (env : Environment) (name : Name) (previous : Option ValueEntry) :
    (env.unshadow name previous).pragmas = env.pragmas := by
  cases previous <;> rfl

theorem pragmas_addData (env : Environment) (d : DataDecl) :
    (env.addData d).pragmas = env.pragmas :=
  pragmas_foldl (f := addValue) (fun _ _ => rfl) _ env

end Environment

/-! ## Conversions without errors -/

/-- Components are converted one after the other, each in the state that the one before it left. -/
inductive Converted (convert : Component α → Compile (List Sentence)) :
    List (Component α) → Session → List Sentence → Session → Prop where
  | nil (s : Session) : Converted convert [] s [] s
  | cons {c : Component α} {rest : List (Component α)} {s s₁ s' : Session}
      {sentences later : List Sentence}
      (hconvert : convert c s = .ok sentences s₁) (hrest : Converted convert rest s₁ later s') :
      Converted convert (c :: rest) s (sentences ++ later) s'

/-- A conversion that reports no error has converted all components. -/
theorem converted_of_no_errors [Declaration α] {keepGoing : Bool}
    {convert : Component α → Compile (List Sentence)} {components : List (Component α)}
    {s s' : Session} {conversion : Conversion}
    (h : convertComponents keepGoing convert components s = .ok conversion s')
    (herrors : conversion.errors = []) :
    Converted convert components s conversion.sentences s' := by
  induction components generalizing s conversion with
  | nil =>
    unfold convertComponents at h
    obtain ⟨rfl, rfl⟩ := Compile.pure_ok.mp h
    exact .nil s
  | cons c rest ih =>
    unfold convertComponents at h
    obtain ⟨outcome, s₁, houtcome, h⟩ := Compile.bind_ok.mp h
    cases outcome with
    | ok sentences =>
      rw [Compile.attempt_ok, Compile.transaction_ok] at houtcome
      obtain ⟨later, s₂, hlater, h⟩ := Compile.bind_ok.mp h
      obtain ⟨rfl, rfl⟩ := Compile.pure_ok.mp h
      exact .cons houtcome (ih hlater herrors)
    | error diagnostic =>
      -- the error is thrown or kept, so it cannot be missing from the result
      simp only at h
      split at h
      · simp only [Compile.bind_ok] at h
        obtain ⟨_, _, hthrow, _⟩ := h
        exact absurd hthrow Compile.throw_ok
      · simp only [Compile.bind_ok, Compile.pure_ok] at h
        obtain ⟨_, _, _, later, _, _, rfl, _⟩ := h
        cases herrors

end StructRec
