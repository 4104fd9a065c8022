import StructRec.Proofs.Faults
import StructRec.Proofs.Growth

/-!
# StructRec — the two modes of a conversion

In strict mode a conversion ends with the first component that fails; otherwise it goes on, and
collects the errors. The modes do the same up to the first failure, so a strict run tells whether
there is one and which it is. A component that fails is undone: nothing of it is left in the
environment, though the counters keep the names that were generated for it.

A run is taken apart into the attempts that it makes, one for each component it comes to
(`Attempt`).
-/

namespace StructRec

variable {α β : Type}
variable {d : Diagnostic}

/-! ## Computations that lower no counter -/

namespace Compile

/-- No run lowers a counter, whether it succeeds or fails. -/
def KeepsCounters (x : Compile α) : Prop := ∀ s, s.counters ≤ (x.stateAfter s).counters

namespace KeepsCounters

theorem pure (a : α) : KeepsCounters (Pure.pure a) := fun s => le_refl s.counters

/-- What follows a failure is not reached. -/
theorem throw_bind {failure : Failure} {f : α → Compile β} :
    KeepsCounters ((MonadExcept.throw failure : Compile α) >>= f) := fun s => le_refl s.counters

/-- What follows a computation that generates no names. -/
theorem lift_bind {x : Naming α} {f : α → Compile β} (hx : ∀ s, (x s).2.counters = s.counters)
    (hf : ∀ a, (f a).KeepsCounters) :
    KeepsCounters (liftM x >>= f) := fun s => (hx s).symm.le.trans (hf _ _)

end KeepsCounters

end Compile

namespace Compile

variable {x : Compile α} {s : Session}

theorem map_ok {f : α → β} {b : β} {s' : Session} :
    (f <$> x) s = .ok b s' ↔ ∃ a, x s = .ok a s' ∧ f a = b := by
  change EStateM.map f x s = .ok b s' ↔ _
  unfold EStateM.map
  cases x s <;> grind

theorem map_error {f : α → β} {failure : Failure} {s' : Session} :
    (f <$> x) s = .error failure s' ↔ x s = .error failure s' := by
  change EStateM.map f x s = .error failure s' ↔ _
  unfold EStateM.map
  cases x s <;> grind

end Compile

section components

variable [Declaration α] {convert : Component α → Compile (List Sentence)} {c : Component α}
  {rest : List (Component α)} {s s₁ : Session}

/-- The state in which a run goes on after a component that failed. -/
def Component.skip (c : Component α) (d : Diagnostic) (s : Session) : Session :=
  (Session.warn (.skipped c.names d) s).2

/-- How a strict run and one that goes on end: alike, without errors, or with the first error of
those that are collected. -/
inductive ModesAgree : EStateM.Result Failure Session Conversion →
    EStateM.Result Failure Session Conversion → Prop where
  | ok {conversion : Conversion} {s : Session} (herrors : conversion.errors = []) :
      ModesAgree (.ok conversion s) (.ok conversion s)
  | error {d : Diagnostic} {conversion : Conversion} {s s' : Session}
      (herrors : conversion.errors.head? = some d) :
      ModesAgree (.error (.error d) s) (.ok conversion s')

namespace ModesAgree

/-- The modes agree as well on conversions to which no errors are added. -/
theorem map {strict tolerant : Compile Conversion} {f : Conversion → Conversion}
    (hf : ∀ conversion, (f conversion).errors = conversion.errors)
    (h : ModesAgree (strict s) (tolerant s)) :
    ModesAgree ((f <$> strict) s) ((f <$> tolerant) s) := by
  generalize hstrict : strict s = first at h
  generalize htolerant : tolerant s = second at h
  cases h with
  | ok herrors =>
    rw [Compile.map_ok.mpr ⟨_, hstrict, rfl⟩, Compile.map_ok.mpr ⟨_, htolerant, rfl⟩]
    exact .ok ((hf _).trans herrors)
  | error herrors =>
    rw [Compile.map_error.mpr hstrict, Compile.map_ok.mpr ⟨_, htolerant, rfl⟩]
    exact .error ((congrArg List.head? (hf _)).trans herrors)

end ModesAgree

end components

/-! ## Attempts -/

/-- One component as a run comes to it: the state before, what comes of it and the state after. -/
structure Attempt where
  before : Session
  result : Except Diagnostic (List Sentence)
  after : Session

namespace Attempt

def sentences (a : Attempt) : List Sentence :=
  match a.result with
  | .ok sentences => sentences
  | .error _ => []

end Attempt

section components

variable [Declaration α] {convert : Component α → Compile (List Sentence)} {keepGoing : Bool}
variable {components : List (Component α)} {s : Session}

/-- The attempts of a run over components. In strict mode the first failure is the last of them. -/
def attempts (keepGoing : Bool) (convert : Component α → Compile (List Sentence)) :
    List (Component α) → Session → List Attempt
  | [], _ => []
  | c :: rest, s =>
    match Compile.attempt (Compile.transaction (convert c)) s with
    | .ok (.ok sentences) s₁ =>
      { before := s, result := .ok sentences, after := s₁ } :: attempts keepGoing convert rest s₁
    | .ok (.error d) s₁ =>
      { before := s, result := .error d, after := s₁ } ::
        if keepGoing then attempts keepGoing convert rest (c.skip d s₁) else []
    | .error _ _ => []

end components

/-! ## Modules -/

/-- What a conversion of types and one of functions yield together. -/
def Conversion.append (types funcs : Conversion) : Conversion :=
  { sentences := types.sentences ++ funcs.sentences, errors := types.errors ++ funcs.errors }

/-- The attempts of a run for a module: at type components, then at function components. -/
def Module.attempts (m : Module) (keepGoing : Bool) (s : Session) : List Attempt :=
  match m.prepare s with
  | .error _ _ => []
  | .ok ordered s₁ =>
    StructRec.attempts keepGoing TypeGroup.toSentences ordered.typeComponents s₁ ++
      match convertComponents keepGoing TypeGroup.toSentences ordered.typeComponents s₁ with
      | .error _ _ => []
      | .ok _ s₂ =>
          StructRec.attempts keepGoing Component.funcsToSentences ordered.funcComponents s₂

namespace Module

variable {m : Module} {keepGoing : Bool} {s s₁ s₂ s' : Session} {ordered : OrderedModule}
  {types : Conversion} {failure : Failure}

end Module

end StructRec
