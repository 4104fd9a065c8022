import StructRec.Proofs.FreshNames
import StructRec.Proofs.Runs

/-!
# StructRec — generated names over a whole history

A *history* is any sequence of changes of the environment and of requests for names. Parts of it may
be isolated, run as transactions, or fail, with the failure passed on or passed over. All that is
undone on the way is in the environment, and all that keeps names apart is in the counters, so every
request of a history yields a name of its own: also one made in a part that failed, whose names are
nowhere registered any more.
-/

namespace StructRec

/-! ## Histories -/

/-- One step of a history. -/
inductive Action where
  /-- The environment changes: a name is registered, shadowed, put back, classified or marked. -/
  | change (f : Environment → Environment)
  /-- A name is asked for, derived from any other. -/
  | request (wanted : Name)
  /-- What the step belongs to ends here. -/
  | fail (failure : Failure)
  /-- What this part changes is undone. -/
  | isolated (part : List Action)
  /-- What this part changes is undone if it fails; the failure is passed on. -/
  | transaction (part : List Action)
  /-- The history goes on after this part, whether it has reported an error or not. -/
  | attempt (part : List Action)

/-- A generated name, with the environment in which it was handed out. -/
structure Request where
  name : Name
  env : Environment

namespace Action

mutual

/-- Run one step. -/
def perform : Action → Compile Unit
  | change f => Session.modifyEnv f
  | request wanted => do
    let _ ← freshName wanted
  | fail failure => throw failure
  | isolated part => Compile.isolated (performAll part)
  | transaction part => Compile.transaction (performAll part)
  | attempt part => do
    let _ ← Compile.attempt (performAll part)

/-- Run a history up to its end or to a failure that is not passed over. -/
def performAll : List Action → Compile Unit
  | [] => return
  | action :: rest => do
    action.perform
    performAll rest

end

mutual

/-- The names that one step generates, failed parts included. -/
def requests : Action → Session → List Request
  | change _, _ | fail _, _ => []
  | request wanted, s =>
    let (name, s') := freshName wanted s
    [{ name, env := s'.env }]
  | isolated part, s | transaction part, s | attempt part, s => requestsAll part s

/-- The names that a history generates, as far as it runs. -/
def requestsAll : List Action → Session → List Request
  | [], _ => []
  | action :: rest, s =>
    action.requests s ++
      match action.perform s with
      | .ok _ s' => requestsAll rest s'
      | .error _ _ => []

end

end Action

/-! ## The counters along a history -/

namespace Compile

variable {α : Type}

/-- The state in which a run ends, with or without a failure. -/
def stateAfter (x : Compile α) (s : Session) : Session :=
  match x s with
  | .ok _ s' => s'
  | .error _ s' => s'

theorem counters_isolated (x : Compile α) (s : Session) :
    ((isolated x).stateAfter s).counters = (x.stateAfter s).counters := by
  unfold stateAfter isolated
  cases x s <;> rfl

theorem counters_transaction (x : Compile α) (s : Session) :
    ((transaction x).stateAfter s).counters = (x.stateAfter s).counters := by
  unfold stateAfter transaction
  cases x s <;> rfl

theorem counters_attempt (x : Compile α) (s : Session) :
    (Compile.stateAfter (do let _ ← attempt x) s).counters = (x.stateAfter s).counters := by
  simp only [stateAfter, bind, EStateM.bind, attempt]
  cases x s with
  | ok a s' => rfl
  | error failure s' => cases failure <;> rfl

theorem stateAfter_bind_ok {β : Type} {x : Compile α} {f : α → Compile β} {s s' : Session} {a : α}
    (h : x s = .ok a s') : (x >>= f).stateAfter s = (f a).stateAfter s' := by
  simp only [stateAfter, bind, EStateM.bind, h]

theorem stateAfter_bind_error {β : Type} {x : Compile α} {f : α → Compile β} {s s' : Session}
    {failure : Failure} (h : x s = .error failure s') :
    (x >>= f).stateAfter s = s' := by
  simp only [stateAfter, bind, EStateM.bind, h]

end Compile

namespace Action

mutual

/-- **One step** generates new names, whether it succeeds or not. -/
theorem draws : (action : Action) → (s : Session) →
    s.counters.Draws (action.perform.stateAfter s).counters ((action.requests s).map Request.name)
  | change _, _ | fail _, _ => .nil le_rfl
  | request _, _ => freshName_draws rfl
  | isolated part, s => by
    rw [perform, Compile.counters_isolated]
    exact drawsAll part s
  | transaction part, s => by
    rw [perform, Compile.counters_transaction]
    exact drawsAll part s
  | attempt part, s => by
    rw [perform, Compile.counters_attempt]
    exact drawsAll part s

/-- **A history** generates new names. -/
theorem drawsAll : (history : List Action) → (s : Session) →
    s.counters.Draws ((performAll history).stateAfter s).counters
      ((requestsAll history s).map Request.name)
  | [], _ => .nil le_rfl
  | action :: rest, s => by
    have hfirst := draws action s
    rw [performAll, requestsAll, List.map_append]
    cases hrun : action.perform s with
    | ok u s' =>
      rw [Compile.stateAfter, hrun] at hfirst
      rw [Compile.stateAfter_bind_ok hrun]
      exact hfirst.append (drawsAll rest s')
    | error failure s' =>
      -- the rest is not run, but the names up to here count
      rw [Compile.stateAfter, hrun] at hfirst
      rw [Compile.stateAfter_bind_error hrun, List.map_nil, List.append_nil]
      exact hfirst

end

mutual

/-- The names of one step are registered nowhere when they are handed out. -/
theorem unregistered : (action : Action) → (s : Session) →
    ∀ r ∈ action.requests s, ∀ n ∈ r.env.names, n ≠ r.name ∧ n.target ≠ r.name.target
  | change _, _ | fail _, _ => List.forall_mem_nil _
  | request _, _ => List.forall_mem_singleton.mpr (freshName_unregistered rfl)
  | isolated part, s | transaction part, s | attempt part, s => unregisteredAll part s

theorem unregisteredAll : (history : List Action) → (s : Session) →
    ∀ r ∈ requestsAll history s, ∀ n ∈ r.env.names, n ≠ r.name ∧ n.target ≠ r.name.target
  | [], _ => List.forall_mem_nil _
  | action :: rest, s => by
    rw [requestsAll, List.forall_mem_append]
    refine ⟨unregistered action s, ?_⟩
    cases action.perform s with
    | ok u s' => exact unregisteredAll rest s'
    | error failure s' => exact List.forall_mem_nil _

end

end Action

/-- **Generated names are new over every history** of a new session. They differ from each other in
both spellings, and each differs in both spellings from the types and values that are registered
when it is handed out. -/
theorem names_of_history_fresh (history : List Action) :
    ((Action.requestsAll history {}).map Request.name).Nodup ∧
      ((Action.requestsAll history {}).map fun r => r.name.target).Nodup ∧
      ∀ r ∈ Action.requestsAll history {}, ∀ n ∈ r.env.types.keys ++ r.env.values.keys,
        n ≠ r.name ∧ n.target ≠ r.name.target := by
  have hdraws := Action.drawsAll history {}
  refine ⟨hdraws.nodup, ?_, Action.unregisteredAll history {}⟩
  have hspelled := hdraws.nodup_target
  rwa [List.map_map] at hspelled

-- A transaction that fails does not give its names back, and a registered `x_1` stands in the way
-- of `x@1`.
example :
    (Action.requestsAll
      [.attempt [.transaction [.request "x", .fail (.error (.ofCause .noTypeParameters))]],
        .change (·.addFunc (.ofDecl { name := "x_1", params := [], rhs := .undefined {} })),
          .request "x@0"] {}).map Request.name
      = ["x@0", "x@2"] := by decide

end StructRec
