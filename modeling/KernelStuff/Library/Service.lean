import Mathlib.Data.List.Basic

/-!
# Services

A service answers one request at a time, from a state it keeps, or fails.  A
property of every request of a run is `Along` the run; two properties that agree
where an invariant holds agree along whole runs.
-/

namespace KernelStuff.Library

universe u v w x

section Service

variable {State : Type u} {Request : Type v} {Reply : Type w}
  {Failure : Type x}

/-- Serve a list of requests and collect the replies. -/
def serve (step : State → Request → Except Failure (State × Reply)) :
    State → List Request → Except Failure (State × List Reply)
  | state, [] => .ok (state, [])
  | state, request :: rest =>
      (step state request).bind fun (next, reply) =>
        (serve step next rest).map fun (last, replies) =>
          (last, reply :: replies)

/-- `holds` of every request of the run and the state it is served in. -/
def Along (step : State → Request → Except Failure (State × Reply))
    (holds : State → Request → Prop) : State → List Request → Prop
  | _, [] => True
  | state, request :: rest =>
      holds state request ∧
        ∀ next reply, step state request = .ok (next, reply) →
          Along step holds next rest

variable {step : State → Request → Except Failure (State × Reply)}

theorem serve_cons
    {state next last : State} {request : Request} {rest : List Request}
    {reply : Reply} {replies : List Reply}
    (first : step state request = .ok (next, reply))
    (others : serve step next rest = .ok (last, replies)) :
    serve step state (request :: rest) = .ok (last, reply :: replies) := by
  rw [serve, first]
  change (serve step next rest).map _ = _
  rw [others]
  rfl

theorem serve_cons_inv
    {state last : State} {request : Request} {rest : List Request}
    {replies : List Reply}
    (run : serve step state (request :: rest) = .ok (last, replies)) :
    ∃ next reply others,
      step state request = .ok (next, reply) ∧
        serve step next rest = .ok (last, others) ∧
        replies = reply :: others := by
  rw [serve] at run
  cases first : step state request with
  | error failure =>
      rw [first] at run
      cases run
  | ok result =>
      obtain ⟨next, reply⟩ := result
      rw [first] at run
      change (serve step next rest).map _ = _ at run
      cases later : serve step next rest with
      | error failure =>
          rw [later] at run
          cases run
      | ok result =>
          obtain ⟨final, others⟩ := result
          rw [later] at run
          cases run
          exact ⟨next, reply, others, rfl, later, rfl⟩

/-- What every answered request preserves holds after a run. -/
theorem serve_invariant (invariant : State → Prop)
    (preserved : ∀ state request next reply,
      invariant state → step state request = .ok (next, reply) →
        invariant next) :
    ∀ {state last : State} {requests : List Request} {replies : List Reply},
      invariant state → serve step state requests = .ok (last, replies) →
        invariant last
  | state, last, [], replies, holds, run => by
      cases run
      exact holds
  | state, last, request :: rest, replies, holds, run => by
      obtain ⟨next, reply, others, head, tail, _⟩ := serve_cons_inv run
      exact
        serve_invariant invariant preserved (preserved _ _ _ _ holds head)
          tail

/-- A service that answers every request of a state with the invariant, and keeps
the invariant, answers every list of requests. -/
theorem serve_total (invariant : State → Prop)
    (answers : ∀ state request,
      invariant state →
        ∃ next reply, step state request = .ok (next, reply) ∧
          invariant next) :
    ∀ {state : State} (requests : List Request),
      invariant state →
        ∃ last replies, serve step state requests = .ok (last, replies) ∧
          invariant last
  | state, [], holds => ⟨state, [], rfl, holds⟩
  | state, request :: rest, holds => by
      obtain ⟨next, reply, head, kept⟩ := answers state request holds
      obtain ⟨last, replies, tail, holdsLast⟩ :=
        serve_total invariant answers rest kept
      exact ⟨last, reply :: replies, serve_cons head tail, holdsLast⟩

/-- Two properties that agree wherever the invariant holds agree along a run,
if a request with the one property preserves the invariant. -/
theorem along_congr (invariant : State → Prop)
    {left right : State → Request → Prop}
    (preserved : ∀ state request next reply,
      invariant state → right state request →
        step state request = .ok (next, reply) → invariant next)
    (same : ∀ state request,
      invariant state → (left state request ↔ right state request)) :
    ∀ {state : State} {requests : List Request},
      invariant state →
        (Along step left state requests ↔ Along step right state requests)
  | _, [], _ => Iff.rfl
  | state, request :: rest, holds => by
      rw [Along, Along, same state request holds]
      apply and_congr_right
      intro here
      exact forall_congr' fun next => forall_congr' fun reply =>
        imp_congr_right fun answered =>
          along_congr invariant preserved same
            (preserved state request next reply holds here answered)

/-- A property that follows from another one wherever the invariant holds
follows from it along a run. -/
theorem Along.mono (invariant : State → Prop)
    {left right : State → Request → Prop}
    (preserved : ∀ state request next reply,
      invariant state → left state request →
        step state request = .ok (next, reply) → invariant next)
    (implies : ∀ state request,
      invariant state → left state request → right state request) :
    ∀ {state : State} {requests : List Request},
      invariant state → Along step left state requests →
        Along step right state requests
  | _, [], _, _ => trivial
  | state, request :: rest, holds, along => by
      obtain ⟨here, later⟩ := along
      refine ⟨implies state request holds here, ?_⟩
      intro next reply answered
      exact
        Along.mono invariant preserved implies
          (preserved state request next reply holds here answered)
          (later next reply answered)

end Service

end KernelStuff.Library
