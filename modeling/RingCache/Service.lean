import RingCache.Deadline
import RingCache.Message

/-!
# Serving requests

A service answers the requests of other members. `dispatch` routes a message to
its handler and turns the outcome into a reply: requests for a key are bounded
by the budget that they bring, amendments are not and are always acknowledged,
and what is no request is refused by its kind.
-/
namespace RingCache

/-- Handlers of requests, over a state of type `σ`. A handler is started at a
    time, changes the state, and tells when its outcome is ready. -/
structure Service (σ : Type) where
  retrieve : Time → Deadline → (group key : String) → σ → σ × Work (Except Failure Bytes)
  delete : Time → Deadline → (group key : String) → σ → σ × Work (Except Failure Unit)
  amend : Time → Amendment → List String → σ → σ × Work Unit

/-- The reply to a retrieval. -/
def retrieveReply (request : KeyRequest) : Except Failure Bytes → Message
  | .ok value => .retrieved value
  | .error failure =>
    .error ("failed to retrieve [" ++ request.group ++ "/" ++ request.key ++ "]: " ++ failure.message)

/-- The reply to a deletion. -/
def deleteReply : Except Failure Unit → Message
  | .ok () => .ack
  | .error failure => .error failure.message

/-- The reply to a message that asks for nothing. -/
def refusal (message : Message) : Message :=
  .error ("unexpected request: " ++ message.kind)

/-- Answers a message that arrived at a time. -/
def dispatch {σ : Type} (service : Service σ) (now : Time) (message : Message) (state : σ) : σ × Work Message :=
  match message with
  | .retrieve request =>
    let deadline := Deadline.ofBudget now request.budget
    let (state, work) := service.retrieve now deadline request.group request.key state
    (state, (deadline.bound now work).map (retrieveReply request))
  | .delete request =>
    let deadline := Deadline.ofBudget now request.budget
    let (state, work) := service.delete now deadline request.group request.key state
    (state, (deadline.bound now work).map deleteReply)
  | .amend how addresses =>
    let (state, work) := service.amend now how addresses state
    (state, work.map (fun _ => .ack))
  | .retrieved _ => (state, .ready (refusal message))
  | .ack => (state, .ready (refusal message))
  | .error _ => (state, .ready (refusal message))

/-- The reply of a server that no service is attached to. -/
def unattended : Message :=
  .error "peer service not registered"

/-- Answers a message by the service that is attached, if there is one. -/
def answer {σ : Type} (attached : σ → Option (Service σ)) (now : Time) (message : Message) (state : σ) :
    σ × Work Message :=
  match attached state with
  | some service => dispatch service now message state
  | none => (state, .ready unattended)

end RingCache
