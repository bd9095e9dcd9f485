import RingCache.Failure
import RingCache.Lock
import RingCache.Message

/-!
# Links

A link is what a member keeps of one peer: at most one stream, in a slot behind
a lock, and whether the link was closed. Any number of parties share it. A call
takes the stream out of the slot, or dials a new one, for one exchange, and puts
it back only when the exchange is complete; so a reply that was not read in full
is never met by a later call. A close raises the flag and empties the slot, or
leaves that to the party that holds the lock, which looks at the flag after it
let the lock go.

`Link.advance` is one step of one party. Between two steps of a party anything
may happen to the link, so a run of the link is a list of steps of its parties
in any order. A call waits for an event in the stages `waiting`, `dialing`,
`writing` and `reading`, and can be cancelled there.
-/
namespace RingCache

/-- Names a stream. -/
abbrev StreamId := Nat

/-- What the parties of a link share. -/
structure Link where
  closed : Bool
  slot : Option StreamId
  lock : Lock
deriving DecidableEq, Repr

/-- How a party of a link ends. -/
inductive Conclusion where
  | replied (reply : Message)
  | failed (failure : Failure)
  /-- A close is done. -/
  | closed
deriving DecidableEq, Repr

/-- Where a party of a link stands. -/
inductive Stage where
  /-- A call begins. -/
  | entering
  /-- A call waits for the lock, which it may hold already. -/
  | waiting
  /-- A call holds the lock and dials a stream. -/
  | dialing
  /-- A call holds the lock and writes its request. -/
  | writing (stream : StreamId)
  /-- A call holds the lock and reads the reply. -/
  | reading (stream : StreamId)
  /-- A call holds the lock and the stream of a complete exchange. -/
  | storing (stream : StreamId) (reply : Message)
  /-- A call holds the lock and has put the stream back. -/
  | unlocking (reply : Message)
  /-- A call has let the lock go and looks whether the link was closed. -/
  | checking (reply : Message)
  /-- A close begins. -/
  | closing
  /-- The slot is to be emptied if the lock is free. -/
  | sweeping (conclusion : Conclusion)
  /-- The lock is held to empty the slot. -/
  | clearing (conclusion : Conclusion)
  | finished (conclusion : Conclusion)
deriving DecidableEq, Repr

/-- What makes a party take a step. -/
inductive Event where
  /-- Nothing else is needed. -/
  | go
  | dialed (stream : StreamId)
  | written
  | received (reply : Message)
  /-- The stream ended before a reply. -/
  | ended
  | failed (failure : Failure)
  | cancelled
deriving DecidableEq, Repr

/-- What a step leaves: the link, where the party stands, and the stream that
    the step gave up, if it did. -/
structure LinkStep where
  link : Link
  stage : Stage
  dropped : Option StreamId
deriving DecidableEq, Repr

namespace Link

/-- The link around a stream that was just dialed. -/
def around (stream : StreamId) : Link := ⟨false, some stream, .free⟩

/-- The failure of a call on a closed link. -/
def closedFailure : Failure := .network .connectionClosed

/-- The failure of an exchange whose stream ended before the reply. -/
def endedFailure : Failure := .network (.receiveFailed "connection closed by peer")

/-- The link after its lock was let go. -/
def unlocked (link : Link) : Link :=
  { link with lock := link.lock.release }

/-- A holder of the lock gives up: it drops the stream that it has taken, lets
    the lock go, and fails. -/
def giveUp (link : Link) (failure : Failure) (taken : Option StreamId) : LinkStep :=
  ⟨link.unlocked, .finished (.failed failure), taken⟩

/-- The lock has come to a call. -/
def entered (link : Link) : LinkStep :=
  if link.closed then { link with slot := none }.giveUp closedFailure link.slot
  else match link.slot with
    | some stream => ⟨{ link with slot := none }, .writing stream, none⟩
    | none => ⟨link, .dialing, none⟩

/-- One step of a party that stands at a stage; none if the event makes it take
    no step there. -/
def advance (link : Link) (party : PartyId) (stage : Stage) (event : Event) : Option LinkStep :=
  match stage, event with
  | .entering, .go =>
    if link.closed then some ⟨link, .finished (.failed closedFailure), none⟩
    else some ⟨{ link with lock := link.lock.request party }, .waiting, none⟩
  | .waiting, .go => if link.lock.heldBy party then some link.entered else none
  | .waiting, .cancelled =>
    some ⟨{ link with lock := link.lock.withdraw party }, .finished (.failed .timeout), none⟩
  | .dialing, .dialed stream => some ⟨link, .writing stream, none⟩
  | .dialing, .failed failure => some (link.giveUp failure none)
  | .dialing, .cancelled => some (link.giveUp .timeout none)
  | .writing stream, .written => some ⟨link, .reading stream, none⟩
  | .writing stream, .failed failure => some (link.giveUp failure (some stream))
  | .writing stream, .cancelled => some (link.giveUp .timeout (some stream))
  | .reading stream, .received reply => some ⟨link, .storing stream reply, none⟩
  | .reading stream, .ended => some (link.giveUp endedFailure (some stream))
  | .reading stream, .failed failure => some (link.giveUp failure (some stream))
  | .reading stream, .cancelled => some (link.giveUp .timeout (some stream))
  | .storing stream reply, .go => some ⟨{ link with slot := some stream }, .unlocking reply, none⟩
  | .unlocking reply, .go => some ⟨link.unlocked, .checking reply, none⟩
  | .checking reply, .go =>
    some ⟨link, if link.closed then .sweeping (.replied reply) else .finished (.replied reply), none⟩
  | .closing, .go =>
    some ⟨{ link with closed := true }, if link.closed then .finished .closed else .sweeping .closed, none⟩
  | .sweeping conclusion, .go =>
    if link.lock.isFree then some ⟨{ link with lock := link.lock.request party }, .clearing conclusion, none⟩
    else some ⟨link, .finished conclusion, none⟩
  | .clearing conclusion, .go =>
    some ⟨{ link with slot := none }.unlocked, .finished conclusion, link.slot⟩
  | _, _ => none

end Link

namespace Stage

/-- The stream that a party has taken out of the slot. -/
def stream? : Stage → Option StreamId
  | .writing stream | .reading stream | .storing stream _ => some stream
  | _ => none

/-- How a party ended, if it did. -/
def conclusion? : Stage → Option Conclusion
  | .finished conclusion => some conclusion
  | _ => none

/-- A bound on the steps that a party still takes. -/
def rank : Stage → Nat
  | .entering => 10
  | .waiting => 9
  | .dialing => 8
  | .writing _ => 7
  | .reading _ => 6
  | .storing _ _ => 5
  | .unlocking _ => 4
  | .checking _ => 3
  | .closing => 3
  | .sweeping _ => 2
  | .clearing _ => 1
  | .finished _ => 0

end Stage

/-- What a call that ended came to. -/
def Conclusion.result? : Conclusion → Option (Except Failure Message)
  | .replied reply => some (.ok reply)
  | .failed failure => some (.error failure)
  | .closed => none

theorem Link.rank_entered (link : Link) : link.entered.stage.rank < Stage.waiting.rank := by
  unfold Link.entered
  split
  · simp [Stage.rank, Link.giveUp]
  · split <;> simp [Stage.rank]

/-- A party comes nearer to its end with every step. -/
theorem Link.rank_advance_lt {link : Link} {party : PartyId} {stage : Stage} {event : Event} {step : LinkStep}
    (advanced : link.advance party stage event = some step) : step.stage.rank < stage.rank := by
  have entered := link.rank_entered
  unfold Link.advance at advanced
  split at advanced
  case h_2 =>
    split at advanced <;> cases advanced
    exact entered
  case h_1 | h_18 => split at advanced <;> cases advanced <;> simp [Stage.rank]
  case h_16 | h_17 => cases advanced; dsimp only; split <;> simp [Stage.rank]
  all_goals cases advanced
  all_goals simp [Stage.rank, Link.giveUp]

end RingCache
