import RingCache.Deadline
import RingCache.Message

/-!
# Exchanges with a peer

What a member asks a peer for, and what it makes of the peer's reply. A failure
names the peer and what the exchange was about; only a timeout stays what it is,
so that the caller sees its own deadline pass and not a fault of the peer.
-/
namespace RingCache

/-- What a member asks a peer for. -/
inductive Errand where
  /-- The value of a key. -/
  | fetch (group key : String)
  /-- To drop a key. -/
  | forget (group key : String)
  /-- To change its membership. -/
  | amend (how : Amendment) (addresses : List String)
deriving DecidableEq, Repr

namespace Errand

/-- The request, which takes along what is left of the deadline if it is about a
    key. -/
def request (errand : Errand) (budget : Option UInt64) : Message :=
  match errand with
  | .fetch group key => .retrieve ⟨group, key, budget⟩
  | .forget group key => .delete ⟨group, key, budget⟩
  | .amend how addresses => .amend how addresses

/-- What failures of the exchange are said to be about. -/
def subject : Errand → String
  | .fetch _ key => key
  | .forget _ key => key
  | .amend how _ => how.name

end Errand

namespace Exchange

/-- The failure of a call that brought no reply. -/
def broken (address subject : String) : Failure → Failure
  | .timeout => .timeout
  | failure => .remote address subject failure.message

/-- The failure that a reply other than the expected one stands for. -/
def unexpected (address subject : String) : Message → Failure
  | .error text => .remote address subject text
  | reply => .remote address subject (NetworkFault.unexpectedResponse reply.kind).message

/-- What came of asking for a value. -/
def value (address subject : String) : Except Failure Message → Except Failure Bytes
  | .ok (.retrieved value) => .ok value
  | .ok reply => .error (unexpected address subject reply)
  | .error failure => .error (broken address subject failure)

/-- What came of asking for an acknowledgement. -/
def acknowledged (address subject : String) : Except Failure Message → Except Failure Unit
  | .ok .ack => .ok ()
  | .ok reply => .error (unexpected address subject reply)
  | .error failure => .error (broken address subject failure)

end Exchange

/-- What came of an errand: the value, for a fetch. -/
def Errand.outcome (errand : Errand) (address : String) (result : Except Failure Message) :
    Except Failure (Option Bytes) :=
  match errand with
  | .fetch _ key => (Exchange.value address key result).map some
  | _ => (Exchange.acknowledged address errand.subject result).map (fun _ => none)

/-- What can be done with a link. -/
inductive LinkCommand where
  /-- An errand, for which there may be only a span of time. -/
  | run (errand : Errand) (allowed : Option Time)
  | close
  /-- To look whether it was closed. -/
  | look
deriving DecidableEq, Repr

/-- What came of a command. -/
inductive LinkResponse where
  | outcome (outcome : Except Failure (Option Bytes))
  | closed (closed : Bool)
  /-- It waits forever. -/
  | pending
deriving Repr

end RingCache
