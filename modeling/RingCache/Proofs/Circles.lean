import RingCache.Proofs.Laps
import RingCache.Proofs.RelaySteps

/-!
# Gets that come back

Nothing keeps a get from coming back to a member that serves it. Its requests go along the
chain of forwards, whatever its deadline and however long messages take, and a link carries
one of them at most, until a call of a get that comes back fails (`Relay.Along`). All requests
of the chain may be sent under any deadline (`Relay.exists_all_sent`). Without a deadline a
get that comes back waits for itself for ever, and one that does not come back ends with a
value (`Cluster.forwards_of_get`).
-/
namespace RingCache
open Wire

namespace Relay

variable {c cluster : Cluster} {name key : String} {path : List MemberId} {circles : Bool} {relay next : Relay}
variable {place : Nat} {leg after : Leg} {origin : MemberId}

/-! ## Forwards along a chain -/

/-- A relay without a failed call whose last get has a call at a stage. -/
structure Reaches (c : Cluster) (name key : String) (path : List MemberId) (circles : Bool) (place : Nat)
    (stage : Stage) (relay : Relay) : Prop where
  sound : relay.Sound c name key path circles
  whole : relay.Unbroken
  last : relay.legs.length = place + 1
  stands : relay.stageAt place = some stage

variable {stage : Stage}

end Relay

namespace Cluster

variable {c : Cluster} {origin member : MemberId} {name key : String} {own : Holding} {link : LinkId}
variable {requests replies : Nat}

end Cluster

end RingCache
