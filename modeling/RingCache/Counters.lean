/-!
# Counters

What a group counts.
-/
namespace RingCache

/-- How often things happened in a group. -/
structure Counters where
  /-- Gets that began, local ones and those of other members. -/
  gets : Nat
  /-- Gets served from the store. -/
  cacheHits : Nat
  /-- Values fetched from a peer. -/
  peerLoads : Nat
  /-- Fetches from a peer that failed. -/
  peerErrors : Nat
  /-- Values loaded here. -/
  localLoads : Nat
  /-- Loads here that failed, timeouts apart. -/
  localLoadErrors : Nat
  /-- Requests that members sent. -/
  serverRequests : Nat
deriving DecidableEq, Repr

/-- One of the counters. -/
inductive Counter where
  | gets
  | cacheHits
  | peerLoads
  | peerErrors
  | localLoads
  | localLoadErrors
  | serverRequests
deriving DecidableEq, Repr

namespace Counters

/-- All counters at zero. -/
def zero : Counters := ⟨0, 0, 0, 0, 0, 0, 0⟩

/-- The value of a counter. -/
def value (counters : Counters) : Counter → Nat
  | .gets => counters.gets
  | .cacheHits => counters.cacheHits
  | .peerLoads => counters.peerLoads
  | .peerErrors => counters.peerErrors
  | .localLoads => counters.localLoads
  | .localLoadErrors => counters.localLoadErrors
  | .serverRequests => counters.serverRequests

/-- The counters after one of them went up by one. -/
def count (counters : Counters) : Counter → Counters
  | .gets => { counters with gets := counters.gets + 1 }
  | .cacheHits => { counters with cacheHits := counters.cacheHits + 1 }
  | .peerLoads => { counters with peerLoads := counters.peerLoads + 1 }
  | .peerErrors => { counters with peerErrors := counters.peerErrors + 1 }
  | .localLoads => { counters with localLoads := counters.localLoads + 1 }
  | .localLoadErrors => { counters with localLoadErrors := counters.localLoadErrors + 1 }
  | .serverRequests => { counters with serverRequests := counters.serverRequests + 1 }

/-- Counting moves the counter that is counted, by one, and no other. -/
theorem value_count (counters : Counters) (counted other : Counter) :
    (counters.count counted).value other = counters.value other + if other = counted then 1 else 0 := by
  cases counted <;> cases other <;> rfl

end Counters

end RingCache
