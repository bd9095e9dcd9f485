import RingCache.Counters
import RingCache.Failure
import RingCache.Store

/-!
# Groups

A group is a named store with counters. The three things that a get does to it
are each one step here: it looks the key up (`lookup`), it takes a peer's answer
(`peerAnswered`), and it takes the answer of the loader (`loaded`). Only a value
that was loaded here is stored here.
-/
namespace RingCache

/-- A named store with counters. -/
structure Group where
  name : String
  store : Store
  counters : Counters
deriving DecidableEq

/-- What the answer of a peer leads to: it settles the get, or the key has to be
    loaded here. -/
inductive Verdict where
  | settled (result : Except Failure Bytes)
  | loadHere

namespace Group

/-- The group at its start. -/
def new (name : String) (capacity : Nat) : Group where
  name
  store := .empty capacity
  counters := .zero

/-- The capacity of a group that is large enough for everything. -/
def ample : Nat := 1024 * 1024 * 1024

/-- The group after a counter went up. -/
def count (group : Group) (counter : Counter) : Group :=
  { group with counters := group.counters.count counter }

/-- A get begins: it is counted, and its key is looked up. -/
def lookup (group : Group) (key : String) : Group × Option Bytes :=
  let group := group.count .gets
  match group.store.find? key with
  | some value => (group.count .cacheHits, some value)
  | none => (group, none)

/-- A peer answers a get. A timeout settles it as well as a value does; after
    any other failure the key is loaded here. -/
def peerAnswered (group : Group) : Except Failure Bytes → Group × Verdict
  | .ok value => (group.count .peerLoads, .settled (.ok value))
  | .error .timeout => (group.count .peerErrors, .settled (.error .timeout))
  | .error _ => (group.count .peerErrors, .loadHere)

/-- The loader answers a get. Its value is stored; its failure becomes a failure
    to load the key, unless it is one already or a timeout. -/
def loaded (group : Group) (key : String) : Except Failure Bytes → Group × Except Failure Bytes
  | .ok value => ({ group.count .localLoads with store := group.store.insert key value }, .ok value)
  | .error .timeout => (group, .error .timeout)
  | .error (.load other reason) => (group.count .localLoadErrors, .error (.load other reason))
  | .error failure => (group.count .localLoadErrors, .error (.load key failure.message))

/-- The group after a key was dropped here. -/
def localRemove (group : Group) (key : String) : Group :=
  { group with store := group.store.invalidate key }

/-- Whether a key is stored here. -/
def containsLocal (group : Group) (key : String) : Bool :=
  group.store.contains key

end Group

end RingCache
