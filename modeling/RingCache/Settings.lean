import RingCache.Deadline
import RingCache.Ring

/-!
# Settings

How a pool places members on its ring, and how it dials them.
-/
namespace RingCache

/-- How a peer is dialed. -/
structure DialOptions where
  /-- The longest time that a dial may take. -/
  connectTimeout : Time
  /-- Whether small packets are sent at once. -/
  nodelay : Bool
  /-- The largest reply that is accepted. -/
  maxFrame : Nat
deriving DecidableEq, Repr

/-- The largest frame accepted unless another is chosen: 16 MiB. -/
def defaultMaxFrame : Nat := 16 * 1024 * 1024

/-- The ring positions of a member unless another number is chosen. -/
def defaultReplicas : Nat := 50

/-- Five seconds for a dial, small packets at once, and the usual frames. -/
def DialOptions.standard : DialOptions where
  connectTimeout := 5000 * millisecond
  nodelay := true
  maxFrame := defaultMaxFrame

/-- How a pool is set up. -/
structure Settings where
  /-- The ring positions of a member; zero leaves it to the default. -/
  replicas : Nat
  hash : HashFunction
  dial : DialOptions

namespace Settings

/-- The settings unless others are chosen. -/
def standard : Settings where
  replicas := defaultReplicas
  hash := defaultHash
  dial := .standard

/-- The settings with what was left to the defaults filled in. -/
def normalized (settings : Settings) : Settings :=
  { settings with replicas := if settings.replicas = 0 then defaultReplicas else settings.replicas }

/-- The ring without members that a pool with these settings begins with. -/
def emptyRing (settings : Settings) : Ring :=
  .empty settings.replicas settings.hash

end Settings

end RingCache
