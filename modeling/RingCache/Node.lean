import RingCache.Cluster

/-!
# Nodes

What a node has once: a registry of groups, the picker that routes their keys,
and at most one pool, which becomes that picker. A node is a member of the
cluster from the start, and serves everything itself until it has its pool.
-/
namespace RingCache

/-- A node within a cluster. -/
structure Node where
  cluster : Cluster
  /-- The node as a member. -/
  member : MemberId
  /-- Whether the construction of the pool was tried. -/
  constructed : Bool
  /-- Whether there is a picker. -/
  hasPicker : Bool

namespace Node

/-- A node that just began. -/
def start (latency : Time) : Node :=
  let (cluster, member) := (Cluster.empty latency).enroll none
  ⟨cluster, member, false, false⟩

/-- The failure to register a second picker. -/
def pickerTaken : Failure := .config "peer picker already registered"

/-- The failure to construct the pool a second time. -/
def constructedBefore : Failure := .config "peer pool must be constructed only once per process"

/-- Registers the picker that serves everything locally. -/
def registerLocal (node : Node) : Except Failure Node :=
  if node.hasPicker then .error pickerTaken else .ok { node with hasPicker := true }

/-- Constructs the pool, registers it as the picker, and attaches the node to
    a server. A construction that fails was still the one that there is. -/
def construct (node : Node) (selfAddress : String) (settings : Settings) (station : StationId) :
    Node × Except Failure Pool :=
  if node.constructed then (node, .error constructedBefore)
  else if node.hasPicker then ({ node with constructed := true }, .error pickerTaken)
  else
    let pool := Pool.new selfAddress settings
    let cluster := (node.cluster.putPool node.member pool).attach station node.member
    ({ node with cluster, constructed := true, hasPicker := true }, .ok pool)

end Node

end RingCache
