import RingCache.Schedule
import RingCache.Script
import RingCache.Service

/-!
# Scripted surroundings

A group whose loader and peers follow scripts, and a service that does, with a
record of what they were asked for. A scripted peer bounds its work by the
deadline of the call.
-/
namespace RingCache

/-- A peer that follows scripts. -/
structure ScriptedPeer where
  address : String
  fetches : Loader
  removals : Loader

/-- What a peer was asked for. -/
structure PeerCall where
  address : String
  removes : Bool
  group : String
  key : String
  budget : Option UInt64
deriving DecidableEq, Repr

/-- A group among scripted surroundings. `route` gives the index of the peer
    that owns a key. -/
structure Scene where
  group : Group
  loader : Loader
  peers : List ScriptedPeer
  route : String → Option Nat
  /-- The keys that the loader was asked for. -/
  loads : List String
  /-- What the peers were asked for. -/
  calls : List PeerCall

namespace Scene

/-- The scene after a peer was called: the call is recorded, and the peer may
    change. -/
def call (scene : Scene) (peer : Peer) (removes : Bool) (now : Time) (deadline : Deadline) (group key : String)
    (change : ScriptedPeer → ScriptedPeer) : Scene :=
  { scene with
    peers := scene.peers.modify peer.id change
    calls := scene.calls ++ [⟨peer.address, removes, group, key, deadline.budget now⟩] }

/-- The peer at an index. -/
def peerAt (scene : Scene) (i : Nat) : Option Peer :=
  scene.peers[i]?.map (fun p => ⟨p.address, i⟩)

/-- The surroundings of the group of a scene. -/
def host : Host Scene where
  group scene := scene.group
  putGroup group scene := { scene with group }
  owner scene key := (scene.route key).bind scene.peerAt
  peers scene := scene.peers.zipIdx.map (fun p => ⟨p.1.address, p.2⟩)
  fetch peer now deadline group key scene :=
    match scene.peers[peer.id]? with
    | none => (scene, .never)
    | some scripted =>
      let (fetches, work) := scripted.fetches.ask now key
      (scene.call peer false now deadline group key (fun p => { p with fetches }), deadline.bound now work)
  forget peer now deadline group key scene :=
    match scene.peers[peer.id]? with
    | none => (scene, .never)
    | some scripted =>
      let (removals, work) := scripted.removals.ask now key
      (scene.call peer true now deadline group key (fun p => { p with removals }),
        deadline.bound now (work.map (·.map (fun _ => ()))))
  load now _ key scene :=
    let (loader, work) := scene.loader.ask now key
    ({ scene with loader, loads := scene.loads ++ [key] }, work)

end Scene

/-- What a service was asked for. -/
inductive ServiceCall where
  | retrieve (group key : String) (budget : Option UInt64)
  | delete (group key : String) (budget : Option UInt64)
  | amend (how : Amendment) (addresses : List String)
deriving DecidableEq, Repr

/-- A scripted service and the record of what it was asked for. -/
structure Recording where
  retrievals : Loader
  deletions : Loader
  calls : List ServiceCall

/-- The service that follows the scripts of a recording. -/
def Recording.service : Service Recording where
  retrieve now deadline group key recording :=
    let (retrievals, work) := recording.retrievals.ask now key
    let calls := recording.calls ++ [.retrieve group key (deadline.budget now)]
    ({ recording with retrievals, calls }, work)
  delete now deadline group key recording :=
    let (deletions, work) := recording.deletions.ask now key
    let calls := recording.calls ++ [.delete group key (deadline.budget now)]
    ({ recording with deletions, calls }, work.map (·.map (fun _ => ())))
  amend _ how addresses recording :=
    ({ recording with calls := recording.calls ++ [.amend how addresses] }, .ready ())

end RingCache
