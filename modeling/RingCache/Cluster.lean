import RingCache.Endpoint
import RingCache.Exchange
import RingCache.Link
import RingCache.Pool
import RingCache.Registry
import RingCache.Schedule
import RingCache.Script
import RingCache.Server

/-!
# Clusters

Members that serve each other over a network. A member has groups and a pool; a
station is a server, which answers on its channels for the member attached to
it; a link is what some pool, or somebody else, keeps of a station.

A call on a link runs through the stages of the link. When it has written its
request, the station serves it, and the member behind it may make calls of its
own, on other links: so calls nest. A call on a link that an outer call holds
waits for the lock. It gets it when the alarm of the outer call goes off, which
gives up the stream then, so that the waiting call dials and writes its request
after all; if its own alarm is the first one, it fails. Without a deadline it
waits forever. So calls without a deadline nest no deeper than there are links.
With one, a request may go round for longer: each hop starts its budget anew.
`Cluster.callAt` is told how deep calls may nest, and a call that would nest
deeper is not followed.
-/
namespace RingCache
open Wire

/-- Names a member. -/
abbrev MemberId := Nat

/-- Names a station. -/
abbrev StationId := Nat

/-- Names a link. -/
abbrev LinkId := Nat

/-- A group and the loader of its keys. -/
structure Holding where
  group : Group
  loader : Loader

/-- A member: its pool, if it has one, and its groups. -/
structure Member where
  pool : Option Pool
  registry : Registry Holding

/-- A server: the member that it answers for, the largest request that it
    accepts, and why it does not listen, if it could not. -/
structure Station where
  attached : Option MemberId
  maxFrame : Nat
  fault : Option Failure
deriving DecidableEq, Repr

/-- A stream to a station: where the station stands with it, what has come back
    and was not read yet, and when it is there, if it comes at all. -/
structure Channel where
  station : StationId
  serving : Server.Ending
  arrived : Source
  ready : Option Time
deriving DecidableEq, Repr

/-- A link, the address that it dials, and how. -/
structure Wiring where
  address : String
  options : DialOptions
  link : Link
deriving DecidableEq, Repr

/-- Members, servers, and what there is between them. Servers are listed by the
    plain form of the address that they listen at. A message takes `latency` from
    one side of a channel to the other. -/
structure Cluster where
  latency : Time
  members : List Member
  stations : List Station
  listening : Table String StationId
  channels : List Channel
  links : List Wiring
  /-- When the call that holds a link gives up; none if it has no deadline. -/
  alarms : LinkId → Option Time := fun _ => none

namespace Cluster

/-- The cluster of nobody. -/
def empty (latency : Time) : Cluster where
  latency
  members := []
  stations := []
  listening := .empty
  channels := []
  links := []

/-- The time that a message and its answer are on the way. -/
def roundTrip (c : Cluster) : Time := 2 * c.latency

/-! ## Servers -/

/-- The failure to listen at an address that is taken. -/
def addressTaken : Failure := .network (.io "Address already in use (os error 98)")

/-- A server that listens at an address, or that could not if it is taken. -/
def bind (c : Cluster) (address : String) (maxFrame : Nat) : Cluster × StationId :=
  let id := c.stations.length
  let place := Endpoint.plain address
  if c.listening.contains place then
    ({ c with stations := c.stations ++ [⟨none, maxFrame, some addressTaken⟩] }, id)
  else
    ({ c with
      stations := c.stations ++ [⟨none, maxFrame, none⟩]
      listening := c.listening.insert place id }, id)

/-- A server that does not listen anywhere. -/
def silentStation (c : Cluster) : Cluster × StationId :=
  ({ c with stations := c.stations ++ [⟨none, defaultMaxFrame, none⟩] }, c.stations.length)

/-- A server stops listening, and tells what came of it; the second time it is
    well. Its channels live on. -/
def stop (c : Cluster) (id : StationId) : Cluster × Except Failure Unit :=
  let outcome := match c.stations[id]?.bind Station.fault with
    | some failure => .error failure
    | none => .ok ()
  let listening := match c.listening.entries.find? (fun entry => entry.2 == id) with
    | some (place, _) => c.listening.erase place
    | none => c.listening
  ({ c with
    stations := c.stations.modify id (fun station => { station with fault := none })
    listening }, outcome)

/-- A server answers for a member from now on. -/
def attach (c : Cluster) (id : StationId) (member : MemberId) : Cluster :=
  { c with stations := c.stations.modify id (fun station => { station with attached := some member }) }

/-- The member that a server answers for. -/
def attachedTo (c : Cluster) (id : StationId) : Option MemberId :=
  c.stations[id]?.bind Station.attached

/-! ## Members and their groups -/

/-- A member without groups joins. -/
def enroll (c : Cluster) (pool : Option Pool) : Cluster × MemberId :=
  ({ c with members := c.members ++ [⟨pool, .empty⟩] }, c.members.length)

/-- The cluster after a member changed. -/
def modifyMember (c : Cluster) (id : MemberId) (change : Member → Member) : Cluster :=
  { c with members := c.members.modify id change }

/-- The pool of a member. -/
def pool? (c : Cluster) (id : MemberId) : Option Pool :=
  c.members[id]?.bind Member.pool

/-- The cluster with a pool for a member. -/
def putPool (c : Cluster) (id : MemberId) (pool : Pool) : Cluster :=
  c.modifyMember id (fun member => { member with pool := some pool })

/-- The groups of a member. -/
def registry (c : Cluster) (id : MemberId) : Registry Holding :=
  (c.members[id]?.map Member.registry).getD .empty

/-- A group of a member. -/
def holding? (c : Cluster) (id : MemberId) (name : String) : Option Holding :=
  (c.registry id).find? name

/-- The cluster after a group of a member changed. -/
def modifyHolding (c : Cluster) (id : MemberId) (name : String) (change : Holding → Holding) : Cluster :=
  c.modifyMember id (fun member => { member with registry := member.registry.update name change })

/-- The cluster after the shared part of a group changed. -/
def modifyGroup (c : Cluster) (id : MemberId) (name : String) (change : Group → Group) : Cluster :=
  c.modifyHolding id name (fun holding => { holding with group := change holding.group })

/-- A member gets a group under a name that is still free. -/
def newGroup (c : Cluster) (id : MemberId) (name : String) (loader : Loader) : Except Failure Cluster :=
  match (c.registry id).register name ⟨.new name Group.ample, loader⟩ with
  | .ok registry => .ok (c.modifyMember id (fun member => { member with registry }))
  | .error failure => .error failure

/-- The peer that owns a key, for a member; none if the key is served there. -/
def pick (c : Cluster) (id : MemberId) (key : String) : Option Peer :=
  (c.pool? id).bind (fun pool => pool.pick key)

/-- All peers of a member. -/
def peersOf (c : Cluster) (id : MemberId) : List Peer :=
  ((c.pool? id).map Pool.peers).getD []

/-! ## Streams -/

/-- Dials an address. -/
def dial (c : Cluster) (address : String) (options : DialOptions) : Except Failure (Cluster × StreamId) :=
  let station := c.listening.find? (Endpoint.plain address)
  match Endpoint.dial station.isSome options c.roundTrip address, station with
  | .ok (), some station =>
    .ok ({ c with channels := c.channels ++ [⟨station, .waiting [], [], some 0⟩] }, c.channels.length)
  | .ok (), none => .error (Endpoint.refused address)
  | .error failure, _ => .error failure

/-- The cluster after a channel changed. -/
def modifyChannel (c : Cluster) (id : StreamId) (change : Channel → Channel) : Cluster :=
  { c with channels := c.channels.modify id change }

/-- The cluster after its side that dialed a channel gave it up. -/
def hangUp (c : Cluster) (id : StreamId) : Cluster :=
  c.modifyChannel id (fun channel => { channel with serving := .finished })

/-! ## Calls -/

/-- Makes a call to a peer: at a time, by a deadline, with a request. -/
abbrev Caller := Time → Peer → Deadline → Message → Cluster → Cluster × Work (Except Failure Message)

/-- What the groups of a name at a member draw on. -/
def host (caller : Caller) (member : MemberId) (name : String) : Host Cluster where
  group c := ((c.holding? member name).map Holding.group).getD (.new name Group.ample)
  putGroup group c := c.modifyGroup member name (fun _ => group)
  owner c key := c.pick member key
  peers c := c.peersOf member
  fetch peer now deadline group key c :=
    let errand := Errand.fetch group key
    let (c, work) := caller now peer deadline (errand.request (deadline.budget now)) c
    (c, work.map (Exchange.value peer.address errand.subject))
  forget peer now deadline group key c :=
    let errand := Errand.forget group key
    let (c, work) := caller now peer deadline (errand.request (deadline.budget now)) c
    (c, work.map (Exchange.acknowledged peer.address errand.subject))
  load now _ key c :=
    match c.holding? member name with
    | none => (c, .never)
    | some holding =>
      let (loader, work) := holding.loader.ask now key
      (c.modifyHolding member name (fun holding => { holding with loader }), work)

/-! ### Links -/

/-- Opens a link. -/
def openLink (c : Cluster) (address : String) (options : DialOptions) : Except Failure (Cluster × LinkId) :=
  match c.dial address options with
  | .ok (c, stream) => .ok ({ c with links := c.links ++ [⟨address, options, .around stream⟩] }, c.links.length)
  | .error failure => .error failure

/-- The cluster after a step of a party of a link. -/
def stepped (c : Cluster) (id : LinkId) (step : LinkStep) : Cluster :=
  let c := { c with links := c.links.modify id (fun wiring => { wiring with link := step.link }) }
  match step.dropped with
  | some stream => c.hangUp stream
  | none => c

/-- Closes a link, which nobody is using. -/
def sweep (c : Cluster) (id : LinkId) (party : PartyId) (stage : Stage) : Cluster :=
  match c.links[id]? with
  | none => c
  | some wiring =>
    match _stepped : wiring.link.advance party stage .go with
    | none => c
    | some step => (c.stepped id step).sweep id party step.stage
termination_by stage.rank
decreasing_by exact Link.rank_advance_lt _stepped

/-- The party that closes links. It never waits, so it is nobody else's. -/
def closer : PartyId := 0

/-- Closes a link. -/
def close (c : Cluster) (id : LinkId) : Cluster :=
  c.sweep id closer .closing

/-! ### Memberships -/

/-- What makes a change of a member's pool go on, and the cluster then. -/
def changeEvent (c : Cluster) (pool : Pool) : ChangeStage → ChangeEvent × Cluster
  | .dialing address _ =>
    match c.openLink address pool.settings.dial with
    | .ok (c, link) => (.dialed ⟨address, link⟩, c)
    | .error _ => (.refused, c)
  | _ => (.go, c)

/-- The cluster after a step of a change of a member's pool. -/
def changed (c : Cluster) (id : MemberId) (step : ChangeStep) : Cluster :=
  let c := c.putPool id step.pool
  match step.closes with
  | some peer => c.close peer.id
  | none => c

/-- A change of a member's pool goes on to its end. -/
def pursue (c : Cluster) (id : MemberId) (party : PartyId) (stage : ChangeStage) : Cluster :=
  match c.pool? id with
  | none => c
  | some pool =>
    let (event, c) := c.changeEvent pool stage
    match _stepped : pool.advance party stage event with
    | none => c
    | some step => (c.changed id step).pursue id party step.stage
termination_by (stage.part, stage.steps)
decreasing_by
  simp only [Prod.lex_def]
  exact Pool.advance_lt _stepped

/-- Changes the membership of a member. -/
def change (c : Cluster) (id : MemberId) (change : Change) : Cluster :=
  c.pursue id closer (.entering change)

/-! ### Serving -/

/-- The service of a member. Requests for its groups are counted there. -/
def service (caller : Caller) (member : MemberId) : Service Cluster where
  retrieve now deadline name key c :=
    match c.holding? member name with
    | none => (c, .ready (.error (.groupNotFound name)))
    | some _ =>
      (host caller member name).get now deadline key (c.modifyGroup member name (·.count .serverRequests))
  delete _ _ name key c :=
    match c.holding? member name with
    | none => (c, .ready (.error (.groupNotFound name)))
    | some _ =>
      (c.modifyGroup member name (fun group => (group.count .serverRequests).localRemove key), .ready (.ok ()))
  amend _ how addresses c := (c.change member (.amend how addresses), .ready ())

/-- The service that is attached to a server. -/
def serviceAt (caller : Caller) (id : StationId) (c : Cluster) : Option (Service Cluster) :=
  (c.attachedTo id).map (service caller)

/-- Sends something on a channel at a time, and lets the server go on. What is
    sent to a server that has hung up is lost. -/
def send (caller : Caller) (now : Time) (id : StreamId) (chunk : Chunk) (c : Cluster) : Cluster :=
  match c.channels[id]? with
  | none => c
  | some channel =>
    match channel.serving, c.stations[channel.station]? with
    | .waiting unread, some station =>
      let served := Server.serve (serviceAt caller channel.station) station.maxFrame (now + c.latency)
        (unread ++ [chunk]) c
      served.state.modifyChannel id (fun channel => { channel with
        serving := served.ending
        arrived := channel.arrived ++ [.data served.written] ++ served.ending.notice
        ready := match served.ending with
          | .stuck => none
          | _ => some (now + c.roundTrip + served.elapsed) })
    | _, _ => c

/-- The cluster once the call that holds a link has set its alarm. -/
def setAlarm (c : Cluster) (id : LinkId) (alarm : Option Time) : Cluster :=
  { c with alarms := fun other => if other = id then alarm else c.alarms other }

/-- The cluster after the alarm of the call that holds a link went off: it has let
    the link go, and its stream is not in the slot. -/
def expire (c : Cluster) (id : LinkId) : Cluster :=
  { c with links := c.links.modify id (fun wiring => { wiring with link := wiring.link.unlocked }) }

/-- What a party of a link meets next, when, and the cluster then; none if it
    waits forever. What has not come when the alarm of the deadline goes off is
    not waited for any longer. Nothing comes over the network at once, so an alarm
    that goes off at once is met first. A link that an outer call holds comes when
    the alarm of that call goes off. -/
def occasion (caller : Caller) (id : LinkId) (wiring : Wiring) (party : PartyId) (deadline : Deadline)
    (request : Message) (now : Time) (c : Cluster) : Stage → Option (Event × Time × Cluster)
  | .waiting =>
    if wiring.link.lock.heldBy party then some (.go, now, c)
    else match c.alarms id with
      | none => timeout
      | some alarm =>
        let time := max now alarm
        if tooLate time then timeout else some (.go, time, c.expire id)
  | .dialing =>
    let time := now + min c.roundTrip wiring.options.connectTimeout
    if tooLate time then timeout
    else match c.dial wiring.address wiring.options with
      | .ok (c, stream) => some (.dialed stream, time, c)
      | .error failure => some (.failed failure, time, c)
  | .writing stream =>
    some (.written, now, (c.setAlarm id (deadline.alarm now)).send caller now stream (.data (frame request)))
  | .reading stream =>
    match c.channels[stream]? with
    | none => timeout
    | some channel =>
      match channel.ready with
      | none => timeout
      | some time =>
        if tooLate time then timeout
        else match read wiring.options.maxFrame channel.arrived with
          | .dry => timeout
          | .message reply rest =>
            some (.received reply, max now time, c.modifyChannel stream ({ · with arrived := rest }))
          | .finished => some (.ended, max now time, c)
          | .failed failure _ => some (.failed failure, max now time, c)
  | .finished _ => none
  | _ => some (.go, now, c)
where
  /-- Whether what comes over the network at a time comes after the alarm. -/
  tooLate (time : Time) : Bool :=
    deadline.rings now || (deadline.alarm now).any (· < time)
  /-- The alarm of the deadline, if there is one. -/
  timeout : Option (Event × Time × Cluster) :=
    (deadline.alarm now).map (fun time => (.cancelled, time, c))

/-- A call on a link goes on to its end: when it ends and how, if it does. -/
def follow (caller : Caller) (id : LinkId) (party : PartyId) (deadline : Deadline) (request : Message)
    (stage : Stage) (now : Time) (c : Cluster) : Cluster × Due Conclusion :=
  match stage.conclusion?, c.links[id]? with
  | some conclusion, _ => (c, some (now, conclusion))
  | none, none => (c, none)
  | none, some wiring =>
    match c.occasion caller id wiring party deadline request now stage with
    | none => (c, none)
    | some (event, now, c) =>
      match _stepped : ((c.links[id]?.map Wiring.link).getD wiring.link).advance party stage event with
      | none => (c, none)
      | some step => follow caller id party deadline request step.stage now (c.stepped id step)
termination_by stage.rank
decreasing_by exact Link.rank_advance_lt _stepped

/-- Makes a call while calls may nest to a depth. Each depth is a party of its
    own. A call that nests too deep comes to nothing before its deadline. -/
def callAt : (depth : Nat) → Caller
  | 0, now, _, deadline, _, c => (c, deadline.bound now .never)
  | depth + 1, now, peer, deadline, request, c =>
    let (c, due) := c.follow (callAt depth) peer.id (depth + 1) deadline request .entering now
    let work := match due with
      | some (time, conclusion) => match conclusion.result? with
        | some result => .after (time - now) result
        | none => .never
      | none => .never
    (c, work)

/-- Calls may nest as deep as there are links, and one call more finds out that
    it has to wait for an outer one. -/
def depth (c : Cluster) : Nat :=
  c.links.length + 1

/-- Makes a call that no other call led to. -/
def call (now : Time) (peer : Peer) (deadline : Deadline) (request : Message) (c : Cluster) :
    Cluster × Work (Except Failure Message) :=
  callAt c.depth now peer deadline request c

/-! ## What is done with a cluster -/

/-- A get at a member. -/
def get (c : Cluster) (member : MemberId) (name : String) (now : Time) (deadline : Deadline) (key : String) :
    Cluster × Work (Except Failure Bytes) :=
  (host (callAt c.depth) member name).get now deadline key c

/-- A removal at a member. -/
def remove (c : Cluster) (member : MemberId) (name : String) (now : Time) (deadline : Deadline) (key : String) :
    Cluster × Work (Except Failure Unit) :=
  (host (callAt c.depth) member name).remove now deadline key c

/-- A message handed to the service of a member. -/
def ask (c : Cluster) (member : MemberId) (now : Time) (message : Message) : Cluster × Work Message :=
  dispatch (service (callAt c.depth) member) now message c

/-- Carries out a command on a link. -/
def perform (c : Cluster) (id : LinkId) (now : Time) (command : LinkCommand) : Cluster × Work LinkResponse :=
  match c.links[id]?, command with
  | none, _ => (c, .never)
  | some wiring, .run errand allowed =>
    let deadline := Deadline.allowing now allowed
    let (c, work) := c.call now ⟨wiring.address, id⟩ deadline (errand.request (deadline.budget now))
    (c, work.map (fun result => .outcome (errand.outcome wiring.address result)))
  | some _, .close => (c.close id, .ready (.closed true))
  | some wiring, .look => (c, .ready (.closed wiring.link.closed))

end Cluster

end RingCache
