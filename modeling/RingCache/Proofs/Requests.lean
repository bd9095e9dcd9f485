import RingCache.Proofs.Errands
import RingCache.Proofs.LoneGets
import RingCache.Proofs.Pipelining

/-!
# Requests and the members behind links

A call changes the members by its request alone: on a link that leads to a member it does
what that member does to answer (`Cluster.members_call`), and on a link that another call
holds it does nothing (`Cluster.call_of_held`). A get counts no request at its own
member, so what it adds to the requests of all members is what its call to a peer adds
(`Cluster.requestsAt_fetchAlone`). Without a deadline a call waits forever if the member
never answers, or if the link is held.
-/
namespace RingCache
open Wire

/-! ## What the steps of a get leave -/

theorem Group.serverRequests_lookup (group : Group) (key : String) :
    (group.lookup key).1.counters.serverRequests = group.counters.serverRequests := by
  rw [lookup]
  split <;> rfl

theorem Group.serverRequests_peerAnswered (group : Group) (answer : Except Failure Bytes) :
    (group.peerAnswered answer).1.counters.serverRequests = group.counters.serverRequests := by
  cases answer with
  | ok value => rfl
  | error failure => cases failure <;> rfl

theorem Group.serverRequests_loaded (group : Group) (key : String) (answer : Except Failure Bytes) :
    (group.loaded key answer).1.counters.serverRequests = group.counters.serverRequests := by
  cases answer with
  | ok value => rfl
  | error failure => cases failure <;> rfl

namespace Cluster

variable {c later served : Cluster} {id other : LinkId} {member place : MemberId} {name key : String}
variable {holding : Holding} {caller : Caller} {party holder : PartyId} {deadline : Deadline} {request : Message}
variable {peer : Peer} {stage : Stage} {event : Event} {now time alarm : Time} {stream : StreamId} {wiring : Wiring}
variable {requests replies depth : Nat}

theorem holding?_modifyHolding (c : Cluster) (id other : MemberId) (name : String) (change : Holding → Holding) :
    (c.modifyHolding id name change).holding? other name =
      if other = id then (c.holding? other name).map change else c.holding? other name := by
  rw [holding?, registry_modifyHolding]
  split
  · rw [Registry.find?, Registry.update, Table.find?_modify, if_pos rfl]
    rfl
  · rfl

/-- The requests that a member has counted for a group. -/
def requestsAt (c : Cluster) (name : String) (id : MemberId) : Nat :=
  ((c.holding? id name).map (fun holding => holding.group.counters.serverRequests)).getD 0

theorem requestsAt_congr (same : later.members = c.members) (name : String) (id : MemberId) :
    later.requestsAt name id = c.requestsAt name id := by
  rw [requestsAt, requestsAt,
    show later.holding? id name = c.holding? id name from congrFun (holdings_congr same name) id]

/-- A change of a group that counts no request. -/
theorem requestsAt_modifyHolding {change : Holding → Holding}
    (same : ∀ holding, c.holding? member name = some holding →
      (change holding).group.counters.serverRequests = holding.group.counters.serverRequests) (id : MemberId) :
    (c.modifyHolding member name change).requestsAt name id = c.requestsAt name id := by
  rw [requestsAt, requestsAt, holding?_modifyHolding]
  split
  next here =>
    subst here
    cases held : c.holding? id name with
    | none => rfl
    | some holding => exact same holding held
  next => rfl

/-! ## A get at its own member -/

/-- The cluster after a get was counted at a member with a group. -/
def begun (c : Cluster) (member : MemberId) (name : String) (holding : Holding) : Cluster :=
  c.modifyHolding member name (fun h => { h with group := holding.group.count .gets })

theorem putGroup_begun (caller : Caller) (held : c.holding? member name = some holding) :
    (host caller member name).putGroup (((host caller member name).group c).count .gets) c =
      c.begun member name holding := by
  rw [group_host held]
  rfl

theorem becomes_begun (held : c.holding? member name = some holding) :
    c.Becomes name (Function.update (c.holdings name) member (some (holding.count .gets)))
      (c.begun member name holding) :=
  becomes_modifyHolding held (fun h => { h with group := holding.group.count .gets })

theorem requestsAt_begun (held : c.holding? member name = some holding) (id : MemberId) :
    (c.begun member name holding).requestsAt name id = c.requestsAt name id := by
  apply requestsAt_modifyHolding
  intro other also
  rw [held] at also
  cases also
  rfl

variable (key caller deadline now) in
/-- A get of a key that is not stored at a member that takes itself for the owner. -/
theorem get_of_here (held : c.holding? member name = some holding) (missing : holding.group.store.find? key = none)
    (here : c.pick member key = none) :
    (host caller member name).get now deadline key c =
      (host caller member name).loadAlone now deadline key (c.begun member name holding) := by
  rw [← putGroup_begun caller held]
  apply Host.get_of_here
  · rw [group_host held]
    exact missing
  · rw [putGroup_begun caller held]
    exact ((becomes_begun held).keeps.pick member key).trans here

variable (caller deadline now) in
/-- A get of a key that is not stored at a member that takes a peer for the owner. -/
theorem get_of_picked (held : c.holding? member name = some holding) (missing : holding.group.store.find? key = none)
    (asks : c.pick member key = some peer) :
    (host caller member name).get now deadline key c =
      let (next, work) :=
        (host caller member name).fetchAlone now deadline peer key (c.begun member name holding)
      (next, work.map Prod.snd) := by
  rw [← putGroup_begun caller held]
  apply Host.get_of_asked
  · rw [group_host held]
    exact missing
  · rw [putGroup_begun caller held]
    exact ((becomes_begun held).keeps.pick member key).trans asks

theorem name_begun (held : c.holding? member name = some holding) (named : holding.group.name = name) :
    ((host caller member name).group (c.begun member name holding)).name = name := by
  rw [group_host (becomes_begun held).holding?_self]
  exact named

/-- What a get asks a peer for. -/
theorem fetch_begun (held : c.holding? member name = some holding) (named : holding.group.name = name) :
    (host caller member name).fetch peer now deadline
        ((host caller member name).group (c.begun member name holding)).name key (c.begun member name holding) =
      let (next, work) := caller now peer deadline (.retrieve ⟨name, key, deadline.budget now⟩)
        (c.begun member name holding)
      (next, work.map (Exchange.value peer.address key)) := by
  rw [name_begun held named]
  rfl

section
variable (id : MemberId)

theorem requestsAt_putGroup {group : Group}
    (same : group.counters.serverRequests = ((host caller member name).group c).counters.serverRequests) :
    ((host caller member name).putGroup group c).requestsAt name id = c.requestsAt name id := by
  apply requestsAt_modifyHolding
  intro holding held
  rwa [group_host held] at same

theorem requestsAt_loadAlone :
    ((host caller member name).loadAlone now deadline key c).1.requestsAt name id = c.requestsAt name id := by
  have asked : ((host caller member name).load now deadline key c).1.requestsAt name id = c.requestsAt name id := by
    cases held : c.holding? member name with
    | none => simp only [host, held]
    | some holding =>
      rw [load_host held]
      apply requestsAt_modifyHolding
      intro _ _
      rfl
  refine Eq.trans ?_ asked
  rw [Host.loadAlone]
  rcases (host caller member name).load now deadline key c with ⟨next, work⟩
  dsimp only
  cases deadline.bound now work with
  | never => rfl
  | after delay answer =>
    exact requestsAt_putGroup id (Group.serverRequests_loaded ((host caller member name).group next) key answer)

theorem requestsAt_fetchAlone :
    ((host caller member name).fetchAlone now deadline peer key c).1.requestsAt name id =
      ((host caller member name).fetch peer now deadline ((host caller member name).group c).name key c).1.requestsAt
        name id := by
  rw [Host.fetchAlone]
  rcases (host caller member name).fetch peer now deadline _ key c with ⟨next, ⟨delay, answer⟩ | _⟩
  · have taken := requestsAt_putGroup id
      (Group.serverRequests_peerAnswered ((host caller member name).group next) answer)
    dsimp only
    rcases answered : ((host caller member name).group next).peerAnswered answer with ⟨group, result | _⟩
    · rw [answered] at taken
      exact taken
    · rw [answered] at taken
      exact (requestsAt_loadAlone id).trans taken
  · rfl

end

/-! ## A call and the members -/

/-- A call that has written its request changes no member any more. -/
theorem members_occasion {after : Cluster} (past : stage.rank ≤ 6)
    (meets : c.occasion caller id wiring party deadline request now stage = some (event, time, after)) :
    after.members = c.members := by
  have timeout_members (rings : occasion.timeout deadline now c = some (event, time, after)) :
      after.members = c.members := by
    obtain ⟨_, _, same⟩ := Option.map_eq_some_iff.mp rings
    cases same
    rfl
  cases stage with
  | waiting | dialing | writing => simp [Stage.rank] at past
  | reading stream =>
    rw [occasion] at meets
    split at meets
    · exact timeout_members meets
    · split at meets
      · exact timeout_members meets
      · split at meets
        · exact timeout_members meets
        · split at meets
          · exact timeout_members meets
          · cases meets
            rfl
          · cases meets
            rfl
          · cases meets
            rfl
  | finished => cases meets
  | entering | storing | unlocking | checking | closing | sweeping | clearing =>
    cases meets
    rfl

theorem members_stepped (c : Cluster) (id : LinkId) (step : LinkStep) : (c.stepped id step).members = c.members := by
  rw [stepped]
  split <;> rfl

theorem members_follow (past : stage.rank ≤ 6) :
    (c.follow caller id party deadline request stage now).1.members = c.members := by
  fun_induction follow caller id party deadline request stage now c with
  | case1 => rfl
  | case2 => rfl
  | case3 => rfl
  | case4 stage now c wiring wired unfinished event time after meets stuck => exact members_occasion past meets
  | case5 stage now c wiring wired unfinished event time after meets step advanced ih =>
    have nearer := Link.rank_advance_lt advanced
    rw [ih (by omega), members_stepped]
    exact members_occasion past meets

/-- A call writes its request whatever the link is like. -/
theorem exists_follow_writing (wired : c.links[id]? = some wiring) :
    ∃ link, c.follow caller id party deadline request (.writing stream) now =
      (((c.setAlarm id (deadline.alarm now)).send caller now stream (.data (frame request))).stepped id
        ⟨link, .reading stream, none⟩).follow caller id party deadline request (.reading stream) now := by
  let sent := (c.setAlarm id (deadline.alarm now)).send caller now stream (.data (frame request))
  refine ⟨(sent.links[id]?.map Wiring.link).getD wiring.link, ?_⟩
  rw [follow, wired]
  simp only [Stage.conclusion?, occasion, Link.advance]
  rfl

/-- A request that is never answered leaves nothing to wait for on its channel. -/
theorem send_of_silent {channel : Channel} {unread : Source} {post : Station}
    (opened : c.channels[stream]? = some channel) (waits : channel.serving = .waiting unread)
    (drained : unread.Drained) (stands : c.stations[channel.station]? = some post)
    (attached : post.attached = some member) (asks : Framed post.maxFrame request)
    (serves : dispatch (service caller member) (now + c.latency) request c = (served, .never)) :
    c.send caller now stream (.data (frame request)) = served.modifyChannel stream (fun channel => { channel with
      serving := .stuck
      arrived := channel.arrived ++ [.data []]
      ready := none }) := by
  have silent : answer (serviceAt caller channel.station) (now + c.latency) request c = (served, .never) := by
    rw [answer, serviceAt, attachedTo, stands, Option.bind_some, attached]
    exact serves
  obtain ⟨rest, _, got⟩ := drained.read_frame asks
  have done := Server.serve_of_silent (serviceAt caller channel.station) got silent
  rw [send, opened]
  simp only [waits, stands, done, Server.Ending.notice, List.append_nil]

theorem members_send {station : StationId} {post : Station} (rests : c.Rests stream station)
    (stands : c.stations[station]? = some post) (attached : post.attached = some member)
    (asks : Framed post.maxFrame request) :
    (c.send caller now stream (.data (frame request))).members =
      (dispatch (service caller member) (now + c.latency) request c).1.members := by
  obtain ⟨channel, unread, opened, rfl, waits, drained, _⟩ := rests
  rcases serves : dispatch (service caller member) (now + c.latency) request c with ⟨served, ⟨delay, reply⟩ | _⟩
  · obtain ⟨rest, _, sent⟩ := exists_send opened waits drained stands attached asks serves
    rw [sent]
    rfl
  · rw [send_of_silent opened waits drained stands attached asks serves]
    rfl

/-- A call on a link that leads to a member changes the members as that member does to
    answer it. -/
theorem members_call (leads : c.Leads peer.id member requests replies) (asks : Framed requests request) :
    (callAt (depth + 1) now peer deadline request c).1.members =
      (dispatch (service (callAt depth) member) (now + c.latency) request
        (c.lent peer.id (depth + 1) (deadline.alarm now))).1.members := by
  obtain @⟨wiring, stream, station, post, wired, idle, rests, stands, attached, rfl, _⟩ := leads
  obtain ⟨link, written⟩ := exists_follow_writing (getElem?_withLink wired (inUse (depth + 1)))
  have past : (Stage.reading stream).rank ≤ 6 := Nat.le_refl 6
  calc (callAt (depth + 1) now peer deadline request c).1.members
      = (c.follow (callAt depth) peer.id (depth + 1) deadline request .entering now).1.members := rfl
    _ = ((c.lent peer.id (depth + 1) (deadline.alarm now)).send (callAt depth) now stream
          (.data (frame request))).members := by
      rw [follow_entering wired idle, written, members_follow past, members_stepped]
      rfl
    _ = _ := members_send rests stands attached asks

/-- A call without a deadline waits forever for what never comes back. -/
theorem follow_reading_of_silent
    (silent : ∀ channel, c.channels[stream]? = some channel → channel.ready = none) :
    (c.follow caller id party .never request (.reading stream) now).2 = none := by
  cases wired : c.links[id]? with
  | none =>
    rw [follow, wired]
    rfl
  | some wiring =>
    have waits : c.occasion caller id wiring party .never request now (.reading stream) = none := by
      rw [occasion]
      split
      · rfl
      next channel opened =>
        rw [silent channel opened]
        rfl
    rw [follow_of_nothing rfl wired waits]

/-- A call without a deadline waits forever if the member behind its link never answers. -/
theorem call_of_silent (leads : c.Leads peer.id member requests replies) (asks : Framed requests request)
    (serves : dispatch (service (callAt depth) member) (now + c.latency) request
      (c.lent peer.id (depth + 1) none) = (served, .never)) :
    (callAt (depth + 1) now peer .never request c).2 = .never := by
  obtain @⟨wiring, stream, station, post, wired, idle, rests, stands, attached, rfl, _⟩ := leads
  obtain ⟨channel, unread, opened, rfl, waits, drained, _⟩ := rests
  let used := c.lent peer.id (depth + 1) none
  have arrives : (c.withLink peer.id (inUse (depth + 1))).setAlarm peer.id (Deadline.never.alarm now) = used := rfl
  have openedThen : used.channels[stream]? = some channel := opened
  have standsThen : used.stations[channel.station]? = some post := stands
  have sent := send_of_silent openedThen waits drained standsThen attached asks serves
  obtain ⟨link, written⟩ := exists_follow_writing (getElem?_withLink wired (inUse (depth + 1)))
  have due : (c.follow (callAt depth) peer.id (depth + 1) .never request .entering now).2 = none := by
    rw [follow_entering wired idle, written, arrives, sent]
    apply follow_reading_of_silent
    intro channel opened
    simp only [stepped, modifyChannel, List.getElem?_modify] at opened
    obtain ⟨_, _, rfl⟩ := Option.map_eq_some_iff.mp opened
    simp
  simp only [callAt, due]

/-- A call without a deadline on a link that another one holds, which does not give up, changes
    no member and waits forever. -/
theorem call_of_held (wired : c.links[peer.id]? = some wiring) (held : wiring.link = inUse holder)
    (apart : holder ≠ depth + 1) (patient : c.alarms peer.id = none) :
    (callAt (depth + 1) now peer .never request c).1.members = c.members ∧
      (callAt (depth + 1) now peer .never request c).2 = .never := by
  let queued : Link := ⟨false, none, ⟨some holder, [depth + 1]⟩⟩
  have enters : wiring.link.advance (depth + 1) .entering .go = some ⟨queued, .waiting, none⟩ := by
    rw [held]
    rfl
  have waiting := getElem?_withLink wired queued
  have another : queued.lock.heldBy (depth + 1) = false := by simp [queued, Lock.heldBy, apart]
  have begins : c.follow (callAt depth) peer.id (depth + 1) .never request .entering now =
      (c.withLink peer.id queued).follow (callAt depth) peer.id (depth + 1) .never request .waiting now :=
    follow_of_advance rfl wired rfl wired enters rfl
  have silent : (c.withLink peer.id queued).alarms peer.id = none := patient
  have meets : (c.withLink peer.id queued).occasion (callAt depth) peer.id { wiring with link := queued } (depth + 1)
      .never request now .waiting = none := by
    simp only [occasion, another, silent]
    rfl
  have waits := follow_of_nothing rfl waiting meets
  rw [← begins] at waits
  simp only [callAt, waits]
  exact ⟨rfl, trivial⟩

end Cluster

end RingCache
