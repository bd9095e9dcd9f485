import RingCache.Proofs.Holdings

/-!
# Calls on links at rest

A call on a link that nobody uses, over a channel on which nothing is on the way,
goes through: it comes back with the reply of the member behind the link, and the
link and the channel are at rest again (`Cluster.exists_follow`).
-/
namespace RingCache
open Wire

/-! ## Serving one request -/

/-- A server that has read all answers a request that comes in one piece. -/
theorem Server.exists_serve {σ : Type} {attached : σ → Option (Service σ)} {limit : Nat} {now delay : Time}
    {unread : Source} {state after : σ} {request reply : Message} (drained : unread.Drained)
    (framed : Framed limit request) (answers : answer attached now request state = (after, .after delay reply)) :
    ∃ rest : Source, rest.Drained ∧
      serve attached limit now (unread ++ [.data (frame request)]) state =
        ⟨after, frame reply, delay, .waiting rest⟩ := by
  obtain ⟨rest, nothing, got⟩ := drained.read_frame framed
  have waits : serve attached limit (now + delay) rest after = ⟨after, [], 0, .waiting rest⟩ := by
    rw [serve]
    split
    next => rfl
    all_goals
      next other =>
        rw [nothing.read limit] at other
        cases other
  refine ⟨rest, nothing, ?_⟩
  rw [serve]
  split
  next dry =>
    rw [got] at dry
    cases dry
  next finished =>
    rw [got] at finished
    cases finished
  next failed =>
    rw [got] at failed
    cases failed
  next message left same =>
    rw [got] at same
    cases same
    simp [answers, waits]

namespace Cluster

variable {c served : Cluster} {id : LinkId} {wiring : Wiring} {link : Link} {caller : Caller} {party : PartyId}
variable {deadline : Deadline} {request reply : Message} {stage : Stage} {now time delay : Time} {event : Event}
variable {step : LinkStep} {stream : StreamId} {member : MemberId} {name : String} {station : StationId}

/-! ## Links in a state -/

/-- The cluster with a link in a state. -/
def withLink (c : Cluster) (id : LinkId) (link : Link) : Cluster :=
  { c with links := c.links.modify id (fun wiring => { wiring with link }) }

theorem getElem?_withLink (wired : c.links[id]? = some wiring) (link : Link) :
    (c.withLink id link).links[id]? = some { wiring with link } := by
  simp [withLink, wired]

theorem withLink_withLink (c : Cluster) (id : LinkId) (first second : Link) :
    (c.withLink id first).withLink id second = c.withLink id second := by
  simp only [withLink, List.modify_modify_eq]
  rfl

theorem withLink_self (wired : c.links[id]? = some wiring) : c.withLink id wiring.link = c := by
  have same : c.links.modify id (fun other => { other with link := wiring.link }) = c.links := by
    refine List.ext_getElem? ?_
    intro other
    rw [List.getElem?_modify]
    by_cases own : id = other
    · subst own
      rw [wired]
      simp
    · simp [own]
  rw [withLink, same]

/-- A call goes on by what it meets next. -/
theorem follow_of_step {after : Cluster} {met : Wiring} (unfinished : stage.conclusion? = none)
    (wired : c.links[id]? = some wiring)
    (meets : c.occasion caller id wiring party deadline request now stage = some (event, time, after))
    (still : after.links[id]? = some met) (advanced : met.link.advance party stage event = some step) :
    c.follow caller id party deadline request stage now =
      (after.stepped id step).follow caller id party deadline request step.stage time := by
  have met_link : ((after.links[id]?.map Wiring.link).getD wiring.link) = met.link := by rw [still]; rfl
  rw [follow]
  split
  next conclusion ended =>
    rw [unfinished] at ended
    cases ended
  next missing =>
    rw [wired] at missing
    cases missing
  next found =>
    rw [wired] at found
    cases found
    rw [meets]
    dsimp only
    split
    next stuck =>
      rw [met_link, advanced] at stuck
      cases stuck
    next other same =>
      rw [met_link, advanced] at same
      cases same
      rfl

/-- A step that gives up no stream changes the link alone. -/
theorem follow_of_advance {after : Cluster} {met : Wiring} (unfinished : stage.conclusion? = none)
    (wired : c.links[id]? = some wiring)
    (meets : c.occasion caller id wiring party deadline request now stage = some (event, time, after))
    (still : after.links[id]? = some met) (advanced : met.link.advance party stage event = some step)
    (kept : step.dropped = none) :
    c.follow caller id party deadline request stage now =
      (after.withLink id step.link).follow caller id party deadline request step.stage time := by
  rw [follow_of_step unfinished wired meets still advanced, stepped, kept]
  rfl

/-- A call that meets nothing waits forever. -/
theorem follow_of_nothing (unfinished : stage.conclusion? = none) (wired : c.links[id]? = some wiring)
    (waits : c.occasion caller id wiring party deadline request now stage = none) :
    c.follow caller id party deadline request stage now = (c, none) := by
  rw [follow, unfinished, wired]
  simp only [waits]

theorem follow_finished (conclusion : Conclusion) :
    c.follow caller id party deadline request (.finished conclusion) now = (c, some (now, conclusion)) := by
  rw [follow]
  rfl

/-! ## A call -/

/-- A request on a channel at rest is served, and its reply is there after the time
    that it takes to come and go and to be made. -/
theorem exists_send {channel : Channel} {unread : Source} {post : Station} (opened : c.channels[stream]? = some channel)
    (waits : channel.serving = .waiting unread) (drained : unread.Drained)
    (stands : c.stations[channel.station]? = some post) (attached : post.attached = some member)
    (framed : Framed post.maxFrame request)
    (serves : dispatch (service caller member) (now + c.latency) request c = (served, .after delay reply)) :
    ∃ rest : Source, rest.Drained ∧ c.send caller now stream (.data (frame request)) =
      served.modifyChannel stream (fun channel => { channel with
        serving := .waiting rest
        arrived := channel.arrived ++ [.data (frame reply)]
        ready := some (now + c.roundTrip + delay) }) := by
  have answers : answer (serviceAt caller channel.station) (now + c.latency) request c =
      (served, .after delay reply) := by
    rw [answer, serviceAt, attachedTo, stands, Option.bind_some, attached]
    exact serves
  obtain ⟨rest, nothing, done⟩ := Server.exists_serve drained framed answers
  refine ⟨rest, nothing, ?_⟩
  rw [send, opened]
  simp only [waits, stands, done, Server.Ending.notice, List.append_nil]

/-- A link that nobody uses, over a channel at rest, to a station that answers for a
    member. The station accepts requests up to a length, and the link replies up to
    one. -/
inductive Leads (c : Cluster) (id : LinkId) (member : MemberId) (requests replies : Nat) : Prop where
  | intro {wiring : Wiring} {stream : StreamId} {station : StationId} {post : Station}
      (wired : c.links[id]? = some wiring) (idle : wiring.link = .around stream) (rests : c.Rests stream station)
      (stands : c.stations[station]? = some post) (attached : post.attached = some member)
      (accepts : post.maxFrame = requests) (reads : wiring.options.maxFrame = replies)

variable {requests replies : Nat}

theorem Leads.keeps {later : Cluster} (leads : c.Leads id member requests replies) (keeps : c.Keeps later) :
    later.Leads id member requests replies := by
  obtain ⟨wired, idle, rests, stands, attached, accepts, reads⟩ := leads
  refine .intro ?_ idle (keeps.rests _ _ rests) ?_ attached accepts reads
  · rwa [keeps.links]
  · rwa [keeps.stations]

/-- The link while a party exchanges messages on its stream. -/
def inUse (party : PartyId) : Link := ⟨false, none, ⟨some party, []⟩⟩

/-- The cluster in which the request of a call arrives that holds a link. -/
def lent (c : Cluster) (id : LinkId) (party : PartyId) (alarm : Option Time) : Cluster :=
  (c.withLink id (inUse party)).setAlarm id alarm

theorem keeps_setAlarm (c : Cluster) (id : LinkId) (alarm : Option Time) : c.Keeps (c.setAlarm id alarm) :=
  ⟨rfl, rfl, rfl, rfl, fun _ => rfl, fun _ _ rests => rests⟩

/-- A call begins: it takes the stream out of the slot. -/
theorem follow_entering (wired : c.links[id]? = some wiring) (idle : wiring.link = .around stream) :
    c.follow caller id party deadline request .entering now =
      (c.withLink id (inUse party)).follow caller id party deadline request (.writing stream) now := by
  let asked : Link := ⟨false, some stream, ⟨some party, []⟩⟩
  have waits := getElem?_withLink wired asked
  have enters : wiring.link.advance party .entering .go = some ⟨asked, .waiting, none⟩ := by
    rw [idle]
    rfl
  have held : asked.lock.heldBy party = true := by simp [asked, Lock.heldBy]
  have takes : asked.advance party .waiting .go = some ⟨inUse party, .writing stream, none⟩ := by
    simp only [Link.advance, held]
    rfl
  have turn : (c.withLink id asked).occasion caller id { wiring with link := asked } party deadline request now .waiting =
      some (.go, now, c.withLink id asked) := by
    simp only [occasion, held]
    rfl
  rw [follow_of_advance rfl wired rfl wired enters rfl, follow_of_advance rfl waits turn waits takes rfl,
    withLink_withLink]

/-- A call ends: it puts the stream back. -/
theorem follow_storing (wired : c.links[id]? = some wiring) (used : wiring.link = inUse party) :
    c.follow caller id party deadline request (.storing stream reply) now =
      (c.withLink id (.around stream), some (now, .replied reply)) := by
  let stored : Link := ⟨false, some stream, ⟨some party, []⟩⟩
  have stores : wiring.link.advance party (.storing stream reply) .go = some ⟨stored, .unlocking reply, none⟩ := by
    rw [used]
    rfl
  have unlocking := getElem?_withLink wired stored
  have unlocks : stored.advance party (.unlocking reply) .go = some ⟨.around stream, .checking reply, none⟩ := rfl
  have checking := getElem?_withLink unlocking (.around stream)
  have checks : (Link.around stream).advance party (.checking reply) .go =
      some ⟨.around stream, .finished (.replied reply), none⟩ := rfl
  rw [follow_of_advance rfl wired rfl wired stores rfl, follow_of_advance rfl unlocking rfl unlocking unlocks rfl,
    follow_of_advance rfl checking rfl checking checks rfl, follow_finished]
  simp only [withLink_withLink]

/-- A channel is at rest again once the reply on it was read. -/
theorem Rests.modifyChannel {other : StreamId} {place : StationId} {change : Channel → Channel}
    (rests : c.Rests other place)
    (again : ∀ channel, c.channels[stream]? = some channel → (change channel).station = channel.station ∧
      (∃ unread, (change channel).serving = .waiting unread ∧ unread.Drained) ∧ (change channel).arrived.Drained) :
    (c.modifyChannel stream change).Rests other place := by
  obtain ⟨channel, unread, opened, at_place, waits, drained, arrived⟩ := rests
  by_cases same : stream = other
  · subst same
    obtain ⟨station_eq, ⟨left, serving, nothing⟩, empty⟩ := again channel opened
    refine ⟨change channel, left, ?_, station_eq.trans at_place, serving, nothing, empty⟩
    simp [Cluster.modifyChannel, opened]
  · refine ⟨channel, unread, ?_, at_place, waits, drained, arrived⟩
    simp [Cluster.modifyChannel, opened, same]

theorem Keeps.modifyChannel {change : Channel → Channel} (keeps : c.Keeps served)
    (again : ∀ channel, served.channels[stream]? = some channel → (change channel).station = channel.station ∧
      (∃ unread, (change channel).serving = .waiting unread ∧ unread.Drained) ∧ (change channel).arrived.Drained) :
    c.Keeps (served.modifyChannel stream change) where
  latency := keeps.latency
  links := keeps.links
  stations := keeps.stations
  size := keeps.size
  pools := keeps.pools
  rests other place resting := (keeps.rests other place resting).modifyChannel again

variable (id caller party request) in
/-- A reply that comes at a time is read then, if that is not too late. -/
theorem occasion_reading {channel : Channel} {left : Source} (arrives : c.channels[stream]? = some channel)
    (ready : channel.ready = some time) (soon : now ≤ time) (inTime : occasion.tooLate deadline now time = false)
    (got : read wiring.options.maxFrame channel.arrived = .message reply left) :
    c.occasion caller id wiring party deadline request now (.reading stream) =
      some (.received reply, time, c.modifyChannel stream (fun channel => { channel with arrived := left })) := by
  rw [occasion, arrives]
  simp only [ready, inTime, got, Nat.max_eq_right soon]
  rfl

variable (deadline) in
/-- A request is written, and its reply is on the way back. -/
theorem exists_written (wired : c.links[id]? = some wiring) (used : wiring.link = inUse party)
    (rests : c.Rests stream station) {post : Station} (stands : c.stations[station]? = some post)
    (attached : post.attached = some member) (asks : Framed post.maxFrame request)
    (serves : dispatch (service caller member) (now + c.latency) request (c.setAlarm id (deadline.alarm now)) =
      (served, .after delay reply))
    (keeps : c.Keeps served) :
    ∃ (replied : Cluster) (channel : Channel), c.follow caller id party deadline request (.writing stream) now =
        replied.follow caller id party deadline request (.reading stream) now ∧
      replied.links = c.links ∧ replied.members = served.members ∧ replied.channels[stream]? = some channel ∧
      channel.ready = some (now + c.roundTrip + delay) ∧
      (∃ earlier : Source, earlier.Drained ∧ channel.arrived = earlier ++ [.data (frame reply)]) ∧
      ∀ left : Source, left.Drained →
        c.Keeps (replied.modifyChannel stream (fun channel => { channel with arrived := left })) := by
  obtain ⟨channel, unread, opened, rfl, waits, drained, empty⟩ := rests
  have openedThen : (c.setAlarm id (deadline.alarm now)).channels[stream]? = some channel := opened
  have standsThen : (c.setAlarm id (deadline.alarm now)).stations[channel.station]? = some post := stands
  obtain ⟨rest, nothing, sent⟩ := exists_send openedThen waits drained standsThen attached asks serves
  -- The member may have made calls of its own meanwhile, but not on this channel.
  obtain ⟨met, _, still, _, _, _, arrived⟩ := keeps.rests _ _ ⟨channel, unread, opened, rfl, waits, drained, empty⟩
  let put (channel : Channel) : Channel := { channel with
    serving := .waiting rest
    arrived := channel.arrived ++ [.data (frame reply)]
    ready := some (now + c.roundTrip + delay) }
  let replied := served.modifyChannel stream put
  have linked : replied.links[id]? = some wiring := by
    rw [show replied.links = served.links from rfl, keeps.links]
    exact wired
  have writes : wiring.link.advance party (.writing stream) .written = some ⟨wiring.link, .reading stream, none⟩ := by
    rw [used]
    rfl
  have writing : c.occasion caller id wiring party deadline request now (.writing stream) =
      some (.written, now, replied) := by
    rw [occasion, sent]
    rfl
  have arrives : replied.channels[stream]? = some (put met) := by simp [replied, Cluster.modifyChannel, still]
  refine ⟨replied, put met, ?_, keeps.links, rfl, arrives, rfl, ⟨_, arrived, rfl⟩, ?_⟩
  · rw [follow_of_advance rfl wired writing linked writes rfl, withLink_self linked]
  · intro left none_left
    have both : replied.modifyChannel stream (fun channel => { channel with arrived := left }) =
        served.modifyChannel stream ((fun channel => { channel with arrived := left }) ∘ put) := by
      simp only [replied, Cluster.modifyChannel, List.modify_modify_eq]
    rw [both]
    exact keeps.modifyChannel (fun channel _ => ⟨rfl, ⟨rest, rfl, nothing⟩, none_left⟩)

/-- A request is written and its reply is read. -/
theorem exists_exchange (wired : c.links[id]? = some wiring) (used : wiring.link = inUse party)
    (rests : c.Rests stream station) {post : Station} (stands : c.stations[station]? = some post)
    (attached : post.attached = some member) (asks : Framed post.maxFrame request)
    (answers : Framed wiring.options.maxFrame reply)
    (serves : dispatch (service caller member) (now + c.latency) request (c.setAlarm id (deadline.alarm now)) =
      (served, .after delay reply))
    (keeps : c.Keeps served) (inTime : occasion.tooLate deadline now (now + c.roundTrip + delay) = false) :
    ∃ later, c.follow caller id party deadline request (.writing stream) now =
        later.follow caller id party deadline request (.storing stream reply) (now + c.roundTrip + delay) ∧
      c.Keeps later ∧ later.members = served.members := by
  obtain ⟨replied, channel, written, links, members, arrives, ready, ⟨earlier, nothing, came⟩, keepsThen⟩ :=
    exists_written deadline wired used rests stands attached asks serves keeps
  obtain ⟨left, none_left, got⟩ := nothing.read_frame answers
  rw [← came] at got
  have linked : replied.links[id]? = some wiring := by
    rw [links]
    exact wired
  have linkedLast : (replied.modifyChannel stream (fun channel => { channel with arrived := left })).links[id]? =
      some wiring := linked
  have receives : wiring.link.advance party (.reading stream) (.received reply) =
      some ⟨wiring.link, .storing stream reply, none⟩ := by
    rw [used]
    rfl
  have soon : now ≤ now + c.roundTrip + delay := Nat.le_trans (Nat.le_add_right now _) (Nat.le_add_right _ delay)
  have reading := occasion_reading id caller party request arrives ready soon inTime got
  refine ⟨_, ?_, keepsThen left none_left, members⟩
  rw [written, follow_of_advance rfl linked reading linkedLast receives rfl, withLink_self linkedLast]

variable (deadline) in
/-- A call on a link that leads to a member brings the reply of the member if it comes in
    time, and changes what the member does to answer it. -/
theorem exists_follow {groups : MemberId → Option Holding} (leads : c.Leads id member requests replies)
    (asks : Framed requests request) (answers : Framed replies reply)
    (serves : dispatch (service caller member) (now + c.latency) request
      (c.lent id party (deadline.alarm now)) = (served, .after delay reply))
    (becomes : (c.lent id party (deadline.alarm now)).Becomes name groups served)
    (inTime : occasion.tooLate deadline now (now + c.roundTrip + delay) = false) :
    ∃ later, c.follow caller id party deadline request .entering now =
        (later, some (now + c.roundTrip + delay, .replied reply)) ∧ c.Becomes name groups later := by
  obtain @⟨wiring, stream, station, post, wired, idle, rests, stands, attached, rfl, rfl⟩ := leads
  obtain ⟨later, exchanged, keeps, members⟩ := exists_exchange (getElem?_withLink wired (inUse party)) rfl rests stands
    attached asks answers serves ((keeps_setAlarm _ id _).trans becomes.keeps) inTime
  have still : later.links[id]? = some { wiring with link := inUse party } := by
    rw [keeps.links]
    exact getElem?_withLink wired (inUse party)
  have back : (later.withLink id (.around stream)).links = c.links := by
    have again : (later.withLink id (.around stream)).links =
        ((c.withLink id (inUse party)).withLink id (.around stream)).links := by
      simp only [withLink, keeps.links]
    rw [again, withLink_withLink, ← idle, withLink_self wired]
  refine ⟨later.withLink id (.around stream), ?_, ⟨?_, back, ?_, ?_, ?_, ?_⟩, ?_⟩
  · rw [follow_entering wired idle, exchanged]
    exact follow_storing still rfl
  · exact keeps.latency
  · exact keeps.stations
  · exact keeps.size
  · exact keeps.pools
  · exact keeps.rests
  · exact (holdings_congr members name).trans becomes.holdings

end Cluster

end RingCache
