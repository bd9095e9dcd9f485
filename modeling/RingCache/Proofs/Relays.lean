import Mathlib.Logic.Relation
import RingCache.Proofs.LinkSteps
import RingCache.Proofs.Ways

/-!
# Relays of a get

A get that is forwarded from member to member, step by step. Each member on the way works
on a get of its own, which serves the request of the one before it, and makes one call at
most (`Leg`). Messages take any time, and a call may break at any time, or be given up once
an alarm has rung; it lets its link go then, and a call that waits for that link goes on
(`Relay.Step`). A relay that keeps to a way is `Relay.Sound`.
-/
namespace RingCache

/-- The deadline of a get or of a removal. -/
def Flight.deadline : Flight → Deadline
  | .get g => g.deadline
  | .removal r => r.deadline

/-- What has become of the request of a call. -/
inductive Fate where
  | unwritten
  /-- It is on its way on a stream. -/
  | underway (stream : StreamId)
  /-- A get serves it. -/
  | taken
  /-- It was answered at once. -/
  | answered (reply : Message)
deriving DecidableEq, Repr

/-- A call that sends a letter: when its alarm goes off, if it has one, where it stands on
    its link, and what has become of its request. -/
structure Inquiry where
  letter : Letter
  alarm : Option Time
  stage : Stage
  fate : Fate

/-- A get on the way: the request that it serves, unless it is the first one, when the server
    stops to wait for it, if it does, and its call, once it asks a peer. -/
structure Leg where
  job : Job
  request : Option KeyRequest
  alarm : Option Time
  call : Option Inquiry

/-- A get and those that it leads to, each of them at the member that the one before it has
    asked; and all requests that were written so far. -/
structure Relay where
  now : Time
  cluster : Cluster
  legs : List Leg
  sent : List Letter

/-- What a server replies for a get: what it came to, or that its time is over. A server that
    stops to wait has given up the call of the get before it replies. -/
inductive Leg.Replies (now : Time) (leg : Leg) : Message → Prop where
  | settled {request : KeyRequest} {result : Except Failure Bytes} (serves : leg.request = some request)
      (finished : leg.job.value? = some result) : Replies now leg (retrieveReply request result)
  | late {request : KeyRequest} (serves : leg.request = some request) (rings : leg.alarm.any (· ≤ now) = true)
      (begun : leg.job.flight.begins = 0) (idle : ∀ call ∈ leg.call, call.stage.conclusion? ≠ none) :
      Replies now leg (retrieveReply request (.error .timeout))

namespace Relay

/-- A get begins at a member. -/
def start (c : Cluster) (origin : MemberId) (name : String) (now : Time) (deadline : Deadline) (key : String) : Relay where
  now
  cluster := c
  legs := [⟨⟨origin, name, .startGet now deadline key⟩, none, none, none⟩]
  sent := []

/-- The relay with another leg in a place, and another cluster. -/
def put (relay : Relay) (place : Nat) (leg : Leg) (cluster : Cluster) : Relay where
  now := relay.now
  cluster
  legs := relay.legs.set place leg
  sent := relay.sent

/-- What the call of a leg may meet besides a new stream and the end of its request. A link
    may fail at any time, and a call is given up only after its own alarm has rung, or that of
    the server which waits for its get. A reply is that of the member which was asked. -/
inductive Meets (relay : Relay) (place : Nat) (leg : Leg) (call : Inquiry) : Event → Prop where
  | go : Meets relay place leg call .go
  | failed (failure : Failure) : Meets relay place leg call (.failed failure)
  | ended : Meets relay place leg call .ended
  | cancelled (rings : call.alarm.any (· ≤ relay.now) = true ∨ leg.alarm.any (· ≤ relay.now) = true) :
      Meets relay place leg call .cancelled
  | answered {reply : Message} (answered : call.fate = .answered reply) : Meets relay place leg call (.received reply)
  | served {serving : Leg} {reply : Message} (taken : call.fate = .taken)
      (follows : relay.legs[place + 1]? = some serving) (replies : serving.Replies relay.now reply) :
      Meets relay place leg call (.received reply)

/-- The leg with its call at another stage. -/
def calling (leg : Leg) (call : Inquiry) (stage : Stage) : Leg :=
  { leg with call := some { call with stage } }

/-- A step of a get: time goes by; a get goes on alone or begins its call; the call takes a
    step on its link, as the party that the place of its leg makes it; it has dialed or has
    written its request; the member behind the link takes the request, and starts a get or
    answers; or the get takes what its call came to. -/
inductive Step : Relay → Relay → Prop where
  | passes (relay : Relay) (span : Time) : Step relay { relay with now := relay.now + span }
  | proceeds {relay : Relay} {place : Nat} {leg : Leg} {due : Time} {c : Cluster} {job : Job}
      (stands : relay.legs[place]? = some leg) (wakes : leg.job.flight.wake = some due) (comes : due ≤ relay.now)
      (alone : relay.cluster.letter? relay.now leg.job = none)
      (goes : relay.cluster.proceed Cluster.uncalled relay.now leg.job = (c, job)) :
      Step relay (relay.put place { leg with job } c)
  | calls {relay : Relay} {place : Nat} {leg : Leg} {letter : Letter} {c : Cluster} {job : Job}
      (stands : relay.legs[place]? = some leg) (uncalled : leg.call = none)
      (asks : relay.cluster.letter? relay.now leg.job = some letter) (goes : relay.cluster.proceed Cluster.uncalled relay.now leg.job = (c, job)) :
      Step relay (relay.put place { leg with
        job, call := some ⟨letter, leg.job.flight.deadline.alarm relay.now, .entering, .unwritten⟩ } c)
  | acts {relay : Relay} {place : Nat} {leg : Leg} {call : Inquiry} {wiring : Wiring} {event : Event} {step : LinkStep}
      (stands : relay.legs[place]? = some leg) (asking : leg.call = some call) (meets : relay.Meets place leg call event)
      (wired : relay.cluster.links[call.letter.peer.id]? = some wiring)
      (advanced : wiring.link.advance (place + 1) call.stage event = some step) :
      Step relay (relay.put place (calling leg call step.stage) (relay.cluster.stepped call.letter.peer.id step))
  | dials {relay : Relay} {place : Nat} {leg : Leg} {call : Inquiry} {wiring : Wiring} {c : Cluster} {stream : StreamId}
      {step : LinkStep} (stands : relay.legs[place]? = some leg) (asking : leg.call = some call)
      (wired : relay.cluster.links[call.letter.peer.id]? = some wiring)
      (dialed : relay.cluster.dial wiring.address wiring.options = .ok (c, stream))
      (advanced : wiring.link.advance (place + 1) call.stage (.dialed stream) = some step) :
      Step relay (relay.put place (calling leg call step.stage) (c.stepped call.letter.peer.id step))
  | writes {relay : Relay} {place : Nat} {leg : Leg} {call : Inquiry} {wiring : Wiring} {stream : StreamId}
      {step : LinkStep} (stands : relay.legs[place]? = some leg) (asking : leg.call = some call)
      (writing : call.stage = .writing stream) (wired : relay.cluster.links[call.letter.peer.id]? = some wiring)
      (advanced : wiring.link.advance (place + 1) call.stage .written = some step) :
      Step relay { relay.put place (calling leg { call with fate := .underway stream } step.stage)
        (relay.cluster.stepped call.letter.peer.id step) with sent := relay.sent ++ [call.letter] }
  | arrives {relay : Relay} {place : Nat} {leg : Leg} {call : Inquiry} {stream : StreamId} {channel : Channel}
      {member : MemberId} {c : Cluster} {request : KeyRequest} {job : Job} (stands : relay.legs[place]? = some leg)
      (last : relay.legs.length = place + 1) (asking : leg.call = some call) (underway : call.fate = .underway stream)
      (opened : relay.cluster.channels[stream]? = some channel)
      (attached : relay.cluster.attachedTo channel.station = some member)
      (starts : relay.cluster.accept Cluster.uncalled member relay.now call.letter.message =
        (c, .started request job)) :
      Step relay { relay with
        cluster := c
        legs := relay.legs.set place { leg with call := some { call with fate := .taken } } ++
          [⟨job, some request, job.flight.deadline.alarm relay.now, none⟩] }
  | answers {relay : Relay} {place : Nat} {leg : Leg} {call : Inquiry} {stream : StreamId} {channel : Channel}
      {member : MemberId} {c : Cluster} {delay : Time} {reply : Message} (stands : relay.legs[place]? = some leg)
      (asking : leg.call = some call) (underway : call.fate = .underway stream)
      (opened : relay.cluster.channels[stream]? = some channel)
      (attached : relay.cluster.attachedTo channel.station = some member)
      (answered : relay.cluster.accept Cluster.uncalled member relay.now call.letter.message =
        (c, .answered (.after delay reply))) :
      Step relay (relay.put place { leg with call := some { call with fate := .answered reply } } c)
  | hears {relay : Relay} {place : Nat} {leg : Leg} {call : Inquiry} {conclusion : Conclusion}
      {result : Except Failure Message} {get : Get} (stands : relay.legs[place]? = some leg)
      (asking : leg.call = some call) (concluded : call.stage.conclusion? = some conclusion)
      (brings : conclusion.result? = some result) (waits : leg.job.flight = .get { get with stage := .asking none }) :
      Step relay (relay.put place { leg with job := { leg.job with flight := .get { get with
        stage := .asking (some (relay.now, Exchange.value call.letter.peer.address get.key result)) } } } relay.cluster)

/-- Any steps. -/
def Run : Relay → Relay → Prop := Relation.ReflTransGen Step

/-- No call of the relay has failed. -/
def Unbroken (relay : Relay) : Prop :=
  ∀ leg ∈ relay.legs, ∀ call ∈ leg.call, ∀ failure, call.stage ≠ .finished (.failed failure)
end Relay

theorem Stage.eq_finished {stage : Stage} {conclusion : Conclusion} (concluded : stage.conclusion? = some conclusion) :
    stage = .finished conclusion := by
  cases stage <;> first | cases concluded; rfl | cases concluded

/-! ## The call of a leg on its link -/

/-- How a link around a stream looks while the call of a party on it stands at a stage, or has
    not begun. A call that has had its reply or has failed may have left it in any state. -/
def Link.Fits (link : Link) (stream : StreamId) (party : PartyId) : Option Stage → Prop
  | none | some .entering => link = .around stream
  | some .waiting => link = { Link.around stream with lock := ⟨some party, []⟩ }
  | some (.writing used) | some (.reading used) => used = stream ∧ link.lock.holder = some party
  | some .dialing => False
  | some _ => True

namespace Link

variable {link : Link} {stream : StreamId} {party : PartyId} {stage : Stage} {event : Event} {step : LinkStep}

theorem Fits.advance (fits : link.Fits stream party (some stage)) (advances : link.Advances party stage event step) :
    step.link.Fits stream party (some step.stage) := by
  cases advances with
  | request isOpen =>
    obtain rfl : link = .around stream := fits
    rfl
  | take used held isOpen kept =>
    obtain rfl : link = { Link.around stream with lock := ⟨some party, []⟩ } := fits
    cases kept
    exact ⟨rfl, rfl⟩
  | redial held isOpen vacant =>
    obtain rfl : link = { Link.around stream with lock := ⟨some party, []⟩ } := fits
    cases vacant
  | dial => exact fits.elim
  | write => exact fits
  | refuse | turnAway | withdraw | receive | giveUp | store | unlock | finish | notice | closeAgain => trivial
  | close | sweep | leave | clear => trivial

/-- A call that has not had a reply fails, if it does not go on to have one. -/
theorem Advances.fails_or_waits (advances : link.Advances party stage event step) (waits : 6 ≤ stage.rank)
    (unanswered : ∀ reply, event ≠ .received reply) :
    (∃ failure, step.stage = .finished (.failed failure)) ∨ 6 ≤ step.stage.rank := by
  cases advances with
  | receive stream reply => exact absurd rfl (unanswered reply)
  | refuse | turnAway | withdraw | giveUp => exact .inl ⟨_, rfl⟩
  | request | take | redial | dial | write => exact .inr (by simp [Stage.rank])
  | store | unlock | finish | notice | closeAgain | close | sweep | leave | clear => simp [Stage.rank] at waits

end Link

/-! ## What holds of a relay -/

/-- What holds of the call of a leg at a member in a place of a way. -/
structure Inquiry.Stands (c : Cluster) (name key : String) (path : List MemberId) (circles : Bool) (place : Nat)
    (member : MemberId) (call : Inquiry) : Prop where
  asks : c.forward name key member = some call.letter.peer
  request : ∃ budget, call.letter.message = .retrieve ⟨name, key, budget⟩
  unwritten : 7 ≤ call.stage.rank → call.fate = .unwritten
  underway : ∀ stream, call.fate = .underway stream →
    ∃ wiring, c.links[call.letter.peer.id]? = some wiring ∧ wiring.link = .around stream
  last : path.length = place + 1 → circles = true ∧ (call.stage = .entering ∨ call.stage = .waiting)
  waits : circles = true → 6 ≤ call.stage.rank
  unanswered : circles = true → ∀ reply, call.fate ≠ .answered reply

/-- What holds of a leg in a place of a way. -/
structure Leg.Stands (c : Cluster) (name key : String) (path : List MemberId) (circles : Bool) (place : Nat)
    (leg : Leg) : Prop where
  member : path[place]? = some leg.job.member
  holds : (c.holding? leg.job.member name).isSome
  group : leg.job.name = name
  get : ∃ deadline stage, leg.job.flight = .get ⟨key, deadline, stage⟩
  fresh : leg.job.flight.begins = 1 → leg.call = none
  calls : ∀ call ∈ leg.call, call.Stands c name key path circles place leg.job.member
  pends : circles = true → leg.job.flight.pends = true
  begun : circles = true → leg.job.flight.begins = 0 → leg.call ≠ none

/-- The letter that a leg has sent. -/
def Leg.sent? (leg : Leg) : Option Letter :=
  leg.call.bind (fun call => if call.fate = .unwritten then none else some call.letter)

/-- The last call of a way does not write its request. -/
theorem Inquiry.Stands.unwritten_of_last {c : Cluster} {name key : String} {path : List MemberId} {circles : Bool}
    {place : Nat} {member : MemberId} {call : Inquiry} (stands : call.Stands c name key path circles place member)
    (last : path.length = place + 1) : call.fate = .unwritten := by
  obtain ⟨_, enters | waits⟩ := stands.last last
  · exact stands.unwritten (by rw [enters]; simp [Stage.rank])
  · exact stands.unwritten (by rw [waits]; simp [Stage.rank])

/-- A call that holds its link is not the last one of a way. -/
theorem Inquiry.Stands.inside {c : Cluster} {name key : String} {path : List MemberId} {circles : Bool} {place : Nat}
    {member : MemberId} {call : Inquiry} (stands : call.Stands c name key path circles place member)
    (past : call.stage.rank < 9) : path.length ≠ place + 1 := by
  intro last
  obtain ⟨_, enters | waits⟩ := stands.last last
  · rw [enters] at past
    simp [Stage.rank] at past
  · rw [waits] at past
    simp [Stage.rank] at past

/-- A leg whose request was taken on a way that comes back waits for its reply. -/
theorem Inquiry.Stands.reads_of_taken {c : Cluster} {name key : String} {path : List MemberId} {circles : Bool}
    {place : Nat} {member : MemberId} {call : Inquiry} (stands : call.Stands c name key path circles place member)
    (back : circles = true) (taken : call.fate = .taken) : ∃ stream, call.stage = .reading stream := by
  have early := stands.waits back
  have written : ¬ 7 ≤ call.stage.rank := by
    intro unwritten
    rw [stands.unwritten unwritten] at taken
    cases taken
  cases stage : call.stage with
  | reading stream => exact ⟨stream, rfl⟩
  | _ =>
    rw [stage] at early written
    simp [Stage.rank] at early written

/-- What holds of a call after a step on its link, which on a way that comes back is neither
    the last one nor that of a reply. -/
theorem Inquiry.Stands.advance {c : Cluster} {name key : String} {path : List MemberId} {circles : Bool} {place : Nat}
    {member : MemberId} {call : Inquiry} {link : Link} {event : Event} {step : LinkStep}
    (stands : call.Stands c name key path circles place member)
    (advanced : link.advance (place + 1) call.stage event = some step)
    (unanswered : circles = true → ∀ reply, event ≠ .received reply)
    (unbroken : circles = true → ∀ failure, step.stage ≠ .finished (.failed failure))
    (kept : path.length = place + 1 → link.lock.holder ≠ some (place + 1)) :
    Inquiry.Stands c name key path circles place member { call with stage := step.stage } where
  asks := stands.asks
  request := stands.request
  unwritten early := stands.unwritten (Nat.le_trans early (Nat.le_of_lt (Link.rank_advance_lt advanced)))
  underway := stands.underway
  last last := by
    obtain ⟨back, early⟩ := stands.last last
    refine ⟨back, .inr ?_⟩
    have fails := unbroken back
    have absent := kept last
    have advances := Link.advances_of_advance advanced
    rcases early with enters | waits
    · rw [enters] at advances
      cases advances with
      | refuse => exact absurd rfl (fails _)
      | request => rfl
      | giveUp _ _ exchanging => cases exchanging
    · rw [waits] at advances
      cases advances with
      | turnAway held | take _ held | redial held => exact absurd held absent
      | withdraw => exact absurd rfl (fails _)
      | giveUp _ _ exchanging => cases exchanging
  waits back := by
    have advances := Link.advances_of_advance advanced
    obtain ⟨failure, fails⟩ | waits := advances.fails_or_waits (stands.waits back) (unanswered back)
    · exact absurd fails (unbroken back failure)
    · exact waits
  unanswered := stands.unanswered

namespace Leg.Stands

variable {c later cluster : Cluster} {name key : String} {path : List MemberId} {circles : Bool} {place : Nat} {leg : Leg}
variable {now due : Time} {job : Job} {letter : Letter}

/-- What a get does that goes on without a call. -/
theorem proceeds (stands : leg.Stands c name key path circles place) (wakes : leg.job.flight.wake = some due)
    (alone : later.letter? now leg.job = none) (goes : later.proceed Cluster.uncalled now leg.job = (cluster, job)) :
    later.Confined leg.job.member name cluster ∧ later.Uncounted cluster ∧
      ∃ deadline stage, job = ⟨leg.job.member, name, .get ⟨key, deadline, stage⟩⟩ ∧
        (Flight.get ⟨key, deadline, stage⟩).pends = false := by
  have uncounted := @Cluster.uncounted_proceed later now leg.job .never
  obtain ⟨⟨member, own, flight⟩, request, alarm, call⟩ := leg
  obtain rfl : own = name := stands.group
  obtain ⟨deadline, stage, rfl⟩ : ∃ deadline stage, flight = .get ⟨key, deadline, stage⟩ := stands.get
  obtain ⟨confined, after, becomes, settled⟩ := Cluster.proceed_of_alone wakes alone
  have left : (later.proceed Cluster.uncalled now ⟨member, own, .get ⟨key, deadline, stage⟩⟩).1 = cluster :=
    congrArg Prod.fst goes
  rw [left] at confined
  refine ⟨confined, left ▸ uncounted, deadline, after, ?_, settled⟩
  rw [← becomes, goes]

/-- What a get does that asks a peer. -/
theorem asks_peer (stands : leg.Stands c name key path circles place) (asks : later.letter? now leg.job = some letter)
    (goes : later.proceed Cluster.uncalled now leg.job = (cluster, job)) :
    later.Confined leg.job.member name cluster ∧ later.Uncounted cluster ∧
      (∀ id, (cluster.groupAt id name).store = (later.groupAt id name).store) ∧ ∃ deadline start,
        leg.job = ⟨leg.job.member, name, .get ⟨key, deadline, .fresh start⟩⟩ ∧
          job = ⟨leg.job.member, name, .get ⟨key, deadline, .asking none⟩⟩ := by
  obtain ⟨⟨member, own, flight⟩, request, alarm, call⟩ := leg
  obtain rfl : own = name := stands.group
  obtain ⟨deadline, stage, rfl⟩ : ∃ deadline stage, flight = .get ⟨key, deadline, stage⟩ := stands.get
  obtain ⟨⟨start, begins⟩, done⟩ := Cluster.proceed_of_letter asks
  obtain rfl : stage = .fresh start := begins
  obtain ⟨rfl, rfl⟩ := Prod.mk.inj (goes.symm.trans done)
  have confined : later.Confined member own
      (later.modifyGroup member own (fun _ => ((later.groupAt member own).lookup key).1)) :=
    Cluster.confined_modifyGroup (Group.name_lookup _ key)
  refine ⟨confined, Cluster.uncounted_modifyGroup (Group.serverRequests_lookup _ key), ?_, deadline, start, rfl, rfl⟩
  apply Cluster.store_modifyHolding
  intro holding held
  simp only [Cluster.groupAt, held]
  exact Group.store_lookup holding.group key

/-- The hop of a call that is not that of the last leg. -/
theorem exists_hop (stands : leg.Stands c name key path circles place) (way : c.Way name key path circles)
    {call : Inquiry} (called : call.Stands c name key path circles place leg.job.member)
    (inside : path.length ≠ place + 1) :
    ∃ wiring stream member, c.Hop name key path place call.letter.peer wiring stream member := by
  have short := (List.getElem?_eq_some_iff.mp stands.member).1
  have more : place + 1 < path.length := by omega
  obtain ⟨peer, wiring, stream, hop⟩ := way.hops stands.member (List.getElem?_eq_getElem more)
  cases Option.some.inj ((hop.forward stands.member).symm.trans called.asks)
  exact ⟨wiring, stream, _, hop⟩

end Leg.Stands

namespace Relay

/-- Where the call of the leg in a place stands. -/
def stageAt (relay : Relay) (place : Nat) : Option Stage :=
  (relay.legs[place]?.bind Leg.call).map Inquiry.stage

/-- A relay on a way. All its gets but the last have been asked for by the one before. The
    store of a member is as at the start while its gets wait for a call, and a link of the way
    is in the state in which the call of its place has brought it. -/
structure Sound (c : Cluster) (name key : String) (path : List MemberId) (circles : Bool) (relay : Relay) : Prop where
  steady : c.Steady name relay.cluster
  stores : ∀ id, (∀ leg ∈ relay.legs, leg.job.member = id → leg.job.flight.pends = true) →
    (relay.cluster.groupAt id name).store.find? key = (c.groupAt id name).store.find? key
  counts : ∀ id, (c.holding? id name).isSome →
    relay.cluster.requestsAt name id = c.requestsAt name id + (relay.legs.map (·.job.member)).tail.count id
  begun : relay.legs ≠ []
  stands : ∀ (place : Nat) (leg : Leg), relay.legs[place]? = some leg → leg.Stands c name key path circles place
  chained : ∀ (place : Nat) (leg : Leg), relay.legs[place]? = some leg → place + 1 < relay.legs.length →
    ∃ call, leg.call = some call ∧ call.fate = .taken
  links : ∀ {place peer wiring stream next}, c.Hop name key path place peer wiring stream next →
    ∃ link, relay.cluster.links[peer.id]? = some { wiring with link } ∧
      link.Fits stream (place + 1) (relay.stageAt place)
  sent : ∀ place : Nat, relay.sent[place]? = relay.legs[place]?.bind Leg.sent?

variable {c cluster : Cluster} {name key : String} {path : List MemberId} {circles : Bool} {relay next : Relay}
variable {place : Nat} {leg after : Leg} {origin : MemberId} {now : Time} {deadline : Deadline}

theorem sound_start (held : (c.holding? origin name).isSome) (begins : path[0]? = some origin) :
    (start c origin name now deadline key).Sound c name key path circles where
  steady := .refl c name
  stores _ _ := rfl
  counts id held := by simp [start]
  begun := by simp [start]
  stands place leg stands := by
    match place with
    | 0 =>
      cases stands
      refine ⟨begins, held, rfl, ⟨_, _, rfl⟩, fun _ => rfl, ?_, fun _ => rfl, fun _ zero => absurd zero Nat.one_ne_zero⟩
      intro call called
      cases called
    | _ + 1 => cases stands
  chained place leg stands more := by
    simp [start] at more
  links := by
    intro place peer wiring stream next hop
    refine ⟨wiring.link, hop.wired, ?_⟩
    have idle : (start c origin name now deadline key).stageAt place = none := by
      cases place <;> rfl
    rw [idle]
    exact hop.idle
  sent place := by
    cases place <;> rfl

theorem map_set_of_same {legs : List Leg} (at_place : legs[place]? = some leg)
    (same : after.job.member = leg.job.member) :
    (legs.set place after).map (·.job.member) = legs.map (·.job.member) := by
  apply List.ext_getElem?
  intro other
  rw [List.getElem?_map, List.getElem?_map, List.getElem?_set]
  split
  next here =>
    subst here
    rw [at_place, if_pos (List.getElem?_eq_some_iff.mp at_place).1]
    exact congrArg some same
  next => rfl

/-- Another leg in a place, of the same get, and what that asks of the cluster. -/
theorem Sound.put (sound : relay.Sound c name key path circles) (at_place : relay.legs[place]? = some leg)
    (same : after.job.member = leg.job.member) (stands : after.Stands c name key path circles place)
    (chained : place + 1 < relay.legs.length → ∃ call, after.call = some call ∧ call.fate = .taken)
    (steady : relay.cluster.Steady name cluster)
    (counts : ∀ id, cluster.requestsAt name id = relay.cluster.requestsAt name id)
    (stores : ∀ id, (id = leg.job.member → after.job.flight.pends = true) →
      (id = leg.job.member → leg.job.flight.pends = true) ∧
        (cluster.groupAt id name).store.find? key = (relay.cluster.groupAt id name).store.find? key)
    (links : ∀ {other peer wiring stream next} {link : Link}, c.Hop name key path other peer wiring stream next →
      relay.cluster.links[peer.id]? = some { wiring with link } → link.Fits stream (other + 1) (relay.stageAt other) →
      ∃ link : Link, cluster.links[peer.id]? = some { wiring with link } ∧
        link.Fits stream (other + 1) (if other = place then after.call.map Inquiry.stage else relay.stageAt other))
    {sent : List Letter} (letters : ∀ other : Nat, sent[other]? = if other = place then after.sent? else relay.sent[other]?) :
    Sound c name key path circles ⟨relay.now, cluster, relay.legs.set place after, sent⟩ := by
  have inside := (List.getElem?_eq_some_iff.mp at_place).1
  have here : (relay.legs.set place after)[place]? = some after := by
    rw [List.getElem?_set_self inside]
  have elsewhere {other : Nat} (apart : other ≠ place) : (relay.legs.set place after)[other]? = relay.legs[other]? :=
    List.getElem?_set_ne (Ne.symm apart)
  -- Of each field, the place of the new leg first, and the other places as they were.
  refine ⟨sound.steady.trans steady, ?_, ?_, ?_, ?_, ?_, ?_, ?_⟩
  · intro id pend
    have mine : id = leg.job.member → after.job.flight.pends = true := by
      rintro rfl
      exact pend after (List.mem_of_getElem? here) same
    obtain ⟨before, unchanged⟩ := stores id mine
    refine unchanged.trans (sound.stores id ?_)
    intro other listed owned
    obtain ⟨at_other, stood⟩ := List.mem_iff_getElem?.mp listed
    by_cases own : at_other = place
    · rw [own, at_place] at stood
      cases stood
      exact before owned.symm
    · exact pend other (List.mem_of_getElem? ((elsewhere own).trans stood)) owned
  · intro id held
    dsimp only
    rw [counts, sound.counts id held, map_set_of_same at_place same]
  · simpa using sound.begun
  · intro other standing stood
    by_cases own : other = place
    · subst own
      cases here.symm.trans stood
      exact stands
    · exact sound.stands other standing ((elsewhere own).symm.trans stood)
  · intro other standing stood more
    rw [List.length_set] at more
    by_cases own : other = place
    · subst own
      cases here.symm.trans stood
      exact chained more
    · exact sound.chained other standing ((elsewhere own).symm.trans stood) more
  · intro other peer wiring stream next hop
    obtain ⟨link, wired, fits⟩ := sound.links hop
    obtain ⟨link, wired, fits⟩ := links hop wired fits
    refine ⟨link, wired, ?_⟩
    rw [stageAt]
    split at fits
    next own =>
      subst own
      rw [here]
      exact fits
    next own =>
      rw [elsewhere own]
      exact fits
  · intro other
    rw [letters]
    by_cases own : other = place
    · rw [if_pos own, own]
      exact (congrArg (Option.bind · Leg.sent?) here).symm
    · rw [if_neg own, sound.sent other]
      exact (congrArg (Option.bind · Leg.sent?) (elsewhere own)).symm

theorem stageAt_eq (at_place : relay.legs[place]? = some leg) : relay.stageAt place = leg.call.map Inquiry.stage := by
  rw [stageAt, at_place]
  rfl

/-- Another leg in a place that changes no link. -/
theorem Sound.put_quietly (sound : relay.Sound c name key path circles) (at_place : relay.legs[place]? = some leg)
    (same : after.job.member = leg.job.member) (stands : after.Stands c name key path circles place)
    (chained : place + 1 < relay.legs.length → ∃ call, after.call = some call ∧ call.fate = .taken)
    (steady : relay.cluster.Steady name cluster)
    (counts : ∀ id, cluster.requestsAt name id = relay.cluster.requestsAt name id)
    (stores : ∀ id, (id = leg.job.member → after.job.flight.pends = true) →
      (id = leg.job.member → leg.job.flight.pends = true) ∧
        (cluster.groupAt id name).store.find? key = (relay.cluster.groupAt id name).store.find? key)
    (links : cluster.links = relay.cluster.links)
    (fits : ∀ (link : Link) stream, link.Fits stream (place + 1) (leg.call.map Inquiry.stage) →
      link.Fits stream (place + 1) (after.call.map Inquiry.stage))
    (letters : after.sent? = leg.sent?) : (relay.put place after cluster).Sound c name key path circles := by
  apply sound.put at_place same stands chained steady counts stores
  · intro other peer wiring stream next link hop wired fitted
    refine ⟨link, by rwa [links], ?_⟩
    split
    next own =>
      subst own
      rw [stageAt_eq at_place] at fitted
      exact fits link stream fitted
    next => exact fitted
  · intro other
    split
    next own => rw [own, sound.sent, at_place, letters, Option.bind_some]
    next => rfl

/-- A get on a way that does not come back goes on, past its call if it has made one. -/
theorem Sound.works {job : Job} (sound : relay.Sound c name key path circles) (at_place : relay.legs[place]? = some leg)
    (straight : circles = false)
    (becomes : ∃ deadline stage, job = ⟨leg.job.member, name, .get ⟨key, deadline, stage⟩⟩)
    (settled : job.flight.pends = false) (steady : relay.cluster.Steady name cluster)
    (links : cluster.links = relay.cluster.links)
    (counts : ∀ id, cluster.requestsAt name id = relay.cluster.requestsAt name id)
    (stores : ∀ id, id ≠ leg.job.member →
      (cluster.groupAt id name).store.find? key = (relay.cluster.groupAt id name).store.find? key) :
    (relay.put place { leg with job } cluster).Sound c name key path circles := by
  have stands := sound.stands place leg at_place
  obtain ⟨deadline, stage, rfl⟩ := becomes
  apply sound.put_quietly at_place
  · rfl
  · refine ⟨stands.member, stands.holds, rfl, ⟨deadline, stage, rfl⟩, ?_, stands.calls, ?_, ?_⟩
    · intro fresh
      cases stage with
      | fresh => cases settled
      | asking | loading | finished => cases fresh
    · rw [straight]
      intro back
      cases back
    · rw [straight]
      intro back
      cases back
  · exact sound.chained place leg at_place
  · exact steady
  · exact counts
  · intro id pends
    have apart : id ≠ leg.job.member := by
      intro here
      rw [pends here] at settled
      cases settled
    exact ⟨fun here => absurd here apart, stores id apart⟩
  · exact links
  · exact fun _ _ fits => fits
  · rfl

end Relay

end RingCache
