import RingCache.Proofs.Relays

/-!
# Steps of a relay

A relay keeps to the way of its get, whatever the deadline and however long messages take,
step by step (`Relay.Sound.step`) and so all the time (`Relay.Sound.run`). If the way comes
back, this holds as long as no call has failed: then all gets wait, the last one for a link
that an earlier call of the relay holds.
-/
namespace RingCache.Relay

variable {c cluster : Cluster} {name key : String} {path : List MemberId} {circles : Bool} {relay next : Relay}
variable {place : Nat} {leg after : Leg} {origin : MemberId} {now : Time} {deadline : Deadline}

/-! ## Steps of a get -/

/-- All gets at the member of a get that waits for a call do so, and the member forwards as at
    the start. -/
theorem Sound.forward (sound : relay.Sound c name key path circles) (way : c.Way name key path circles)
    (at_place : relay.legs[place]? = some leg) (pends : leg.job.flight.pends = true) :
    relay.cluster.forward name key leg.job.member = c.forward name key leg.job.member := by
  apply sound.steady.forward (sound.stands place leg at_place).holds
  apply sound.stores
  intro other listed same
  obtain ⟨elsewhere, stood⟩ := List.mem_iff_getElem?.mp listed
  have stands := sound.stands elsewhere other stood
  cases straight : circles with
  | true => exact stands.pends straight
  | false =>
    have inside := (List.getElem?_eq_some_iff.mp stands.member).1
    have member := stands.member
    rw [same, ← (sound.stands place leg at_place).member] at member
    obtain rfl := (List.getElem?_inj inside (way.once straight)).mp member
    cases at_place.symm.trans stood
    exact pends

/-- On a way that comes back no get goes on alone. -/
theorem Sound.straight_of_alone (sound : relay.Sound c name key path circles) (way : c.Way name key path circles)
    {due : Time} (at_place : relay.legs[place]? = some leg) (wakes : leg.job.flight.wake = some due)
    (alone : relay.cluster.letter? relay.now leg.job = none) : circles = false := by
  rw [← Bool.not_eq_true]
  intro back
  have stands := sound.stands place leg at_place
  have pends := stands.pends back
  have same := sound.forward way at_place pends
  obtain ⟨peer, asks⟩ := way.exists_forward back stands.member
  obtain ⟨⟨member, own, flight⟩, request, alarm, call⟩ := leg
  obtain rfl : own = name := stands.group
  obtain ⟨deadline, stage, rfl⟩ : ∃ deadline stage, flight = .get ⟨key, deadline, stage⟩ := stands.get
  cases stage with
  | fresh start =>
    have held : (relay.cluster.holding? member own).isSome := by
      rw [sound.steady.holds]
      exact stands.holds
    rw [Cluster.letter?_fresh held, same, asks] at alone
    cases alone
  | asking answer =>
    cases answer with
    | none => cases wakes
    | some answer => cases pends
  | loading | finished => cases pends

theorem Sound.proceeds (sound : relay.Sound c name key path circles) (way : c.Way name key path circles) {due : Time}
    {job : Job} (at_place : relay.legs[place]? = some leg) (wakes : leg.job.flight.wake = some due)
    (alone : relay.cluster.letter? relay.now leg.job = none)
    (goes : relay.cluster.proceed Cluster.uncalled relay.now leg.job = (cluster, job)) :
    (relay.put place { leg with job } cluster).Sound c name key path circles := by
  have stands := sound.stands place leg at_place
  obtain ⟨confined, uncounted, deadline, stage, rfl, settled⟩ := stands.proceeds wakes alone goes
  apply sound.works at_place (sound.straight_of_alone way at_place wakes alone) ⟨deadline, stage, rfl⟩ settled
  · exact confined.steady uncounted.pools (fun id => uncounted.holds id name)
  · exact confined.links
  · exact fun id => uncounted.requests id name
  · intro id apart
    rw [confined.others id apart]

theorem Sound.calls (sound : relay.Sound c name key path circles) (way : c.Way name key path circles) {job : Job}
    {letter : Letter} {alarm : Option Time} (at_place : relay.legs[place]? = some leg)
    (asks : relay.cluster.letter? relay.now leg.job = some letter)
    (goes : relay.cluster.proceed Cluster.uncalled relay.now leg.job = (cluster, job)) :
    (relay.put place { leg with job, call := some ⟨letter, alarm, .entering, .unwritten⟩ } cluster).Sound c name key path
      circles := by
  have stands := sound.stands place leg at_place
  obtain ⟨confined, uncounted, stores, deadline, start, same, rfl⟩ := stands.asks_peer asks goes
  have pends : leg.job.flight.pends = true := by
    rw [same]
    rfl
  have uncalled : leg.call = none := stands.fresh (by rw [same]; rfl)
  have held : (relay.cluster.holding? leg.job.member name).isSome := by
    rw [sound.steady.holds]
    exact stands.holds
  rw [same, Cluster.letter?_fresh held, sound.forward way at_place pends] at asks
  obtain ⟨peer, forwards, rfl⟩ := Option.map_eq_some_iff.mp asks
  have named : (relay.cluster.groupAt leg.job.member name).name = name :=
    (sound.steady.named _).trans (way.named _)
  apply sound.put_quietly at_place
  · rfl
  · refine ⟨stands.member, stands.holds, rfl, ⟨deadline, _, rfl⟩, ?_, ?_, fun _ => rfl, ?_⟩
    · intro fresh
      cases fresh
    · intro call called
      cases called
      refine ⟨forwards, ⟨_, by rw [named]⟩, fun _ => rfl, ?_, ?_, fun _ => ?_, fun _ reply => ?_⟩
      · intro stream underway
        cases underway
      · intro last
        refine ⟨?_, .inl rfl⟩
        cases straight : circles with
        | true => rfl
        | false =>
          rw [way.ends straight stands.member last] at forwards
          cases forwards
      · simp [Stage.rank]
      · simp
    · simp
  · intro more
    obtain ⟨call, called, _⟩ := sound.chained place leg at_place more
    rw [uncalled] at called
    cases called
  · exact confined.steady uncounted.pools (fun id => uncounted.holds id name)
  · exact fun id => uncounted.requests id name
  · exact fun id _ => ⟨fun _ => pends, by rw [stores id]⟩
  · exact confined.links
  · intro link stream fits
    rw [uncalled] at fits
    exact fits
  · rw [Leg.sent?, Leg.sent?, uncalled]
    rfl

theorem Sound.hears (sound : relay.Sound c name key path circles) {call : Inquiry} {conclusion : Conclusion}
    {result : Except Failure Bytes} {get : Get} (at_place : relay.legs[place]? = some leg) (asking : leg.call = some call)
    (concluded : call.stage.conclusion? = some conclusion)
    (waits : leg.job.flight = .get { get with stage := .asking none }) :
    (relay.put place { leg with job := { leg.job with flight := .get { get with
      stage := .asking (some (now, result)) } } } relay.cluster).Sound c name key path circles := by
  have stands := sound.stands place leg at_place
  have straight : circles = false := by
    rw [← Bool.not_eq_true]
    intro back
    have early := (stands.calls call asking).waits back
    rw [Stage.eq_finished concluded] at early
    simp [Stage.rank] at early
  obtain ⟨deadline, stage, same⟩ := stands.get
  obtain rfl : get.key = key := by
    rw [waits] at same
    cases same
    rfl
  apply sound.works at_place straight
  · exact ⟨get.deadline, .asking (some (now, result)), by simp only [stands.group]⟩
  · rfl
  · exact .refl _ name
  · rfl
  · exact fun _ => rfl
  · exact fun _ _ => rfl

/-- On a way that comes back all calls but the last have sent their requests and wait. -/
theorem Sound.reads_before (sound : relay.Sound c name key path circles) (back : circles = true)
    (before : place + 1 < relay.legs.length) : ∃ stream, relay.stageAt place = some (.reading stream) := by
  have at_place := List.getElem?_eq_getElem (Nat.lt_of_succ_lt before)
  obtain ⟨call, asking, taken⟩ := sound.chained place _ at_place before
  obtain ⟨stream, reads⟩ := ((sound.stands place _ at_place).calls call asking).reads_of_taken back taken
  exact ⟨stream, by rw [stageAt_eq at_place, asking, Option.map_some, reads]⟩

/-- The last call of a way that comes back does not take its link away from the call that
    holds it. -/
theorem Sound.fits_of_last (sound : relay.Sound c name key path circles) (way : c.Way name key path circles)
    {call : Inquiry} {wire : Wiring} {event : Event} {step : LinkStep} {other : Nat} {peer : Peer} {stream : StreamId}
    {member : MemberId} {link : Link} (at_place : relay.legs[place]? = some leg)
    (called : call.Stands c name key path circles place leg.job.member) (apart : other ≠ place)
    (hop : c.Hop name key path other peer wire stream member) (same : call.letter.peer.id = peer.id)
    (fits : link.Fits stream (other + 1) (relay.stageAt other))
    (advances : link.Advances (place + 1) call.stage event step) :
    step.link.Fits stream (other + 1) (relay.stageAt other) := by
  -- All calls but that of the last member are on the links of their own places.
  have last : path.length = place + 1 := by
    by_contra inside
    obtain ⟨wiring, own, next, another⟩ := (sound.stands place leg at_place).exists_hop way called inside
    exact apart (way.apart hop another same.symm)
  obtain ⟨back, early⟩ := called.last last
  have before : other + 1 < path.length := (List.getElem?_eq_some_iff.mp hop.follows).1
  have inside := (List.getElem?_eq_some_iff.mp at_place).1
  obtain ⟨used, reads⟩ := sound.reads_before back (show other + 1 < relay.legs.length by omega)
  rw [reads] at fits ⊢
  obtain ⟨own, held⟩ := fits
  have another : other + 1 ≠ place + 1 := by omega
  refine ⟨own, advances.holder_of_other ?_ another held⟩
  rcases early with enters | waits
  · rw [enters]
    intro holds
    cases holds
  · rw [waits]
    intro holds
    cases holds

/-- The links of a way after a call has taken a step on its link. -/
theorem Sound.links_acted (sound : relay.Sound c name key path circles) (way : c.Way name key path circles)
    {call : Inquiry} {wiring wire : Wiring} {event : Event} {step : LinkStep} {other : Nat} {peer : Peer}
    {stream : StreamId} {member : MemberId} {link : Link} (at_place : relay.legs[place]? = some leg)
    (asking : leg.call = some call) (wired : relay.cluster.links[call.letter.peer.id]? = some wiring)
    (advances : wiring.link.Advances (place + 1) call.stage event step)
    (hop : c.Hop name key path other peer wire stream member)
    (joins : relay.cluster.links[peer.id]? = some { wire with link })
    (fits : link.Fits stream (other + 1) (relay.stageAt other)) :
    ∃ link : Link, (relay.cluster.stepped call.letter.peer.id step).links[peer.id]? = some { wire with link } ∧
      link.Fits stream (other + 1) (if other = place then some step.stage else relay.stageAt other) := by
  have stands := sound.stands place leg at_place
  have called := stands.calls call asking
  rw [Cluster.links_stepped, List.getElem?_modify, joins]
  by_cases same : call.letter.peer.id = peer.id
  · rw [same, joins] at wired
    cases wired
    refine ⟨step.link, by simp [same], ?_⟩
    split
    next own =>
      subst own
      rw [stageAt_eq at_place, asking] at fits
      exact fits.advance advances
    next own => exact sound.fits_of_last way at_place called own hop same fits advances
  · refine ⟨link, by simp [same], ?_⟩
    rw [if_neg]
    · exact fits
    · rintro rfl
      cases Option.some.inj ((hop.forward stands.member).symm.trans called.asks)
      exact same rfl

/-- A call of a way that comes back has no reply. -/
theorem Sound.no_reply (sound : relay.Sound c name key path circles) (back : circles = true) {call : Inquiry}
    {event : Event} (at_place : relay.legs[place]? = some leg) (asking : leg.call = some call)
    (meets : relay.Meets place leg call event) (reply : Message) : event ≠ .received reply := by
  rintro rfl
  have called := (sound.stands place leg at_place).calls call asking
  cases meets with
  | answered answered => exact called.unanswered back reply answered
  | @served serving _ taken follows replies =>
    have stands := sound.stands (place + 1) serving follows
    cases replies with
    | @settled request result serves finished =>
      obtain ⟨deadline, stage, same⟩ := stands.get
      have pends := stands.pends back
      rw [same] at pends
      rw [Job.value?, same] at finished
      cases stage with
      | finished => cases pends
      | fresh | asking | loading => cases finished
    | late serves rings begun idle =>
      cases calling : serving.call with
      | none => exact stands.begun back begun calling
      | some waiting =>
        obtain ⟨conclusion, concluded⟩ := Option.ne_none_iff_exists'.mp (idle waiting calling)
        have early := (stands.calls waiting calling).waits back
        rw [Stage.eq_finished concluded] at early
        simp [Stage.rank] at early

/-- The last call of a way that comes back is on a link that an earlier call holds. -/
theorem Sound.held_of_last (sound : relay.Sound c name key path circles) (way : c.Way name key path circles)
    {call : Inquiry} {wiring : Wiring} (at_place : relay.legs[place]? = some leg)
    (called : call.Stands c name key path circles place leg.job.member)
    (wired : relay.cluster.links[call.letter.peer.id]? = some wiring) (last : path.length = place + 1) :
    ∃ earlier < place, wiring.link.lock.holder = some (earlier + 1) := by
  have stands := sound.stands place leg at_place
  obtain ⟨back, _⟩ := called.last last
  -- The last member stands on the way before, and its call there is to the same peer.
  obtain ⟨earlier, before, stood⟩ := way.closes back stands.member last
  obtain ⟨peer, wire, stream, hop⟩ := way.hops stood (List.getElem?_eq_getElem (show earlier + 1 < path.length by omega))
  cases Option.some.inj ((hop.forward stood).symm.trans called.asks)
  have inside := (List.getElem?_eq_some_iff.mp at_place).1
  obtain ⟨used, reads⟩ := sound.reads_before back (show earlier + 1 < relay.legs.length by omega)
  obtain ⟨link, joins, fits⟩ := sound.links hop
  cases Option.some.inj (joins.symm.trans wired)
  rw [reads] at fits
  exact ⟨earlier, before, fits.2⟩

/-- Another call in a place, after a step of the one there on its link. -/
theorem Sound.put_acted (sound : relay.Sound c name key path circles) (way : c.Way name key path circles)
    {call moved : Inquiry} {wiring : Wiring} {event : Event} {step : LinkStep} (at_place : relay.legs[place]? = some leg)
    (asking : leg.call = some call) (wired : relay.cluster.links[call.letter.peer.id]? = some wiring)
    (advances : wiring.link.Advances (place + 1) call.stage event step) (stage : moved.stage = step.stage)
    (stands : moved.Stands c name key path circles place leg.job.member)
    (chained : place + 1 < relay.legs.length → moved.fate = .taken) {sent : List Letter}
    (letters : ∀ other : Nat, sent[other]? =
      if other = place then Leg.sent? { leg with call := some moved } else relay.sent[other]?) :
    Sound c name key path circles ⟨relay.now, relay.cluster.stepped call.letter.peer.id step,
      relay.legs.set place { leg with call := some moved }, sent⟩ := by
  have standsHere := sound.stands place leg at_place
  have members := Cluster.members_stepped relay.cluster call.letter.peer.id step
  apply sound.put at_place
  · rfl
  · refine { standsHere with fresh := ?_, calls := ?_, begun := ?_ }
    · intro fresh
      rw [standsHere.fresh fresh] at asking
      cases asking
    · intro other same
      cases same
      exact stands
    · intro _ _ absent
      cases absent
  · exact fun more => ⟨moved, rfl, chained more⟩
  · exact Cluster.steady_stepped _ _ _ name
  · exact fun id => Cluster.requestsAt_congr members name id
  · intro id pends
    exact ⟨pends, by rw [Cluster.groupAt_congr members]⟩
  · intro other peer wire stream member link hop joins fits
    rw [Option.map_some, stage]
    exact sound.links_acted way at_place asking wired advances hop joins fits
  · exact letters

theorem Sound.acts (sound : relay.Sound c name key path circles) (way : c.Way name key path circles) {call : Inquiry}
    {wiring : Wiring} {event : Event} {step : LinkStep} (at_place : relay.legs[place]? = some leg)
    (asking : leg.call = some call) (meets : relay.Meets place leg call event)
    (wired : relay.cluster.links[call.letter.peer.id]? = some wiring)
    (advanced : wiring.link.advance (place + 1) call.stage event = some step)
    (unbroken : circles = true → ∀ failure, step.stage ≠ .finished (.failed failure)) :
    (relay.put place (calling leg call step.stage) (relay.cluster.stepped call.letter.peer.id step)).Sound c name key path
      circles := by
  have called := (sound.stands place leg at_place).calls call asking
  have kept : (path.length = place + 1) → wiring.link.lock.holder ≠ some (place + 1) := by
    intro last
    obtain ⟨earlier, before, held⟩ := sound.held_of_last way at_place called wired last
    rw [held]
    intro same
    have same := Option.some.inj same
    omega
  apply sound.put_acted way at_place asking wired (Link.advances_of_advance advanced) rfl
  · exact called.advance advanced (fun back => sound.no_reply back at_place asking meets) unbroken kept
  · intro more
    obtain ⟨other, same, taken⟩ := sound.chained place leg at_place more
    cases asking.symm.trans same
    exact taken
  · intro other
    split
    next own =>
      rw [own, sound.sent, at_place, Option.bind_some, Leg.sent?, Leg.sent?, asking]
      rfl
    next => rfl

/-- A call on a way never dials, for its link is around a stream when it gets there. -/
theorem Sound.undialed (sound : relay.Sound c name key path circles) (way : c.Way name key path circles) {call : Inquiry}
    {link : Link} {stream : StreamId} {step : LinkStep} (at_place : relay.legs[place]? = some leg)
    (asking : leg.call = some call) (advanced : link.advance (place + 1) call.stage (.dialed stream) = some step) :
    False := by
  have stands := sound.stands place leg at_place
  have called := stands.calls call asking
  have dialing : call.stage = .dialing := by
    cases stage : call.stage <;> first | rfl | (rw [stage] at advanced; cases advanced)
  have inside := called.inside (by rw [dialing]; simp [Stage.rank])
  obtain ⟨wiring, own, member, hop⟩ := stands.exists_hop way called inside
  obtain ⟨link, _, fits⟩ := sound.links hop
  rw [stageAt_eq at_place, asking, Option.map_some, dialing] at fits
  exact fits

/-- While the last leg has not written its request, all others have sent theirs, and nothing
    else was sent. -/
theorem Sound.length_sent (sound : relay.Sound c name key path circles) (at_place : relay.legs[place]? = some leg)
    (last : relay.legs.length = place + 1) (unwritten : leg.sent? = none) : relay.sent.length = place := by
  have here := sound.sent place
  rw [at_place, Option.bind_some, unwritten, List.getElem?_eq_none_iff] at here
  refine Nat.le_antisymm here ?_
  rcases place with _ | place
  · exact Nat.zero_le _
  · have at_before := List.getElem?_eq_getElem (show place < relay.legs.length by omega)
    obtain ⟨call, asking, taken⟩ := sound.chained place _ at_before (by omega)
    have before := sound.sent place
    rw [at_before, Option.bind_some, Leg.sent?, asking, Option.bind_some, taken, if_neg (by simp)] at before
    exact (List.getElem?_eq_some_iff.mp before).1

theorem Sound.writes (sound : relay.Sound c name key path circles) (way : c.Way name key path circles) {call : Inquiry}
    {wiring : Wiring} {stream : StreamId} {step : LinkStep} (at_place : relay.legs[place]? = some leg)
    (asking : leg.call = some call) (writing : call.stage = .writing stream)
    (wired : relay.cluster.links[call.letter.peer.id]? = some wiring)
    (advanced : wiring.link.advance (place + 1) call.stage .written = some step) :
    Sound c name key path circles ⟨relay.now, relay.cluster.stepped call.letter.peer.id step,
      relay.legs.set place (calling leg { call with fate := .underway stream } step.stage),
      relay.sent ++ [call.letter]⟩ := by
  have stands := sound.stands place leg at_place
  have called := stands.calls call asking
  have inside := called.inside (by rw [writing]; simp [Stage.rank])
  have unwritten : call.fate = .unwritten := called.unwritten (by rw [writing]; exact Nat.le_refl 7)
  have last : relay.legs.length = place + 1 := by
    have short := (List.getElem?_eq_some_iff.mp at_place).1
    by_contra more
    obtain ⟨other, same, taken⟩ := sound.chained place leg at_place (by omega)
    cases asking.symm.trans same
    cases unwritten.symm.trans taken
  obtain ⟨wire, own, member, hop⟩ := stands.exists_hop way called inside
  obtain ⟨link, joins, fits⟩ := sound.links hop
  rw [stageAt_eq at_place, asking, Option.map_some, writing] at fits
  obtain ⟨rfl, held⟩ : stream = own ∧ link.lock.holder = some (place + 1) := fits
  obtain rfl : step = ⟨wiring.link, .reading stream, none⟩ := by
    rw [writing] at advanced
    exact (Option.some.inj advanced).symm
  apply sound.put_acted way at_place asking wired (Link.advances_of_advance advanced) rfl
  · refine ⟨called.asks, called.request, ?_, ?_, fun last => absurd last inside, fun _ => Nat.le_refl 6, ?_⟩
    · intro early
      exact absurd early (show ¬ 7 ≤ 6 by decide)
    · intro other same
      cases same
      exact ⟨wire, hop.wired, hop.idle⟩
    · intro _ reply same
      cases same
  · omega
  · have length := sound.length_sent at_place last (by rw [Leg.sent?, asking, Option.bind_some, if_pos unwritten])
    intro other
    rw [List.getElem?_append, length]
    by_cases own : other = place
    · simp [own, Leg.sent?]
    · rw [if_neg own]
      split
      · rfl
      next before =>
        rw [List.getElem?_eq_none_iff.mpr (by simp; omega), List.getElem?_eq_none_iff.mpr (by omega)]

/-! ## Requests that arrive -/

/-- The next member of the way is behind the stream that a request is on. -/
theorem Sound.exists_behind (sound : relay.Sound c name key path circles) (way : c.Way name key path circles)
    {call : Inquiry} {stream : StreamId} (at_place : relay.legs[place]? = some leg) (asking : leg.call = some call)
    (underway : call.fate = .underway stream) :
    ∃ channel member, relay.cluster.channels[stream]? = some channel ∧
      relay.cluster.attachedTo channel.station = some member ∧ path[place + 1]? = some member := by
  have stands := sound.stands place leg at_place
  have called := stands.calls call asking
  have inside : path.length ≠ place + 1 := by
    intro last
    cases (called.unwritten_of_last last).symm.trans underway
  obtain ⟨wire, own, member, hop⟩ := stands.exists_hop way called inside
  obtain ⟨wiring, wired, around⟩ := called.underway stream underway
  cases Option.some.inj (hop.wired.symm.trans wired)
  have same : Link.around own = .around stream := hop.idle.symm.trans around
  cases same
  obtain ⟨first, standing, behind⟩ := hop.behind
  obtain ⟨channel, opened, station⟩ := sound.steady.channels stream first standing
  exact ⟨channel, member, opened, by rw [sound.steady.attachedTo, station, behind], hop.follows⟩

theorem Sound.arrives_at (sound : relay.Sound c name key path circles) (way : c.Way name key path circles) {call : Inquiry}
    {stream : StreamId} {channel : Channel} {member : MemberId} (at_place : relay.legs[place]? = some leg)
    (asking : leg.call = some call) (underway : call.fate = .underway stream)
    (opened : relay.cluster.channels[stream]? = some channel)
    (attached : relay.cluster.attachedTo channel.station = some member) : path[place + 1]? = some member := by
  obtain ⟨_, _, also, behind, follows⟩ := sound.exists_behind way at_place asking underway
  cases Option.some.inj (also.symm.trans opened)
  cases Option.some.inj (behind.symm.trans attached)
  exact follows

/-- A request that has arrived. -/
theorem Sound.taken (sound : relay.Sound c name key path circles) {call : Inquiry} {stream : StreamId} {fate : Fate}
    (at_place : relay.legs[place]? = some leg) (asking : leg.call = some call) (underway : call.fate = .underway stream)
    (written : fate ≠ .unwritten) (arrived : ∀ stream, fate ≠ .underway stream)
    (unanswered : circles = true → ∀ reply, fate ≠ .answered reply) :
    (relay.put place { leg with call := some { call with fate } } relay.cluster).Sound c name key path circles := by
  have stands := sound.stands place leg at_place
  have called := stands.calls call asking
  apply sound.put_quietly at_place
  · rfl
  · refine { stands with fresh := ?_, calls := ?_, begun := ?_ }
    · intro fresh
      rw [stands.fresh fresh] at asking
      cases asking
    · intro other same
      cases same
      refine ⟨called.asks, called.request, ?_, ?_, called.last, called.waits, unanswered⟩
      · intro early
        cases (called.unwritten early).symm.trans underway
      · exact fun stream same => absurd same (arrived stream)
    · intro _ _ absent
      cases absent
  · intro more
    obtain ⟨other, same, taken⟩ := sound.chained place leg at_place more
    cases asking.symm.trans same
    cases underway.symm.trans taken
  · exact .refl _ name
  · exact fun _ => rfl
  · exact fun id pends => ⟨pends, rfl⟩
  · rfl
  · intro link stream fits
    rw [asking] at fits
    exact fits
  · simp [Leg.sent?, asking, underway, written]

theorem Sound.answers (sound : relay.Sound c name key path circles) (way : c.Way name key path circles) {call : Inquiry}
    {stream : StreamId} {channel : Channel} {member : MemberId} {work : Work Message} {reply : Message}
    (at_place : relay.legs[place]? = some leg) (asking : leg.call = some call) (underway : call.fate = .underway stream)
    (opened : relay.cluster.channels[stream]? = some channel)
    (attached : relay.cluster.attachedTo channel.station = some member)
    (answered : relay.cluster.accept Cluster.uncalled member relay.now call.letter.message = (cluster, .answered work)) :
    (relay.put place { leg with call := some { call with fate := .answered reply } } cluster).Sound c name key path
      circles := by
  have follows := sound.arrives_at way at_place asking underway opened attached
  obtain ⟨budget, request⟩ := ((sound.stands place leg at_place).calls call asking).request
  rw [request] at answered
  obtain ⟨lacks, rfl⟩ := Cluster.accept_retrieve_answered answered
  apply sound.taken at_place asking underway
  · simp
  · simp
  · intro back
    obtain ⟨peer, asks⟩ := way.exists_forward back follows
    obtain ⟨holding, held, _⟩ := Cluster.holding?_of_forward asks
    have still := sound.steady.holds member
    rw [held, lacks] at still
    cases still

/-- A leg at the end of which there is nothing to tell. -/
theorem bind_append_of_none {α : Type} {legs : List Leg} {tell : Leg → Option α} (nothing : tell after = none)
    (other : Nat) : (legs ++ [after])[other]?.bind tell = legs[other]?.bind tell := by
  rw [List.getElem?_append]
  split
  · rfl
  next beyond =>
    rw [List.getElem?_eq_none (Nat.le_of_not_lt beyond), Option.bind_none]
    cases found : [after][other - legs.length]? with
    | none => rfl
    | some leg =>
      obtain rfl := List.mem_singleton.mp (List.mem_of_getElem? found)
      exact nothing

/-- One more get, at the member that has taken the request of the last one. -/
theorem Sound.append (sound : relay.Sound c name key path circles) (at_place : relay.legs[place]? = some leg)
    (last : relay.legs.length = place + 1) (taken : ∃ call, leg.call = some call ∧ call.fate = .taken)
    (stands : after.Stands c name key path circles (place + 1)) (uncalled : after.call = none)
    (steady : relay.cluster.Steady name cluster) (links : cluster.links = relay.cluster.links)
    (stores : ∀ id, (cluster.groupAt id name).store = (relay.cluster.groupAt id name).store)
    (counts : ∀ id, (relay.cluster.holding? id name).isSome → cluster.requestsAt name id =
      relay.cluster.requestsAt name id + if id = after.job.member then 1 else 0) :
    Sound c name key path circles ⟨relay.now, cluster, relay.legs ++ [after], relay.sent⟩ := by
  have upto {other : Nat} (before : other < place + 1) : (relay.legs ++ [after])[other]? = relay.legs[other]? :=
    List.getElem?_append_left (by omega)
  have here : (relay.legs ++ [after])[place + 1]? = some after := by
    rw [← last, List.getElem?_append_right (Nat.le_refl _), Nat.sub_self]
    rfl
  refine ⟨sound.steady.trans steady, ?_, ?_, by simp, ?_, ?_, ?_, ?_⟩
  · intro id pends
    rw [stores]
    exact sound.stores id fun leg listed => pends leg (List.mem_append_left _ listed)
  · intro id held
    have still : (relay.cluster.holding? id name).isSome := by rwa [sound.steady.holds]
    -- The get that began the relay is no request, so only the tail is counted.
    obtain ⟨first, rest, legs⟩ := List.exists_cons_of_ne_nil sound.begun
    have before := sound.counts id held
    rw [counts id still, before, legs]
    simp only [List.map_append, List.map_cons, List.map_nil, List.cons_append, List.tail_cons, List.count_append]
    rw [List.count_singleton, BEq.comm, Nat.add_assoc]
    simp only [beq_iff_eq]
  · intro other standing stood
    obtain before | rfl : other < place + 1 ∨ other = place + 1 := by
      have short := (List.getElem?_eq_some_iff.mp stood).1
      rw [List.length_append, List.length_singleton] at short
      omega
    · exact sound.stands other standing ((upto before).symm.trans stood)
    · cases here.symm.trans stood
      exact stands
  · intro other standing stood more
    rw [List.length_append, List.length_singleton] at more
    rw [upto (by omega)] at stood
    by_cases own : other = place
    · rw [own, at_place] at stood
      cases stood
      exact taken
    · exact sound.chained other standing stood (by omega)
  · intro other peer wiring stream next hop
    obtain ⟨link, wired, fits⟩ := sound.links hop
    refine ⟨link, by rwa [links], ?_⟩
    rwa [stageAt, bind_append_of_none uncalled]
  · intro other
    rw [sound.sent]
    exact (bind_append_of_none (by rw [Leg.sent?, uncalled]; rfl) other).symm

theorem Sound.arrives (sound : relay.Sound c name key path circles) (way : c.Way name key path circles)
    {call : Inquiry} {stream : StreamId} {channel : Channel} {member : MemberId} {request : KeyRequest} {job : Job}
    {alarm : Option Time} (at_place : relay.legs[place]? = some leg) (last : relay.legs.length = place + 1)
    (asking : leg.call = some call) (underway : call.fate = .underway stream)
    (opened : relay.cluster.channels[stream]? = some channel)
    (attached : relay.cluster.attachedTo channel.station = some member)
    (starts : relay.cluster.accept Cluster.uncalled member relay.now call.letter.message =
      (cluster, .started request job)) :
    Sound c name key path circles ⟨relay.now, cluster,
      relay.legs.set place { leg with call := some { call with fate := .taken } } ++ [⟨job, some request, alarm, none⟩],
      relay.sent⟩ := by
  have follows := sound.arrives_at way at_place asking underway opened attached
  obtain ⟨budget, asks⟩ := ((sound.stands place leg at_place).calls call asking).request
  rw [asks] at starts
  have counts := fun id held => @Cluster.requestsAt_accept relay.cluster id name (.retrieve ⟨name, key, budget⟩)
    ⟨name, key, budget⟩ rfl Cluster.uncalled member relay.now held
  rw [starts] at counts
  obtain ⟨held, rfl, rfl⟩ := Cluster.accept_retrieve_started starts
  have confined : relay.cluster.Confined member name
      (relay.cluster.modifyGroup member name (·.count .serverRequests)) :=
    Cluster.confined_modifyHolding (fun _ _ => rfl)
  have taken : (relay.put place { leg with call := some { call with fate := .taken } } relay.cluster).Sound c name key path
      circles := by
    apply sound.taken at_place asking underway <;> simp
  have stands : Leg.Stands c name key path circles (place + 1)
      ⟨⟨member, name, .startGet relay.now (.ofBudget relay.now budget) key⟩, some request, alarm, none⟩ := by
    refine ⟨follows, ?_, rfl, ⟨_, _, rfl⟩, fun _ => rfl, ?_, fun _ => rfl, fun _ zero => absurd zero Nat.one_ne_zero⟩
    · rwa [sound.steady.holds] at held
    · intro call called
      cases called
  have inside : place < relay.legs.length := by omega
  apply taken.append (List.getElem?_set_self inside) ((List.length_set).trans last) ⟨_, rfl, rfl⟩ stands rfl
  · apply confined.steady
    · exact (Cluster.keeps_modifyHolding relay.cluster member name _).pools
    · exact fun id => Cluster.isSome_holding?_modifyHolding _ id name
  · rfl
  · exact Cluster.store_modifyHolding (fun _ _ => rfl)
  · intro id held
    have counted := counts id held
    simp only [and_true] at counted
    exact counted

/-! ## Runs -/

theorem Sound.step (sound : relay.Sound c name key path circles) (way : c.Way name key path circles)
    (unbroken : circles = true → next.Unbroken) (step : Step relay next) : next.Sound c name key path circles := by
  cases step with
  | passes span =>
    exact ⟨sound.steady, sound.stores, sound.counts, sound.begun, sound.stands, sound.chained, sound.links, sound.sent⟩
  | proceeds stands wakes comes alone goes => exact sound.proceeds way stands wakes alone goes
  | calls stands uncalled asks goes => exact sound.calls way stands asks goes
  | @acts place leg call wiring event step stands asking meets wired advanced =>
    apply sound.acts way stands asking meets wired advanced
    intro back
    have inside := (List.getElem?_eq_some_iff.mp stands).1
    exact unbroken back _ (List.mem_of_getElem? (List.getElem?_set_self inside)) _ rfl
  | dials stands asking wired dialed advanced => exact (sound.undialed way stands asking advanced).elim
  | writes stands asking writing wired advanced => exact sound.writes way stands asking writing wired advanced
  | arrives stands last asking underway opened attached starts =>
    exact sound.arrives way stands last asking underway opened attached starts
  | answers stands asking underway opened attached answered =>
    exact sound.answers way stands asking underway opened attached answered
  | hears stands asking concluded brings waits => exact sound.hears stands asking concluded waits

/-- A relay is whole if it is with another leg whose call has failed if that of the leg in its
    place has. -/
theorem unbroken_of_set {legs : List Leg} (at_place : relay.legs[place]? = some leg)
    (keeps : ∀ call ∈ leg.call, ∀ failure, call.stage = .finished (.failed failure) →
      ∃ other ∈ after.call, other.stage = .finished (.failed failure))
    (among : relay.legs.set place after ⊆ legs)
    (whole : ∀ leg ∈ legs, ∀ call ∈ leg.call, ∀ failure, call.stage ≠ .finished (.failed failure)) :
    relay.Unbroken := by
  intro other listed call asking failure failed
  obtain ⟨at_other, stood⟩ := List.mem_iff_getElem?.mp listed
  by_cases own : at_other = place
  · rw [own, at_place] at stood
    cases stood
    obtain ⟨later, same, still⟩ := keeps call asking failure failed
    have inside := (List.getElem?_eq_some_iff.mp at_place).1
    exact whole after (among (List.mem_of_getElem? (List.getElem?_set_self inside))) later same failure still
  · have still : other ∈ relay.legs.set place after :=
      List.mem_of_getElem? ((List.getElem?_set_ne (Ne.symm own)).trans stood)
    exact whole other (among still) call asking failure failed

/-- A call that has failed takes no step any more. -/
theorem stage_ne_of_advance {link : Link} {party : PartyId} {stage : Stage} {event : Event} {step : LinkStep}
    (advanced : link.advance party stage event = some step) (failure : Failure) :
    stage ≠ .finished (.failed failure) := by
  rintro rfl
  cases advanced

/-- A failed call stays in a relay. -/
theorem Step.unbroken (step : Step relay next) (whole : next.Unbroken) : relay.Unbroken := by
  cases step with
  | passes span => exact whole
  | proceeds stands =>
    refine unbroken_of_set stands ?_ (List.Subset.refl _) whole
    exact fun call asking _ failed => ⟨call, asking, failed⟩
  | calls stands uncalled =>
    refine unbroken_of_set stands ?_ (List.Subset.refl _) whole
    intro call asking
    rw [uncalled] at asking
    cases asking
  | acts stands asking meets wired advanced =>
    refine unbroken_of_set stands ?_ (List.Subset.refl _) whole
    intro call same failure failed
    cases asking.symm.trans same
    exact absurd failed (stage_ne_of_advance advanced failure)
  | dials stands asking wired dialed advanced =>
    refine unbroken_of_set stands ?_ (List.Subset.refl _) whole
    intro call same failure failed
    cases asking.symm.trans same
    exact absurd failed (stage_ne_of_advance advanced failure)
  | writes stands asking writing wired advanced =>
    refine unbroken_of_set stands ?_ (List.Subset.refl _) whole
    intro call same failure failed
    cases asking.symm.trans same
    exact absurd failed (stage_ne_of_advance advanced failure)
  | arrives stands last asking =>
    refine unbroken_of_set stands ?_ (List.subset_append_left _ _) whole
    intro call same failure failed
    cases asking.symm.trans same
    exact ⟨_, rfl, failed⟩
  | answers stands asking =>
    refine unbroken_of_set stands ?_ (List.Subset.refl _) whole
    intro call same failure failed
    cases asking.symm.trans same
    exact ⟨_, rfl, failed⟩
  | hears stands =>
    refine unbroken_of_set stands ?_ (List.Subset.refl _) whole
    exact fun call asking _ failed => ⟨call, asking, failed⟩

/-- What holds of all relays that a get leads to, on a way that comes back as long as no call
    has failed. -/
theorem Sound.run (sound : relay.Sound c name key path circles) (way : c.Way name key path circles)
    (run : Run relay next) (unbroken : circles = true → next.Unbroken) : next.Sound c name key path circles := by
  induction run with
  | refl => exact sound
  | tail earlier step ih => exact (ih (fun back => step.unbroken (unbroken back))).step way unbroken step

end RingCache.Relay
