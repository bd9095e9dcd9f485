import RingCache.Exchange
import RingCache.Proofs.Calls
import RingCache.Proofs.Pipelining
import RingCache.Scripted

/-!
# Calls of handlers over a link

A call on a link to a server is a call of the handler behind it: the request is
put into a frame, travels in pieces, and is read and handled; the reply comes
back in pieces and is told apart into a value, an acknowledgement or a failure
(`Remote.call`). Whatever the service, an errand without a deadline on a link that
is at rest makes its handler run once, with what the errand names, and comes back
with what the handler came to (`Remote.call_runs_handler`).
-/
namespace RingCache
open Wire

/-! ## One request in pieces -/

/-- A server that has read all hands a request to its service that comes in pieces, and
    writes the reply if there is one. -/
theorem Server.exists_attend_frame {σ : Type} (service : Service σ) {limit : Nat} (now : Time) {unread : Source}
    (state : σ) {request : Message} {arrivals : List (Time × Bytes)} (drained : unread.Drained)
    (framed : Framed limit request) (whole : (arrivals.map Prod.snd).flatten = frame request) :
    ∃ time, now ≤ time ∧
      let attendance := attend (fun _ => some service) limit now unread state
        (arrivals.map (fun piece => (piece.1, Chunk.data piece.2)))
      match dispatch service time request state with
      | (next, .never) => attendance.state = next ∧ attendance.written = [] ∧ attendance.ending = .stuck
      | (next, .after _ reply) => attendance.state = next ∧ attendance.written = frame reply ∧
        ∃ rest : Source, rest.Drained ∧ attendance.ending = .waiting rest := by
  obtain ⟨left, rfl, nothing⟩ := drained
  have tail : Tail limit [] [.finish] none := .ended (by decide) []
  have all_framed : ∀ message ∈ [request], Framed limit message := by simpa using framed
  have waits : read limit (left.map .data) = .dry := read_of_few (by rw [nothing]; decide)
  have sent : left.flatten ++ ((arrivals.map Prod.snd).flatten ++ []) = Wire.stream [request] ++ [] := by
    rw [nothing, whole, stream_singleton, List.nil_append]
  have arrived : (arrivals.map (fun piece => (piece.1, Chunk.data piece.2))).map Prod.snd =
      (arrivals.map Prod.snd).map .data := by simp
  have attends : Attends service limit [] [] none now [request] state _ :=
    tail.attends_pieces all_framed waits sent arrived
  generalize attend _ _ _ _ _ _ = attendance at attends ⊢
  generalize same : [request] = messages at attends all_framed
  cases attends with
  | stuck handles =>
    cases same
    cases handles with
    | answer _ _ later => cases later
    | stuck soon silent =>
      refine ⟨_, soon, ?_⟩
      rw [silent]
      exact ⟨rfl, rfl, rfl⟩
  | @stands handled others _ _ _ _ _ handles stands =>
    cases stands with
    | hangs fails => cases fails
    | waits rest dry unread =>
      rw [List.append_nil] at unread
      obtain rfl : others = [] :=
        eq_nil_of_waits (fun message listed => all_framed message (List.mem_append_right _ listed)) dry unread
      rw [List.append_nil] at same
      cases same
      cases handles with
      | answer soon answers later =>
        cases later
        refine ⟨_, soon, ?_⟩
        rw [answers]
        exact ⟨rfl, stream_singleton _, rest.map .data, ⟨rest, rfl, unread⟩, rfl⟩

/-! ## A link and its server -/

/-- A service that keeps a record of the calls of its handlers. -/
def Service.recorded {σ : Type} (service : Service σ) : Service (σ × List ServiceCall) where
  retrieve now deadline group key state :=
    let (next, work) := service.retrieve now deadline group key state.1
    ((next, state.2 ++ [.retrieve group key (deadline.budget now)]), work)
  delete now deadline group key state :=
    let (next, work) := service.delete now deadline group key state.1
    ((next, state.2 ++ [.delete group key (deadline.budget now)]), work)
  amend now how addresses state :=
    let (next, work) := service.amend now how addresses state.1
    ((next, state.2 ++ [.amend how addresses]), work)

/-- How bytes travel: in pieces of any size, those to the server each at a time. -/
structure Carrier where
  toServer : Bytes → List (Time × Bytes)
  fromServer : Bytes → List Bytes
  toServer_whole : ∀ bytes, ((toServer bytes).map Prod.snd).flatten = bytes
  fromServer_whole : ∀ bytes, (fromServer bytes).flatten = bytes

/-- What a link dials: an address, where a service answers requests of at most a
    length. The link reads replies of at most a length. -/
structure Trunk (σ : Type) where
  address : String
  service : Service σ
  requests : Nat
  replies : Nat
  carrier : Carrier

/-- A link, the streams that it has dialed, and the state of the service to which all of
    them lead. For each stream: where the server stands with it, and what has come back
    and was not read. -/
structure Remote (σ : Type) where
  link : Link
  dialed : Nat
  serving : StreamId → Server.Ending
  arrived : StreamId → Source
  state : σ

namespace Remote

variable {σ : Type}

/-- The remote after the server has met what was sent on a stream. -/
def sent (trunk : Trunk σ) (now : Time) (stream : StreamId) (bytes : Bytes) (remote : Remote σ) : Remote σ :=
  match remote.serving stream with
  | .waiting unread =>
    let arrivals := (trunk.carrier.toServer bytes).map (fun piece => (piece.1, Chunk.data piece.2))
    let attendance := Server.attend (fun _ => some trunk.service) trunk.requests now unread remote.state arrivals
    let back := (trunk.carrier.fromServer attendance.written).map .data ++ attendance.ending.notice
    { remote with
      serving := Function.update remote.serving stream attendance.ending
      arrived := Function.update remote.arrived stream (remote.arrived stream ++ back)
      state := attendance.state }
  | _ => remote

/-- What a call without a deadline meets next; none if it waits forever. -/
def occasion (trunk : Trunk σ) (now : Time) (party : PartyId) (request : Message) (remote : Remote σ) :
    Stage → Option (Event × Remote σ)
  | .waiting => if remote.link.lock.heldBy party then some (.go, remote) else none
  | .dialing => some (.dialed remote.dialed, { remote with dialed := remote.dialed + 1 })
  | .writing stream => some (.written, remote.sent trunk now stream (frame request))
  | .reading stream =>
    match read trunk.replies (remote.arrived stream) with
    | .dry => none
    | .message reply rest =>
      some (.received reply, { remote with arrived := Function.update remote.arrived stream rest })
    | .finished => some (.ended, remote)
    | .failed failure _ => some (.failed failure, remote)
  | .finished _ => none
  | _ => some (.go, remote)

/-- The remote after a step of a party of the link. -/
def stepped (remote : Remote σ) (step : LinkStep) : Remote σ :=
  { remote with
    link := step.link
    serving := match step.dropped with
      | some stream => Function.update remote.serving stream .finished
      | none => remote.serving }

/-- A call goes on to its end, if it comes there. -/
def follow (trunk : Trunk σ) (now : Time) (party : PartyId) (request : Message) (stage : Stage) (remote : Remote σ) :
    Remote σ × Option Conclusion :=
  match stage.conclusion?, remote.occasion trunk now party request stage with
  | some conclusion, _ => (remote, some conclusion)
  | none, none => (remote, none)
  | none, some (event, met) =>
    match _stepped : met.link.advance party stage event with
    | none => (met, none)
    | some step => follow trunk now party request step.stage (met.stepped step)
termination_by stage.rank
decreasing_by exact Link.rank_advance_lt _stepped

/-- An errand without a deadline, and what comes of it if it ends. -/
def call (trunk : Trunk σ) (now : Time) (party : PartyId) (errand : Errand) (remote : Remote σ) :
    Remote σ × Option (Except Failure (Option Bytes)) :=
  let (remote, conclusion) := remote.follow trunk now party (errand.request (Deadline.never.budget now)) .entering
  (remote, (conclusion.bind Conclusion.result?).map (errand.outcome trunk.address))

/-! ## At rest -/

/-- Nothing is on the way on a stream. -/
def Quiet (remote : Remote σ) (stream : StreamId) : Prop :=
  ∃ unread, remote.serving stream = .waiting unread ∧ unread.Drained ∧ (remote.arrived stream).Drained

/-- A stream that was not dialed yet is as it will be then. -/
def Fresh (remote : Remote σ) : Prop :=
  ∀ stream, remote.dialed ≤ stream → remote.serving stream = .waiting [] ∧ remote.arrived stream = []

/-- The link is open, nobody uses it, and nothing is on the way on the stream that it
    keeps, if it keeps one. -/
structure Healthy (remote : Remote σ) : Prop where
  isOpen : remote.link.closed = false
  free : remote.link.lock = .free
  kept : ∀ stream, remote.link.slot = some stream → stream < remote.dialed ∧ remote.Quiet stream
  fresh : remote.Fresh

/-- A call uses a stream on which nothing is on the way. -/
structure Uses (remote : Remote σ) (party : PartyId) (stream : StreamId) : Prop where
  link : remote.link = Cluster.inUse party
  known : stream < remote.dialed
  quiet : remote.Quiet stream
  fresh : remote.Fresh

variable {trunk : Trunk σ} {now : Time} {party : PartyId} {request reply : Message} {stage : Stage}
variable {remote met : Remote σ} {event : Event} {step : LinkStep} {stream : StreamId}

/-! ## Steps of a call -/

theorem follow_of_advance (unfinished : stage.conclusion? = none)
    (meets : remote.occasion trunk now party request stage = some (event, met))
    (advanced : met.link.advance party stage event = some step) (nothing : step.dropped = none) :
    remote.follow trunk now party request stage =
      { met with link := step.link }.follow trunk now party request step.stage := by
  rw [follow, unfinished, meets]
  dsimp only
  split
  next stuck =>
    rw [advanced] at stuck
    cases stuck
  next other same =>
    rw [advanced] at same
    cases same
    rw [stepped, nothing]

theorem follow_of_nothing (unfinished : stage.conclusion? = none)
    (waits : remote.occasion trunk now party request stage = none) :
    remote.follow trunk now party request stage = (remote, none) := by
  rw [follow, unfinished, waits]

theorem follow_finished (conclusion : Conclusion) :
    remote.follow trunk now party request (.finished conclusion) = (remote, some conclusion) := by
  rw [follow]
  rfl

theorem state_of_occasion (past : stage.rank ≤ 6)
    (meets : remote.occasion trunk now party request stage = some (event, met)) : met.state = remote.state := by
  cases stage with
  | waiting | dialing | writing => simp [Stage.rank] at past
  | reading stream =>
    rw [occasion] at meets
    split at meets <;> cases meets <;> rfl
  | finished => cases meets
  | entering | storing | unlocking | checking | closing | sweeping | clearing =>
    cases meets
    rfl

theorem state_follow_of_read (past : stage.rank ≤ 6) :
    (remote.follow trunk now party request stage).1.state = remote.state := by
  fun_induction follow trunk now party request stage remote with
  | case1 => rfl
  | case2 => rfl
  | case3 stage remote event met meets unfinished stuck => exact state_of_occasion past meets
  | case4 stage remote event met meets unfinished step advanced ih =>
    have nearer := Link.rank_advance_lt advanced
    have same : met.state = remote.state := state_of_occasion past meets
    exact (ih (by omega)).trans same

/-! ## The request and the reply -/

/-- The remote once the server stands otherwise with a stream, and what has come back on
    it is other. -/
def served (remote : Remote σ) (stream : StreamId) (ending : Server.Ending) (back : Source) (state : σ) : Remote σ :=
  { remote with
    serving := Function.update remote.serving stream ending
    arrived := Function.update remote.arrived stream back
    state }

variable (now) in
/-- A request reaches the service, and the reply comes back if there is one. -/
theorem exists_sent (quiet : remote.Quiet stream) (asks : Framed trunk.requests request) :
    ∃ time, now ≤ time ∧ match dispatch trunk.service time request remote.state with
      | (next, .never) => ∃ back : Source, back.Drained ∧
        remote.sent trunk now stream (frame request) = remote.served stream .stuck back next
      | (next, .after _ reply) => ∃ (rest : Source) (back : List Bytes), rest.Drained ∧ back.flatten = frame reply ∧
        remote.sent trunk now stream (frame request) =
          remote.served stream (.waiting rest) (back.map .data) next := by
  obtain ⟨unread, waits, drained, read_all⟩ := quiet
  obtain ⟨earlier, arrived, nothing⟩ := read_all
  obtain ⟨time, soon, meets⟩ := Server.exists_attend_frame trunk.service now remote.state drained asks
    (trunk.carrier.toServer_whole (frame request))
  refine ⟨time, soon, ?_⟩
  rcases answered : dispatch trunk.service time request remote.state with ⟨next, delay | _⟩
  · rename_i reply
    rw [answered] at meets
    obtain ⟨state_eq, written, rest, none_left, ends⟩ := meets
    refine ⟨rest, earlier ++ trunk.carrier.fromServer (frame reply), none_left, ?_, ?_⟩
    · rw [List.flatten_append, nothing, trunk.carrier.fromServer_whole, List.nil_append]
    · simp only [sent, waits, state_eq, written, ends, arrived, served, Server.Ending.notice, List.append_nil,
        List.map_append]
  · rw [answered] at meets
    obtain ⟨state_eq, written, ends⟩ := meets
    refine ⟨(earlier ++ trunk.carrier.fromServer []).map .data, ⟨_, rfl, ?_⟩, ?_⟩
    · rw [List.flatten_append, nothing, trunk.carrier.fromServer_whole, List.nil_append]
    · simp only [sent, waits, state_eq, written, ends, arrived, served, Server.Ending.notice, List.append_nil,
        List.map_append]

/-! ## A call -/

theorem Fresh.served (fresh : remote.Fresh) (known : stream < remote.dialed) (ending : Server.Ending) (back : Source)
    (state : σ) : (remote.served stream ending back state).Fresh := by
  intro other later
  have apart : other ≠ stream := fun same => by
    rw [same] at later
    exact absurd known (Nat.not_lt.mpr later)
  simp only [Remote.served, Function.update_of_ne apart]
  exact fresh other later

variable (trunk now party request) in
/-- A call comes to use a stream on which nothing is on the way. -/
theorem exists_uses (healthy : remote.Healthy) :
    ∃ used stream, Uses used party stream ∧ used.state = remote.state ∧
      remote.follow trunk now party request .entering = used.follow trunk now party request (.writing stream) := by
  obtain ⟨⟨closed, slot, lock⟩, dialed, serving, arrived, state⟩ := remote
  obtain ⟨opened, free, kept, fresh⟩ := healthy
  dsimp only at opened free
  subst opened free
  let asked : Link := ⟨false, slot, ⟨some party, []⟩⟩
  have held : asked.lock.heldBy party = true := by simp [asked, Lock.heldBy]
  have enters : (⟨false, slot, .free⟩ : Link).advance party .entering .go = some ⟨asked, .waiting, none⟩ := rfl
  have turn : occasion trunk now party request ⟨asked, dialed, serving, arrived, state⟩ .waiting =
      some (.go, ⟨asked, dialed, serving, arrived, state⟩) := by
    simp only [occasion, held]
    rfl
  cases slot with
  | some stream =>
    obtain ⟨known, quiet⟩ := kept stream rfl
    have takes : asked.advance party .waiting .go = some ⟨Cluster.inUse party, .writing stream, none⟩ := by
      simp only [Link.advance, held]
      rfl
    refine ⟨⟨Cluster.inUse party, dialed, serving, arrived, state⟩, stream, ⟨rfl, known, quiet, fresh⟩, rfl, ?_⟩
    rw [follow_of_advance rfl rfl enters rfl, follow_of_advance rfl turn takes rfl]
  | none =>
    have takes : asked.advance party .waiting .go = some ⟨Cluster.inUse party, .dialing, none⟩ := by
      simp only [Link.advance, held]
      rfl
    have dials : (Cluster.inUse party).advance party .dialing (.dialed dialed) =
        some ⟨Cluster.inUse party, .writing dialed, none⟩ := rfl
    obtain ⟨waits, nothing⟩ := fresh dialed (Nat.le_refl dialed)
    refine ⟨⟨Cluster.inUse party, dialed + 1, serving, arrived, state⟩, dialed,
      ⟨rfl, Nat.lt_succ_self dialed, ⟨[], waits, Source.drained_nil, ?_⟩, ?_⟩, rfl, ?_⟩
    · exact nothing ▸ Source.drained_nil
    · exact fun other later => fresh other (Nat.le_of_succ_le later)
    · rw [follow_of_advance rfl rfl enters rfl, follow_of_advance rfl turn takes rfl,
        follow_of_advance rfl rfl dials rfl]

theorem follow_writing {sent : Remote σ} (meets : remote.sent trunk now stream (frame request) = sent) :
    remote.follow trunk now party request (.writing stream) =
      sent.follow trunk now party request (.reading stream) := by
  have writing : remote.occasion trunk now party request (.writing stream) = some (.written, sent) := by
    rw [occasion, meets]
  have writes : sent.link.advance party (.writing stream) .written = some ⟨sent.link, .reading stream, none⟩ := rfl
  rw [follow_of_advance rfl writing writes rfl]

/-- A call that has read its reply puts the stream back. -/
theorem follow_storing (used : remote.link = Cluster.inUse party) :
    remote.follow trunk now party request (.storing stream reply) =
      ({ remote with link := .around stream }, some (.replied reply)) := by
  obtain ⟨link, dialed, serving, arrived, state⟩ := remote
  dsimp only at used
  subst used
  let stored : Link := ⟨false, some stream, ⟨some party, []⟩⟩
  have stores : (Cluster.inUse party).advance party (.storing stream reply) .go =
      some ⟨stored, .unlocking reply, none⟩ := rfl
  have unlocks : stored.advance party (.unlocking reply) .go = some ⟨.around stream, .checking reply, none⟩ := rfl
  have checks : (Link.around stream).advance party (.checking reply) .go =
      some ⟨.around stream, .finished (.replied reply), none⟩ := rfl
  rw [follow_of_advance rfl rfl stores rfl, follow_of_advance rfl rfl unlocks rfl,
    follow_of_advance rfl rfl checks rfl, follow_finished]

/-- What comes of a request, given what the service answers to it: the service is left as
    it leaves itself, and if the reply fits into a frame, it comes back and the link is at
    rest again. -/
inductive Comes {α : Type} (limit : Nat) (told : Message → α) : (answered : σ × Work Message) →
    (met : Remote σ × Option α) → Prop where
  | silent {next : σ} {after : Remote σ} (changes : after.state = next) : Comes limit told (next, .never) (after, none)
  | replies {next : σ} {delay : Time} {reply : Message} {after : Remote σ} {result : Option α}
      (changes : after.state = next)
      (comes : Framed limit reply → result = some (told reply) ∧ after.Healthy) :
      Comes limit told (next, .after delay reply) (after, result)

/-- A call that comes to use a stream hands its request to the service, and comes back with
    the reply if there is one. -/
theorem Uses.exists_follow (uses : remote.Uses party stream) (asks : Framed trunk.requests request) (now : Time) :
    ∃ time, now ≤ time ∧ Comes trunk.replies .replied (dispatch trunk.service time request remote.state)
      (remote.follow trunk now party request (.writing stream)) := by
  obtain ⟨linked, known, quiet, fresh⟩ := uses
  obtain ⟨time, soon, meets⟩ := exists_sent now quiet asks
  refine ⟨time, soon, ?_⟩
  rcases answered : dispatch trunk.service time request remote.state with ⟨next, delay | _⟩
  · rename_i reply
    rw [answered] at meets
    obtain ⟨rest, back, none_left, brings, same⟩ := meets
    rw [follow_writing same]
    refine .replies (state_follow_of_read (Nat.le_refl 6)) (fun answers => ?_)
    obtain ⟨left, empty, got⟩ := answers.read_frame (brings.trans (List.append_nil _).symm) []
    rw [List.append_nil, List.append_nil] at got
    have reads : occasion trunk now party request (remote.served stream (.waiting rest) (back.map .data) next)
        (.reading stream) = some (.received reply, remote.served stream (.waiting rest) (left.map .data) next) := by
      simp only [occasion, served, Function.update_self, got, Function.update_idem]
    have receives : remote.link.advance party (.reading stream) (.received reply) =
        some ⟨remote.link, .storing stream reply, none⟩ := rfl
    let last := remote.served stream (.waiting rest) (left.map .data) next
    have ends : follow trunk now party request (.reading stream)
        (remote.served stream (.waiting rest) (back.map .data) next) =
          ({ last with link := .around stream }, some (.replied reply)) :=
      (follow_of_advance rfl reads receives rfl).trans (follow_storing linked)
    have still : last.Fresh := fresh.served known _ _ _
    rw [ends]
    refine ⟨rfl, rfl, rfl, ?_, still⟩
    intro kept same
    cases same
    refine ⟨known, rest, ?_, none_left, left, ?_, empty⟩
    · simp [last, served]
    · simp [last, served]
  · rw [answered] at meets
    obtain ⟨back, none_left, same⟩ := meets
    rw [follow_writing same]
    have waits : occasion trunk now party request (remote.served stream .stuck back next) (.reading stream) = none := by
      simp only [occasion, served, Function.update_self, none_left.read]
    rw [follow_of_nothing rfl waits]
    exact .silent rfl

/-- What comes of an errand on a link at rest is what comes of its request. -/
theorem Healthy.exists_call {errand : Errand} (healthy : remote.Healthy)
    (asks : Framed trunk.requests (errand.request none)) (now : Time) (party : PartyId) :
    ∃ time, now ≤ time ∧ Comes trunk.replies (fun reply => errand.outcome trunk.address (.ok reply))
      (dispatch trunk.service time (errand.request none) remote.state) (remote.call trunk now party errand) := by
  obtain ⟨used, stream, uses, same, goes⟩ := exists_uses trunk now party (errand.request none) healthy
  obtain ⟨time, soon, comes⟩ := uses.exists_follow asks now
  refine ⟨time, soon, ?_⟩
  rw [call, show Deadline.never.budget now = none from rfl, goes, ← same]
  generalize dispatch trunk.service time (errand.request none) used.state = answered at comes ⊢
  generalize used.follow trunk now party (errand.request none) (.writing stream) = followed at comes ⊢
  cases comes with
  | silent changes => exact .silent changes
  | replies changes comes =>
    refine .replies changes (fun answers => ?_)
    obtain ⟨replied, rests⟩ := comes answers
    rw [replied]
    exact ⟨rfl, rests⟩

theorem Comes.handled {α β : Type} {limit : Nat} {told : Message → β} {replyOf : α → Message} {next : σ}
    {work : Work α} {after : Remote σ} {result : Option β}
    (comes : Comes limit told (next, work.map replyOf) (after, result)) :
    after.state = next ∧ (work = .never → result = none) ∧
      ∀ delay outcome, work = .after delay outcome → Framed limit (replyOf outcome) →
        after.Healthy ∧ result = some (told (replyOf outcome)) := by
  cases work with
  | never =>
    cases comes with
    | silent changes => exact ⟨changes, fun _ => rfl, nofun⟩
  | after delay outcome =>
    cases comes with
    | replies changes comes =>
      refine ⟨changes, nofun, ?_⟩
      rintro _ _ ⟨⟩ answers
      obtain ⟨told_so, rests⟩ := comes answers
      exact ⟨rests, told_so⟩

/-- An errand without a deadline, on a link at rest that leads to any service, is one call
    of the handler for it, with the same group and key or the same addresses, and without a
    budget. The errand brings what the handler gives. It tells a failure as one of the peer
    on the key, in the words of the handler's failure, and an amendment never fails. If the
    handler does not come to an end, neither does the errand. Afterwards the link is at rest
    again, so that errands one after another are calls one after another. -/
theorem call_runs_handler (service : Service σ) {trunk : Trunk (σ × List ServiceCall)}
    {remote : Remote (σ × List ServiceCall)} {errand : Errand} (records : trunk.service = service.recorded)
    (healthy : remote.Healthy) (asks : Framed trunk.requests (errand.request none)) (now : Time) (party : PartyId) :
    ∃ time, now ≤ time ∧
      let (after, result) := remote.call trunk now party errand
      match errand with
      | .fetch group key =>
        ∀ next work, service.retrieve time .never group key remote.state.1 = (next, work) →
        after.state = (next, remote.state.2 ++ [.retrieve group key none]) ∧
        (work = .never → result = none) ∧
        ∀ delay outcome, work = .after delay outcome →
          Framed trunk.replies (retrieveReply ⟨group, key, none⟩ outcome) →
          after.Healthy ∧ match outcome with
            | .ok value => result = some (.ok (some value))
            | .error failure => result = some (.error (.remote trunk.address key
                ("failed to retrieve [" ++ group ++ "/" ++ key ++ "]: " ++ failure.message)))
      | .forget group key =>
        ∀ next work, service.delete time .never group key remote.state.1 = (next, work) →
        after.state = (next, remote.state.2 ++ [.delete group key none]) ∧
        (work = .never → result = none) ∧
        ∀ delay outcome, work = .after delay outcome → Framed trunk.replies (deleteReply outcome) →
          after.Healthy ∧ match outcome with
            | .ok () => result = some (.ok none)
            | .error failure => result = some (.error (.remote trunk.address key failure.message))
      | .amend how addresses =>
        ∀ next work, service.amend time how addresses remote.state.1 = (next, work) →
        after.state = (next, remote.state.2 ++ [.amend how addresses]) ∧
        (work = .never → result = none) ∧
        ∀ delay, work = .after delay () → Framed trunk.replies .ack → after.Healthy ∧ result = some (.ok none) := by
  obtain ⟨time, soon, comes⟩ := healthy.exists_call asks now party
  refine ⟨time, soon, ?_⟩
  rw [records] at comes
  generalize remote.call trunk now party errand = called at comes ⊢
  obtain ⟨after, result⟩ := called
  cases errand with
  | fetch group key =>
    intro next work handled
    have answered : dispatch service.recorded time (.retrieve ⟨group, key, none⟩) remote.state =
        ((next, remote.state.2 ++ [.retrieve group key none]), work.map (retrieveReply ⟨group, key, none⟩)) := by
      simp only [dispatch, Service.recorded, Deadline.ofBudget, handled]
      rfl
    rw [Errand.request, answered] at comes
    obtain ⟨changes, silent, replies⟩ := comes.handled
    refine ⟨changes, silent, fun delay outcome ends answers => ?_⟩
    obtain ⟨rests, rfl⟩ := replies delay outcome ends answers
    cases outcome <;> exact ⟨rests, rfl⟩
  | forget group key =>
    intro next work handled
    have answered : dispatch service.recorded time (.delete ⟨group, key, none⟩) remote.state =
        ((next, remote.state.2 ++ [.delete group key none]), work.map deleteReply) := by
      simp only [dispatch, Service.recorded, Deadline.ofBudget, handled]
      rfl
    rw [Errand.request, answered] at comes
    obtain ⟨changes, silent, replies⟩ := comes.handled
    refine ⟨changes, silent, fun delay outcome ends answers => ?_⟩
    obtain ⟨rests, rfl⟩ := replies delay outcome ends answers
    cases outcome <;> exact ⟨rests, rfl⟩
  | amend how addresses =>
    intro next work handled
    have answered : dispatch service.recorded time (.amend how addresses) remote.state =
        ((next, remote.state.2 ++ [.amend how addresses]), work.map (fun _ => .ack)) := by
      simp only [dispatch, Service.recorded, handled]
    rw [Errand.request, answered] at comes
    obtain ⟨changes, silent, replies⟩ := comes.handled
    refine ⟨changes, silent, fun delay ends answers => ?_⟩
    obtain ⟨rests, rfl⟩ := replies delay () ends answers
    exact ⟨rests, rfl⟩

/-- Two pieces, the second 30 after the first. -/
def inTwo : Carrier where
  toServer bytes := [(9, bytes.take 3), (39, bytes.drop 3)]
  fromServer bytes := [bytes.take 5, bytes.drop 5]
  toServer_whole bytes := by simp
  fromServer_whole bytes := by simp

/-- A link that has not dialed yet, and a service that was not asked for anything yet. -/
def unused : Remote (List String × List ServiceCall) :=
  ⟨⟨false, none, .free⟩, 0, fun _ => .waiting [], fun _ => [], ([], [])⟩

/-- A deletion fails as the handler does. -/
theorem call_runs_handler_of_clerk :
    let trunk : Trunk (List String × List ServiceCall) := ⟨"x:1", Server.clerk.recorded, 40, 40, inTwo⟩
    unused.Healthy ∧ Framed 40 (Errand.request (.forget "g" "b") none) ∧
    (unused.call trunk 5 1 (.forget "g" "b")).1.state = (["b"], [.delete "g" "b" none]) ∧
    (unused.call trunk 5 1 (.forget "g" "b")).2 = some (.error (.remote "x:1" "b" "internal error: kept")) := by
  intro trunk
  have healthy : unused.Healthy := ⟨rfl, rfl, nofun, fun _ _ => ⟨rfl, rfl⟩⟩
  have asks : Framed 40 (Errand.request (.forget "g" "b") none) := ⟨by decide, by decide⟩
  have answers : Framed 40 (deleteReply (.error (.internal "kept"))) := ⟨by decide, by decide⟩
  obtain ⟨time, _, runs⟩ := @call_runs_handler _ Server.clerk trunk _ _ rfl healthy asks 5 1
  obtain ⟨handled, _, ends⟩ := runs _ _ rfl
  exact ⟨healthy, asks, handled, (ends 20 _ rfl answers).2⟩

end Remote
end RingCache
