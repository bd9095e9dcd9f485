import RingCache.Proofs.Promptness

/-!
# Calls end in time

Everything that a call waits for is bounded by its one deadline, and everything takes whole
milliseconds, so the alarm of the deadline is the same whenever it is set in the course of the
call (`Within.alarm_eq`). A step of a flight keeps the next one within that course
(`Host.Timed.moves_advance`), and flights that go on earliest first keep each other within
theirs (`Timeline.Keeping.next`). So calls among scripted surroundings have ended when their
alarms go off, which is at their deadlines or starts if those are whole milliseconds; and what
is ready at once is taken under any deadline (`Timeline.calls_end_in_time`).
-/
namespace RingCache

/-! ## Whole milliseconds -/

/-- Work that takes whole milliseconds, if it ever ends. -/
def Work.Whole {α : Type} : Work α → Prop
  | .after delay _ => delay % millisecond = 0
  | .never => True

theorem Work.Whole.map {α β : Type} {work : Work α} (whole : work.Whole) (f : α → β) : (work.map f).Whole := by
  cases work with
  | after delay result => exact whole
  | never => trivial

/-- A sleep ends with an alarm, so it takes whole milliseconds. -/
theorem Work.whole_sleep {α : Type} (now span : Time) (result : α) : (Work.sleep now span result).Whole := by
  simp only [sleep, Whole, Time.alarm, Nat.add_sub_cancel_left, Nat.mul_mod_left]

theorem Outcome.whole_work (outcome : Outcome) (now : Time) (key : String) : (outcome.work now key).Whole := by
  unfold work
  split
  · exact Nat.zero_mod _
  · exact Work.whole_sleep _ _ _

/-- A time in the course of a call: whole milliseconds after its start, and not after the alarm
    of its deadline. -/
structure Within (start deadline time : Time) : Prop where
  begun : start ≤ time
  ends : time ≤ start.alarm deadline
  whole : (time - start) % millisecond = 0

/-- A call that started at a time is in time at another: not after its alarm, so not after its
    deadline and its start if both are whole milliseconds, and in any case less than two
    milliseconds after them. -/
structure InTime (start deadline time : Time) : Prop where
  ends : time ≤ start.alarm deadline
  whole : start % millisecond = 0 → deadline % millisecond = 0 → time ≤ max deadline start
  nearly : time < max deadline start + 2 * millisecond

/-- The alarm that a call sets in its course is the one that it set at its start. -/
theorem Within.alarm_eq {start deadline time : Time} (within : Within start deadline time) :
    time.alarm deadline = start.alarm deadline := by
  obtain ⟨begun, ends, whole⟩ := within
  obtain ⟨ticks, apart⟩ := Nat.dvd_of_mod_eq_zero whole
  obtain rfl : time = millisecond * ticks + start := Nat.eq_add_of_sub_eq begun apart
  simp only [Time.alarm, millisecond, Time] at ends ⊢
  omega

theorem Within.inTime {start deadline time : Time} (within : Within start deadline time) :
    InTime start deadline time := by
  have ends := within.ends
  refine ⟨ends, ?_, ?_⟩
  · simp only [Time.alarm, Time.tick, millisecond, Time] at ends ⊢
    omega
  · simp only [Time.alarm, Time.tick, millisecond, Time] at ends ⊢
    omega

/-- A call starts in its course. -/
theorem Within.start (start deadline : Time) : Within start deadline start :=
  ⟨Nat.le_refl start, Time.now_le_alarm start deadline, by simp⟩

/-- Work that is bounded by the deadline in the course of the call comes in its course. -/
theorem Within.exists_due {α : Type} {start now time : Time} {deadline : Deadline} (within : Within start time now)
    (limited : deadline.time = some time) {work : Work (Except Failure α)} (whole : work.Whole) :
    ∃ next, ((deadline.bound now work).due now).map Prod.fst = some next ∧ now ≤ next ∧ Within start time next := by
  have alarms : deadline.alarm now = some (start.alarm time) := by
    rw [Deadline.alarm, limited, Option.map_some, within.alarm_eq]
  have rings : ∃ next, some (now + (start.alarm time - now)) = some next ∧ now ≤ next ∧ Within start time next := by
    rw [Nat.add_sub_cancel' within.ends]
    exact ⟨_, rfl, within.ends, Time.now_le_alarm _ _, Nat.le_refl _, by simp [Time.alarm]⟩
  cases work with
  | never =>
    simp only [Deadline.bound, alarms]
    exact rings
  | after delay result =>
    simp only [Deadline.bound, alarms]
    split
    next ready =>
      refine ⟨now + delay, rfl, Nat.le_add_right now delay, Nat.le_add_right_of_le within.begun, ready, ?_⟩
      rw [Nat.sub_add_comm within.begun, Nat.add_mod, within.whole, whole]
      rfl
    next => exact rings

/-! ## Steps of a flight -/

/-- What a flight was asked for. -/
structure Call where
  removes : Bool
  key : String
  deadline : Deadline
deriving DecidableEq

/-- The flight of a call that starts at a time. -/
def Call.flight (call : Call) (start : Time) : Flight :=
  if call.removes then .startRemoval start call.deadline call.key else .startGet start call.deadline call.key

namespace Flight

/-- The call of a flight. -/
def call : Flight → Call
  | .get g => ⟨false, g.key, g.deadline⟩
  | .removal r => ⟨true, r.key, r.deadline⟩

/-- Whether the result of a flight is there. -/
def isFinished : Flight → Bool
  | .get ⟨_, _, .finished _⟩ => true
  | .removal ⟨_, _, _, .finished _⟩ => true
  | _ => false

/-- The peers that a flight has yet to visit satisfy a condition. -/
def Visits (known : Peer → Prop) : Flight → Prop
  | .removal ⟨_, _, _, .visiting rest _⟩ => ∀ peer ∈ rest, known peer
  | _ => True

/-- A flight has finished, or goes on from a time in the course of its call. -/
def Keeps (flight : Flight) (start deadline clock : Time) : Prop :=
  flight.isFinished = true ∨ ∃ time, flight.wake = some time ∧ clock ≤ time ∧ Within start deadline time

variable {σ : Type}

theorem call_flight (call : Call) (start : Time) : (call.flight start).call = call := by
  obtain ⟨_ | _, key, deadline⟩ := call <;> rfl

theorem wake_flight (call : Call) (start : Time) : (call.flight start).wake = some start := by
  obtain ⟨_ | _, key, deadline⟩ := call <;> rfl

theorem visits_flight (known : Peer → Prop) (call : Call) (start : Time) : (call.flight start).Visits known := by
  obtain ⟨_ | _, key, deadline⟩ := call <;> trivial

theorem wake_of_isFinished {flight : Flight} (finished : flight.isFinished = true) : flight.wake = none := by
  obtain ⟨key, deadline, stage⟩ | ⟨key, deadline, failure, stage⟩ := flight
  all_goals cases stage <;> first | rfl | cases finished

end Flight

/-- As long as the state of its surroundings is a usual one, which it stays, a group knows the
    peers that it asks. Their work is bounded by the deadline of the call, and all work takes
    whole milliseconds. -/
structure Host.Timed {σ : Type} (host : Host σ) (usual : σ → Prop) (known : Peer → Prop) : Prop where
  putGroup : ∀ group state, usual state → usual (host.putGroup group state)
  owner : ∀ key peer state, usual state → host.owner state key = some peer → known peer
  peers : ∀ state, usual state → ∀ peer ∈ host.peers state, known peer
  fetch : ∀ peer now deadline name key state, usual state → known peer →
    usual (host.fetch peer now deadline name key state).1 ∧
      ∃ work, work.Whole ∧ (host.fetch peer now deadline name key state).2 = deadline.bound now work
  forget : ∀ peer now deadline name key state, usual state → known peer →
    usual (host.forget peer now deadline name key state).1 ∧
      ∃ work, work.Whole ∧ (host.forget peer now deadline name key state).2 = deadline.bound now work
  load : ∀ now deadline key state, usual state →
    usual (host.load now deadline key state).1 ∧ (host.load now deadline key state).2.Whole

/-- What a step of a flight makes of it and of the state. -/
structure Flight.Moves {σ : Type} (usual : σ → Prop) (known : Peer → Prop) (now : Time) (call : Call)
    (after : σ × Flight) : Prop where
  usual : usual after.1
  same : after.2.call = call
  visits : after.2.Visits known
  keeps : ∀ start time, call.deadline.time = some time → Within start time now → after.2.Keeps start time now

namespace Host.Timed

variable {σ : Type} {host : Host σ} {usual : σ → Prop} {known : Peer → Prop} {state : σ}

theorem moves_askLoader (timed : host.Timed usual known) (get : Get) (now : Time) (stays : usual state) :
    Flight.Moves usual known now (Flight.get get).call
      ((get.askLoader host now state).1, .get (get.askLoader host now state).2) where
  usual := (timed.load now get.deadline get.key state stays).1
  same := rfl
  visits := trivial
  keeps start time limited within := by
    have limited : get.deadline.time = some time := limited
    exact .inr (within.exists_due limited (timed.load now get.deadline get.key state stays).2)

theorem moves_askPeer (timed : host.Timed usual known) {peer : Peer} (knows : known peer) (get : Get) (now : Time)
    (stays : usual state) :
    Flight.Moves usual known now (Flight.get get).call
      ((get.askPeer host now peer state).1, .get (get.askPeer host now peer state).2) where
  usual := (timed.fetch peer now get.deadline _ get.key state stays knows).1
  same := rfl
  visits := trivial
  keeps start time limited within := by
    have limited : get.deadline.time = some time := limited
    obtain ⟨work, whole, fetched⟩ :=
      (timed.fetch peer now get.deadline (host.group state).name get.key state stays knows).2
    simp only [Get.askPeer, fetched]
    exact .inr (within.exists_due limited whole)

theorem moves_visit (timed : host.Timed usual known) {peers : List Peer} (knows : ∀ peer ∈ peers, known peer)
    (removal : Removal) (now : Time) (stays : usual state) :
    Flight.Moves usual known now (Flight.removal removal).call
      ((removal.visit host now peers state).1, .removal (removal.visit host now peers state).2) := by
  cases peers with
  | nil => exact ⟨stays, rfl, trivial, fun _ _ _ _ => .inl rfl⟩
  | cons peer rest =>
    simp only [List.forall_mem_cons] at knows
    have forgets := timed.forget peer now removal.deadline (host.group state).name removal.key state stays knows.1
    refine ⟨forgets.1, rfl, knows.2, fun start time limited within => ?_⟩
    have limited : removal.deadline.time = some time := limited
    obtain ⟨work, whole, forgotten⟩ := forgets.2
    simp only [Removal.visit, forgotten]
    exact .inr (within.exists_due limited whole)

/-- A flight that goes on does so again in the course of its call, or finishes. -/
theorem moves_advance (timed : host.Timed usual known) {flight : Flight} {due : Time}
    (wakes : flight.wake = some due) (visits : flight.Visits known) (now : Time) (stays : usual state) :
    Flight.Moves usual known now flight.call (flight.advance host now state) := by
  have finishes (get : Get) (result : Except Failure Bytes) (group : Group) :
      Flight.Moves usual known now (Flight.get get).call
        (host.putGroup group state, .get { get with stage := .finished result }) :=
    ⟨timed.putGroup group state stays, rfl, trivial, fun _ _ _ _ => .inl rfl⟩
  cases flight with
  | get get =>
    obtain ⟨key, deadline, stage⟩ := get
    cases stage with
    | fresh start =>
      simp only [Flight.advance, Get.advance, Get.begin]
      rcases (host.group state).lookup key with ⟨group, _ | value⟩
      · have stays := timed.putGroup group state stays
        cases owned : host.owner (host.putGroup group state) key with
        | some peer => exact timed.moves_askPeer (timed.owner key peer _ stays owned) _ now stays
        | none => exact timed.moves_askLoader _ now stays
      · exact finishes _ _ group
    | asking answer =>
      cases answer with
      | none => cases wakes
      | some answer =>
        simp only [Flight.advance, Get.advance, Get.takePeer]
        rcases (host.group state).peerAnswered answer.2 with ⟨group, result | _⟩
        · exact finishes _ _ group
        · exact timed.moves_askLoader _ now (timed.putGroup group state stays)
    | loading answer =>
      cases answer with
      | none => cases wakes
      | some answer => exact finishes _ _ _
    | finished result => cases wakes
  | removal removal =>
    obtain ⟨key, deadline, failure, stage⟩ := removal
    cases stage with
    | fresh start =>
      have stays := timed.putGroup ((host.group state).localRemove key) state stays
      exact timed.moves_visit (timed.peers _ stays) _ now stays
    | visiting rest answer =>
      cases answer with
      | none => cases wakes
      | some answer =>
        have moves := timed.moves_visit visits
          (Removal.note ⟨key, deadline, failure, .visiting rest (some answer)⟩ answer.2) now stays
        rcases answer with ⟨time, _ | _⟩ <;> exact moves
    | finished result => cases wakes

end Host.Timed

/-! ## Scripted surroundings -/

/-- Something that answers by a script, however often it was asked. -/
def Loader.Scripted (loader : Loader) : Prop :=
  ∃ script, loader.work = (Loader.follow script).work

theorem Loader.Scripted.whole_ask {loader : Loader} (scripted : loader.Scripted) (now : Time) (key : String) :
    (loader.ask now key).2.Whole := by
  obtain ⟨script, follows⟩ := scripted
  simp only [ask, follows]
  exact Outcome.whole_work _ now key

def ScriptedPeer.Follows (peer : ScriptedPeer) : Prop :=
  peer.fetches.Scripted ∧ peer.removals.Scripted

/-- The loader and the peers of a scene answer by scripts. -/
structure Scene.Scripted (scene : Scene) : Prop where
  loader : scene.loader.Scripted
  peers : ∀ peer ∈ scene.peers, peer.Follows

theorem Scene.Scripted.call {scene : Scene} (scripted : scene.Scripted) (peer : Peer) (removes : Bool) (now : Time)
    (deadline : Deadline) (group key : String) {change : ScriptedPeer → ScriptedPeer}
    (follows : ∀ peer : ScriptedPeer, peer.Follows → (change peer).Follows) :
    (scene.call peer removes now deadline group key change).Scripted where
  loader := scripted.loader
  peers := by
    have follow := scripted.peers
    rcases Nat.lt_or_ge peer.id scene.peers.length with inside | outside
    · obtain ⟨before, found, rest, parts, _, changed⟩ := List.exists_of_modify change inside
      simp only [Scene.call, changed]
      simp only [parts, List.forall_mem_append, List.forall_mem_cons] at follow ⊢
      exact ⟨follow.1, follows found follow.2.1, follow.2.2⟩
    · simpa only [Scene.call, List.modify_eq_self outside] using follow

theorem Scene.timed (size : Nat) :
    Scene.host.Timed (fun scene => scene.Scripted ∧ scene.peers.length = size) (·.id < size) where
  putGroup _ _ usual := ⟨⟨usual.1.loader, usual.1.peers⟩, usual.2⟩
  owner key peer scene usual owned := by
    obtain ⟨id, _, there⟩ := Option.bind_eq_some_iff.mp owned
    obtain ⟨scripted, found, rfl⟩ := Option.map_eq_some_iff.mp there
    exact usual.2 ▸ (List.getElem?_eq_some_iff.mp found).1
  peers scene usual peer among := by
    obtain ⟨⟨scripted, id⟩, listed, rfl⟩ := List.mem_map.mp among
    exact usual.2 ▸ List.snd_lt_of_mem_zipIdx listed
  fetch peer now deadline name key scene usual known := by
    obtain ⟨scripted, rfl⟩ := usual
    have found := List.getElem?_eq_getElem known
    have follows := scripted.peers _ (List.getElem_mem known)
    simp only [host, found]
    refine ⟨⟨scripted.call _ _ _ _ _ _ fun peer others => ⟨follows.1, others.2⟩, ?_⟩, _,
      follows.1.whole_ask now key, rfl⟩
    exact List.length_modify _ _ _
  forget peer now deadline name key scene usual known := by
    obtain ⟨scripted, rfl⟩ := usual
    have found := List.getElem?_eq_getElem known
    have follows := scripted.peers _ (List.getElem_mem known)
    simp only [host, found]
    refine ⟨⟨scripted.call _ _ _ _ _ _ fun peer others => ⟨others.1, follows.2⟩, ?_⟩, _,
      (follows.2.whole_ask now key).map _, rfl⟩
    exact List.length_modify _ _ _
  load now deadline key scene usual :=
    ⟨⟨⟨usual.1.loader, usual.1.peers⟩, usual.2⟩, usual.1.loader.whole_ask now key⟩

/-! ## Schedules -/

namespace Schedule

/-- What is picked goes on no later than the others. -/
theorem time_le_of_pick {flights : List Flight} {p : Pick} (picked : pick flights = some p) :
    ∀ other ∈ flights, ∀ time, other.wake = some time → p.time ≤ time := by
  induction flights generalizing p with
  | nil => cases picked
  | cons flight rest ih =>
    intro other among time goes
    unfold pick at picked
    split at picked
    next later stays =>
      obtain ⟨q, found, same⟩ := Option.map_eq_some_iff.mp picked
      cases same
      rcases List.mem_cons.mp among with rfl | among
      · exact nomatch stays.symm.trans goes
      · exact ih found other among time goes
    next earliest wakes nothing =>
      cases picked
      rcases List.mem_cons.mp among with rfl | among
      · exact Nat.le_of_eq (Option.some.inj (wakes.symm.trans goes))
      · exact nomatch (wake_of_pick_eq_none nothing other among).symm.trans goes
    next earliest later wakes found =>
      split at picked
      next before =>
        cases picked
        rcases List.mem_cons.mp among with rfl | among
        · exact Nat.le_of_eq (Option.some.inj (wakes.symm.trans goes))
        · exact Nat.le_trans before (ih found other among time goes)
      next after =>
        cases picked
        rcases List.mem_cons.mp among with rfl | among
        · cases wakes.symm.trans goes
          exact Nat.le_of_not_le after
        · exact ih found other among time goes

theorem total_set (measure : Flight → Nat) {flights : List Flight} {number : Nat} {flight : Flight}
    (here : flights[number]? = some flight) (moved : Flight) :
    total measure (flights.set number moved) + measure flight = total measure flights + measure moved := by
  induction flights generalizing number with
  | nil => cases here
  | cons first rest ih =>
    cases number with
    | zero =>
      cases here
      simp only [List.set_cons_zero, total]
      omega
    | succ number =>
      have others := ih here
      simp only [List.set_cons_succ, total]
      omega

end Schedule

/-! ## Flights on a clock -/

/-- Flights that share a state and a clock. -/
structure Timeline (σ : Type) where
  clock : Time
  flights : List Flight
  state : σ

namespace Timeline

variable {σ : Type} {host : Host σ} {usual : σ → Prop} {known : Peer → Prop}
variable {begun t later : Timeline σ} {log : List (Nat × Time)} {event : Nat × Time}

/-- A flight takes a step that goes on no later than any other, and the clock jumps to that time. -/
inductive Step (host : Host σ) (t : Timeline σ) : Nat × Time → Timeline σ → Prop where
  | moves {number : Nat} {flight : Flight} {due : Time} (here : t.flights[number]? = some flight)
      (wakes : flight.wake = some due) (first : ∀ other ∈ t.flights, ∀ time, other.wake = some time → due ≤ time) :
      Step host t (number, max t.clock due)
        ⟨max t.clock due, t.flights.set number (flight.advance host (max t.clock due) t.state).2,
          (flight.advance host (max t.clock due) t.state).1⟩

/-- Steps, with the flights that took them and their times. -/
inductive Run (host : Host σ) (begun : Timeline σ) : List (Nat × Time) → Timeline σ → Prop where
  | start : Run host begun [] begun
  | step {log : List (Nat × Time)} {t later : Timeline σ} {event : Nat × Time} (run : Run host begun log t)
      (step : Step host t event later) : Run host begun (log ++ [event]) later

/-- The flights of calls that start at some times, before they begin. -/
def starting (clock : Time) (calls : List (Time × Call)) (state : σ) : Timeline σ :=
  ⟨clock, calls.map (fun call => call.2.flight call.1), state⟩

/-- All that a schedule does with a timeline. -/
def ended (host : Host σ) (t : Timeline σ) : Timeline σ :=
  let (clock, flights, state) := Schedule.run host t.clock t.flights t.state
  ⟨clock, flights, state⟩

/-- Among flights that have started calls at some times, each one keeps to the course of its call. -/
structure Keeping (usual : σ → Prop) (known : Peer → Prop) (calls : List (Time × Call)) (log : List (Nat × Time))
    (t : Timeline σ) : Prop where
  usual : usual t.state
  visits : ∀ flight ∈ t.flights, flight.Visits known
  same : t.flights.map Flight.call = calls.map Prod.snd
  keeps : ∀ (number : Nat) (start : Time) (call : Call) (time : Time) (flight : Flight),
    calls[number]? = some (start, call) → call.deadline.time = some time → t.flights[number]? = some flight →
      flight.Keeps start time t.clock
  within : ∀ (number : Nat) (start : Time) (call : Call) (time moment : Time),
    calls[number]? = some (start, call) → call.deadline.time = some time → (number, moment) ∈ log →
      Within start time moment

variable {calls : List (Time × Call)}

theorem keeping_starting {clock : Time} {state : σ} (stays : usual state) (begins : ∀ call ∈ calls, clock ≤ call.1) :
    Keeping usual known calls [] (starting clock calls state) where
  usual := stays
  visits := by
    intro flight among
    obtain ⟨call, _, rfl⟩ := List.mem_map.mp among
    exact Flight.visits_flight known call.2 call.1
  same := by simp [starting, Flight.call_flight, Function.comp_def]
  keeps number start call time flight called limited here := by
    simp only [starting, List.getElem?_map, called, Option.map_some, Option.some.injEq] at here
    subst here
    exact .inr ⟨start, Flight.wake_flight call start, begins _ (List.mem_of_getElem? called), .start start time⟩
  within _ _ _ _ _ _ _ among := nomatch among

theorem Keeping.next (keeping : Keeping usual known calls log t) (timed : host.Timed usual known)
    (step : Step host t event later) : Keeping usual known calls (log ++ [event]) later := by
  obtain ⟨stays, visits, same, keeps, within⟩ := keeping
  cases step with
  | @moves number flight due here wakes first =>
    have moves := timed.moves_advance wakes (visits flight (List.mem_of_getElem? here)) (max t.clock due) stays
    -- the flight that moves does so at its own time, which is in the course of its call
    have comes {start : Time} {call : Call} {time : Time} (called : calls[number]? = some (start, call))
        (limited : call.deadline.time = some time) : Within start time (max t.clock due) := by
      rcases keeps number start call time flight called limited here with finished | ⟨next, goes, after, within⟩
      · exact nomatch wakes.symm.trans (Flight.wake_of_isFinished finished)
      · cases wakes.symm.trans goes
        rwa [Nat.max_eq_right after]
    have own {start : Time} {call : Call} (called : calls[number]? = some (start, call)) : flight.call = call := by
      have there := congrArg (·[number]?) same
      simpa [here, called] using there
    refine ⟨moves.usual, ?_, ?_, ?_, ?_⟩
    · intro other among
      rcases List.mem_or_eq_of_mem_set among with among | rfl
      · exact visits other among
      · exact moves.visits
    · obtain ⟨inside, rfl⟩ := List.getElem?_eq_some_iff.mp here
      rw [← same, List.map_set, moves.same, ← List.map_set, List.set_getElem_self]
    · intro other start call time left called limited there
      by_cases moved : number = other
      · subst moved
        have inside := (List.getElem?_eq_some_iff.mp here).1
        simp only [List.getElem?_set_self inside, Option.some.injEq] at there
        subst there
        exact moves.keeps start time (own called ▸ limited) (comes called limited)
      · rw [List.getElem?_set_ne moved] at there
        rcases keeps other start call time left called limited there with finished | ⟨next, goes, after, within⟩
        · exact .inl finished
        · exact .inr ⟨next, goes, Nat.max_le.mpr ⟨after, first left (List.mem_of_getElem? there) next goes⟩, within⟩
    · intro other start call time moment called limited among
      rcases List.mem_append.mp among with among | among
      · exact within other start call time moment called limited among
      · cases List.mem_singleton.mp among
        exact comes called limited

theorem Run.keeping (run : Run host begun log t) (timed : host.Timed usual known)
    (keeping : Keeping usual known calls [] begun) : Keeping usual known calls log t := by
  induction run with
  | start => exact keeping
  | step _ step ih => exact ih.next timed step

theorem Run.head {next : Timeline σ} (step : Step host begun event next) (run : Run host next log later) :
    Run host begun (event :: log) later := by
  induction run with
  | start => exact .step .start step
  | step _ last ih => exact .step ih last

/-- What a schedule does is a run to the end, where no flight goes on. -/
theorem exists_run_ended (host : Host σ) (t : Timeline σ) :
    ∃ log, Run host t log (t.ended host) ∧ ∀ flight ∈ (t.ended host).flights, flight.wake = none := by
  obtain ⟨clock, flights, state⟩ := t
  simp only [ended]
  fun_induction Schedule.run host clock flights state with
  | case1 clock flights state nothing => exact ⟨[], .start, Schedule.wake_of_pick_eq_none nothing⟩
  | case2 clock flights state p picked moved ih =>
    obtain ⟨parts, wakes⟩ := Schedule.pick_eq_some picked
    obtain ⟨log, run, rests⟩ := ih
    have here : flights[p.before.length]? = some p.flight := by simp [parts]
    have step : Step host ⟨clock, flights, state⟩ _ _ := .moves here wakes (Schedule.time_le_of_pick picked)
    have set : flights.set p.before.length moved.2 = p.before ++ moved.2 :: p.rest := by simp [parts]
    rw [set] at step
    exact ⟨_, run.head step, rests⟩

/-- A clock stands at the time of the last step. -/
theorem Run.clock_mem (run : Run host begun log t) :
    t.clock = begun.clock ∨ ∃ number, (number, t.clock) ∈ log := by
  cases run with
  | start => exact .inl rfl
  | step run step =>
    cases step
    exact .inr ⟨_, List.mem_append_right _ List.mem_cons_self⟩

/-- Only the flights that there are take steps. -/
theorem Run.lt_length (run : Run host begun log t) :
    t.flights.length = begun.flights.length ∧ ∀ event ∈ log, event.1 < begun.flights.length := by
  induction run with
  | start => exact ⟨rfl, List.forall_mem_nil _⟩
  | step _ step ih =>
    cases step with
    | moves here =>
      rw [List.length_set]
      refine ⟨ih.1, fun event among => ?_⟩
      rcases List.mem_append.mp among with among | among
      · exact ih.2 event among
      · cases List.mem_singleton.mp among
        exact ih.1 ▸ (List.getElem?_eq_some_iff.mp here).1

/-- No run goes on for ever. -/
theorem wellFounded_step (host : Host σ) : WellFounded (fun later t => ∃ event, Step host t event later) := by
  let measure (t : Timeline σ) : Nat ×ₗ Nat :=
    toLex (Schedule.total Flight.begins t.flights, Schedule.total Flight.steps t.flights)
  refine Subrelation.wf ?_ (InvImage.wf measure wellFounded_lt)
  rintro later t ⟨event, step⟩
  cases step with
  | @moves number flight due here wakes first =>
    have less := flight.advance_lt host (max t.clock due) t.state (by simp [wakes])
    have begins := Schedule.total_set Flight.begins here (flight.advance host (max t.clock due) t.state).2
    have steps := Schedule.total_set Flight.steps here (flight.advance host (max t.clock due) t.state).2
    simp only [InvImage, measure, Prod.Lex.toLex_lt_toLex]
    omega

end Timeline

/-! ## Calls alone -/

namespace Host.Timed

variable {σ : Type} {host : Host σ} {usual : σ → Prop} {known : Peer → Prop} {state : σ} {time : Time}

/-- A call alone ends in its course. -/
theorem exists_finished (timed : host.Timed usual known) (stays : usual state) (now : Time) (call : Call)
    (limited : call.deadline.time = some time) :
    ∃ finish flight last, Schedule.run host now [call.flight now] state = (finish, [flight], last) ∧
      flight.call = call ∧ flight.isFinished = true ∧ Within now time finish := by
  obtain ⟨log, run, rests⟩ := Timeline.exists_run_ended host (.starting now [(now, call)] state)
  have keeping := run.keeping timed (Timeline.keeping_starting stays (List.forall_mem_singleton.mpr (Nat.le_refl now)))
  rcases ran : Schedule.run host now [call.flight now] state with ⟨finish, flights, last⟩
  have ended : (Timeline.starting now [(now, call)] state).ended host = ⟨finish, flights, last⟩ := by
    simp only [Timeline.ended, Timeline.starting, List.map_cons, List.map_nil, ran]
  rw [ended] at run rests keeping
  obtain ⟨flight, rfl, same⟩ := List.map_eq_singleton_iff.mp keeping.same
  refine ⟨finish, flight, last, rfl, same, ?_, ?_⟩
  · rcases keeping.keeps 0 now call time flight rfl limited rfl with finished | ⟨next, goes, _⟩
    · exact finished
    · exact nomatch goes.symm.trans (rests flight List.mem_cons_self)
  · rcases run.clock_mem with same | ⟨number, among⟩
    · obtain rfl : finish = now := same
      exact .start finish time
    · obtain rfl : number = 0 := Nat.lt_one_iff.mp (run.lt_length.2 _ among)
      exact keeping.within 0 now call time finish rfl limited among

/-- A get alone comes back in the course of its call. -/
theorem exists_get (timed : host.Timed usual known) (stays : usual state) (now : Time) {deadline : Deadline}
    (key : String) (limited : deadline.time = some time) :
    ∃ delay result, (host.get now deadline key state).2 = .after delay result ∧ Within now time (now + delay) := by
  obtain ⟨finish, flight, last, ran, same, finished, within⟩ :=
    timed.exists_finished stays now ⟨false, key, deadline⟩ limited
  have ran : Schedule.run host now [.startGet now deadline key] state = (finish, [flight], last) := ran
  obtain ⟨other, under, stage⟩ | _ := flight
  · cases stage with
    | finished result =>
      refine ⟨finish - now, result, ?_, ?_⟩
      · rw [Host.get, ran]
        rfl
      · rwa [Nat.add_sub_cancel' within.begun]
    | fresh | asking | loading => cases finished
  · cases same

/-- A removal alone comes back in the course of its call. -/
theorem exists_remove (timed : host.Timed usual known) (stays : usual state) (now : Time) {deadline : Deadline}
    (key : String) (limited : deadline.time = some time) :
    ∃ delay result, (host.remove now deadline key state).2 = .after delay result ∧ Within now time (now + delay) := by
  obtain ⟨finish, flight, last, ran, same, finished, within⟩ :=
    timed.exists_finished stays now ⟨true, key, deadline⟩ limited
  have ran : Schedule.run host now [.startRemoval now deadline key] state = (finish, [flight], last) := ran
  obtain _ | ⟨other, under, failure, stage⟩ := flight
  · cases same
  · cases stage with
    | finished result =>
      refine ⟨finish - now, result, ?_, ?_⟩
      · rw [Host.remove, ran]
        rfl
      · rwa [Nat.add_sub_cancel' within.begun]
    | fresh | visiting => cases finished

end Host.Timed

/-! ## Calls in time -/

namespace Timeline

/-- The flight of a call with a deadline took its steps in time, and has finished or goes on in time. -/
structure Timely {σ : Type} (t : Timeline σ) (log : List (Nat × Time)) (number : Nat) (start : Time) (call : Call)
    (time : Time) : Prop where
  steps : ∀ moment, (number, moment) ∈ log → start ≤ moment ∧ InTime start time moment
  stands : ∃ flight, t.flights[number]? = some flight ∧ flight.call = call ∧
    (flight.isFinished = true ∨ ∃ next, flight.wake = some next ∧ t.clock ≤ next ∧ InTime start time next)

theorem Keeping.timely {σ : Type} {usual : σ → Prop} {known : Peer → Prop} {calls : List (Time × Call)}
    {log : List (Nat × Time)} {t : Timeline σ} (keeping : Keeping usual known calls log t) {number : Nat}
    {start time : Time} {call : Call} (called : calls[number]? = some (start, call)) (limited : call.deadline.time = some time) :
    t.Timely log number start call time where
  steps moment among :=
    have within := keeping.within number start call time moment called limited among
    ⟨within.begun, within.inTime⟩
  stands := by
    have same := congrArg (·[number]?) keeping.same
    simp only [List.getElem?_map, called, Option.map_some] at same
    obtain ⟨flight, here, own⟩ := Option.map_eq_some_iff.mp same
    refine ⟨flight, here, own, ?_⟩
    rcases keeping.keeps number start call time flight called limited here with finished | ⟨next, goes, after, within⟩
    · exact .inl finished
    · exact .inr ⟨next, goes, after, within.inTime⟩

/-- Among scripted surroundings, a get or a removal with a deadline comes back in time. So does
    every call when many overlap: each step of its flight is in time, and in time too is the
    next one of a flight that has not finished; no run goes on for ever, and a schedule runs to
    the end. Work that is ready at once is taken under any deadline, even one that has passed;
    so a call that comes back at once without a deadline comes back just so under any. -/
theorem calls_end_in_time {scene : Scene} (scripted : scene.Scripted) :
    (∀ now deadline time key, deadline.time = some time →
      (∃ delay result, (Scene.host.get now deadline key scene).2 = .after delay result ∧
        InTime now time (now + delay)) ∧
      ∃ delay result, (Scene.host.remove now deadline key scene).2 = .after delay result ∧
        InTime now time (now + delay)) ∧
    (∀ clock (calls : List (Time × Call)), (∀ call ∈ calls, clock ≤ call.1) →
      (∀ log later, Run Scene.host (starting clock calls scene) log later →
        ∀ number start call time, calls[number]? = some (start, call) → call.deadline.time = some time →
          later.Timely log number start call time) ∧
      ∃ log, Run Scene.host (starting clock calls scene) log ((starting clock calls scene).ended Scene.host) ∧
        ∀ flight ∈ ((starting clock calls scene).ended Scene.host).flights, flight.wake = none) ∧
    WellFounded (fun later t => ∃ event, Step Scene.host t event later) ∧
    (∀ (α : Type) (deadline : Deadline) now (result : Except Failure α),
      deadline.bound now (.ready result) = .ready result) ∧
    (∀ now deadline key result, (Scene.host.get now .never key scene).2 = .ready result →
      (Scene.host.get now deadline key scene).2 = .ready result) ∧
    ∀ now deadline key result, (Scene.host.remove now .never key scene).2 = .ready result →
      (Scene.host.remove now deadline key scene).2 = .ready result := by
  have timed := Scene.timed scene.peers.length
  have usual : scene.Scripted ∧ scene.peers.length = scene.peers.length := ⟨scripted, rfl⟩
  refine ⟨fun now deadline time key limited => ⟨?_, ?_⟩, fun clock calls begins => ⟨?_, ?_⟩,
    wellFounded_step Scene.host, fun α => Deadline.bound_ready,
    fun now deadline key result => Scene.get_ready deadline, fun now deadline key result => Scene.remove_ready deadline⟩
  · obtain ⟨delay, result, comes, within⟩ := timed.exists_get usual now key limited
    exact ⟨delay, result, comes, within.inTime⟩
  · obtain ⟨delay, result, comes, within⟩ := timed.exists_remove usual now key limited
    exact ⟨delay, result, comes, within.inTime⟩
  · intro log later run number start call time called limited
    exact (run.keeping timed (keeping_starting usual begins)).timely called limited
  · exact exists_run_ended Scene.host (starting clock calls scene)

/-- A group with a slow loader, a peer that is slow to fail, and a peer that is not. -/
def strained : Scene where
  group := .new "g" Group.ample
  loader := .follow ⟨[⟨some 10000, .value [1]⟩], Table.empty.insert "now" [⟨none, .value [7]⟩]⟩
  peers :=
    [⟨"p", .follow ⟨[⟨some 1000, .fails (.network .connectionClosed)⟩], .empty⟩,
        .follow ⟨[⟨some 10000, .value []⟩], .empty⟩⟩,
      ⟨"q", .follow ⟨[⟨none, .value [2]⟩], .empty⟩, .follow ⟨[⟨none, .value []⟩], .empty⟩⟩]
  route key := if key = "k" then some 0 else none
  loads := []
  calls := []

theorem scripted_strained : strained.Scripted where
  loader := ⟨_, rfl⟩
  peers := by
    simp only [strained, List.forall_mem_cons]
    exact ⟨⟨⟨_, rfl⟩, _, rfl⟩, ⟨⟨_, rfl⟩, _, rfl⟩, List.forall_mem_nil _⟩

/-- A deadline between two milliseconds is overrun: its alarm waits for the later one. -/
theorem get_of_half_a_millisecond :
    strained.Scripted ∧ (Scene.host.get 0 (.upTo 1500) "slow" strained).2 = .after 2000 (.error .timeout) ∧
      ¬ 0 + 2000 ≤ max 1500 0 := by
  refine ⟨scripted_strained, ?_, by decide⟩
  rw [Host.get_eq_getAlone]
  rfl

/-- A get whose peer is slow to fail, and a removal that begins meanwhile and visits a slow peer. -/
def strain : List (Time × Call) :=
  [(0, ⟨false, "k", .upTo 3000⟩), (1000, ⟨true, "k", .upTo 5000⟩)]

theorem calls_end_in_time_of_strain :
    strained.Scripted ∧
    (∃ delay result, (Scene.host.get 0 (.upTo 3000) "k" strained).2 = .after delay result ∧
      InTime 0 3000 (0 + delay)) ∧
    (∃ log, Run Scene.host (starting 0 strain strained) log ((starting 0 strain strained).ended Scene.host) ∧
      ((starting 0 strain strained).ended Scene.host).Timely log 1 1000 ⟨true, "k", .upTo 5000⟩ 5000) ∧
    (Scene.host.get 9000 (.upTo 3000) "now" strained).2 = .ready (.ok [7]) := by
  obtain ⟨alone, together, _, _, ready, _⟩ := calls_end_in_time scripted_strained
  obtain ⟨timely, log, run, _⟩ := together 0 strain (by decide)
  refine ⟨scripted_strained, (alone 0 (.upTo 3000) 3000 "k" rfl).1, ⟨log, run, ?_⟩,
    ready 9000 (.upTo 3000) "now" _ ?_⟩
  · exact timely log _ run 1 1000 ⟨true, "k", .upTo 5000⟩ 5000 rfl rfl
  · rw [Host.get_eq_getAlone]
    rfl

end Timeline

end RingCache
