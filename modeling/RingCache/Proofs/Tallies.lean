import Mathlib.Algebra.Ring.Nat
import Mathlib.Logic.Relation
import RingCache.Proofs.Holdings
import RingCache.Scripted

/-!
# What a group counts

Any number of gets and removals of a group overlap, each taking its steps at any
time, while the rest of the program does what it likes (`Crowd.Step`). A get counts
itself as it begins, and then counts one outcome or times out (`Get.Steps`). So at
every moment the gets that began are the outcomes counted, the timeouts, and those
that are still on their way; and the fetches from peers that are over are those
counted as loads and those counted as errors (`Crowd.counters_add_up`). What a
schedule does is one of these runs (`Crowd.exists_run_schedule`).
-/
namespace RingCache

/-- What a group draws on leaves its counters alone. A loader or a peer may well
    get from the group itself, but then that is one more get in progress. -/
structure Host.KeepsCounters {σ : Type} (host : Host σ) : Prop where
  group_putGroup : ∀ group state, host.group (host.putGroup group state) = group
  fetch : ∀ peer now deadline name key state,
    (host.group (host.fetch peer now deadline name key state).1).counters = (host.group state).counters
  forget : ∀ peer now deadline name key state,
    (host.group (host.forget peer now deadline name key state).1).counters = (host.group state).counters
  load : ∀ now deadline key state,
    (host.group (host.load now deadline key state).1).counters = (host.group state).counters

/-- What a scripted group draws on leaves its counters alone. -/
theorem Scene.keepsCounters : Scene.host.KeepsCounters where
  group_putGroup _ _ := rfl
  fetch peer now deadline name key scene := by
    simp only [host]
    split <;> rfl
  forget peer now deadline name key scene := by
    simp only [host]
    split <;> rfl
  load _ _ _ _ := rfl

variable {σ : Type} {host : Host σ} {now due : Time} {state : σ} {counter : Counter}

/-! ## Steps of a get and what they count -/

/-- The counters after some went up. -/
def Counters.countAll (counters : Counters) (counted : List Counter) : Counters :=
  counted.foldl Counters.count counters

theorem Counters.value_countAll (counters : Counters) (counted : List Counter) (counter : Counter) :
    (counters.countAll counted).value counter = counters.value counter + counted.count counter := by
  induction counted generalizing counters with
  | nil => rfl
  | cons first rest ih =>
    have later := ih (counters.count first)
    rw [value_count] at later
    rw [countAll, List.foldl_cons, ← countAll, later, List.count_cons]
    by_cases same : counter = first
    · simp only [same, beq_self_eq_true, if_true]
      omega
    · have apart : (first == counter) = false := by simpa using Ne.symm same
      simp only [same, apart, if_false, Bool.false_eq_true]
      omega

/-- A step of a get that goes on: where it stands before and after, and what it counts. -/
inductive Get.Steps : GetStage → GetStage → List Counter → Prop where
  | hits (start : Time) (value : Bytes) : Steps (.fresh start) (.finished (.ok value)) [.gets, .cacheHits]
  | asks (start : Time) (answer : Due (Except Failure Bytes)) : Steps (.fresh start) (.asking answer) [.gets]
  | misses (start : Time) (answer : Due (Except Failure Bytes)) : Steps (.fresh start) (.loading answer) [.gets]
  | fetched (time : Time) (value : Bytes) :
      Steps (.asking (some (time, .ok value))) (.finished (.ok value)) [.peerLoads]
  | fetchTimedOut (time : Time) :
      Steps (.asking (some (time, .error .timeout))) (.finished (.error .timeout)) [.peerErrors]
  | fetchFailed (time : Time) {failure : Failure} (other : failure ≠ .timeout) (answer : Due (Except Failure Bytes)) :
      Steps (.asking (some (time, .error failure))) (.loading answer) [.peerErrors]
  | loaded (time : Time) (value : Bytes) :
      Steps (.loading (some (time, .ok value))) (.finished (.ok value)) [.localLoads]
  | loadTimedOut (time : Time) : Steps (.loading (some (time, .error .timeout))) (.finished (.error .timeout)) []
  | loadFailed (time : Time) {failure told : Failure} (other : failure ≠ .timeout) (otherTold : told ≠ .timeout) :
      Steps (.loading (some (time, .error failure))) (.finished (.error told)) [.localLoadErrors]

theorem Group.peerAnswered_of_failed {group : Group} {failure : Failure} (other : failure ≠ .timeout) :
    group.peerAnswered (.error failure) = (group.count .peerErrors, .loadHere) := by
  cases failure with
  | timeout => exact absurd rfl other
  | _ => rfl

theorem Group.exists_loaded_of_failed (group : Group) (key : String) {failure : Failure} (other : failure ≠ .timeout) :
    ∃ told, told ≠ .timeout ∧ group.loaded key (.error failure) = (group.count .localLoadErrors, .error told) := by
  cases failure with
  | timeout => exact absurd rfl other
  | load key reason => exact ⟨.load key reason, nofun, rfl⟩
  | config | network | groupNotFound | remote | internal =>
    refine ⟨.load key _, nofun, rfl⟩

theorem Get.counters_askLoader (keeps : host.KeepsCounters) (now : Time) (get : Get) (state : σ) :
    (host.group (get.askLoader host now state).1).counters = (host.group state).counters :=
  keeps.load now get.deadline get.key state

theorem Get.counters_askPeer (keeps : host.KeepsCounters) (now : Time) (peer : Peer) (get : Get) (state : σ) :
    (host.group (get.askPeer host now peer state).1).counters = (host.group state).counters :=
  keeps.fetch peer now get.deadline (host.group state).name get.key state

theorem Get.exists_steps_of_fresh (keeps : host.KeepsCounters) (get : Get) (start now : Time) (state : σ) :
    ∃ counted, Steps (.fresh start) (get.begin host now state).2.stage counted ∧
      (host.group (get.begin host now state).1).counters = (host.group state).counters.countAll counted := by
  cases found : (host.group state).store.find? get.key with
  | some value =>
    simp only [begin, Group.lookup_of_found found, keeps.group_putGroup]
    exact ⟨_, .hits start value, rfl⟩
  | none =>
    simp only [begin, Group.lookup_of_missing found]
    split
    next peer _ =>
      rw [counters_askPeer keeps, keeps.group_putGroup]
      exact ⟨_, .asks start _, rfl⟩
    next =>
      rw [counters_askLoader keeps, keeps.group_putGroup]
      exact ⟨_, .misses start _, rfl⟩

theorem Get.exists_steps_of_asking (keeps : host.KeepsCounters) (get : Get) (time now : Time)
    (answer : Except Failure Bytes) (state : σ) :
    ∃ counted, Steps (.asking (some (time, answer))) (get.takePeer host now answer state).2.stage counted ∧
      (host.group (get.takePeer host now answer state).1).counters =
        (host.group state).counters.countAll counted := by
  cases answer with
  | ok value =>
    simp only [takePeer, Group.peerAnswered, keeps.group_putGroup]
    exact ⟨_, .fetched time value, rfl⟩
  | error failure =>
    by_cases late : failure = .timeout
    · subst late
      simp only [takePeer, Group.peerAnswered, keeps.group_putGroup]
      exact ⟨_, .fetchTimedOut time, rfl⟩
    · simp only [takePeer, Group.peerAnswered_of_failed late]
      rw [counters_askLoader keeps, keeps.group_putGroup]
      exact ⟨_, .fetchFailed time late _, rfl⟩

theorem Get.exists_steps_of_loading (keeps : host.KeepsCounters) (get : Get) (time : Time)
    (answer : Except Failure Bytes) (state : σ) :
    ∃ counted, Steps (.loading (some (time, answer))) (get.takeLoader host answer state).2.stage counted ∧
      (host.group (get.takeLoader host answer state).1).counters = (host.group state).counters.countAll counted := by
  cases answer with
  | ok value =>
    simp only [takeLoader, Group.loaded, keeps.group_putGroup]
    exact ⟨_, .loaded time value, rfl⟩
  | error failure =>
    by_cases late : failure = .timeout
    · subst late
      simp only [takeLoader, Group.loaded, keeps.group_putGroup]
      exact ⟨_, .loadTimedOut time, rfl⟩
    · obtain ⟨told, other, fails⟩ := (host.group state).exists_loaded_of_failed get.key late
      simp only [takeLoader, fails, keeps.group_putGroup]
      exact ⟨_, .loadFailed time late other, rfl⟩

/-- A get that goes on takes one of the steps, and its counters go up as the step has it. -/
theorem Get.exists_steps (keeps : host.KeepsCounters) (get : Get) (now : Time) (state : σ)
    (wakes : (Flight.get get).wake = some due) :
    ∃ counted, Steps get.stage (get.advance host now state).2.stage counted ∧
      (host.group (get.advance host now state).1).counters = (host.group state).counters.countAll counted := by
  obtain ⟨key, deadline, stage⟩ := get
  cases stage with
  | fresh start => exact exists_steps_of_fresh keeps _ start now state
  | asking answer =>
    obtain _ | ⟨time, answer⟩ := answer
    · cases wakes
    · exact exists_steps_of_asking keeps _ time now answer state
  | loading answer =>
    obtain _ | ⟨time, answer⟩ := answer
    · cases wakes
    · exact exists_steps_of_loading keeps _ time answer state
  | finished => cases wakes

theorem Removal.counters_visit (keeps : host.KeepsCounters) (now : Time) (peers : List Peer) (removal : Removal)
    (state : σ) : (host.group (removal.visit host now peers state).1).counters = (host.group state).counters := by
  cases peers with
  | nil => rfl
  | cons peer rest => exact keeps.forget peer now removal.deadline (host.group state).name removal.key state

theorem Removal.counters_advance (keeps : host.KeepsCounters) (now : Time) (removal : Removal) (state : σ) :
    (host.group (removal.advance host now state).1).counters = (host.group state).counters := by
  rw [advance]
  split
  · rw [counters_visit keeps, keeps.group_putGroup]
    rfl
  · exact counters_visit keeps now _ _ state
  · rfl
  · rfl

/-! ## Where a get stands with its outcome -/

namespace GetStage

/-- Whether a get has begun. -/
def begun : GetStage → Bool
  | .fresh _ => false
  | _ => true

/-- Whether a get is on its way to an outcome. -/
def underway : GetStage → Bool
  | .asking _ | .loading _ => true
  | _ => false

/-- Whether a get came back with a timeout. -/
def timedOut : GetStage → Bool
  | .finished (.error failure) => failure = .timeout
  | _ => false

/-- The answer of a peer that a get takes with its next step, if it waits for one. -/
def takes : GetStage → List (Except Failure Bytes)
  | .asking (some (_, answer)) => [answer]
  | _ => []

end GetStage

namespace Get.Steps

variable {before after : GetStage} {counted : List Counter}

theorem begun (steps : Steps before after counted) :
    after.begun.toNat = before.begun.toNat + counted.count .gets := by
  cases steps <;> rfl

/-- A step of a get that is on its way counts an outcome, or times out, or leaves it on its
    way. -/
theorem outcome (steps : Steps before after counted) :
    counted.count .gets + before.timedOut.toNat + before.underway.toNat =
      counted.count .cacheHits + counted.count .peerLoads + counted.count .localLoads +
        counted.count .localLoadErrors + after.timedOut.toNat + after.underway.toNat := by
  cases steps with
  | loadFailed time other otherTold =>
    have counts : (GetStage.finished (.error _)).timedOut = false := decide_eq_false otherTold
    rw [counts]
    rfl
  | _ => rfl

theorem loads (steps : Steps before after counted) :
    counted.count .peerLoads = before.takes.countP (fun answer => answer.isOk) := by
  cases steps <;> rfl

theorem errors (steps : Steps before after counted) :
    counted.count .peerErrors = before.takes.countP (fun answer => !answer.isOk) := by
  cases steps <;> rfl

end Get.Steps

/-! ## Flights that keep an account -/

/-- Where a flight stands, if it is a get. -/
def Flight.getStage? : Flight → Option GetStage
  | .get g => some g.stage
  | .removal _ => none

/-- Whether a flight is a get on its way to an outcome. -/
def Flight.underway (flight : Flight) : Bool :=
  flight.getStage?.any GetStage.underway

/-- Whether a flight is a get that came back with a timeout. -/
def Flight.timedOut (flight : Flight) : Bool :=
  flight.getStage?.any GetStage.timedOut

/-- A flight, how often its own steps have counted each counter, and the answers of
    peers that it has taken. -/
structure Tallied where
  flight : Flight
  counted : Counter → Nat
  answers : List (Except Failure Bytes)

namespace Tallied

/-- A flight that has not taken a step. -/
def fresh (flight : Flight) : Tallied := ⟨flight, fun _ => 0, []⟩

/-- A step of a flight, what the counters went up by with it, and the answer that it took. -/
def moved (host : Host σ) (now : Time) (tallied : Tallied) (state : σ) : σ × Tallied :=
  let (next, flight) := tallied.flight.advance host now state
  let counted counter := tallied.counted counter +
    ((host.group next).counters.value counter - (host.group state).counters.value counter)
  (next, ⟨flight, counted, tallied.answers ++ tallied.flight.getStage?.elim [] GetStage.takes⟩)

/-- How often a flight has counted an outcome. -/
def outcomes (tallied : Tallied) : Nat :=
  tallied.counted .cacheHits + tallied.counted .peerLoads + tallied.counted .localLoads +
    tallied.counted .localLoadErrors

/-- A flight counts itself once, if it is a get that has begun, and then one outcome,
    unless it is still on its way or timed out. Of the answers of peers it counts each. -/
structure Fair (tallied : Tallied) : Prop where
  gets : tallied.counted .gets = (tallied.flight.getStage?.any GetStage.begun).toNat
  once : tallied.counted .gets = tallied.outcomes + tallied.flight.timedOut.toNat + tallied.flight.underway.toNat
  loads : tallied.counted .peerLoads = tallied.answers.countP (fun answer => answer.isOk)
  errors : tallied.counted .peerErrors = tallied.answers.countP (fun answer => !answer.isOk)

theorem fair_fresh {flight : Flight} (begins : flight.begins = 1) : (fresh flight).Fair := by
  cases flight with
  | removal removal => exact ⟨rfl, rfl, rfl, rfl⟩
  | get get =>
    obtain ⟨key, deadline, stage⟩ := get
    cases stage with
    | fresh start => exact ⟨rfl, rfl, rfl, rfl⟩
    | asking | loading | finished => cases begins

/-- A step of a flight that goes on counts what it should, in its account as in the counters. -/
theorem Fair.moved {tallied : Tallied} (fair : tallied.Fair) (keeps : host.KeepsCounters) (now : Time) (state : σ)
    (wakes : tallied.flight.wake = some due) :
    (tallied.moved host now state).2.Fair ∧
      ∀ counter, (host.group (tallied.moved host now state).1).counters.value counter + tallied.counted counter =
        (host.group state).counters.value counter + (tallied.moved host now state).2.counted counter := by
  obtain ⟨flight, tally, answers⟩ := tallied
  obtain ⟨gets, once, loads, errors⟩ := fair
  cases flight with
  | removal removal =>
    have same := removal.counters_advance keeps now state
    simp only [Tallied.moved, Flight.advance, Flight.getStage?, Option.elim_none, List.append_nil, same, Nat.sub_self,
      Nat.add_zero, implies_true, and_true]
    exact ⟨gets, once, loads, errors⟩
  | get get =>
    obtain ⟨counted, steps, counts⟩ := get.exists_steps keeps now state wakes
    have values (counter : Counter) :
        (host.group (get.advance host now state).1).counters.value counter =
          (host.group state).counters.value counter + counted.count counter := by
      rw [counts, Counters.value_countAll]
    simp only [Tallied.moved, Flight.advance, values, Nat.add_sub_cancel_left]
    have begun := steps.begun
    have outcome := steps.outcome
    simp only [Flight.getStage?, Flight.timedOut, Flight.underway, outcomes, Option.any_some] at gets once loads errors
    refine ⟨⟨?_, ?_, ?_, ?_⟩, fun counter => by omega⟩
    · simp only [Flight.getStage?, Option.any_some]
      omega
    · simp only [Flight.getStage?, Flight.timedOut, Flight.underway, outcomes, Option.any_some]
      omega
    · simp only [Flight.getStage?, Option.elim_some, List.countP_append, loads, steps.loads]
    · simp only [Flight.getStage?, Option.elim_some, List.countP_append, errors, steps.errors]

end Tallied

/-! ## Any number of flights -/

/-- The flights of a group, and the state that they share. -/
structure Crowd (σ : Type) where
  flights : List Tallied
  state : σ

namespace Crowd

/-- A get or a removal joins, one of them takes a step when it goes on, or something
    happens elsewhere. No flight leaves before it has come back. -/
inductive Step (host : Host σ) : Crowd σ → Crowd σ → Prop where
  | join (crowd : Crowd σ) {flight : Flight} (begins : flight.begins = 1) :
      Step host crowd { crowd with flights := crowd.flights ++ [.fresh flight] }
  | move (before rest : List Tallied) {tallied : Tallied} (state : σ) {due now : Time}
      (wakes : tallied.flight.wake = some due) (comes : due ≤ now) :
      Step host ⟨before ++ tallied :: rest, state⟩
        ⟨before ++ (tallied.moved host now state).2 :: rest, (tallied.moved host now state).1⟩
  | elsewhere (flights : List Tallied) {state next : σ}
      (leaves : ∀ counter, counter ≠ .serverRequests →
        (host.group next).counters.value counter = (host.group state).counters.value counter) :
      Step host ⟨flights, state⟩ ⟨flights, next⟩

/-- Steps of a crowd. -/
def Run (host : Host σ) : Crowd σ → Crowd σ → Prop := Relation.ReflTransGen (Step host)

/-- The answers of peers that the flights have taken. -/
def fetches (crowd : Crowd σ) : List (Except Failure Bytes) :=
  crowd.flights.flatMap Tallied.answers

/-- Every flight counts what it should, and together they have counted all that is counted. -/
structure Accounts (host : Host σ) (crowd : Crowd σ) : Prop where
  fair : ∀ tallied ∈ crowd.flights, tallied.Fair
  total : ∀ counter, counter ≠ .serverRequests → (host.group crowd.state).counters.value counter =
    (crowd.flights.map (fun tallied => tallied.counted counter)).sum

variable {crowd later : Crowd σ}

theorem accounts_start (unused : (host.group state).counters = .zero) : Accounts host ⟨[], state⟩ where
  fair _ listed := absurd listed List.not_mem_nil
  total counter _ := by
    rw [unused]
    cases counter <;> rfl

theorem Accounts.next (accounts : Accounts host crowd) (keeps : host.KeepsCounters) (step : Step host crowd later) :
    Accounts host later := by
  obtain ⟨fair, total⟩ := accounts
  cases step with
  | join _ begins =>
    refine ⟨?_, fun counter counts => ?_⟩
    · intro tallied listed
      rcases List.mem_append.mp listed with old | new
      · exact fair tallied old
      · rw [List.mem_singleton.mp new]
        exact Tallied.fair_fresh begins
    · rw [List.map_append, List.sum_append, ← total counter counts]
      simp [Tallied.fresh]
  | @move before rest tallied state due now wakes comes =>
    have own : tallied.Fair := fair tallied (by simp)
    obtain ⟨fairThen, moves⟩ := own.moved keeps now state wakes
    refine ⟨?_, fun counter counts => ?_⟩
    · intro other listed
      rcases List.mem_append.mp listed with old | here
      · exact fair other (List.mem_append_left _ old)
      · rcases List.mem_cons.mp here with rfl | old
        · exact fairThen
        · exact fair other (List.mem_append_right _ (List.mem_cons_of_mem _ old))
    · have moved := moves counter
      have before_all := total counter counts
      simp only [List.map_append, List.map_cons, List.sum_append, List.sum_cons] at before_all ⊢
      omega
  | elsewhere flights leaves => exact ⟨fair, fun counter counts => (leaves counter counts).trans (total counter counts)⟩

theorem Accounts.run (accounts : Accounts host crowd) (keeps : host.KeepsCounters) (run : Run host crowd later) :
    Accounts host later := by
  induction run with
  | refl => exact accounts
  | tail _ step ih => exact ih.next keeps step

/-- Of flights that count what they should, the gets are the outcomes, the timeouts, and
    those on their way. -/
theorem sum_gets {flights : List Tallied} (fair : ∀ tallied ∈ flights, tallied.Fair) :
    (flights.map (fun tallied => tallied.counted .gets)).sum =
      (flights.map (fun tallied => tallied.outcomes)).sum + flights.countP (fun tallied => tallied.flight.timedOut) +
        flights.countP (fun tallied => tallied.flight.underway) := by
  induction flights with
  | nil => rfl
  | cons tallied rest ih =>
    have own := (fair tallied List.mem_cons_self).once
    have others := ih (fun other listed => fair other (List.mem_cons_of_mem _ listed))
    simp only [List.map_cons, List.sum_cons, List.countP_cons]
    cases timedOut : tallied.flight.timedOut <;> cases underway : tallied.flight.underway
    all_goals
      simp only [timedOut, underway, Bool.toNat_true, Bool.toNat_false, if_true, if_false, Bool.false_eq_true] at own ⊢
      omega

theorem sum_outcomes (flights : List Tallied) :
    (flights.map (fun tallied => tallied.outcomes)).sum =
      (flights.map (fun tallied => tallied.counted .cacheHits)).sum +
        (flights.map (fun tallied => tallied.counted .peerLoads)).sum +
        (flights.map (fun tallied => tallied.counted .localLoads)).sum +
        (flights.map (fun tallied => tallied.counted .localLoadErrors)).sum := by
  induction flights with
  | nil => rfl
  | cons tallied rest ih =>
    rw [List.map_cons, List.sum_cons, ih, Tallied.outcomes]
    simp only [List.map_cons, List.sum_cons]
    omega

/-- However gets and removals of a group overlap, at every moment since nothing was counted:
    the gets that began are the hits, the loads and the failed loads that were counted, the
    gets that came back with a timeout, and those still on their way; a get that came back
    counted one outcome, or none if it timed out; and the fetches from peers that are over
    are those counted as loads and those counted as errors, which are the failed ones. -/
theorem counters_add_up (keeps : host.KeepsCounters) (unused : (host.group state).counters = .zero)
    (run : Run host ⟨[], state⟩ crowd) :
    let counters := (host.group crowd.state).counters
    counters.gets = counters.cacheHits + counters.peerLoads + counters.localLoads + counters.localLoadErrors +
      crowd.flights.countP (fun tallied => tallied.flight.timedOut) +
      crowd.flights.countP (fun tallied => tallied.flight.underway) ∧
    (∀ counter, counter ≠ .serverRequests →
      counters.value counter = (crowd.flights.map (fun tallied => tallied.counted counter)).sum) ∧
    (∀ tallied ∈ crowd.flights, ∀ result, tallied.flight.getStage? = some (.finished result) →
      tallied.counted .gets = 1 ∧ (result = .error .timeout → tallied.outcomes = 0) ∧
        (result ≠ .error .timeout → tallied.outcomes = 1)) ∧
    counters.peerErrors = crowd.fetches.countP (fun answer => !answer.isOk) ∧
    counters.peerLoads + counters.peerErrors = crowd.fetches.length := by
  obtain ⟨fair, total⟩ := (accounts_start unused).run keeps run
  intro counters
  have gets : counters.gets = _ := total .gets nofun
  have hits : counters.cacheHits = _ := total .cacheHits nofun
  have peerLoads : counters.peerLoads = _ := total .peerLoads nofun
  have peerErrors : counters.peerErrors = _ := total .peerErrors nofun
  have localLoads : counters.localLoads = _ := total .localLoads nofun
  have localLoadErrors : counters.localLoadErrors = _ := total .localLoadErrors nofun
  have errors : counters.peerErrors = crowd.fetches.countP (fun answer => !answer.isOk) := by
    rw [peerErrors, fetches, List.countP_flatMap]
    exact congrArg List.sum (List.map_congr_left fun tallied listed => (fair tallied listed).errors)
  have loads : counters.peerLoads = crowd.fetches.countP (fun answer => answer.isOk) := by
    rw [peerLoads, fetches, List.countP_flatMap]
    exact congrArg List.sum (List.map_congr_left fun tallied listed => (fair tallied listed).loads)
  refine ⟨?_, total, ?_, errors, ?_⟩
  · rw [gets, sum_gets fair, sum_outcomes, hits, peerLoads, localLoads, localLoadErrors]
  · intro tallied listed result finished
    obtain ⟨begun, once, _, _⟩ := fair tallied listed
    simp only [Flight.timedOut, Flight.underway, finished, Option.any_some, GetStage.begun, GetStage.underway,
      Bool.toNat_true, Bool.toNat_false] at begun once
    refine ⟨begun, fun late => ?_, fun other => ?_⟩
    · subst late
      have counts : (GetStage.finished (.error .timeout)).timedOut.toNat = 1 := rfl
      omega
    · have counts : (GetStage.finished result).timedOut.toNat = 0 := by
        cases result with
        | ok value => rfl
        | error failure => simpa [GetStage.timedOut] using other
      omega
  · rw [errors, loads, List.length_eq_countP_add_countP (fun answer : Except Failure Bytes => answer.isOk)]
    simp

/-- A group whose one peer fails, and whose loader answers at once. -/
def scene : Scene where
  group := .new "g" 100
  loader := .follow ⟨[⟨none, .value [7]⟩], .empty⟩
  peers := [⟨"x:1", .follow ⟨[⟨none, .fails (.internal "down")⟩], .empty⟩, .follow ⟨[], .empty⟩⟩]
  route _ := some 0
  loads := []
  calls := []

/-- A get that has not begun. -/
def fresh : Tallied := .fresh (.startGet 0 .never "k")

/-- The first of two gets has asked the peer. -/
def first : Scene × Tallied := fresh.moved Scene.host 0 scene

/-- The second one has, too. -/
def second : Scene × Tallied := fresh.moved Scene.host 0 first.1

/-- The first one has heard that the peer failed. -/
def fallen : Scene × Tallied := first.2.moved Scene.host 0 second.1

/-- The first one has come back with a value from the loader. -/
def back : Scene × Tallied := fallen.2.moved Scene.host 0 fallen.1

theorem run_back : Run Scene.host ⟨[], scene⟩ ⟨[back.2, second.2], back.1⟩ := by
  have joined : Run Scene.host ⟨[], scene⟩ ⟨[fresh], scene⟩ := .single (.join ⟨[], scene⟩ rfl)
  have both : Run Scene.host ⟨[], scene⟩ ⟨[fresh, fresh], scene⟩ := joined.tail (.join ⟨[fresh], scene⟩ rfl)
  have asked : Run Scene.host ⟨[], scene⟩ ⟨[first.2, fresh], first.1⟩ :=
    both.tail (@Step.move _ Scene.host [] [fresh] fresh scene 0 0 rfl (Nat.le_refl 0))
  have askedTwice : Run Scene.host ⟨[], scene⟩ ⟨[first.2, second.2], second.1⟩ :=
    asked.tail (@Step.move _ Scene.host [first.2] [] fresh first.1 0 0 rfl (Nat.le_refl 0))
  have failed : first.2.flight.wake = some 0 := by decide +kernel
  have fell : Run Scene.host ⟨[], scene⟩ ⟨[fallen.2, second.2], fallen.1⟩ :=
    askedTwice.tail (@Step.move _ Scene.host [] [second.2] first.2 second.1 0 0 failed (Nat.le_refl 0))
  have loaded : fallen.2.flight.wake = some 0 := by decide +kernel
  exact fell.tail (@Step.move _ Scene.host [] [second.2] fallen.2 fallen.1 0 0 loaded (Nat.le_refl 0))

/-- Of two gets one was loaded here after its fetch had failed, and one is still on its way. -/
theorem counters_add_up_of_overlap :
    Scene.host.KeepsCounters ∧ (Scene.host.group scene).counters = .zero ∧
    Run Scene.host ⟨[], scene⟩ ⟨[back.2, second.2], back.1⟩ ∧
    (Scene.host.group back.1).counters = ⟨2, 0, 0, 1, 1, 0, 0⟩ ∧ back.2.outcomes = 1 ∧
    (⟨[back.2, second.2], back.1⟩ : Crowd Scene).fetches.length = 1 := by
  have unused : (Scene.host.group scene).counters = .zero := rfl
  obtain ⟨_, _, once, _, fetches⟩ := counters_add_up Scene.keepsCounters unused run_back
  have counters : (Scene.host.group back.1).counters = ⟨2, 0, 0, 1, 1, 0, 0⟩ := by decide +kernel
  have value : back.2.flight.getStage? = some (.finished (.ok [7])) := by rfl
  have own := once back.2 List.mem_cons_self (.ok [7]) value
  rw [counters] at fetches
  exact ⟨Scene.keepsCounters, unused, run_back, counters, own.2.2 nofun, fetches.symm⟩

/-- What a schedule does with flights is a run of them, so it keeps the counters as well. -/
theorem exists_run_schedule (host : Host σ) (now : Time) (flights : List Tallied) (state : σ) :
    ∃ after, after.map Tallied.flight = (Schedule.run host now (flights.map Tallied.flight) state).2.1 ∧
      Run host ⟨flights, state⟩ ⟨after, (Schedule.run host now (flights.map Tallied.flight) state).2.2⟩ := by
  generalize same : flights.map Tallied.flight = all
  fun_induction Schedule.run host now all state generalizing flights with
  | case1 now all state nothing => exact ⟨flights, same, .refl⟩
  | case2 now all state p picked moved ih =>
    obtain ⟨parts, wakes⟩ := Schedule.pick_eq_some picked
    rw [parts] at same
    obtain ⟨before, others, rfl, first, last⟩ := List.map_eq_append_iff.mp same
    obtain ⟨tallied, rest, rfl, own, final⟩ := List.map_eq_cons_iff.mp last
    rw [← own] at wakes
    have step := @Step.move _ host before rest _ state _ _ wakes (Nat.le_max_right now p.time)
    obtain ⟨after, ends, run⟩ := ih (before ++ (tallied.moved host (max now p.time) state).2 :: rest) (by
      simp only [List.map_append, List.map_cons, first, final, Tallied.moved, own]
      rfl)
    refine ⟨after, ends, .head step ?_⟩
    have same_state : (tallied.moved host (max now p.time) state).1 = moved.1 := by
      simp only [Tallied.moved, own]
      rfl
    rw [same_state]
    exact run

end Crowd

end RingCache
