import Mathlib.Algebra.Ring.Nat
import RingCache.Proofs.Staleness

/-!
# Removals visit every peer

A removal drops its key here and then goes to all peers in their order, to each as soon as the
one before has answered, whatever the answer was (`Round`). Each learns the name of the group,
the key, and what is left of the deadline when it is asked. Only the first failure is kept for
the end (`Host.remove_visits_peers`). What the peers were asked for is recorded as they are
asked (`Host.recorded`), and the record changes nothing of the removal.
-/
namespace RingCache

variable {σ : Type} {host : Host σ} {deadline : Deadline} {name key : String} {now : Time} {state : σ}

/-! ## Visits -/

/-- What a peer was asked for by a removal, when, with which budget, and what came of it. -/
structure Visit where
  peer : Peer
  time : Time
  group : String
  key : String
  budget : Option UInt64
  answer : Work (Except Failure Unit)

namespace Visit

/-- How long the peer took, if it answered. -/
def span (visit : Visit) : Time :=
  match visit.answer with
  | .after delay _ => delay
  | .never => 0

/-- The failure that the peer answered with. -/
def failure? (visit : Visit) : Option Failure :=
  match visit.answer with
  | .after _ (.error failure) => some failure
  | _ => none

end Visit

/-- A host that keeps a record of the peers that removals visit. -/
def Host.recorded (host : Host σ) : Host (σ × List Visit) where
  group state := host.group state.1
  putGroup group state := (host.putGroup group state.1, state.2)
  owner state key := host.owner state.1 key
  peers state := host.peers state.1
  fetch peer now deadline name key state :=
    let (next, work) := host.fetch peer now deadline name key state.1
    ((next, state.2), work)
  forget peer now deadline name key state :=
    let (next, work) := host.forget peer now deadline name key state.1
    ((next, state.2 ++ [⟨peer, now, name, key, deadline.budget now, work⟩]), work)
  load now deadline key state :=
    let (next, work) := host.load now deadline key state.1
    ((next, state.2), work)

/-- The visits of a removal that goes to peers from a time on. Each peer is visited when the one
    before has answered; one that never answers is the last. -/
inductive Round (deadline : Deadline) (name key : String) : Time → List Peer → List Visit → Prop where
  | done (now : Time) : Round deadline name key now [] []
  | waits (now : Time) (peer : Peer) (rest : List Peer) :
      Round deadline name key now (peer :: rest) [⟨peer, now, name, key, deadline.budget now, .never⟩]
  | answered (now : Time) (peer : Peer) {rest : List Peer} {visits : List Visit} (delay : Time)
      (answer : Except Failure Unit) (others : Round deadline name key (now + delay) rest visits) :
      Round deadline name key now (peer :: rest)
        (⟨peer, now, name, key, deadline.budget now, .after delay answer⟩ :: visits)

namespace Round

variable {peers : List Peer} {visits : List Visit}

/-- Each peer is asked for the same key of the same group, once those before it have answered,
    and is told what is left of the deadline then. -/
theorem visit_eq (round : Round deadline name key now peers visits) {i : Nat} {visit : Visit}
    (found : visits[i]? = some visit) :
    visit.group = name ∧ visit.key = key ∧ visit.time = now + ((visits.take i).map Visit.span).sum ∧
      visit.budget = deadline.budget visit.time := by
  induction round generalizing i with
  | done now => cases found
  | waits now peer rest =>
    cases i with
    | zero =>
      cases found
      exact ⟨rfl, rfl, rfl, rfl⟩
    | succ i => cases found
  | answered now peer delay answer others ih =>
    cases i with
    | zero =>
      cases found
      exact ⟨rfl, rfl, rfl, rfl⟩
    | succ i =>
      obtain ⟨named, keyed, timed, budgeted⟩ := ih found
      refine ⟨named, keyed, ?_, budgeted⟩
      rw [timed, List.take_succ_cons, List.map_cons, List.sum_cons, Visit.span, ← Nat.add_assoc]

/-- All peers are visited, once each and in their order, or those up to one that never answers. -/
theorem peers_eq (round : Round deadline name key now peers visits) :
    peers = visits.map Visit.peer ∧ (∀ visit ∈ visits, visit.answer ≠ .never) ∨
      ∃ earlier silent unvisited, visits = earlier ++ [silent] ∧ peers = visits.map Visit.peer ++ unvisited ∧
        silent.answer = .never ∧ ∀ visit ∈ earlier, visit.answer ≠ .never := by
  induction round with
  | done now => exact .inl ⟨rfl, List.forall_mem_nil _⟩
  | waits now peer rest => exact .inr ⟨[], _, rest, rfl, rfl, rfl, List.forall_mem_nil _⟩
  | answered now peer delay answer others ih =>
    have own : Work.after delay answer ≠ .never := by
      intro same
      cases same
    rcases ih with ⟨rfl, answered⟩ | ⟨earlier, silent, unvisited, rfl, rfl, never, answered⟩
    · exact .inl ⟨rfl, List.forall_mem_cons.mpr ⟨own, answered⟩⟩
    · exact .inr ⟨_ :: earlier, silent, unvisited, rfl, rfl, never, List.forall_mem_cons.mpr ⟨own, answered⟩⟩

end Round

/-! ## The record changes nothing -/

variable (host) in
/-- A step is the same with a record as without. -/
theorem Flight.advance_recorded (flight : Flight) (now : Time) (state : σ × List Visit) :
    (flight.advance host.recorded now state).map Prod.fst id = flight.advance host now state.1 := by
  obtain ⟨key, deadline, stage⟩ | ⟨key, deadline, first, stage⟩ := flight
  · cases stage with
    | fresh start =>
      simp only [advance, Get.advance, Get.begin, Host.recorded]
      rcases (host.group state.1).lookup key with ⟨group, value | _⟩
      · cases host.owner (host.putGroup group state.1) key <;> rfl
      · rfl
    | asking answer =>
      obtain _ | ⟨due, answer⟩ := answer
      · rfl
      · simp only [advance, Get.advance, Get.takePeer, Host.recorded]
        rcases (host.group state.1).peerAnswered answer with ⟨group, _ | _⟩ <;> rfl
    | loading answer => cases answer <;> rfl
    | finished result => rfl
  · cases stage with
    | fresh start =>
      simp only [advance, Removal.advance, Host.recorded]
      cases host.peers (host.putGroup ((host.group state.1).localRemove key) state.1) <;> rfl
    | visiting rest answer =>
      obtain _ | ⟨due, _ | _⟩ := answer
      · rfl
      · cases rest <;> rfl
      · cases rest <;> rfl
    | finished result => rfl

variable (host) in
/-- Flights take the same course with a record as without. -/
theorem Schedule.run_recorded (now : Time) (flights : List Flight) (state : σ × List Visit) :
    (run host.recorded now flights state).map id (Prod.map id Prod.fst) = run host now flights state.1 := by
  fun_induction run host.recorded now flights state with
  | case1 now flights state none =>
    rw [run]
    split
    next => rfl
    next p picked =>
      rw [none] at picked
      cases picked
  | case2 now flights state p picked moved ih =>
    refine ih.trans (Eq.symm ?_)
    rw [run]
    split
    next none =>
      rw [none] at picked
      cases picked
    next q same =>
      rw [picked] at same
      cases same
      rw [← Flight.advance_recorded]
      rfl

variable (host) in
/-- A removal takes the same course with a record as without. -/
theorem Host.remove_recorded (now : Time) (deadline : Deadline) (key : String) (state : σ × List Visit) :
    (host.recorded.remove now deadline key state).map Prod.fst id = host.remove now deadline key state.1 := by
  have ran := Schedule.run_recorded host now [.startRemoval now deadline key] state
  rw [remove, remove, ← ran]
  rfl

/-! ## A removal and its round -/

/-- A peer that is asked to drop a key may drop it here too, and changes nothing else of what is
    stored here. -/
structure Host.ForgetsOnly (host : Host σ) : Prop where
  group_putGroup : ∀ group state, host.group (host.putGroup group state) = group
  name_forget : ∀ peer now deadline name key state,
    (host.group (host.forget peer now deadline name key state).1).name = (host.group state).name
  find?_forget : ∀ peer now deadline name key state other,
    let after := (host.group (host.forget peer now deadline name key state).1).store.find? other
    after = (host.group state).store.find? other ∨ other = key ∧ after = none

theorem Scene.forgetsOnly : Scene.host.ForgetsOnly where
  group_putGroup _ _ := rfl
  name_forget peer now deadline name key scene := by
    simp only [host]
    split <;> rfl
  find?_forget peer now deadline name key scene other :=
    .inl (congrArg (·.find? other) (keepsStore.forget peer now deadline name key scene))

/-- How a removal that has met a first failure, or none, stands after visits that began at a
    time: it waits for a peer that never answers, or has finished when all have answered. -/
inductive Removal.Ends (first : Option Failure) (now : Time) (visits : List Visit) : RemovalStage → Time → Prop where
  | stuck {rest : List Peer} {finish : Time} (silent : ∃ visit ∈ visits, visit.answer = .never) :
      Ends first now visits (.visiting rest none) finish
  | finished (answered : ∀ visit ∈ visits, visit.answer ≠ .never) :
      Ends first now visits (.finished ((first.or (visits.findSome? Visit.failure?)).elim (.ok ()) .error))
        (now + (visits.map Visit.span).sum)

theorem Removal.Ends.answered {visits : List Visit} {first : Option Failure} {delay finish : Time}
    {answer : Except Failure Unit} {stage : RemovalStage} {visit : Visit} (came : visit.answer = .after delay answer)
    (ends : Removal.Ends (first.or visit.failure?) (now + delay) visits stage finish) :
    Removal.Ends first now (visit :: visits) stage finish := by
  cases ends with
  | stuck silent =>
    obtain ⟨other, listed, never⟩ := silent
    exact .stuck ⟨other, List.mem_cons_of_mem _ listed, never⟩
  | finished all =>
    have own : visit.answer ≠ .never := by simp [came]
    have span : visit.span = delay := by rw [Visit.span, came]
    have found : (visit :: visits).findSome? Visit.failure? =
        visit.failure?.or (visits.findSome? Visit.failure?) := by
      rw [← List.singleton_append, List.findSome?_append, List.findSome?_singleton]
    have ends : Removal.Ends first now (visit :: visits) _ _ := .finished (List.forall_mem_cons.mpr ⟨own, all⟩)
    rwa [found, ← Option.or_assoc, List.map_cons, List.sum_cons, span, ← Nat.add_assoc] at ends

/-- A removal that waits for a peer goes on with its answer. -/
theorem Removal.advance_visiting (host : Host σ) (removal : Removal) (now due : Time) (rest : List Peer)
    (answer : Except Failure Unit) (state : σ) :
    ({ removal with stage := .visiting rest (some (due, answer)) } : Removal).advance host now state =
      (removal.note answer).visit host now rest state := by
  cases answer <;> cases rest <;> rfl

/-- A visit is recorded. -/
theorem Removal.visit_recorded {removal : Removal} {peer : Peer} {rest : List Peer} {next : σ}
    {work : Work (Except Failure Unit)} (log : List Visit)
    (asked : host.forget peer now removal.deadline (host.group state).name removal.key state = (next, work)) :
    removal.visit host.recorded now (peer :: rest) (state, log) =
      ((next, log ++ [⟨peer, now, (host.group state).name, removal.key, removal.deadline.budget now, work⟩]),
        { removal with stage := .visiting rest (work.due now) }) := by
  simp only [visit, Host.recorded, asked]

/-- A removal that goes on to visit peers makes its round of them, and of what is stored here
    only its key may go. -/
theorem Host.ForgetsOnly.run_visit (forgets : host.ForgetsOnly) (peers : List Peer) (removal : Removal) (now : Time)
    (state : σ) (log : List Visit) :
    let visited := removal.visit host.recorded now peers (state, log)
    ∃ finish ended last visits,
      Schedule.run host.recorded now [.removal visited.2] visited.1 = (finish, [.removal ended], last, log ++ visits) ∧
      Round removal.deadline (host.group state).name removal.key now peers visits ∧
      Removal.Ends removal.firstFailure now visits ended.stage finish ∧
      ∀ other, (host.group last).store.find? other = (host.group state).store.find? other ∨
        other = removal.key ∧ (host.group last).store.find? other = none := by
  induction peers generalizing removal now state log with
  | nil =>
    refine ⟨now, { removal with stage := .finished removal.outcome }, state, [], ?_, .done now, ?_, fun other => .inl rfl⟩
    · rw [List.append_nil]
      exact Schedule.run_alone_of_stays rfl
    · have outcome : removal.outcome = removal.firstFailure.elim (.ok ()) .error := by
        rw [Removal.outcome]
        cases removal.firstFailure <;> rfl
      have ends : Removal.Ends removal.firstFailure now [] _ _ := .finished (List.forall_mem_nil _)
      rwa [List.findSome?_nil, Option.or_none, ← outcome] at ends
  | cons peer rest ih =>
    have named := forgets.name_forget peer now removal.deadline (host.group state).name removal.key state
    have kept := forgets.find?_forget peer now removal.deadline (host.group state).name removal.key state
    rcases asked : host.forget peer now removal.deadline (host.group state).name removal.key state with ⟨next, work⟩
    rw [asked] at named kept
    rw [Removal.visit_recorded log asked]
    cases work with
    | never =>
      exact ⟨now, _, next, _, Schedule.run_alone_of_stays rfl, .waits now peer rest,
        .stuck ⟨_, List.mem_singleton_self _, rfl⟩, kept⟩
    | after delay answer =>
      let visit : Visit :=
        ⟨peer, now, (host.group state).name, removal.key, removal.deadline.budget now, .after delay answer⟩
      obtain ⟨finish, ended, last, visits, ran, round, ends, left⟩ :=
        ih (removal.note answer) (now + delay) next (log ++ [visit])
      have noted : (removal.note answer).deadline = removal.deadline ∧ (removal.note answer).key = removal.key ∧
          (removal.note answer).firstFailure = removal.firstFailure.or visit.failure? := by
        cases answer <;> simp [Removal.note, visit, Visit.failure?]
      obtain ⟨deadline, key, failure⟩ := noted
      rw [deadline, key, named] at round
      rw [failure] at ends
      rw [key] at left
      refine ⟨finish, ended, last, visit :: visits, ?_, .answered now peer delay answer round, ends.answered rfl, ?_⟩
      · rw [Schedule.run_alone_of_wakes rfl (Nat.le_add_right now delay)]
        simp only [Work.due, Flight.advance, Removal.advance_visiting]
        rw [ran, List.append_assoc]
        rfl
      · intro other
        rcases left other with same | dropped
        · rw [same]
          exact kept other
        · exact .inr dropped

/-- What a removal comes back with after visits that began with it. -/
theorem Removal.Ends.result {visits : List Visit} {finish : Time} {ended : Removal}
    (ends : Removal.Ends none now visits ended.stage finish) :
    (∃ visit ∈ visits, visit.answer = .never) ∧ Schedule.removalResult now finish (.removal ended) = .never ∨
      (∀ visit ∈ visits, visit.answer ≠ .never) ∧ Schedule.removalResult now finish (.removal ended) =
        .after (visits.map Visit.span).sum ((visits.findSome? Visit.failure?).elim (.ok ()) .error) := by
  obtain ⟨key, deadline, failure, stage⟩ := ended
  cases ends with
  | stuck silent => exact .inl ⟨silent, rfl⟩
  | finished answered =>
    refine .inr ⟨answered, ?_⟩
    rw [Schedule.removalResult, Option.none_or, Nat.add_sub_cancel_left]

/-- Peers that all answered have all succeeded if none of them failed. -/
theorem Visit.findSome?_failure?_eq_none {visits : List Visit} (answered : ∀ visit ∈ visits, visit.answer ≠ .never) :
    visits.findSome? Visit.failure? = none ↔ ∀ visit ∈ visits, ∃ delay, visit.answer = .after delay (.ok ()) := by
  rw [List.findSome?_eq_none_iff]
  refine forall₂_congr fun visit listed => ?_
  have came := answered visit listed
  rw [failure?]
  rcases known : visit.answer with ⟨delay, failure | done⟩ | _
  · simp
  · simp
  · contradiction

/-- A removal drops its key and no other. It goes to the peers in their order, to each once and
    as soon as those before have answered, with the name of the group, the key and the budget
    that is left then, whatever the others answered. When all have answered it succeeds if all
    succeeded, and else fails with the first failure in the order of the peers. Only a peer that
    never answers keeps it from the peers after it, and from coming back. -/
theorem Host.remove_visits_peers (forgets : host.ForgetsOnly) (now : Time) (deadline : Deadline) (key : String) (state : σ) :
    let peers := host.peers (host.putGroup ((host.group state).localRemove key) state)
    ∃ last visits work,
      host.recorded.remove now deadline key (state, []) = ((last, visits), work) ∧
      host.remove now deadline key state = (last, work) ∧
      (∀ other, (host.group last).store.find? other =
        if other = key then none else (host.group state).store.find? other) ∧
      (∀ i visit, visits[i]? = some visit →
        visit.group = (host.group state).name ∧ visit.key = key ∧
          visit.time = now + ((visits.take i).map Visit.span).sum ∧ visit.budget = deadline.budget visit.time) ∧
      ((∃ result, work = .after (visits.map Visit.span).sum result ∧
          peers = visits.map Visit.peer ∧
          (result = .ok () ↔ ∀ visit ∈ visits, ∃ delay, visit.answer = .after delay (.ok ())) ∧
          ∀ failure, result = .error failure ↔ visits.findSome? Visit.failure? = some failure) ∨
        work = .never ∧ ∃ earlier silent unvisited, visits = earlier ++ [silent] ∧
          peers = visits.map Visit.peer ++ unvisited ∧
          silent.answer = .never ∧ ∀ visit ∈ earlier, visit.answer ≠ .never) := by
  intro peers
  have begins : (Flight.startRemoval now deadline key).wake = some now := rfl
  obtain ⟨finish, ended, last, visits, ran, round, ends, left⟩ :=
    forgets.run_visit peers ⟨key, deadline, none, .fresh now⟩ now
      (host.putGroup ((host.group state).localRemove key) state) []
  have recorded : host.recorded.remove now deadline key (state, []) =
      ((last, visits), Schedule.removalResult now finish (.removal ended)) := by
    rw [Host.remove, Schedule.run_alone_of_wakes begins (Nat.le_refl now)]
    simp only [Flight.startRemoval, Flight.advance, Removal.advance]
    exact congrArg (fun ran => (ran.2.2, ran.2.1.head?.elim .never (Schedule.removalResult now ran.1))) ran
  have plain := Host.remove_recorded host now deadline key (state, [])
  rw [recorded] at plain
  simp only [forgets.group_putGroup] at round left
  refine ⟨last, visits, _, recorded, plain.symm, ?_, fun i visit found => round.visit_eq found, ?_⟩
  · intro other
    have dropped := Store.find?_invalidate (host.group state).store key other
    rcases left other with same | ⟨rfl, none⟩
    · exact same.trans dropped
    · rw [none, if_pos rfl]
  · rcases ends.result with ⟨⟨visit, listed, never⟩, result⟩ | ⟨answered, result⟩
    · right
      refine ⟨result, ?_⟩
      rcases round.peers_eq with ⟨-, answered⟩ | stuck
      · exact absurd never (answered visit listed)
      · exact stuck
    · left
      refine ⟨_, result, ?_, ?_, ?_⟩
      · rcases round.peers_eq with ⟨all, -⟩ | ⟨earlier, silent, unvisited, rfl, -, never, -⟩
        · exact all
        · exact absurd never (answered silent (by simp))
      · rw [← Visit.findSome?_failure?_eq_none answered]
        cases visits.findSome? Visit.failure? <;> simp
      · intro failure
        cases visits.findSome? Visit.failure? <;> simp

/-- A group that keeps two keys, with three peers: one that fails to drop a key after a third of
    a second, one that takes two seconds, and one that succeeds at once. -/
def sweptScene : Scene where
  group := ((((Group.new "g" 100).loaded "k" (.ok [1])).1).loaded "l" (.ok [2])).1
  loader := .follow ⟨[⟨none, .value [7]⟩], .empty⟩
  peers := [⟨"x:1", .follow ⟨[], .empty⟩, .follow ⟨[⟨some 300000, .fails (.internal "down")⟩], .empty⟩⟩,
    ⟨"y:1", .follow ⟨[], .empty⟩, .follow ⟨[⟨some 2000000, .value []⟩], .empty⟩⟩,
    ⟨"z:1", .follow ⟨[], .empty⟩, .follow ⟨[⟨none, .value []⟩], .empty⟩⟩]
  route _ := none
  loads := []
  calls := []

/-- The visits of a removal under a deadline of a second. -/
def sweptVisits : List Visit :=
  [⟨⟨"x:1", 0⟩, 0, "g", "k", some 1000, .after 300000 (.error (.internal "down"))⟩,
    ⟨⟨"y:1", 1⟩, 300000, "g", "k", some 700, .after 700000 (.error .timeout)⟩,
    ⟨⟨"z:1", 2⟩, 1000000, "g", "k", some 0, .after 0 (.ok ())⟩]

/-- The peers after one that fails and one that overruns the deadline are still visited, the last
    with nothing left of it. The failure is that of the first, the key is gone, and the other
    key is kept. -/
theorem remove_visits_peers_of_sweptScene :
    Scene.host.ForgetsOnly ∧
    ∃ last, Scene.host.recorded.remove 0 (.upTo 1000000) "k" (sweptScene, []) =
        ((last, sweptVisits), .after 1000000 (.error (.internal "down"))) ∧
      (Scene.host.group last).store.find? "k" = none ∧ (Scene.host.group last).store.find? "l" = some [2] := by
  have visited : (Scene.host.recorded.remove 0 (.upTo 1000000) "k" (sweptScene, [])).1.2 = sweptVisits := by cbv
  have came : (Scene.host.recorded.remove 0 (.upTo 1000000) "k" (sweptScene, [])).2 =
      .after 1000000 (.error (.internal "down")) := by cbv
  obtain ⟨last, visits, work, recorded, -, kept, -⟩ :=
    Host.remove_visits_peers Scene.forgetsOnly 0 (.upTo 1000000) "k" sweptScene
  rw [recorded] at visited came
  cases visited
  cases came
  have other : (Scene.host.group sweptScene).store.find? "l" = some [2] := by rfl
  exact ⟨Scene.forgetsOnly, last, recorded, kept "k", (kept "l").trans other⟩

end RingCache
