import RingCache.Deadline
import RingCache.Group
import RingCache.Peer

/-!
# Gets and removals in progress

A `Host` is what a group lives in and draws on: its routing, its peers and its
loader. A get passes through the steps of its group, and waits between them for
a peer and for the loader; a removal drops its key here and then visits all
peers, one after another. `Flight.advance` is one step of either, and nothing
else happens to a group in between: gets and removals that overlap are steps of
several flights in some order.
-/
namespace RingCache

/-- An answer that is on its way: the time when it comes, and what it is; none
    if it never comes. -/
abbrev Due (α : Type) := Option (Time × α)

/-- The answer of work that starts now. -/
def Work.due {α : Type} (now : Time) : Work α → Due α
  | .after delay result => some (now + delay, result)
  | .never => none

/-- What a group lives in and draws on, over a state of type `σ`. What a peer or
    the loader is asked for may change the state at once; the answer comes
    later. -/
structure Host (σ : Type) where
  group : σ → Group
  putGroup : Group → σ → σ
  /-- The peer that owns a key, or none if the key is served here. -/
  owner : σ → (key : String) → Option Peer
  /-- The peers that a removal visits, in order. -/
  peers : σ → List Peer
  fetch : Peer → Time → Deadline → (group key : String) → σ → σ × Work (Except Failure Bytes)
  forget : Peer → Time → Deadline → (group key : String) → σ → σ × Work (Except Failure Unit)
  load : Time → Deadline → (key : String) → σ → σ × Work (Except Failure Bytes)

/-! ## Gets -/

/-- Where a get stands. -/
inductive GetStage where
  /-- It begins at a time. -/
  | fresh (start : Time)
  /-- It waits for a peer. -/
  | asking (answer : Due (Except Failure Bytes))
  /-- It waits for the loader. -/
  | loading (answer : Due (Except Failure Bytes))
  | finished (result : Except Failure Bytes)

/-- A get of a key under a deadline. -/
structure Get where
  key : String
  deadline : Deadline
  stage : GetStage

namespace Get
variable {σ : Type}

/-- The get after it asked the loader, which is bounded by its deadline. -/
def askLoader (host : Host σ) (now : Time) (get : Get) (state : σ) : σ × Get :=
  let (state, work) := host.load now get.deadline get.key state
  (state, { get with stage := .loading ((get.deadline.bound now work).due now) })

/-- The get after it asked a peer. -/
def askPeer (host : Host σ) (now : Time) (peer : Peer) (get : Get) (state : σ) : σ × Get :=
  let (state, work) := host.fetch peer now get.deadline (host.group state).name get.key state
  (state, { get with stage := .asking (work.due now) })

/-- The get begins. -/
def begin (host : Host σ) (now : Time) (get : Get) (state : σ) : σ × Get :=
  let (group, found) := (host.group state).lookup get.key
  let state := host.putGroup group state
  match found with
  | some value => (state, { get with stage := .finished (.ok value) })
  | none =>
    match host.owner state get.key with
    | some peer => get.askPeer host now peer state
    | none => get.askLoader host now state

/-- The get takes the answer of a peer. -/
def takePeer (host : Host σ) (now : Time) (answer : Except Failure Bytes) (get : Get) (state : σ) : σ × Get :=
  let (group, verdict) := (host.group state).peerAnswered answer
  let state := host.putGroup group state
  match verdict with
  | .settled result => (state, { get with stage := .finished result })
  | .loadHere => get.askLoader host now state

/-- The get takes the answer of the loader. -/
def takeLoader (host : Host σ) (answer : Except Failure Bytes) (get : Get) (state : σ) : σ × Get :=
  let (group, result) := (host.group state).loaded get.key answer
  (host.putGroup group state, { get with stage := .finished result })

/-- One step of a get. One that waits for an answer that never comes, or that
    has finished, stays as it is. -/
def advance (host : Host σ) (now : Time) (get : Get) (state : σ) : σ × Get :=
  match get.stage with
  | .fresh _ => get.begin host now state
  | .asking (some (_, answer)) => get.takePeer host now answer state
  | .loading (some (_, answer)) => get.takeLoader host answer state
  | .asking none | .loading none | .finished _ => (state, get)

end Get

/-! ## Removals -/

/-- Where a removal stands. -/
inductive RemovalStage where
  /-- It begins at a time. -/
  | fresh (start : Time)
  /-- It waits for a peer, with more peers to visit. -/
  | visiting (rest : List Peer) (answer : Due (Except Failure Unit))
  | finished (result : Except Failure Unit)

/-- A removal of a key under a deadline, and the first failure that it met. -/
structure Removal where
  key : String
  deadline : Deadline
  firstFailure : Option Failure
  stage : RemovalStage

namespace Removal
variable {σ : Type}

/-- The outcome of a removal that has visited all peers. -/
def outcome (removal : Removal) : Except Failure Unit :=
  match removal.firstFailure with
  | none => .ok ()
  | some failure => .error failure

/-- The removal goes on to the next of the peers. -/
def visit (host : Host σ) (now : Time) (peers : List Peer) (removal : Removal) (state : σ) : σ × Removal :=
  match peers with
  | [] => (state, { removal with stage := .finished removal.outcome })
  | peer :: rest =>
    let (state, work) := host.forget peer now removal.deadline (host.group state).name removal.key state
    (state, { removal with stage := .visiting rest (work.due now) })

/-- The removal with the answer of a peer noted: the first failure is kept. -/
def note (removal : Removal) : Except Failure Unit → Removal
  | .ok () => removal
  | .error failure => { removal with firstFailure := removal.firstFailure.or (some failure) }

/-- One step of a removal. -/
def advance (host : Host σ) (now : Time) (removal : Removal) (state : σ) : σ × Removal :=
  match removal.stage with
  | .fresh _ =>
    let state := host.putGroup ((host.group state).localRemove removal.key) state
    removal.visit host now (host.peers state) state
  | .visiting rest (some (_, answer)) => (removal.note answer).visit host now rest state
  | .visiting _ none | .finished _ => (state, removal)

end Removal

/-! ## Flights -/

/-- A get or a removal in progress. -/
inductive Flight where
  | get (get : Get)
  | removal (removal : Removal)

namespace Flight
variable {σ : Type}

/-- A get that begins at a time. -/
def startGet (now : Time) (deadline : Deadline) (key : String) : Flight :=
  .get ⟨key, deadline, .fresh now⟩

/-- A removal that begins at a time. -/
def startRemoval (now : Time) (deadline : Deadline) (key : String) : Flight :=
  .removal ⟨key, deadline, none, .fresh now⟩

/-- The time at which a flight goes on, if it ever does. -/
def wake : Flight → Option Time
  | .get g =>
    match g.stage with
    | .fresh start => some start
    | .asking answer | .loading answer => answer.map Prod.fst
    | .finished _ => none
  | .removal r =>
    match r.stage with
    | .fresh start => some start
    | .visiting _ answer => answer.map Prod.fst
    | .finished _ => none

/-- One step of a flight. -/
def advance (host : Host σ) (now : Time) (flight : Flight) (state : σ) : σ × Flight :=
  match flight with
  | .get g =>
    let (state, g) := g.advance host now state
    (state, .get g)
  | .removal r =>
    let (state, r) := r.advance host now state
    (state, .removal r)

/-- One for a flight that has not begun. -/
def begins : Flight → Nat
  | .get g => match g.stage with | .fresh _ => 1 | _ => 0
  | .removal r => match r.stage with | .fresh _ => 1 | _ => 0

/-- A bound on the steps that a flight that has begun still takes. -/
def steps : Flight → Nat
  | .get g => match g.stage with | .asking _ => 2 | .loading _ => 1 | _ => 0
  | .removal r => match r.stage with | .visiting rest _ => rest.length + 1 | _ => 0

/-- A flight that goes on begins, or has fewer steps before it. -/
theorem advance_lt (host : Host σ) (now : Time) (flight : Flight) (state : σ) (wakes : flight.wake ≠ none) :
    (flight.advance host now state).2.begins < flight.begins ∨
      (flight.advance host now state).2.begins = flight.begins ∧
        (flight.advance host now state).2.steps < flight.steps := by
  cases flight with
  | get g =>
    obtain ⟨key, deadline, stage⟩ := g
    cases stage with
    | fresh start =>
      left
      simp only [advance, Get.advance, Get.begin]
      split
      · simp [begins]
      · split <;> simp [begins, Get.askPeer, Get.askLoader]
    | asking answer =>
      cases answer with
      | none => simp [wake] at wakes
      | some due =>
        right
        simp only [advance, Get.advance, Get.takePeer]
        split <;> simp [begins, steps, Get.askLoader]
    | loading answer =>
      cases answer with
      | none => simp [wake] at wakes
      | some due =>
        right
        simp [advance, Get.advance, Get.takeLoader, begins, steps]
    | finished result => simp [wake] at wakes
  | removal r =>
    obtain ⟨key, deadline, firstFailure, stage⟩ := r
    cases stage with
    | fresh start =>
      left
      simp only [advance, Removal.advance, Removal.visit]
      split <;> simp [begins]
    | visiting rest answer =>
      cases answer with
      | none => simp [wake] at wakes
      | some due =>
        right
        cases rest <;> cases due.2 <;> simp [advance, Removal.advance, Removal.visit, Removal.note, begins, steps]
    | finished result => simp [wake] at wakes

end Flight

end RingCache
