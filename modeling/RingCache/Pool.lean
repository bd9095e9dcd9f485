import RingCache.Lock
import RingCache.Membership

/-!
# Pools

A pool holds the membership of one member. Readers see the published membership.
Changes go one at a time, behind a lock: a change drafts the next membership
from the published one, dials whom it has to, publishes the draft in one step,
and then closes the links that are not in it any more.

`Pool.advance` is one step of one change. A change waits in the stages `waiting`
and `dialing`, and can be cancelled there; it has published nothing then.
-/
namespace RingCache

/-- The pool of the member at an address. -/
structure Pool where
  selfAddress : String
  settings : Settings
  membership : Membership
  lock : Lock

/-- Where a change of a pool stands. -/
inductive ChangeStage where
  | entering (change : Change)
  /-- It waits for the lock, which it may hold already. -/
  | waiting (change : Change)
  /-- It holds the lock and works on its draft. -/
  | drafting (draft : Draft)
  /-- It holds the lock and dials an address. -/
  | dialing (address : String) (draft : Draft)
  /-- It holds the lock, has published its draft, and closes links. -/
  | closing (stale : List Peer)
  | finished

/-- What makes a change take a step. -/
inductive ChangeEvent where
  /-- Nothing else is needed. -/
  | go
  | dialed (peer : Peer)
  | refused
  | cancelled

/-- What a step leaves: the pool, where the change stands, and the peer whose
    link the step closes, if it does. -/
structure ChangeStep where
  pool : Pool
  stage : ChangeStage
  closes : Option Peer

namespace Pool

/-- The pool of nobody. -/
def new (selfAddress : String) (settings : Settings) : Pool where
  selfAddress
  settings := settings.normalized
  membership := .empty settings.normalized
  lock := .free

/-- The peer that owns a key, or none if the key is served here. -/
def pick (pool : Pool) (key : String) : Option Peer :=
  pool.membership.owner pool.selfAddress key

/-- All peers, by address. -/
def peers (pool : Pool) : List Peer :=
  pool.membership.peers

/-- Whether an address is a member. -/
def contains (pool : Pool) (address : String) : Bool :=
  pool.membership.ring.contains address

/-- The addresses of the members, ascending. -/
def members (pool : Pool) : List String :=
  pool.membership.ring.members

/-- The number of peers. -/
def peerCount (pool : Pool) : Nat :=
  pool.membership.links.size

/-- The pool after the change that holds the lock is over. -/
def unlocked (pool : Pool) : Pool :=
  { pool with lock := pool.lock.release }

/-- A change goes on with its draft: it considers the next address, or publishes
    if there is none. -/
def draft (pool : Pool) (draft : Draft) : ChangeStep :=
  match draft.pending with
  | [] => ⟨{ pool with membership := draft.next }, .closing (pool.membership.stale draft.next), none⟩
  | address :: pending =>
    let draft := { draft with pending }
    match draft.consider address with
    | .settled draft => ⟨pool, .drafting draft, none⟩
    | .unknown => ⟨pool, .dialing address draft, none⟩

/-- One step of a change that stands at a stage; none if the event makes it take
    no step there. -/
def advance (pool : Pool) (party : PartyId) (stage : ChangeStage) (event : ChangeEvent) : Option ChangeStep :=
  match stage, event with
  | .entering change, .go => some ⟨{ pool with lock := pool.lock.request party }, .waiting change, none⟩
  | .waiting change, .go =>
    if pool.lock.heldBy party then
      some ⟨pool, .drafting (.begin pool.settings pool.membership change), none⟩
    else none
  | .waiting _, .cancelled => some ⟨{ pool with lock := pool.lock.withdraw party }, .finished, none⟩
  | .drafting draft, .go => some (pool.draft draft)
  | .dialing _ draft, .dialed peer => some ⟨pool, .drafting (draft.enlist peer), none⟩
  | .dialing _ draft, .refused => some ⟨pool, .drafting draft, none⟩
  | .dialing _ _, .cancelled => some ⟨pool.unlocked, .finished, none⟩
  | .closing (peer :: rest), .go => some ⟨pool, .closing rest, some peer⟩
  | .closing [], .go => some ⟨pool.unlocked, .finished, none⟩
  | _, _ => none

end Pool

namespace ChangeStage

/-- The parts of a change that are still to come. -/
def part : ChangeStage → Nat
  | .entering _ => 4
  | .waiting _ => 3
  | .drafting _ => 2
  | .dialing _ _ => 2
  | .closing _ => 1
  | .finished => 0

/-- A bound on the steps within the part. -/
def steps : ChangeStage → Nat
  | .drafting draft => 2 * draft.pending.length
  | .dialing _ draft => 2 * draft.pending.length + 1
  | .closing stale => stale.length
  | _ => 0

end ChangeStage

theorem Draft.pending_consider {draft settled : Draft} {address : String}
    (found : draft.consider address = .settled settled) : settled.pending = draft.pending := by
  unfold consider at found
  split at found
  · cases found; rfl
  · split at found <;> cases found
    rfl

/-- A change comes nearer to its end with every step. -/
theorem Pool.advance_lt {pool : Pool} {party : PartyId} {stage : ChangeStage} {event : ChangeEvent}
    {step : ChangeStep} (advanced : pool.advance party stage event = some step) :
    step.stage.part < stage.part ∨ step.stage.part = stage.part ∧ step.stage.steps < stage.steps := by
  unfold Pool.advance at advanced
  split at advanced
  case h_2 => split at advanced <;> cases advanced; simp [ChangeStage.part]
  case h_4 draft =>
    cases advanced
    unfold Pool.draft
    split
    next none_left => left; simp [ChangeStage.part]
    next address pending left =>
      dsimp only
      split
      next settled found =>
        have kept := Draft.pending_consider found
        simp [ChangeStage.part, ChangeStage.steps, kept, left]
      · simp [ChangeStage.part, ChangeStage.steps, left]
        omega
  all_goals cases advanced
  all_goals simp [ChangeStage.part, ChangeStage.steps, Draft.enlist]

end RingCache
