import RingCache.Proofs.PoolSteps

/-!
# Pools after any changes

A history is a list of changes, each carried to its end before the next begins,
while every dial may open a link or fail (`Dialing`). After any history ring and
links agree, so a key is served here or by the peer at the address of its owner,
and that peer is there (`Course.after_agrees`).
-/
namespace RingCache

variable {settings : Settings} {membership : Membership}

/-! ## Routing in a sound membership -/

theorem Membership.Sound.keys_eq (sound : membership.Sound settings) :
    membership.links.keys = membership.ring.members :=
  Table.keys_eq_of_contains (fun address => (sound.contains_iff address).symm)

theorem Membership.Sound.placed_members (sound : membership.Sound settings) :
    Ring.Placed settings.hash (max settings.replicas 1) {a | a ∈ membership.ring.members} membership.ring := by
  have listed : {a | a ∈ membership.ring.members} = {a | membership.links.contains a = true} := by
    ext a
    rw [← sound.keys_eq]
    exact Table.mem_keys_iff
  rw [listed]
  exact sound.placed

theorem Membership.Sound.ring_eq (sound : membership.Sound settings) :
    membership.ring = (Ring.empty settings.replicas settings.hash).addAll membership.ring.members := by
  have scratch := (Ring.placed_empty settings.hash settings.replicas).addAll membership.ring.members
  rw [Set.empty_union] at scratch
  exact sound.placed_members.eq scratch

/-- The owner of a key is linked to, under its own address. -/
theorem Membership.Sound.exists_link (sound : membership.Sound settings) {key owner : String}
    (owns : membership.ring.owner key = some owner) :
    ∃ peer, membership.links.find? owner = some peer ∧ peer.address = owner := by
  obtain ⟨peer, found⟩ := Table.contains_iff_exists.mp (sound.placed.ownerAt_mem owns)
  exact ⟨peer, found, sound.address_eq owner peer found⟩

/-- A key has an owner exactly if there are members. -/
theorem Membership.Sound.owner_eq_none_iff (sound : membership.Sound settings) (key : String) :
    membership.ring.owner key = none ↔ {a | a ∈ membership.ring.members} = ∅ :=
  sound.placed_members.ownerAt_eq_none_iff (Nat.lt_of_lt_of_le Nat.one_pos (Nat.le_max_right _ _)) _

/-- A key is served here exactly if nobody owns it, since there are no members, or
    if this member owns it. -/
theorem Membership.Sound.pick_eq_none_iff (sound : membership.Sound settings) (selfAddress key : String) :
    membership.owner selfAddress key = none ↔
      membership.ring.isEmpty = true ∨ membership.ring.owner key = some selfAddress := by
  rw [Ring.isEmpty_iff, ← sound.owner_eq_none_iff key, Membership.owner]
  cases owns : membership.ring.owner key with
  | none => simp
  | some owner =>
    obtain ⟨peer, found, _⟩ := sound.exists_link owns
    by_cases own : owner = selfAddress
    · simp [own]
    · simp [own, found]

theorem Membership.pick_of_owner {selfAddress key owner : String} {peer : Peer}
    (owns : membership.ring.owner key = some owner) (other : owner ≠ selfAddress)
    (found : membership.links.find? owner = some peer) : membership.owner selfAddress key = some peer := by
  rw [Membership.owner, owns]
  simp only [other, if_false, found]

/-! ## Histories -/

/-- What a dial comes to, by its number in a history and the address: the id of
    the link that it opens, or none if it fails. -/
abbrev Dialing := Nat → String → Option Nat

/-- A pool and what it has done so far: the addresses that it dialed, and the
    peers whose links it closed. -/
structure Course where
  pool : Pool
  dialed : List String
  closed : List Peer

namespace Course

/-- The pool of nobody. -/
def start (selfAddress : String) (settings : Settings) : Course :=
  ⟨.new selfAddress settings, [], []⟩

/-- What makes a change go on that stands at a stage. -/
def event (dialing : Dialing) (course : Course) : ChangeStage → ChangeEvent
  | .dialing address _ =>
    match dialing course.dialed.length address with
    | some id => .dialed ⟨address, id⟩
    | none => .refused
  | _ => .go

/-- The course after a step from a stage. -/
def stepped (course : Course) (stage : ChangeStage) (step : ChangeStep) : Course where
  pool := step.pool
  dialed := match stage with
    | .dialing address _ => course.dialed ++ [address]
    | _ => course.dialed
  closed := course.closed ++ step.closes.toList

/-- The party that changes the pool while nobody else does. -/
def alone : PartyId := 0

/-- Carries a change on from a stage, as far as it goes, and tells where it stands
    then. -/
def carry (dialing : Dialing) (course : Course) (stage : ChangeStage) : Course × ChangeStage :=
  match _advanced : course.pool.advance alone stage (course.event dialing stage) with
  | none => (course, stage)
  | some step => (course.stepped stage step).carry dialing step.stage
termination_by (stage.part, stage.steps)
decreasing_by
  simp only [Prod.lex_def]
  exact Pool.advance_lt _advanced

/-- The course after a change. -/
def change (dialing : Dialing) (course : Course) (change : Change) : Course :=
  (course.carry dialing (.entering change)).1

/-- The course of a new pool after changes, one after another. -/
def after (dialing : Dialing) (selfAddress : String) (settings : Settings) (changes : List Change) : Course :=
  changes.foldl (change dialing) (start selfAddress settings)

/-- The lock of a pool while one change alone stands at a stage. -/
def lockAt : ChangeStage → Lock
  | .entering _ => .free
  | .finished => .free
  | _ => ⟨some alone, []⟩

/-- A pool of a member with settings, while a change stands at a stage. -/
structure Sound (selfAddress : String) (settings : Settings) (course : Course) (stage : ChangeStage) : Prop where
  selfAddress_eq : course.pool.selfAddress = selfAddress
  settings_eq : course.pool.settings = settings
  lock_eq : course.pool.lock = lockAt stage
  published : course.pool.membership.Sound settings
  drafted : stage.Sound settings

variable {dialing : Dialing} {selfAddress : String} {course : Course} {stage : ChangeStage} {step : ChangeStep}

theorem carry_of_stuck (stuck : course.pool.advance alone stage (course.event dialing stage) = none) :
    course.carry dialing stage = (course, stage) := by
  rw [carry]
  split
  next => rfl
  next step advanced =>
    rw [stuck] at advanced
    cases advanced

theorem carry_of_advanced
    (advanced : course.pool.advance alone stage (course.event dialing stage) = some step) :
    course.carry dialing stage = (course.stepped stage step).carry dialing step.stage := by
  rw [carry]
  split
  next stuck =>
    rw [advanced] at stuck
    cases stuck
  next other same =>
    rw [advanced] at same
    cases same
    rfl

theorem event_ne_cancelled : course.event dialing stage ≠ .cancelled := by
  unfold event
  split
  · split <;> simp
  · simp

theorem lock_eq_of_advances {pool : Pool} {event : ChangeEvent} (advances : pool.Advances alone stage event step)
    (goes : event ≠ .cancelled) (locked : pool.lock = lockAt stage) : step.pool.lock = lockAt step.stage := by
  cases advances with
  | request change =>
    dsimp only
    rw [locked]
    rfl
  | withdraw change => exact absurd rfl goes
  | abandon address draft => exact absurd rfl goes
  | leave =>
    rw [Pool.unlocked, locked]
    rfl
  | begin | settle | dial | publish | enlist | skip => exact locked
  | close peer rest => exact locked

theorem Sound.stepped (sound : Sound selfAddress settings course stage)
    (advanced : course.pool.advance alone stage (course.event dialing stage) = some step) :
    Sound selfAddress settings (course.stepped stage step) step.stage := by
  obtain ⟨own, set_up, lock_eq, published, drafted⟩ := sound
  subst set_up
  have advances := Pool.advances_of_advance advanced
  obtain ⟨sameAddress, sameSettings, nextPublished, nextDrafted⟩ := advances.sound published drafted
  exact ⟨sameAddress.trans own, sameSettings, lock_eq_of_advances advances event_ne_cancelled lock_eq,
    nextPublished, nextDrafted⟩

/-- A change that holds the lock as its stage needs goes on until it has finished. -/
theorem finished_of_stuck (locked : course.pool.lock = lockAt stage)
    (stuck : course.pool.advance alone stage (course.event dialing stage) = none) : stage = .finished := by
  cases stage with
  | finished => rfl
  | entering change => simp [event, Pool.advance] at stuck
  | waiting change => simp [event, Pool.advance, locked, lockAt, Lock.heldBy] at stuck
  | drafting draft => simp [event, Pool.advance] at stuck
  | dialing address draft =>
    simp only [event] at stuck
    split at stuck <;> simp [Pool.advance] at stuck
  | closing stale => cases stale <;> simp [event, Pool.advance] at stuck

theorem Sound.carry (sound : Sound selfAddress settings course stage) :
    (course.carry dialing stage).2 = .finished ∧
      Sound selfAddress settings (course.carry dialing stage).1 .finished := by
  fun_induction Course.carry dialing course stage with
  | case1 course stage stuck =>
    cases finished_of_stuck sound.lock_eq stuck
    exact ⟨rfl, sound⟩
  | case2 course stage step advanced ih => exact ih (sound.stepped advanced)

theorem Sound.entering (sound : Sound selfAddress settings course .finished) (change : Change) :
    Sound selfAddress settings course (.entering change) :=
  ⟨sound.selfAddress_eq, sound.settings_eq, sound.lock_eq, sound.published, trivial⟩

theorem sound_after (dialing : Dialing) (selfAddress : String) (settings : Settings) (changes : List Change) :
    Sound selfAddress settings.normalized (after dialing selfAddress settings changes) .finished := by
  have general : ∀ course, Sound selfAddress settings.normalized course .finished →
      Sound selfAddress settings.normalized (changes.foldl (change dialing) course) .finished := by
    induction changes with
    | nil => exact fun course sound => sound
    | cons first rest ih => exact fun course sound => ih _ (sound.entering first).carry.2
  exact general _ ⟨rfl, rfl, rfl, Membership.sound_empty _, trivial⟩

/-- After any history every further change comes to its end. The links are those
    of the members, each under its own address, and the ring is the ring of the
    members. So a key is served here exactly if there are no members or this one
    owns it, and else by the peer at the address of its owner. -/
theorem after_agrees (dialing : Dialing) (selfAddress : String) (settings : Settings) (changes : List Change) :
    let course := after dialing selfAddress settings changes
    let pool := course.pool
    (∀ next, (course.carry dialing (.entering next)).2 = .finished) ∧
    pool.membership.links.keys = pool.members ∧
    (∀ address peer, pool.membership.links.find? address = some peer → peer.address = address) ∧
    pool.membership.ring = (Ring.empty settings.normalized.replicas settings.hash).addAll pool.members ∧
    (∀ key, pool.pick key = none ↔
      pool.membership.ring.isEmpty = true ∨ pool.membership.ring.owner key = some selfAddress) ∧
    (∀ key owner, pool.membership.ring.owner key = some owner →
      ∃ peer, pool.membership.links.find? owner = some peer ∧ peer.address = owner ∧
        (owner ≠ selfAddress → pool.pick key = some peer)) := by
  intro course pool
  have sound : Sound selfAddress settings.normalized course .finished :=
    sound_after dialing selfAddress settings changes
  have published : pool.membership.Sound settings.normalized := sound.published
  have own : pool.selfAddress = selfAddress := sound.selfAddress_eq
  refine ⟨?_, published.keys_eq, published.address_eq, published.ring_eq, ?_, ?_⟩
  · intro next
    exact (sound.entering next).carry.1
  · intro key
    rw [← own]
    exact published.pick_eq_none_iff pool.selfAddress key
  · intro key owner owns
    obtain ⟨peer, found, address_eq⟩ := published.exists_link owns
    refine ⟨peer, found, address_eq, ?_⟩
    intro other
    rw [← own] at other
    exact Membership.pick_of_owner owns other found

end Course

end RingCache
