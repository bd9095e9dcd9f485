import RingCache.Link

/-!
# Steps of a party of a link

What one step of a party can do is listed once (`Link.Advances`). A party that has
taken the stream out of the slot, or empties the slot, holds the lock
(`Stage.holds`). So only the holder changes the slot, nobody takes the lock away
from another party, and a stream gets into the slot only from the call that has
had its reply on it.
-/
namespace RingCache

namespace Stage

/-- Whether a party that stands here holds the lock. A party that waits may hold it
    already. -/
def holds : Stage → Bool
  | .dialing | .writing _ | .reading _ | .storing _ _ | .unlocking _ | .clearing _ => true
  | _ => false

/-- Whether a party that stands here has taken what was in the slot. -/
def took : Stage → Bool
  | .dialing | .writing _ | .reading _ | .storing _ _ => true
  | _ => false

/-- Whether a party that stands here uses a stream or dials one. -/
def exchanging : Stage → Bool
  | .dialing | .writing _ | .reading _ => true
  | _ => false

/-- Whether a call that stands here has had no stream yet. -/
def prepares : Stage → Bool
  | .entering | .waiting | .dialing => true
  | _ => false

/-- Whether a party that stands here looks after the slot of a closed link. -/
def sweeps : Stage → Bool
  | .sweeping _ | .clearing _ => true
  | _ => false

theorem holds_of_took {stage : Stage} (taken : stage.took = true) : stage.holds = true := by
  cases stage <;> first | rfl | cases taken

theorem took_of_stream? {stage : Stage} {stream : StreamId} (uses : stage.stream? = some stream) :
    stage.took = true := by
  cases stage <;> first | rfl | cases uses

end Stage

/-- What one step of a party does, by where the party stands and what makes it go
    on. -/
inductive Link.Advances (link : Link) (party : PartyId) : Stage → Event → LinkStep → Prop where
  | refuse (isClosed : link.closed = true) :
      Advances link party .entering .go ⟨link, .finished (.failed closedFailure), none⟩
  | request (isOpen : link.closed = false) :
      Advances link party .entering .go ⟨{ link with lock := link.lock.request party }, .waiting, none⟩
  | turnAway (held : link.lock.holder = some party) (isClosed : link.closed = true) :
      Advances link party .waiting .go ({ link with slot := none }.giveUp closedFailure link.slot)
  | take (stream : StreamId) (held : link.lock.holder = some party) (isOpen : link.closed = false)
      (kept : link.slot = some stream) :
      Advances link party .waiting .go ⟨{ link with slot := none }, .writing stream, none⟩
  | redial (held : link.lock.holder = some party) (isOpen : link.closed = false) (vacant : link.slot = none) :
      Advances link party .waiting .go ⟨link, .dialing, none⟩
  | withdraw :
      Advances link party .waiting .cancelled
        ⟨{ link with lock := link.lock.withdraw party }, .finished (.failed .timeout), none⟩
  | dial (stream : StreamId) :
      Advances link party .dialing (.dialed stream) ⟨link, .writing stream, none⟩
  | write (stream : StreamId) :
      Advances link party (.writing stream) .written ⟨link, .reading stream, none⟩
  | receive (stream : StreamId) (reply : Message) :
      Advances link party (.reading stream) (.received reply) ⟨link, .storing stream reply, none⟩
  | giveUp {stage : Stage} (event : Event) (failure : Failure) (exchanging : stage.exchanging = true) :
      Advances link party stage event (link.giveUp failure stage.stream?)
  | store (stream : StreamId) (reply : Message) :
      Advances link party (.storing stream reply) .go ⟨{ link with slot := some stream }, .unlocking reply, none⟩
  | unlock (reply : Message) :
      Advances link party (.unlocking reply) .go ⟨link.unlocked, .checking reply, none⟩
  | finish (reply : Message) (isOpen : link.closed = false) :
      Advances link party (.checking reply) .go ⟨link, .finished (.replied reply), none⟩
  | notice (reply : Message) (isClosed : link.closed = true) :
      Advances link party (.checking reply) .go ⟨link, .sweeping (.replied reply), none⟩
  | closeAgain (isClosed : link.closed = true) :
      Advances link party .closing .go ⟨{ link with closed := true }, .finished .closed, none⟩
  | close (isOpen : link.closed = false) :
      Advances link party .closing .go ⟨{ link with closed := true }, .sweeping .closed, none⟩
  | sweep (conclusion : Conclusion) (free : link.lock.holder = none) :
      Advances link party (.sweeping conclusion) .go
        ⟨{ link with lock := link.lock.request party }, .clearing conclusion, none⟩
  | leave (conclusion : Conclusion) (held : link.lock.holder ≠ none) :
      Advances link party (.sweeping conclusion) .go ⟨link, .finished conclusion, none⟩
  | clear (conclusion : Conclusion) :
      Advances link party (.clearing conclusion) .go
        ⟨{ link with slot := none }.unlocked, .finished conclusion, link.slot⟩

namespace Link

variable {link : Link} {party other : PartyId} {stage : Stage} {event : Event} {step : LinkStep}

theorem advances_entered (held : link.lock.holder = some party) :
    link.Advances party .waiting .go link.entered := by
  unfold entered
  split
  next isClosed => exact .turnAway held isClosed
  next isOpen =>
    rw [Bool.not_eq_true] at isOpen
    split
    next stream kept => exact .take stream held isOpen kept
    next vacant => exact .redial held isOpen vacant

theorem advances_of_advance (advanced : link.advance party stage event = some step) :
    link.Advances party stage event step := by
  unfold advance at advanced
  split at advanced
  case h_1 =>
    split at advanced <;> cases advanced
    next isClosed => exact .refuse isClosed
    next isOpen => exact .request (Bool.eq_false_iff.mpr isOpen)
  case h_2 =>
    split at advanced <;> cases advanced
    next held => exact advances_entered (beq_iff_eq.mp held)
  case h_16 =>
    cases advanced
    split
    next isClosed => exact .notice _ isClosed
    next isOpen => exact .finish _ (Bool.eq_false_iff.mpr isOpen)
  case h_17 =>
    cases advanced
    split
    next isClosed => exact .closeAgain isClosed
    next isOpen => exact .close (Bool.eq_false_iff.mpr isOpen)
  case h_18 =>
    split at advanced <;> cases advanced
    next free => exact .sweep _ (Option.isNone_iff_eq_none.mp free)
    next held => exact .leave _ (fun free => held (Option.isNone_iff_eq_none.mpr free))
  case h_3 => cases advanced; exact .withdraw
  case h_4 => cases advanced; exact .dial _
  case h_7 => cases advanced; exact .write _
  case h_10 => cases advanced; exact .receive _ _
  case h_14 => cases advanced; exact .store _ _
  case h_15 => cases advanced; exact .unlock _
  case h_19 => cases advanced; exact .clear _
  case h_20 => cases advanced
  -- The steps that are left give an exchange up.
  all_goals
    cases advanced
    exact .giveUp _ _ rfl

/-! ## The lock -/

theorem Advances.holder_of_holds (advances : link.Advances party stage event step)
    (locked : stage.holds = true → link.lock.holder = some party) :
    step.stage.holds = true → step.link.lock.holder = some party := by
  intro holds
  cases advances with
  | take stream held => exact held
  | redial held => exact held
  | dial | write | receive | store => exact locked rfl
  | sweep conclusion free => simp [Lock.request, free]
  | notice | closeAgain | close | leave | refuse | request | withdraw | unlock | finish => cases holds
  | turnAway | giveUp | clear => cases holds

/-- Nobody takes the lock away from another party. -/
theorem Advances.holder_of_other (advances : link.Advances party stage event step)
    (locked : stage.holds = true → link.lock.holder = some party) (apart : other ≠ party)
    (held : link.lock.holder = some other) : step.link.lock.holder = some other := by
  have free : ¬ stage.holds = true := by
    intro holds
    rw [locked holds] at held
    exact apart (Option.some.inj held).symm
  have absent : link.lock.holder ≠ some party := by
    rw [held]
    exact fun same => apart (Option.some.inj same)
  cases advances with
  | request => exact Lock.holder_request held party
  | withdraw => exact Lock.holder_withdraw held apart
  | turnAway here => exact absurd here absent
  | giveUp event failure exchanging =>
    refine absurd ?_ free
    cases stage <;> first | rfl | cases exchanging
  | unlock | clear => exact absurd rfl free
  | sweep conclusion nobody => exact Lock.holder_request held party
  | refuse | take | redial | dial | write | receive | store | finish | notice | closeAgain | close | leave => exact held

/-! ## The slot -/

theorem Advances.slot_eq_of_not_held (advances : link.Advances party stage event step)
    (locked : stage.holds = true → link.lock.holder = some party) (absent : link.lock.holder ≠ some party) :
    step.link.slot = link.slot := by
  cases advances with
  | turnAway held | take _ held => exact absurd held absent
  | store | clear => exact absurd (locked rfl) absent
  | refuse | request | redial | withdraw | dial | write | receive | giveUp | unlock | finish | notice => rfl
  | closeAgain | close | sweep | leave => rfl

theorem Advances.slot_of_took (advances : link.Advances party stage event step)
    (vacant : stage.took = true → link.slot = none) : step.stage.took = true → step.link.slot = none := by
  intro taken
  cases advances with
  | take => rfl
  | redial _ _ nothing => exact nothing
  | dial | write | receive => exact vacant rfl
  | refuse | request | turnAway | withdraw | giveUp | store | unlock | finish | notice | closeAgain | close => cases taken
  | sweep | leave | clear => cases taken

/-- A stream gets into the slot only from a call that is done with it. -/
theorem Advances.slot_eq_some (advances : link.Advances party stage event step) {stream : StreamId}
    (kept : step.link.slot = some stream) :
    link.slot = some stream ∨ ∃ reply, stage = .storing stream reply := by
  cases advances with
  | store own reply =>
    cases kept
    exact .inr ⟨reply, rfl⟩
  | turnAway | take | clear => cases kept
  | refuse | request | redial | withdraw | dial | write | receive | giveUp | unlock | finish | notice => exact .inl kept
  | closeAgain | close | sweep | leave => exact .inl kept

/-- Who does not take the link over changes the slot only to put a stream back, or
    to empty it for good. -/
theorem Advances.slot_cases (advances : link.Advances party stage event step)
    (noted : stage.sweeps = true → link.closed = true) (passes : ¬ (stage = .waiting ∧ event = .go)) :
    step.link.slot = link.slot ∨ step.link.closed = true ∨ ∃ stream reply, stage = .storing stream reply := by
  cases advances with
  | turnAway | take | redial => exact absurd ⟨rfl, rfl⟩ passes
  | store stream reply => exact .inr (.inr ⟨stream, reply, rfl⟩)
  | clear => exact .inr (.inl (noted rfl))
  | refuse | request | withdraw | dial | write | receive | giveUp | unlock | finish | notice => exact .inl rfl
  | closeAgain | close | sweep | leave => exact .inl rfl

/-- A call that gives its stream up puts nothing into the slot. -/
theorem Advances.slot_eq_of_failed (advances : link.Advances party stage event step) {stream : StreamId}
    {failure : Failure} (uses : stage.stream? = some stream) (failed : step.stage = .finished (.failed failure)) :
    step.link.slot = link.slot := by
  cases advances with
  | giveUp => rfl
  | write | receive | store => cases failed
  | refuse | request | turnAway | take | redial | withdraw | dial | unlock | finish | notice | closeAgain => cases uses
  | close | sweep | leave | clear => cases uses

/-! ## Where a party gets its stream and its reply -/

theorem Advances.stream_cases (advances : link.Advances party stage event step) {stream : StreamId}
    (uses : step.stage.stream? = some stream) :
    stage.stream? = some stream ∨ (stage = .waiting ∧ link.slot = some stream) ∨ event = .dialed stream := by
  cases advances with
  | take own _ _ kept =>
    cases uses
    exact .inr (.inl ⟨rfl, kept⟩)
  | dial own =>
    cases uses
    exact .inr (.inr rfl)
  | write | receive => exact .inl uses
  | refuse | request | turnAway | redial | withdraw | giveUp | store | unlock | finish | notice | closeAgain => cases uses
  | close | sweep | leave | clear => cases uses

theorem Advances.writing_cases (advances : link.Advances party stage event step) {stream : StreamId}
    (writes : step.stage = .writing stream) :
    stage.prepares = true ∧ (link.slot = some stream ∨ event = .dialed stream) := by
  cases advances with
  | take own _ _ kept =>
    cases writes
    exact ⟨rfl, .inl kept⟩
  | dial own =>
    cases writes
    exact ⟨rfl, .inr rfl⟩
  | refuse | request | turnAway | redial | withdraw | write | receive | giveUp | store | unlock | finish => cases writes
  | notice | closeAgain | close | sweep | leave | clear => cases writes

theorem Advances.reading_cases (advances : link.Advances party stage event step) {stream : StreamId}
    (reads : step.stage = .reading stream) : stage = .writing stream ∧ event = .written := by
  cases advances with
  | write own =>
    cases reads
    exact ⟨rfl, rfl⟩
  | refuse | request | turnAway | take | redial | withdraw | dial | receive | giveUp | store | unlock => cases reads
  | finish | notice | closeAgain | close | sweep | leave | clear => cases reads

theorem Advances.storing_cases (advances : link.Advances party stage event step) {stream : StreamId} {reply : Message}
    (stores : step.stage = .storing stream reply) : stage = .reading stream ∧ event = .received reply := by
  cases advances with
  | receive own got =>
    cases stores
    exact ⟨rfl, rfl⟩
  | refuse | request | turnAway | take | redial | withdraw | dial | write | giveUp | store | unlock => cases stores
  | finish | notice | closeAgain | close | sweep | leave | clear => cases stores

theorem Advances.prepares (advances : link.Advances party stage event step) (still : step.stage.prepares = true) :
    stage.prepares = true := by
  cases advances with
  | request | redial => rfl
  | refuse | turnAway | take | withdraw | dial | write | receive | giveUp | store | unlock | finish => cases still
  | notice | closeAgain | close | sweep | leave | clear => cases still

theorem Advances.took_cases (advances : link.Advances party stage event step) (taken : step.stage.took = true) :
    stage.took = true ∨ (stage = .waiting ∧ event = .go) := by
  cases advances with
  | take | redial => exact .inr ⟨rfl, rfl⟩
  | dial | write | receive => exact .inl rfl
  | refuse | request | turnAway | withdraw | giveUp | store | unlock | finish | notice | closeAgain => cases taken
  | close | sweep | leave | clear => cases taken

end Link

/-- The reply that a call has had. -/
def Stage.reply? : Stage → Option Message
  | .storing _ reply | .unlocking reply | .checking reply => some reply
  | .sweeping (.replied reply) | .clearing (.replied reply) | .finished (.replied reply) => some reply
  | _ => none

namespace Link

variable {link : Link} {party : PartyId} {stage : Stage} {event : Event} {step : LinkStep}

theorem Advances.reply_cases (advances : link.Advances party stage event step) {reply : Message}
    (replied : step.stage.reply? = some reply) :
    stage.reply? = some reply ∨ ∃ stream, stage = .reading stream ∧ event = .received reply := by
  cases advances with
  | receive stream own =>
    cases replied
    exact .inr ⟨stream, rfl, rfl⟩
  | store | unlock | finish | notice => exact .inl replied
  | sweep conclusion | leave conclusion | clear conclusion =>
    refine .inl ?_
    cases conclusion <;> exact replied
  | refuse | request | turnAway | take | redial | withdraw | dial | write | giveUp | closeAgain | close => cases replied

/-! ## The flag -/

theorem Advances.closed (advances : link.Advances party stage event step) (isClosed : link.closed = true) :
    step.link.closed = true := by
  cases advances with
  | closeAgain | close => rfl
  | refuse | request | turnAway | take | redial | withdraw | dial | write | receive | giveUp => exact isClosed
  | store | unlock | finish | notice | sweep | leave | clear => exact isClosed

theorem Advances.closed_of_sweeps (advances : link.Advances party stage event step)
    (noted : stage.sweeps = true → link.closed = true) : step.stage.sweeps = true → step.link.closed = true := by
  intro sweeps
  cases advances with
  | notice _ isClosed => exact isClosed
  | close => rfl
  | sweep => exact noted rfl
  | refuse | request | turnAway | take | redial | withdraw | dial | write | receive | giveUp => cases sweeps
  | store | unlock | finish | closeAgain | leave | clear => cases sweeps

end Link
end RingCache
