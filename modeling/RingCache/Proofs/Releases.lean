import Mathlib.Data.List.Nodup
import Mathlib.Logic.Function.Basic
import Mathlib.Logic.Relation
import RingCache.Proofs.LinkSteps

/-!
# Who lets the stream of a closed link go

A stream is let go by the close, by the call that put it back, or by the next call
in line, each of which leaves that to the holder of the lock (`Parties.Sound`). A
call that the lock was handed to holds it before it goes on. If such a call is
cancelled, and it was the last in line, nobody is left to look after the slot: then
a stream stays in the slot of a closed link (`Parties.stream_stays_of_abandoned`),
and only then (`Parties.slot_empty_at_rest`).
-/
namespace RingCache

/-! ## The line before a lock -/

namespace Lock

variable {lock : Lock} {party other : PartyId}

/-- The holder of a lock and those who wait for it, in order. -/
def line (lock : Lock) : List PartyId :=
  lock.holder.toList ++ lock.queue

theorem line_of_held (held : lock.holder = some party) : lock.line = party :: lock.queue := by
  rw [line, held]
  rfl

theorem line_release (lock : Lock) : lock.release.line = lock.queue := by
  rw [release]
  split
  next nobody => rw [nobody]; rfl
  next next rest waits => rw [waits]; rfl

theorem line_request (lock : Lock) (party : PartyId) : (lock.request party).line.Perm (party :: lock.line) := by
  rw [request]
  split
  next free =>
    simp only [line, free]
    exact .refl _
  next holder held =>
    rw [line_of_held held]
    have moved : (holder :: lock.queue ++ [party]).Perm ([party] ++ holder :: lock.queue) := List.perm_append_comm
    simpa [line, held] using moved

theorem holder_request_ne_none (lock : Lock) (party : PartyId) : (lock.request party).holder ≠ none := by
  rw [request]
  split
  · exact Option.some_ne_none party
  next holder held =>
    rw [held]
    exact Option.some_ne_none holder

/-- A lock is free after a party went away only if it was free, or the party was the last in
    line. -/
theorem holder_withdraw_cases (lock : Lock) (party : PartyId) :
    lock = ⟨some party, []⟩ ∨ (lock.withdraw party).holder ≠ none ∨ (lock.withdraw party).holder = lock.holder := by
  obtain ⟨holder, queue⟩ := lock
  by_cases own : holder = some party
  · subst own
    cases queue with
    | nil => exact .inl rfl
    | cons next rest =>
      refine .inr (.inl ?_)
      have held : heldBy ⟨some party, next :: rest⟩ party = true := beq_iff_eq.mpr rfl
      rw [withdraw, if_pos held]
      exact Option.some_ne_none next
  · refine .inr (.inr ?_)
    have free : ¬ heldBy ⟨holder, queue⟩ party = true := fun held => own (beq_iff_eq.mp held)
    rw [withdraw, if_neg free]

theorem mem_line_withdraw (nodup : lock.line.Nodup) :
    other ∈ (lock.withdraw party).line ↔ other ∈ lock.line ∧ other ≠ party := by
  rw [withdraw]
  by_cases held : lock.holder = some party
  · have own : lock.heldBy party = true := beq_iff_eq.mpr held
    rw [if_pos own, line_release]
    rw [line_of_held held] at nodup ⊢
    constructor
    · intro waits
      refine ⟨List.mem_cons_of_mem _ waits, fun same => ?_⟩
      rw [same] at waits
      exact (List.nodup_cons.mp nodup).1 waits
    · rintro ⟨listed, apart⟩
      exact (List.mem_cons.mp listed).resolve_left apart
  · have own : ¬ lock.heldBy party = true := fun same => held (beq_iff_eq.mp same)
    rw [if_neg own, line, line, List.mem_append, List.mem_append]
    have queue : lock.queue.Nodup := (List.nodup_append.mp nodup).2.1
    have absent : party ∉ lock.holder.toList := by simpa using held
    rw [queue.mem_erase_iff]
    constructor
    · rintro (holds | ⟨apart, waits⟩)
      · exact ⟨.inl holds, fun same => absent (same ▸ holds)⟩
      · exact ⟨.inr waits, apart⟩
    · rintro ⟨holds | waits, apart⟩
      · exact .inl holds
      · exact .inr ⟨apart, waits⟩

theorem nodup_withdraw (nodup : lock.line.Nodup) (party : PartyId) : (lock.withdraw party).line.Nodup := by
  rw [withdraw]
  split
  · rw [line_release]
    exact (List.nodup_append.mp nodup).2.1
  · exact nodup.sublist ((List.Sublist.refl _).append List.erase_sublist)

end Lock

namespace Stage

/-- Whether a party that stands here has asked for the lock and not let it go. -/
def inLine : Stage → Bool
  | .waiting => true
  | stage => stage.holds

/-- Whether a party that stands here still looks whether the link was closed, or after
    the slot. -/
def looks : Stage → Bool
  | .checking _ | .sweeping _ => true
  | _ => false

/-- Whether a party that stands here has not begun or has come to its end. -/
def rests : Stage → Bool
  | .entering | .closing | .finished _ => true
  | _ => false

theorem inLine_of_holds {stage : Stage} (holds : stage.holds = true) : stage.inLine = true := by
  cases stage <;> first | rfl | exact holds

theorem inLine_of_rests {stage : Stage} (rests : stage.rests = true) : stage.inLine = false := by
  cases stage <;> first | rfl | cases rests

theorem looks_of_rests {stage : Stage} (rests : stage.rests = true) : stage.looks = false := by
  cases stage <;> first | rfl | cases rests

end Stage

namespace Link

variable {link : Link} {party : PartyId} {stage : Stage} {event : Event} {step : LinkStep}

theorem lock_unlocked_of_held (held : link.lock.holder = some party) :
    link.unlocked.lock = link.lock.withdraw party := by
  have own : link.lock.heldBy party = true := beq_iff_eq.mpr held
  rw [Lock.withdraw, if_pos own]
  rfl

/-- A step leaves the lock as it is, or gets the party into line, or out of it. -/
theorem Advances.lock_cases (advances : link.Advances party stage event step)
    (locked : stage.holds = true → link.lock.holder = some party) :
    (step.link.lock = link.lock ∧ step.stage.inLine = stage.inLine) ∨
    (step.link.lock = link.lock.request party ∧ stage.inLine = false ∧ step.stage.inLine = true) ∨
    (step.link.lock = link.lock.withdraw party ∧ step.stage.inLine = false) := by
  cases advances with
  | refuse | take | redial | dial | write | receive | store | finish | notice | closeAgain | close | leave =>
    exact .inl ⟨rfl, rfl⟩
  | request | sweep => exact .inr (.inl ⟨rfl, rfl, rfl⟩)
  | withdraw => exact .inr (.inr ⟨rfl, rfl⟩)
  | turnAway held => exact .inr (.inr ⟨lock_unlocked_of_held held, rfl⟩)
  | unlock | clear => exact .inr (.inr ⟨lock_unlocked_of_held (locked rfl), rfl⟩)
  | giveUp event failure exchanging =>
    have holds : stage.holds = true := by cases stage <;> first | rfl | cases exchanging
    exact .inr (.inr ⟨lock_unlocked_of_held (locked holds), rfl⟩)

/-- If a stream is in the slot of a closed link after a step, and the party has not gone away
    as the last in line, somebody holds the lock, or the party looks after the slot, or
    nothing has changed for those who do. -/
theorem Advances.tended_cases (advances : link.Advances party stage event step)
    (locked : stage.holds = true → link.lock.holder = some party) (vacant : stage.took = true → link.slot = none)
    (isClosed : step.link.closed = true) (kept : step.link.slot ≠ none)
    (heeds : stage = .waiting → event = .cancelled → link.lock = ⟨some party, []⟩ → link.closed = true →
      link.slot = none) :
    step.link.lock.holder ≠ none ∨ step.stage.looks = true ∨
      (stage.looks = false ∧ link.closed = true ∧ link.slot ≠ none ∧ step.link.lock.holder = link.lock.holder) := by
  have holds (held : link.lock.holder = some party) : link.lock.holder ≠ none := by
    rw [held]
    exact Option.some_ne_none party
  cases advances with
  | refuse | closeAgain => exact .inr (.inr ⟨rfl, by assumption, kept, rfl⟩)
  | request | sweep => exact .inl (link.lock.holder_request_ne_none party)
  | turnAway | take | clear => exact absurd rfl kept
  | redial held => exact .inl (holds held)
  | dial | write | receive | store => exact .inl (holds (locked rfl))
  | giveUp event failure exchanging =>
    have took : stage.took = true := by cases stage <;> first | rfl | cases exchanging
    exact absurd (vacant took) kept
  | unlock | notice | close => exact .inr (.inl rfl)
  | finish reply isOpen => exact absurd (isOpen.symm.trans isClosed) Bool.false_ne_true
  | leave conclusion held => exact .inl held
  | withdraw =>
    rcases link.lock.holder_withdraw_cases party with last | handed | same
    · exact absurd (heeds rfl rfl last isClosed) kept
    · exact .inl handed
    · exact .inr (.inr ⟨rfl, isClosed, kept, same⟩)

end Link

/-! ## All parties of a link -/

/-- A link and where its parties stand. -/
structure Parties where
  link : Link
  stage : PartyId → Stage

namespace Parties

/-- A link around a stream, and parties that are about to call on it or to close it. -/
structure Begins (t : Parties) : Prop where
  link : ∃ stream, t.link = .around stream
  stage : ∀ party, t.stage party = .entering ∨ t.stage party = .closing

/-- The parties after one of them took a step. -/
def acted (t : Parties) (party : PartyId) (step : LinkStep) : Parties where
  link := step.link
  stage := Function.update t.stage party step.stage

/-- One step of one party. A call that found the link open may ask for the lock after it
    was closed. -/
inductive Step (t : Parties) (party : PartyId) : Event → Parties → Prop where
  | act {event : Event} {step : LinkStep} (advanced : t.link.advance party (t.stage party) event = some step) :
      Step t party event (t.acted party step)
  | late (enters : t.stage party = .entering) :
      Step t party .go (t.acted party ⟨{ t.link with lock := t.link.lock.request party }, .waiting, none⟩)

/-- Whether a step is that of a call which the lock of a closed link was handed to, last
    in line and with a stream in the slot, and which is cancelled there. -/
structure Abandons (t : Parties) (party : PartyId) (event : Event) : Prop where
  waits : t.stage party = .waiting
  cancelled : event = .cancelled
  last : t.link.lock = ⟨some party, []⟩
  isClosed : t.link.closed = true
  kept : t.link.slot ≠ none

/-- Any steps of any parties. -/
def Run : Parties → Parties → Prop :=
  Relation.ReflTransGen (fun t next => ∃ party event, Step t party event next)

/-- Steps none of which abandons the slot. -/
def Tends : Parties → Parties → Prop :=
  Relation.ReflTransGen (fun t next => ∃ party event, Step t party event next ∧ ¬ t.Abandons party event)

/-- No party is on its way. -/
def Rests (t : Parties) : Prop := ∀ party, (t.stage party).rests = true

/-- Who stands in line, who has the lock, and who looks after the slot of a closed link. -/
structure Sound (t : Parties) : Prop where
  lined : ∀ party, party ∈ t.link.lock.line ↔ (t.stage party).inLine = true
  nodup : t.link.lock.line.Nodup
  locked : ∀ party, (t.stage party).holds = true → t.link.lock.holder = some party
  vacant : ∀ party, (t.stage party).took = true → t.link.slot = none
  tended : t.link.closed = true → t.link.slot ≠ none →
    t.link.lock.holder ≠ none ∨ ∃ party, (t.stage party).looks = true

variable {t later : Parties} {party other : PartyId} {event : Event} {step : LinkStep}

theorem stage_acted_self : (t.acted party step).stage party = step.stage :=
  Function.update_self ..

theorem stage_acted_of_ne (apart : other ≠ party) : (t.acted party step).stage other = t.stage other :=
  Function.update_of_ne apart ..

theorem Begins.sound (begins : t.Begins) : t.Sound := by
  obtain ⟨⟨stream, around⟩, fresh⟩ := begins
  have rests (party : PartyId) : (t.stage party).rests = true := by
    rcases fresh party with enters | closes
    · rw [enters]; rfl
    · rw [closes]; rfl
  have inLine (party : PartyId) : (t.stage party).inLine = false := Stage.inLine_of_rests (rests party)
  have holds (party : PartyId) : (t.stage party).holds ≠ true := by
    intro holds
    have contra := Stage.inLine_of_holds holds
    rw [inLine party] at contra
    cases contra
  refine ⟨?_, ?_, ?_, ?_, ?_⟩
  · intro party
    rw [inLine party, around]
    exact ⟨nofun, nofun⟩
  · rw [around]
    exact List.nodup_nil
  · exact fun party held => absurd held (holds party)
  · exact fun party took => absurd (Stage.holds_of_took took) (holds party)
  · rw [around]
    nofun

/-- The line after a step that leaves the lock, or gets the party into line or out of it. -/
theorem Sound.lined_acted (sound : t.Sound)
    (moves : (step.link.lock = t.link.lock ∧ step.stage.inLine = (t.stage party).inLine) ∨
      (step.link.lock = t.link.lock.request party ∧ (t.stage party).inLine = false ∧ step.stage.inLine = true) ∨
      (step.link.lock = t.link.lock.withdraw party ∧ step.stage.inLine = false)) :
    (∀ other, other ∈ step.link.lock.line ↔ ((t.acted party step).stage other).inLine = true) ∧
      step.link.lock.line.Nodup := by
  have own := sound.lined party
  rcases moves with ⟨same, still⟩ | ⟨asks, out, into⟩ | ⟨goes, out⟩
  · rw [same]
    refine ⟨fun other => ?_, sound.nodup⟩
    by_cases self : other = party
    · rw [self, stage_acted_self, still]
      exact own
    · rw [stage_acted_of_ne self]
      exact sound.lined other
  · have absent : party ∉ t.link.lock.line := by
      rw [own, out]
      exact Bool.false_ne_true
    have joined := t.link.lock.line_request party
    rw [asks]
    refine ⟨fun other => ?_, joined.nodup_iff.mpr (List.nodup_cons.mpr ⟨absent, sound.nodup⟩)⟩
    rw [joined.mem_iff, List.mem_cons]
    by_cases self : other = party
    · rw [self, stage_acted_self, into]
      exact ⟨fun _ => rfl, fun _ => .inl rfl⟩
    · rw [stage_acted_of_ne self, ← sound.lined other]
      exact ⟨fun listed => listed.resolve_left self, .inr⟩
  · rw [goes]
    refine ⟨fun other => ?_, Lock.nodup_withdraw sound.nodup party⟩
    rw [Lock.mem_line_withdraw sound.nodup]
    by_cases self : other = party
    · rw [self, stage_acted_self, out]
      exact ⟨fun listed => absurd rfl listed.2, nofun⟩
    · rw [stage_acted_of_ne self, ← sound.lined other]
      exact ⟨And.left, fun listed => ⟨listed, self⟩⟩

theorem Sound.acted (sound : t.Sound) (advances : t.link.Advances party (t.stage party) event step)
    (heeds : ¬ t.Abandons party event) : (t.acted party step).Sound := by
  obtain ⟨lined, nodup⟩ := sound.lined_acted (advances.lock_cases (sound.locked party))
  refine ⟨lined, nodup, ?_, ?_, ?_⟩
  · intro other holds
    by_cases self : other = party
    · rw [self, stage_acted_self] at holds
      rw [self]
      exact advances.holder_of_holds (sound.locked party) holds
    · rw [stage_acted_of_ne self] at holds
      exact advances.holder_of_other (sound.locked party) self (sound.locked other holds)
  · intro other took
    by_cases self : other = party
    · rw [self, stage_acted_self] at took
      exact advances.slot_of_took (sound.vacant party) took
    · rw [stage_acted_of_ne self] at took
      have held := sound.locked other (Stage.holds_of_took took)
      have absent : t.link.lock.holder ≠ some party := by
        rw [held]
        exact fun same => self (Option.some.inj same)
      exact (advances.slot_eq_of_not_held (sound.locked party) absent).trans (sound.vacant other took)
  · intro isClosed kept
    have cases_left := advances.tended_cases (sound.locked party) (sound.vacant party) isClosed kept
      (fun waits cancelled last wasClosed => Decidable.byContradiction fun slot =>
        heeds ⟨waits, cancelled, last, wasClosed, slot⟩)
    rcases cases_left with held | looks | ⟨quiet, wasClosed, slot, same⟩
    · exact .inl held
    · refine .inr ⟨party, ?_⟩
      rw [stage_acted_self]
      exact looks
    · rcases sound.tended wasClosed slot with held | ⟨other, looks⟩
      · exact .inl (fun free => held (same.symm.trans free))
      · have apart : other ≠ party := fun self => by
          rw [self, quiet] at looks
          cases looks
        refine .inr ⟨other, ?_⟩
        rw [stage_acted_of_ne apart]
        exact looks

/-- A call that asks for the lock, whether or not the link was closed meanwhile. -/
theorem Sound.asked (sound : t.Sound) (enters : t.stage party = .entering) :
    (t.acted party ⟨{ t.link with lock := t.link.lock.request party }, .waiting, none⟩).Sound := by
  have out : (t.stage party).inLine = false := by
    rw [enters]
    rfl
  let asked : LinkStep := ⟨{ t.link with lock := t.link.lock.request party }, .waiting, none⟩
  have asks : asked.link.lock = t.link.lock.request party := rfl
  obtain ⟨lined, nodup⟩ := sound.lined_acted (.inr (.inl ⟨asks, out, rfl⟩))
  refine ⟨lined, nodup, ?_, ?_, fun _ _ => .inl (t.link.lock.holder_request_ne_none party)⟩
  · intro other holds
    by_cases self : other = party
    · rw [self, stage_acted_self] at holds
      cases holds
    · rw [stage_acted_of_ne self] at holds
      exact Lock.holder_request (sound.locked other holds) party
  · intro other took
    by_cases self : other = party
    · rw [self, stage_acted_self] at took
      cases took
    · rw [stage_acted_of_ne self] at took
      exact sound.vacant other took

theorem Sound.next (sound : t.Sound) (step : Step t party event later) (heeds : ¬ t.Abandons party event) :
    later.Sound := by
  cases step with
  | act advanced => exact sound.acted (Link.advances_of_advance advanced) heeds
  | late enters => exact sound.asked enters

theorem Sound.run (sound : t.Sound) (run : Tends t later) : later.Sound := by
  induction run with
  | refl => exact sound
  | tail _ step ih =>
    obtain ⟨party, event, step, heeds⟩ := step
    exact ih.next step heeds

/-- However calls and closes overlap, and wherever calls are cancelled: once the link is
    closed and nobody is on the way, there is no stream in the slot, unless the lock of the
    closed link was handed to a call that was cancelled before it went on, and nobody stood
    in line behind it. -/
theorem slot_empty_at_rest (begins : t.Begins) (run : Tends t later) (isClosed : later.link.closed = true)
    (rests : later.Rests) : later.link.slot = none := by
  have sound := begins.sound.run run
  refine Decidable.byContradiction fun kept => ?_
  rcases sound.tended isClosed kept with held | ⟨party, looks⟩
  · obtain ⟨party, holder⟩ := Option.ne_none_iff_exists'.mp held
    have listed : party ∈ later.link.lock.line := by
      rw [Lock.line_of_held holder]
      exact List.mem_cons_self
    have inLine := (sound.lined party).mp listed
    rw [Stage.inLine_of_rests (rests party)] at inLine
    cases inLine
  · rw [Stage.looks_of_rests (rests party)] at looks
    cases looks

/-- The parties after some of them met events one after another. -/
def play (t : Parties) : List (PartyId × Event) → Parties
  | [] => t
  | (party, event) :: rest =>
    match t.link.advance party (t.stage party) event with
    | none => t
    | some step => (t.acted party step).play rest

theorem run_play (t : Parties) (events : List (PartyId × Event)) : Run t (t.play events) := by
  induction events generalizing t with
  | nil => exact .refl
  | cons first rest ih =>
    obtain ⟨party, event⟩ := first
    rw [play]
    split
    · exact .refl
    next step advanced => exact .head ⟨party, event, .act advanced⟩ (ih _)

/-- Two calls, and a close. -/
def three : Parties where
  link := .around 0
  stage party := if party = 2 then .closing else .entering

/-- The first call has its reply and hands the lock on. It sees the link open, the close
    finds the lock taken, and the second call is cancelled before it goes on. -/
def abandoned : List (PartyId × Event) :=
  [(0, .go), (0, .go), (1, .go), (0, .written), (0, .received .ack), (0, .go), (0, .go), (0, .go),
    (2, .go), (2, .go), (1, .cancelled)]

/-- A closed link on which nobody is on the way may keep its stream. -/
theorem stream_stays_of_abandoned :
    three.Begins ∧ Run three (three.play abandoned) ∧ (three.play abandoned).link.closed = true ∧
    (three.play abandoned).Rests ∧ (three.play abandoned).link.slot = some 0 := by
  refine ⟨⟨⟨0, rfl⟩, fun party => ?_⟩, run_play three abandoned, rfl, fun party => ?_, rfl⟩
  · by_cases closes : party = 2
    · exact .inr (if_pos closes)
    · exact .inl (if_neg closes)
  · by_cases first : party = 0
    · rw [first]; rfl
    · by_cases second : party = 1
      · rw [second]; rfl
      · by_cases closes : party = 2
        · rw [closes]; rfl
        · have enters : (three.play abandoned).stage party = .entering := by
            simp [abandoned, play, three, acted, Link.advance, Link.around, Lock.request, Lock.free, Lock.heldBy,
              Link.entered, Link.unlocked, Lock.release, Lock.isFree, Lock.withdraw, Function.update_of_ne, first,
              second, closes]
          rw [enters]
          rfl

end Parties

end RingCache
