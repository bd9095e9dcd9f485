import RingCache.Proofs.Traffic

/-!
# Exchanges on a shared link

However the calls on a link overlap, fail, are cancelled and meet closes, a call
that succeeds has the reply to its own request, and only one call uses a stream
at a time. A stream whose exchange broke off is never used again (`Traffic.Spent`),
and the next call dials; one whose exchange was completed is what the next call
uses, unless the link was closed (`Traffic.Kept`).
-/
namespace RingCache.Traffic
open Wire

variable {limit : Nat} {start t later broken taken : Traffic} {party other : PartyId} {event : Event}
variable {stream : StreamId} {deed : Deed} {step : LinkStep}

/-! ## Streams given up -/

/-- A stream was dialed, and is neither used nor kept for use. -/
structure Spent (stream : StreamId) (t : Traffic) : Prop where
  opened : stream ∈ t.opened
  slot : t.link.slot ≠ some stream
  stage : ∀ party, (t.stage party).stream? ≠ some stream

theorem Spent.acted (spent : t.Spent stream) (possible : t.Possible limit party event)
    (advances : t.link.Advances party (t.stage party) event step) : (t.acted limit party event step).Spent stream where
  opened := opened_acted spent.opened
  slot := by
    intro kept
    rcases advances.slot_eq_some kept with before | ⟨reply, stores⟩
    · exact spent.slot before
    · exact spent.stage party (by rw [stores]; rfl)
  stage := by
    intro other uses
    by_cases same : other = party
    · subst same
      rw [stage_acted_self] at uses
      rcases advances.stream_cases uses with before | ⟨_, kept⟩ | rfl
      · exact spent.stage other before
      · exact spent.slot kept
      · exact possible spent.opened
    · rw [stage_acted_of_ne same] at uses
      exact spent.stage other uses

theorem Spent.next (spent : t.Spent stream) (happens : Step limit t deed later) : later.Spent stream := by
  cases happens with
  | act possible advanced => exact spent.acted possible (Link.advances_of_advance advanced)
  | put | peer => exact ⟨spent.opened, spent.slot, spent.stage⟩

theorem Spent.run (spent : t.Spent stream) (run : Run limit t later) : later.Spent stream := by
  induction run with
  | refl => exact spent
  | tail _ last ih =>
    obtain ⟨deed, happens⟩ := last
    exact ih.next happens

/-! ## Between two calls -/

theorem Idles.run (idles : Idles limit t later) : Run limit t later :=
  Relation.ReflTransGen.mono (fun _ _ ⟨deed, happens, _⟩ => ⟨deed, happens⟩) _ _ idles

theorem took_acted (advances : t.link.Advances party (t.stage party) event step)
    (passes : ¬ t.Takes (.act party event)) (taken : ((t.acted limit party event step).stage other).took = true) :
    (t.stage other).took = true := by
  by_cases same : other = party
  · subst same
    rw [stage_acted_self] at taken
    rcases advances.took_cases taken with before | ⟨waits, rfl⟩
    · exact before
    · exact absurd ⟨other, rfl, waits⟩ passes
  · rwa [stage_acted_of_ne same] at taken

theorem slot_acted (sound : t.Sound) (advances : t.link.Advances party (t.stage party) event step)
    (passes : ¬ t.Takes (.act party event)) :
    step.link.slot = t.link.slot ∨ step.link.closed = true ∨ ∃ stream reply, t.stage party = .storing stream reply := by
  refine advances.slot_cases (sound.noted party) ?_
  rintro ⟨waits, rfl⟩
  exact passes ⟨party, rfl, waits⟩

/-- No stream is kept, and nobody uses or dials one. -/
structure Vacant (t : Traffic) : Prop where
  slot : t.link.slot = none
  stage : ∀ party, (t.stage party).took = false

theorem Vacant.next (vacant : t.Vacant) (happens : Step limit t deed later) (passes : ¬ t.Takes deed) :
    later.Vacant := by
  cases happens with
  | put | peer => exact ⟨vacant.slot, vacant.stage⟩
  | @act party event step possible advanced =>
    have advances := Link.advances_of_advance advanced
    refine ⟨Option.eq_none_iff_forall_ne_some.mpr ?_, ?_⟩
    · intro stream kept
      rcases advances.slot_eq_some kept with before | ⟨reply, stores⟩
      · rw [vacant.slot] at before
        cases before
      · have free := vacant.stage party
        rw [stores] at free
        cases free
    · intro other
      rw [← Bool.not_eq_true]
      intro taken
      have free := vacant.stage other
      rw [took_acted advances passes taken] at free
      cases free

theorem Vacant.idles (vacant : t.Vacant) (idles : Idles limit t later) : later.Vacant := by
  induction idles with
  | refl => exact vacant
  | tail _ last ih =>
    obtain ⟨deed, happens, passes⟩ := last
    exact ih.next happens passes

/-- A stream is kept for the next call, or about to be, or the link is closed. -/
inductive Kept (stream : StreamId) (t : Traffic) : Prop where
  | isClosed (isClosed : t.link.closed = true)
  | slot (kept : t.link.slot = some stream) (nobody : ∀ party, (t.stage party).took = false)
  | storing (party : PartyId) (reply : Message) (stores : t.stage party = .storing stream reply)

/-- A call that stores its stream keeps it, and while it stores it nobody else does
    anything with the slot. -/
theorem Kept.storing_next (sound : t.Sound) {reply : Message} (stores : t.stage other = .storing stream reply)
    (advances : t.link.Advances party (t.stage party) event step) :
    (t.acted limit party event step).Kept stream := by
  by_cases same : other = party
  · subst same
    have after : (t.acted limit other event step).stage other = step.stage := stage_acted_self
    have nobody : ∀ any, any ≠ other → ((t.acted limit other event step).stage any).took = false := by
      intro any apart
      rw [stage_acted_of_ne apart, ← Bool.not_eq_true]
      exact fun taken => apart (sound.eq_of_took taken (by rw [stores]; rfl))
    rw [stores] at advances
    cases advances with
    | giveUp event failure exchanging => cases exchanging
    | store =>
      refine .slot rfl ?_
      intro any
      by_cases own : any = other
      · rw [own, after]
        rfl
      · exact nobody any own
  · exact .storing other reply (by rw [stage_acted_of_ne same, stores])

theorem Kept.next (kept : t.Kept stream) (sound : t.Sound) (happens : Step limit t deed later)
    (passes : ¬ t.Takes deed) : later.Kept stream := by
  cases happens with
  | put | peer =>
    cases kept with
    | isClosed isClosed => exact .isClosed isClosed
    | slot kept nobody => exact .slot kept nobody
    | storing party reply stores => exact .storing party reply stores
  | @act party event step possible advanced =>
    have advances := Link.advances_of_advance advanced
    cases kept with
    | isClosed isClosed => exact .isClosed (advances.closed isClosed)
    | storing other reply stores => exact storing_next sound stores advances
    | slot kept nobody =>
      rcases slot_acted sound advances passes with same | isClosed | ⟨own, reply, stores⟩
      · refine .slot (same.trans kept) ?_
        intro other
        rw [← Bool.not_eq_true]
        intro taken
        have free := nobody other
        rw [took_acted advances passes taken] at free
        cases free
      · exact .isClosed isClosed
      · have free := nobody party
        rw [stores] at free
        cases free

theorem Kept.idles (kept : t.Kept stream) (sound : t.Sound) (idles : Idles limit t later) : later.Kept stream := by
  induction idles with
  | refl => exact kept
  | tail before last ih =>
    obtain ⟨deed, happens, passes⟩ := last
    exact ih.next (sound.run (Idles.run before)) happens passes

/-! ## The next call -/

theorem entered_of_take (waits : t.stage party = .waiting) (happens : Step limit t (.act party .go) taken) :
    t.link.lock.holder = some party ∧ taken.stage party = t.link.entered.stage := by
  cases happens with
  | act possible advanced =>
    rw [waits] at advanced
    simp only [Link.advance] at advanced
    split at advanced <;> cases advanced
    next held => exact ⟨beq_iff_eq.mp held, stage_acted_self⟩

theorem Vacant.take (vacant : t.Vacant) (waits : t.stage party = .waiting)
    (happens : Step limit t (.act party .go) taken) :
    taken.stage party = if t.link.closed then .finished (.failed Link.closedFailure) else .dialing := by
  rw [(entered_of_take waits happens).2, Link.entered, vacant.slot]
  split <;> rfl

theorem Kept.take (kept : t.Kept stream) (sound : t.Sound) (waits : t.stage party = .waiting)
    (happens : Step limit t (.act party .go) taken) :
    taken.stage party = if t.link.closed then .finished (.failed Link.closedFailure) else .writing stream := by
  obtain ⟨held, entered⟩ := entered_of_take waits happens
  rw [entered, Link.entered]
  cases kept with
  | isClosed isClosed =>
    rw [isClosed]
    rfl
  | slot kept nobody =>
    rw [kept]
    split <;> rfl
  | storing other reply stores =>
    rw [sound.locked other (by rw [stores]; rfl)] at held
    cases held
    rw [stores] at waits
    cases waits

/-! ## How exchanges end -/

/-- An exchange that breaks off leaves its stream to nobody, and no other one. -/
theorem Sound.breaks (sound : t.Sound) {failure : Failure} (uses : (t.stage party).stream? = some stream)
    (happens : Step limit t (.act party event) broken) (failed : broken.stage party = .finished (.failed failure)) :
    broken.Spent stream ∧ broken.Vacant := by
  cases happens with
  | @act _ _ step possible advanced =>
    have taken := Stage.took_of_stream? uses
    have opened := sound.stage_opened party stream uses
    have slot := sound.vacant party taken
    rw [stage_acted_self] at failed
    have same : step.link.slot = t.link.slot :=
      (Link.advances_of_advance advanced).slot_eq_of_failed uses failed
    have nobody : ∀ other, ((t.acted limit party event step).stage other).took = false := by
      intro other
      by_cases own : other = party
      · rw [own, stage_acted_self, failed]
        rfl
      · rw [stage_acted_of_ne own, ← Bool.not_eq_true]
        exact fun also => own (sound.eq_of_took also taken)
    have vacant : step.link.slot = none := same.trans slot
    refine ⟨⟨opened_acted opened, ?_, ?_⟩, ⟨vacant, nobody⟩⟩
    · change step.link.slot ≠ some stream
      rw [vacant]
      exact nofun
    · intro other also
      have free := nobody other
      rw [Stage.took_of_stream? also] at free
      cases free

theorem stores_of_received {reply : Message} {complete : Traffic} (reads : t.stage party = .reading stream)
    (happens : Step limit t (.act party (.received reply)) complete) :
    complete.stage party = .storing stream reply := by
  cases happens with
  | act possible advanced =>
    rw [reads] at advanced
    cases advanced
    exact stage_acted_self

/-- After any run of calls and closes on a link: a call that succeeded has the reply
    to its own request, and only one party has a stream. Once an exchange breaks
    off, its stream is never used or kept again, and the next call that comes out
    of the queue dials. Once an exchange is complete, whatever the reply, the next
    call uses its stream. But if the link is closed, that call fails. -/
theorem exchanges_kept_apart (begins : start.Begins) (run : Run limit start t) :
    (∀ party reply, t.stage party = .finished (.replied reply) → t.Answers party reply) ∧
    (∀ party other stream another, (t.stage party).stream? = some stream →
      (t.stage other).stream? = some another → party = other) ∧
    (∀ party event failure stream broken, (t.stage party).stream? = some stream →
      Step limit t (.act party event) broken → broken.stage party = .finished (.failed failure) →
      (∀ later, Run limit broken later →
        later.link.slot ≠ some stream ∧ ∀ other, (later.stage other).stream? ≠ some stream) ∧
      (∀ later other taken, Idles limit broken later → later.stage other = .waiting →
        Step limit later (.act other .go) taken →
        taken.stage other = if later.link.closed then .finished (.failed Link.closedFailure) else .dialing)) ∧
    (∀ party reply stream complete, t.stage party = .reading stream →
      Step limit t (.act party (.received reply)) complete →
      ∀ later other taken, Idles limit complete later → later.stage other = .waiting →
        Step limit later (.act other .go) taken →
        taken.stage other =
          if later.link.closed then .finished (.failed Link.closedFailure) else .writing stream) := by
  have sound := begins.sound.run run
  refine ⟨?_, ?_, ?_, ?_⟩
  · intro party reply replied
    exact sound.answered party reply (by rw [replied]; rfl)
  · intro party other stream another uses also
    exact sound.eq_of_took (Stage.took_of_stream? uses) (Stage.took_of_stream? also)
  · intro party event failure stream broken uses breaks failed
    obtain ⟨spent, vacant⟩ := sound.breaks uses breaks failed
    refine ⟨?_, ?_⟩
    · intro later run
      have still := spent.run run
      exact ⟨still.slot, still.stage⟩
    · intro later other taken idles waits takes
      exact (vacant.idles idles).take waits takes
  · intro party reply stream complete reads completes later other taken idles waits takes
    have after := sound.next completes
    have kept : complete.Kept stream := .storing party reply (stores_of_received reads completes)
    exact (kept.idles after idles).take (after.run (Idles.run idles)) waits takes

/-! ## A call that is cancelled -/

/-- The traffic after a party has met an event that makes it take a step. -/
def obey (limit : Nat) (t : Traffic) (party : PartyId) (event : Event) : Traffic :=
  (t.link.advance party (t.stage party) event).elim t (t.acted limit party event)

theorem step_obey (possible : t.Possible limit party event)
    (goes : (t.link.advance party (t.stage party) event).isSome = true) :
    Step limit t (.act party event) (t.obey limit party event) := by
  obtain ⟨step, advanced⟩ := Option.isSome_iff_exists.mp goes
  rw [obey, advanced]
  exact .act possible advanced

variable (party event) in
theorem Run.obey (run : Run limit start t) (possible : t.Possible limit party event)
    (goes : (t.link.advance party (t.stage party) event).isSome = true) :
    Run limit start (t.obey limit party event) :=
  .tail run ⟨_, step_obey possible goes⟩

/-- A link whose parties are calls, but for one that closes it. -/
def begun : Traffic where
  link := .around 0
  stage party := if party = 2 then .closing else .entering
  opened := [0]
  talk _ := .silent

theorem begins_begun : begun.Begins where
  link := ⟨0, rfl, rfl⟩
  talk _ := rfl
  stage party := by
    by_cases closes : party = 2
    · exact .inr (if_pos closes)
    · exact .inl (if_neg closes)

/-- A call reads, and its reply is on the way. -/
def overheard : Traffic :=
  let writing := (begun.obey 100 0 .go).obey 100 0 .go
  let reading := (writing.moved 0 ((writing.talk 0).ask 0)).obey 100 0 .written
  reading.moved 0 ⟨[0], [.retrieved [7]], frame (.retrieved [7]), []⟩

/-- It is cancelled, and another call waits. -/
def cancelled : Traffic :=
  (overheard.obey 100 0 .cancelled).obey 100 1 .go

/-- The reply to the other call has arrived, on a stream that it dialed. -/
def arrived : Traffic :=
  let writing := (cancelled.obey 100 1 .go).obey 100 1 (.dialed 1)
  let reading := (writing.moved 1 ((writing.talk 1).ask 1)).obey 100 1 .written
  let replied := reading.moved 1 ⟨[1], [.error "gone"], frame (.error "gone"), []⟩
  replied.moved 1 ⟨[1], [.error "gone"], [], [.data (frame (.error "gone"))]⟩

/-- The other call has read it. -/
def completed : Traffic :=
  arrived.obey 100 1 (.received (.error "gone"))

/-- The other call is done, and a third one waits. -/
def queued : Traffic :=
  (((completed.obey 100 1 .go).obey 100 1 .go).obey 100 1 .go).obey 100 3 .go

theorem run_overheard : Run 100 begun overheard := by
  have entered : Run 100 begun (begun.obey 100 0 .go) := Run.obey 0 .go .refl trivial rfl
  have writing := Run.obey 0 .go entered trivial rfl
  have put : Run 100 begun _ := .tail writing ⟨.put 0, .put rfl List.not_mem_nil⟩
  have reading := Run.obey 0 .written put (.head _) rfl
  exact .tail reading ⟨.peer 0, .peer (.head _) (.answer (.retrieved [7]) (by decide) (by decide))⟩

theorem step_cancelled : Step 100 overheard (.act 0 .cancelled) (overheard.obey 100 0 .cancelled) :=
  step_obey trivial rfl

theorem run_arrived : Run 100 (cancelled.obey 100 1 .go) arrived := by
  have dials : Possible 100 (cancelled.obey 100 1 .go) 1 (.dialed 1) := (by decide : 1 ∉ [0])
  have writing := Run.obey 1 (.dialed 1) .refl dials rfl
  have put : Run 100 _ _ := .tail writing ⟨.put 1, .put rfl List.not_mem_nil⟩
  have reading := Run.obey 1 .written put (.head _) rfl
  have replied : Run 100 _ _ :=
    .tail reading ⟨.peer 1, .peer (.head _) (.answer (.error "gone") (by decide) (by decide))⟩
  exact .tail replied ⟨.peer 1, .peer (.head _) (.arrive 100)⟩

theorem step_completed : Step 100 arrived (.act 1 (.received (.error "gone"))) completed := by
  have framed : Framed 100 (.error "gone") := ⟨by decide, by decide⟩
  obtain ⟨rest, _, got⟩ := framed.read_frame (List.append_nil _ : [frame (.error "gone")].flatten = _ ++ []) []
  exact step_obey ⟨_, got⟩ rfl

theorem not_takes {t : Traffic} (stands : t.stage party ≠ .waiting) : ¬ t.Takes (.act party event) := by
  rintro ⟨_, ⟨⟩, waits⟩
  exact stands waits

theorem idles_cancelled : Idles 100 (overheard.obey 100 0 .cancelled) cancelled :=
  .tail .refl ⟨.act 1 .go, step_obey trivial rfl, not_takes nofun⟩

theorem idles_queued : Idles 100 completed queued := by
  have unlocking : Idles 100 completed (completed.obey 100 1 .go) :=
    .tail .refl ⟨.act 1 .go, step_obey trivial rfl, not_takes nofun⟩
  have checking : Idles 100 completed _ := .tail unlocking ⟨.act 1 .go, step_obey trivial rfl, not_takes nofun⟩
  have finished : Idles 100 completed _ := .tail checking ⟨.act 1 .go, step_obey trivial rfl, not_takes nofun⟩
  exact .tail finished ⟨.act 3 .go, step_obey trivial rfl, not_takes nofun⟩

/-- A call is cancelled while the reply to it is on the way. The next call dials, has
    its own reply, a failure, and hands the stream that it dialed to the call after
    it. -/
theorem exchanges_kept_apart_of_cancelled :
    begun.Begins ∧ Run 100 begun queued ∧ queued.stage 0 = .finished (.failed .timeout) ∧
    (cancelled.obey 100 1 .go).stage 1 = .dialing ∧ (∀ party, (queued.stage party).stream? ≠ some 0) ∧
    queued.stage 1 = .finished (.replied (.error "gone")) ∧ queued.Answers 1 (.error "gone") ∧
    (queued.obey 100 3 .go).stage 3 = .writing 1 := by
  have taken : Step 100 cancelled (.act 1 .go) (cancelled.obey 100 1 .go) := step_obey trivial rfl
  have broken : Run 100 begun (overheard.obey 100 0 .cancelled) := run_overheard.tail ⟨_, step_cancelled⟩
  have toArrived : Run 100 (overheard.obey 100 0 .cancelled) arrived :=
    ((Idles.run idles_cancelled).tail ⟨_, taken⟩).trans run_arrived
  have toQueued : Run 100 (overheard.obey 100 0 .cancelled) queued :=
    (toArrived.tail ⟨_, step_completed⟩).trans (Idles.run idles_queued)
  have whole : Run 100 begun queued := broken.trans toQueued
  obtain ⟨-, -, breaks, -⟩ := exchanges_kept_apart begins_begun run_overheard
  obtain ⟨-, -, -, completes⟩ := exchanges_kept_apart begins_begun (broken.trans toArrived)
  obtain ⟨answers, -, -, -⟩ := exchanges_kept_apart begins_begun whole
  obtain ⟨spent, dials⟩ := breaks 0 .cancelled .timeout 0 _ rfl step_cancelled rfl
  have keeps := completes 1 (.error "gone") 1 completed rfl step_completed queued 3 _ idles_queued rfl
    (step_obey trivial rfl)
  exact ⟨begins_begun, whole, rfl, dials cancelled 1 _ idles_cancelled rfl taken, (spent queued toQueued).2, rfl,
    answers 1 _ rfl, keeps⟩

end RingCache.Traffic
