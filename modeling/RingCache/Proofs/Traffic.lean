import Mathlib.Logic.Function.Basic
import Mathlib.Logic.Relation
import RingCache.Proofs.LinkSteps
import RingCache.Proofs.Streams

/-!
# Traffic on a link

All parties of a link together, with the streams that they have dialed. On a
stream the frames of requests go out one after another, and the peer sends the
frame of one reply for each of them, in order; what it sends arrives in pieces of
any size, and the stream may break or end at any time. Parties and peers take
their steps in any order (`Traffic.Step`), so what holds after every run holds for
every interleaving.

A stream that nobody uses has no reply outstanding, and one that is used has none
but that of the party that uses it (`Traffic.Sound`).
-/
namespace RingCache
open Wire

/-- A stream between a link and its peer. -/
structure Conversation where
  /-- The parties whose requests were put on the stream in full, in order. -/
  asked : List PartyId
  /-- The replies that the peer has sent, in order. -/
  replies : List Message
  /-- The bytes that the peer has sent and that have not arrived. -/
  underway : Bytes
  /-- What has arrived and was not read. -/
  arrived : Source
deriving DecidableEq, Repr

/-- A link, its parties, and its streams. -/
structure Traffic where
  link : Link
  stage : PartyId → Stage
  /-- The streams dialed so far. -/
  opened : List StreamId
  talk : StreamId → Conversation

namespace Conversation

/-- A stream on which nothing was said. -/
def silent : Conversation := ⟨[], [], [], []⟩

/-- What the peer and the network do to a stream. -/
inductive Goes (c : Conversation) : Conversation → Prop where
  /-- The peer answers the first request that it has not answered yet. -/
  | answer (reply : Message) (unanswered : c.replies.length < c.asked.length)
      (short : (encode reply).length < 2 ^ 64) :
      Goes c { c with replies := c.replies ++ [reply], underway := c.underway ++ frame reply }
  | arrive (n : Nat) :
      Goes c { c with underway := c.underway.drop n, arrived := c.arrived ++ [.data (c.underway.take n)] }
  | break (fault : StreamFault) : Goes c { c with arrived := c.arrived ++ [.fault fault] }
  | finish : Goes c { c with arrived := c.arrived ++ [.finish] }

/-- The stream after the request of a party was put on it. -/
def ask (c : Conversation) (party : PartyId) : Conversation :=
  { c with asked := c.asked ++ [party] }

/-- The stream after a message was read off it. -/
def read (limit : Nat) (c : Conversation) : Conversation :=
  match Wire.read limit c.arrived with
  | .message _ rest => { c with arrived := rest }
  | _ => c

/-- The bytes of replies that were not read. -/
def unread (c : Conversation) : Bytes :=
  c.arrived.content ++ c.underway

end Conversation

namespace Traffic

/-- A link was just opened. Its parties are calls and closes that have not begun. -/
structure Begins (t : Traffic) : Prop where
  link : ∃ stream, t.link = .around stream ∧ t.opened = [stream]
  talk : ∀ stream, t.talk stream = .silent
  stage : ∀ party, t.stage party = .entering ∨ t.stage party = .closing

/-- Whether an event can come to a party. A dial opens a new stream. A request is
    written once it was put on the stream, and a reply is what is read off it. All
    else may happen at any time. -/
def Possible (limit : Nat) (t : Traffic) (party : PartyId) (event : Event) : Prop :=
  match t.stage party, event with
  | _, .dialed stream => stream ∉ t.opened
  | .writing stream, .written => party ∈ (t.talk stream).asked
  | .reading stream, .received reply => ∃ rest, Wire.read limit (t.talk stream).arrived = .message reply rest
  | _, _ => True

/-- The stream that a message is read off when a party meets an event. -/
def reads (t : Traffic) (party : PartyId) (event : Event) : Option StreamId :=
  match t.stage party, event with
  | .reading stream, .received _ => some stream
  | _, _ => none

/-- The traffic after a party has met an event. -/
def acted (limit : Nat) (t : Traffic) (party : PartyId) (event : Event) (step : LinkStep) : Traffic where
  link := step.link
  stage := Function.update t.stage party step.stage
  opened := match event with
    | .dialed stream => stream :: t.opened
    | _ => t.opened
  talk stream := if t.reads party event = some stream then (t.talk stream).read limit else t.talk stream

/-- The traffic after something happened on a stream. -/
def moved (t : Traffic) (stream : StreamId) (c : Conversation) : Traffic :=
  { t with talk := Function.update t.talk stream c }

/-- What happens in a step. -/
inductive Deed where
  | act (party : PartyId) (event : Event)
  /-- The request of a party is on its stream in full. -/
  | put (party : PartyId)
  /-- Something happens on a stream. -/
  | peer (stream : StreamId)
deriving DecidableEq, Repr

/-- One step of one party, or on one stream. Frames have at most `limit` bytes. A
    call that writes may give up before its request is on the stream in full, and
    after. -/
inductive Step (limit : Nat) (t : Traffic) : Deed → Traffic → Prop where
  | act {party : PartyId} {event : Event} {step : LinkStep} (possible : t.Possible limit party event)
      (advanced : t.link.advance party (t.stage party) event = some step) :
      Step limit t (.act party event) (t.acted limit party event step)
  | put {party : PartyId} {stream : StreamId} (writes : t.stage party = .writing stream)
      (fresh : party ∉ (t.talk stream).asked) :
      Step limit t (.put party) (t.moved stream ((t.talk stream).ask party))
  | peer {stream : StreamId} {next : Conversation} (known : stream ∈ t.opened) (goes : (t.talk stream).Goes next) :
      Step limit t (.peer stream) (t.moved stream next)

/-- Any steps. -/
def Run (limit : Nat) : Traffic → Traffic → Prop :=
  Relation.ReflTransGen (fun t next => ∃ deed, Step limit t deed next)

/-- Whether a step is that of a call which comes out of the lock's queue. -/
def Takes (t : Traffic) (deed : Deed) : Prop :=
  ∃ party, deed = .act party .go ∧ t.stage party = .waiting

/-- Steps by which no call comes out of the lock's queue. -/
def Idles (limit : Nat) : Traffic → Traffic → Prop :=
  Relation.ReflTransGen (fun t next => ∃ deed, Step limit t deed next ∧ ¬ t.Takes deed)

/-- A reply is the peer's answer to the request of a party: both come at the same
    place on one stream. -/
def Answers (t : Traffic) (party : PartyId) (reply : Message) : Prop :=
  ∃ stream number : Nat, (t.talk stream).asked[number]? = some party ∧ (t.talk stream).replies[number]? = some reply

end Traffic

/-! ## Streams at rest and in use -/

namespace Conversation

variable {limit : Nat} {c next : Conversation} {party : PartyId} {reply : Message} {rest : Source}

/-- Every request was answered, and every reply was read. -/
structure Settled (c : Conversation) : Prop where
  answered : c.replies.length = c.asked.length
  unread : c.unread = []

/-- The request of a party is the last one, and at most its reply is unread. -/
inductive Awaits (c : Conversation) (party : PartyId) : Prop where
  | unanswered (earlier : List PartyId) (asked : c.asked = earlier ++ [party])
      (answered : c.replies.length = earlier.length) (nothing : c.unread = [])
  | answered (earlier : List PartyId) (before : List Message) (reply : Message) (asked : c.asked = earlier ++ [party])
      (replies : c.replies = before ++ [reply]) (level : before.length = earlier.length)
      (short : (encode reply).length < 2 ^ 64) (one : c.unread = frame reply)

theorem settled_silent : silent.Settled := ⟨rfl, rfl⟩

theorem Settled.ask (settled : c.Settled) (party : PartyId) : (c.ask party).Awaits party :=
  .unanswered c.asked rfl settled.answered settled.unread

theorem Goes.asked_eq (goes : c.Goes next) : next.asked = c.asked := by
  cases goes <;> rfl

theorem Goes.replies_prefix (goes : c.Goes next) : c.replies <+: next.replies := by
  cases goes with
  | answer reply => exact List.prefix_append _ _
  | arrive | «break» | finish => exact List.prefix_refl _

theorem Goes.cases (goes : c.Goes next) :
    (next.replies = c.replies ∧ next.unread = c.unread) ∨
      ∃ reply, c.replies.length < c.asked.length ∧ (encode reply).length < 2 ^ 64 ∧
        next.replies = c.replies ++ [reply] ∧ next.unread = c.unread ++ frame reply := by
  cases goes with
  | answer reply unanswered short =>
    exact .inr ⟨reply, unanswered, short, rfl, (List.append_assoc _ _ _).symm⟩
  | arrive n =>
    refine .inl ⟨rfl, ?_⟩
    simp [unread, Source.content_append, Source.content]
  | «break» | finish =>
    refine .inl ⟨rfl, ?_⟩
    simp [unread, Source.content_append, Source.content]

theorem Settled.goes (settled : c.Settled) (goes : c.Goes next) : next.Settled := by
  rcases goes.cases with ⟨replies, unread⟩ | ⟨_, unanswered, _⟩
  · exact ⟨by rw [replies, goes.asked_eq, settled.answered], by rw [unread, settled.unread]⟩
  · exact absurd settled.answered (Nat.ne_of_lt unanswered)

theorem Awaits.goes (awaits : c.Awaits party) (goes : c.Goes next) : next.Awaits party := by
  have asked_eq := goes.asked_eq
  rcases goes.cases with ⟨replies_eq, unread⟩ | ⟨reply, unanswered, short, replied, unread⟩
  · cases awaits with
    | unanswered earlier asked answered nothing =>
      exact .unanswered earlier (asked_eq.trans asked) (by rw [replies_eq, answered]) (unread.trans nothing)
    | answered earlier before reply asked replies level short one =>
      exact .answered earlier before reply (asked_eq.trans asked) (replies_eq.trans replies) level short
        (unread.trans one)
  · cases awaits with
    | unanswered earlier asked answered nothing =>
      rw [nothing, List.nil_append] at unread
      exact .answered earlier c.replies reply (asked_eq.trans asked) replied answered short unread
    | answered earlier before own asked replies level =>
      rw [asked, replies, List.length_append, List.length_append, level] at unanswered
      exact absurd unanswered (Nat.lt_irrefl _)

theorem read_of_message (got : Wire.read limit c.arrived = .message reply rest) :
    c.read limit = { c with arrived := rest } := by
  rw [read, got]

theorem asked_read : (c.read limit).asked = c.asked := by
  unfold read
  split <;> rfl

theorem replies_read : (c.read limit).replies = c.replies := by
  unfold read
  split <;> rfl

/-- What a party reads that waits for its reply is its reply, and then the stream is
    at rest. -/
theorem Awaits.read (awaits : c.Awaits party) (got : Wire.read limit c.arrived = .message reply rest) :
    (c.read limit).Settled ∧
      ∃ number : Nat, (c.read limit).asked[number]? = some party ∧ (c.read limit).replies[number]? = some reply := by
  rw [read_of_message got]
  cases awaits with
  | unanswered earlier asked answered nothing => exact absurd got (read_ne_message nothing)
  | answered earlier before own asked replies level short one =>
    obtain ⟨rfl, nothing⟩ := eq_of_read_frame got one short
    refine ⟨⟨?_, nothing⟩, earlier.length, ?_, ?_⟩
    · simp only [asked, replies, List.length_append, level, List.length_singleton]
    · simp [asked]
    · simp [replies, ← level]

end Conversation

/-! ## Sound traffic -/

namespace Traffic

variable {limit : Nat} {t later : Traffic} {party other : PartyId} {event : Event} {step : LinkStep}
variable {stream : StreamId} {deed : Deed}

/-- What holds of the link, its parties and its streams at any time. -/
structure Sound (t : Traffic) : Prop where
  locked : ∀ party, (t.stage party).holds = true → t.link.lock.holder = some party
  vacant : ∀ party, (t.stage party).took = true → t.link.slot = none
  noted : ∀ party, (t.stage party).sweeps = true → t.link.closed = true
  slot_opened : ∀ stream, t.link.slot = some stream → stream ∈ t.opened
  stage_opened : ∀ party stream, (t.stage party).stream? = some stream → stream ∈ t.opened
  silent : ∀ stream, stream ∉ t.opened → t.talk stream = .silent
  atRest : ∀ stream, t.link.slot = some stream → (t.talk stream).Settled
  unasked : ∀ party stream, (t.stage party).prepares = true → party ∉ (t.talk stream).asked
  writing : ∀ party stream, t.stage party = .writing stream →
    ((t.talk stream).Settled ∧ party ∉ (t.talk stream).asked) ∨ (t.talk stream).Awaits party
  reading : ∀ party stream, t.stage party = .reading stream → (t.talk stream).Awaits party
  storing : ∀ party stream reply, t.stage party = .storing stream reply → (t.talk stream).Settled
  answered : ∀ party reply, (t.stage party).reply? = some reply → t.Answers party reply

theorem Begins.sound (begins : t.Begins) : t.Sound := by
  obtain ⟨⟨first, link, opened⟩, talk, stage⟩ := begins
  have nowhere : ∀ party, (t.stage party).holds = false ∧ (t.stage party).took = false ∧
      (t.stage party).sweeps = false ∧ (t.stage party).stream? = none ∧ (t.stage party).reply? = none := by
    intro party
    rcases stage party with same | same <;> rw [same] <;> exact ⟨rfl, rfl, rfl, rfl, rfl⟩
  constructor
  · intro party holds
    exact absurd holds (by simp [(nowhere party).1])
  · intro party taken
    exact absurd taken (by simp [(nowhere party).2.1])
  · intro party sweeps
    exact absurd sweeps (by simp [(nowhere party).2.2.1])
  · intro stream kept
    rw [link] at kept
    cases kept
    rw [opened]
    exact List.mem_singleton_self first
  · intro party stream uses
    exact absurd uses (by simp [(nowhere party).2.2.2.1])
  · intro stream _
    exact talk stream
  · intro stream _
    rw [talk stream]
    exact Conversation.settled_silent
  · intro party stream _
    rw [talk stream]
    exact List.not_mem_nil
  · intro party stream writes
    rcases stage party with same | same <;> rw [same] at writes <;> cases writes
  · intro party stream reads
    rcases stage party with same | same <;> rw [same] at reads <;> cases reads
  · intro party stream reply stores
    rcases stage party with same | same <;> rw [same] at stores <;> cases stores
  · intro party reply replied
    exact absurd replied (by simp [(nowhere party).2.2.2.2])

/-! ### A step of a party -/

theorem stage_acted_self : (t.acted limit party event step).stage party = step.stage :=
  Function.update_self ..

theorem stage_acted_of_ne (apart : other ≠ party) : (t.acted limit party event step).stage other = t.stage other :=
  Function.update_of_ne apart ..

theorem opened_acted (known : stream ∈ t.opened) : stream ∈ (t.acted limit party event step).opened := by
  unfold acted
  dsimp only
  split
  · exact List.mem_cons_of_mem _ known
  · exact known

theorem talk_acted_of_ne (apart : t.stage party ≠ .reading stream) :
    (t.acted limit party event step).talk stream = t.talk stream := by
  refine if_neg ?_
  unfold reads
  split
  next own reply reads =>
    rintro ⟨⟩
    exact apart reads
  · exact nofun

theorem talk_acted_of_received {reply : Message} (here : t.stage party = .reading stream) :
    (t.acted limit party (.received reply) step).talk stream = (t.talk stream).read limit := by
  simp [acted, reads, here]

theorem asked_acted : ((t.acted limit party event step).talk stream).asked = (t.talk stream).asked := by
  simp only [acted]
  split
  · exact Conversation.asked_read
  · rfl

theorem replies_acted : ((t.acted limit party event step).talk stream).replies = (t.talk stream).replies := by
  simp only [acted]
  split
  · exact Conversation.replies_read
  · rfl

/-- At most one party has taken the slot. -/
theorem Sound.eq_of_took (sound : t.Sound) (one : (t.stage party).took = true) (two : (t.stage other).took = true) :
    party = other := by
  have first := sound.locked party (Stage.holds_of_took one)
  rw [sound.locked other (Stage.holds_of_took two)] at first
  exact (Option.some.inj first).symm

/-- While a party has taken the slot, others read nothing. -/
theorem Sound.talk_acted (sound : t.Sound) (taken : (t.stage other).took = true) (apart : other ≠ party) :
    (t.acted limit party event step).talk = t.talk := by
  funext stream
  refine talk_acted_of_ne ?_
  intro reads
  exact apart (sound.eq_of_took taken (by rw [reads]; rfl))

section Act

variable (sound : t.Sound) (advances : t.link.Advances party (t.stage party) event step)
include sound advances

theorem Sound.acted_locked (holds : ((t.acted limit party event step).stage other).holds = true) :
    step.link.lock.holder = some other := by
  by_cases same : other = party
  · subst same
    rw [stage_acted_self] at holds
    exact advances.holder_of_holds (sound.locked other) holds
  · rw [stage_acted_of_ne same] at holds
    exact advances.holder_of_other (sound.locked party) same (sound.locked other holds)

theorem Sound.acted_vacant (taken : ((t.acted limit party event step).stage other).took = true) :
    step.link.slot = none := by
  by_cases same : other = party
  · subst same
    rw [stage_acted_self] at taken
    exact advances.slot_of_took (sound.vacant other) taken
  · rw [stage_acted_of_ne same] at taken
    have absent : t.link.lock.holder ≠ some party := by
      rw [sound.locked other (Stage.holds_of_took taken)]
      exact fun equal => same (Option.some.inj equal)
    rw [advances.slot_eq_of_not_held (sound.locked party) absent]
    exact sound.vacant other taken

theorem Sound.acted_noted (sweeps : ((t.acted limit party event step).stage other).sweeps = true) :
    step.link.closed = true := by
  by_cases same : other = party
  · subst same
    rw [stage_acted_self] at sweeps
    exact advances.closed_of_sweeps (sound.noted other) sweeps
  · rw [stage_acted_of_ne same] at sweeps
    exact advances.closed (sound.noted other sweeps)

theorem Sound.acted_slot_opened (kept : step.link.slot = some stream) :
    stream ∈ (t.acted limit party event step).opened := by
  refine opened_acted ?_
  rcases advances.slot_eq_some kept with before | ⟨reply, stores⟩
  · exact sound.slot_opened stream before
  · exact sound.stage_opened party stream (by rw [stores]; rfl)

theorem Sound.acted_stage_opened
    (uses : ((t.acted limit party event step).stage other).stream? = some stream) :
    stream ∈ (t.acted limit party event step).opened := by
  by_cases same : other = party
  · subst same
    rw [stage_acted_self] at uses
    rcases advances.stream_cases uses with before | ⟨_, kept⟩ | rfl
    · exact opened_acted (sound.stage_opened other stream before)
    · exact opened_acted (sound.slot_opened stream kept)
    · exact List.mem_cons_self
  · rw [stage_acted_of_ne same] at uses
    exact opened_acted (sound.stage_opened other stream uses)

omit advances in
theorem Sound.acted_silent (unknown : stream ∉ (t.acted limit party event step).opened) :
    (t.acted limit party event step).talk stream = .silent := by
  have before : stream ∉ t.opened := fun known => unknown (opened_acted known)
  rw [talk_acted_of_ne]
  · exact sound.silent stream before
  · intro reads
    exact before (sound.stage_opened party stream (by rw [reads]; rfl))

theorem Sound.acted_atRest (kept : step.link.slot = some stream) :
    ((t.acted limit party event step).talk stream).Settled := by
  rcases advances.slot_eq_some kept with before | ⟨reply, stores⟩
  · rw [talk_acted_of_ne]
    · exact sound.atRest stream before
    · intro reads
      rw [sound.vacant party (by rw [reads]; rfl)] at before
      cases before
  · rw [talk_acted_of_ne (by simp [stores])]
    exact sound.storing party stream reply stores

theorem Sound.acted_unasked (prepares : ((t.acted limit party event step).stage other).prepares = true) :
    other ∉ ((t.acted limit party event step).talk stream).asked := by
  rw [asked_acted]
  refine sound.unasked other stream ?_
  by_cases same : other = party
  · subst same
    rw [stage_acted_self] at prepares
    exact advances.prepares prepares
  · rwa [stage_acted_of_ne same] at prepares

theorem Sound.acted_writing (possible : t.Possible limit party event)
    (writes : (t.acted limit party event step).stage other = .writing stream) :
    (((t.acted limit party event step).talk stream).Settled ∧
        other ∉ ((t.acted limit party event step).talk stream).asked) ∨
      ((t.acted limit party event step).talk stream).Awaits other := by
  by_cases same : other = party
  · subst same
    rw [stage_acted_self] at writes
    obtain ⟨prepares, source⟩ := advances.writing_cases writes
    rw [talk_acted_of_ne (fun reads => by rw [reads] at prepares; cases prepares)]
    refine .inl ⟨?_, sound.unasked other stream prepares⟩
    rcases source with kept | rfl
    · exact sound.atRest stream kept
    · rw [sound.silent stream possible]
      exact Conversation.settled_silent
  · rw [stage_acted_of_ne same] at writes
    rw [sound.talk_acted (by rw [writes]; rfl) same]
    exact sound.writing other stream writes

theorem Sound.acted_reading (possible : t.Possible limit party event)
    (reads : (t.acted limit party event step).stage other = .reading stream) :
    ((t.acted limit party event step).talk stream).Awaits other := by
  by_cases same : other = party
  · subst same
    rw [stage_acted_self] at reads
    obtain ⟨writes, rfl⟩ := advances.reading_cases reads
    rw [talk_acted_of_ne (by simp [writes])]
    rcases sound.writing other stream writes with ⟨_, unput⟩ | awaits
    · simp only [Possible, writes] at possible
      exact absurd possible unput
    · exact awaits
  · rw [stage_acted_of_ne same] at reads
    rw [sound.talk_acted (by rw [reads]; rfl) same]
    exact sound.reading other stream reads

/-- A party that has its reply has read it off a stream that is at rest since. -/
theorem Sound.read (possible : t.Possible limit party event) {reply : Message}
    (reads : t.stage party = .reading stream) (got : event = .received reply) :
    ((t.acted limit party event step).talk stream).Settled ∧
      (t.acted limit party event step).Answers party reply := by
  subst got
  simp only [Possible, reads] at possible
  obtain ⟨rest, message⟩ := possible
  obtain ⟨settled, number, own, answer⟩ := (sound.reading party stream reads).read message
  have talk : (t.acted limit party (.received reply) step).talk stream = (t.talk stream).read limit :=
    talk_acted_of_received reads
  rw [← talk] at settled own answer
  exact ⟨settled, stream, number, own, answer⟩

theorem Sound.acted_storing (possible : t.Possible limit party event) {reply : Message}
    (stores : (t.acted limit party event step).stage other = .storing stream reply) :
    ((t.acted limit party event step).talk stream).Settled := by
  by_cases same : other = party
  · subst same
    rw [stage_acted_self] at stores
    obtain ⟨reads, got⟩ := advances.storing_cases stores
    exact (sound.read advances possible reads got).1
  · rw [stage_acted_of_ne same] at stores
    rw [sound.talk_acted (by rw [stores]; rfl) same]
    exact sound.storing other stream reply stores

theorem Sound.acted_answered (possible : t.Possible limit party event) {reply : Message}
    (replied : ((t.acted limit party event step).stage other).reply? = some reply) :
    (t.acted limit party event step).Answers other reply := by
  have mono : t.Answers other reply → (t.acted limit party event step).Answers other reply := by
    rintro ⟨stream, number, own, answer⟩
    exact ⟨stream, number, by rwa [asked_acted], by rwa [replies_acted]⟩
  by_cases same : other = party
  · subst same
    rw [stage_acted_self] at replied
    rcases advances.reply_cases replied with before | ⟨stream, reads, got⟩
    · exact mono (sound.answered other reply before)
    · exact (sound.read advances possible reads got).2
  · rw [stage_acted_of_ne same] at replied
    exact mono (sound.answered other reply replied)

theorem Sound.acted (possible : t.Possible limit party event) : (t.acted limit party event step).Sound where
  locked _ := sound.acted_locked advances
  vacant _ := sound.acted_vacant advances
  noted _ := sound.acted_noted advances
  slot_opened _ := sound.acted_slot_opened advances
  stage_opened _ _ := sound.acted_stage_opened advances
  silent _ := sound.acted_silent
  atRest _ := sound.acted_atRest advances
  unasked _ _ := sound.acted_unasked advances
  writing _ _ := sound.acted_writing advances possible
  reading _ _ := sound.acted_reading advances possible
  storing _ _ _ := sound.acted_storing advances possible
  answered _ _ := sound.acted_answered advances possible

end Act

/-! ### A step on a stream -/

variable {c : Conversation} {reply : Message} {any : StreamId}

theorem talk_moved_self : (t.moved stream c).talk stream = c :=
  Function.update_self ..

theorem talk_moved_of_ne (apart : any ≠ stream) : (t.moved stream c).talk any = t.talk any :=
  Function.update_of_ne apart ..

theorem moved_keeps (P : Conversation → Prop) (keeps : P (t.talk stream) → P c) (before : P (t.talk any)) :
    P ((t.moved stream c).talk any) := by
  by_cases same : any = stream
  · subst same
    rw [talk_moved_self]
    exact keeps before
  · rwa [talk_moved_of_ne same]

theorem Sound.moved_silent (sound : t.Sound) (known : stream ∈ t.opened) (unknown : any ∉ t.opened) :
    (t.moved stream c).talk any = .silent := by
  rw [talk_moved_of_ne (fun same => unknown (by rwa [same]))]
  exact sound.silent any unknown

theorem getElem?_extended {α : Type} {before after : List α} {n : Nat} {a : α} (begins : before <+: after)
    (found : before[n]? = some a) : after[n]? = some a := by
  obtain ⟨more, rfl⟩ := begins
  rwa [List.getElem?_append_left (List.getElem?_eq_some_iff.mp found).1]

/-- What was asked and answered stays so. -/
theorem Answers.moved (answers : t.Answers party reply) (asked : (t.talk stream).asked <+: c.asked)
    (replies : (t.talk stream).replies <+: c.replies) : (t.moved stream c).Answers party reply := by
  obtain ⟨any, number, own, answer⟩ := answers
  refine ⟨any, number, ?_, ?_⟩
  · exact moved_keeps (fun d => d.asked[number]? = some party) (getElem?_extended asked) own
  · exact moved_keeps (fun d => d.replies[number]? = some reply) (getElem?_extended replies) answer

theorem Sound.put (sound : t.Sound) (writes : t.stage party = .writing stream)
    (fresh : party ∉ (t.talk stream).asked) : (t.moved stream ((t.talk stream).ask party)).Sound := by
  have taken : (t.stage party).took = true := by rw [writes]; rfl
  have own : ∀ other, (t.stage other).took = true → other = party ∧ t.stage other = .writing stream := by
    intro other also
    obtain rfl := sound.eq_of_took taken also
    exact ⟨rfl, writes⟩
  refine { sound with silent := ?_, atRest := ?_, unasked := ?_, writing := ?_, reading := ?_, storing := ?_,
                      answered := ?_ }
  · intro any unknown
    exact sound.moved_silent (sound.stage_opened party stream (by rw [writes]; rfl)) unknown
  · intro any kept
    rw [moved, sound.vacant party taken] at kept
    cases kept
  · intro other any prepares
    refine moved_keeps (fun d => other ∉ d.asked) ?_ (sound.unasked other any prepares)
    intro unput
    have apart : other ≠ party := by
      rintro rfl
      rw [moved, writes] at prepares
      cases prepares
    simp [Conversation.ask, unput, apart]
  · intro other any also
    obtain ⟨rfl, here⟩ := own other (by rw [moved] at also; rw [also]; rfl)
    cases here.symm.trans also
    rw [talk_moved_self]
    rcases sound.writing other stream writes with ⟨settled, _⟩ | awaits
    · exact .inr (settled.ask other)
    · cases awaits with
      | unanswered earlier asked | answered earlier before reply asked => simp [asked] at fresh
  · intro other any reads
    have here := (own other (by rw [moved] at reads; rw [reads]; rfl)).2
    cases here.symm.trans reads
  · intro other any reply stores
    have here := (own other (by rw [moved] at stores; rw [stores]; rfl)).2
    cases here.symm.trans stores
  · intro other reply replied
    exact (sound.answered other reply replied).moved (List.prefix_append _ _) (List.prefix_refl _)

theorem Sound.peer (sound : t.Sound) (known : stream ∈ t.opened) (goes : (t.talk stream).Goes c) :
    (t.moved stream c).Sound := by
  have asked := goes.asked_eq
  refine { sound with silent := ?_, atRest := ?_, unasked := ?_, writing := ?_, reading := ?_, storing := ?_,
                      answered := ?_ }
  · intro any unknown
    exact sound.moved_silent known unknown
  · intro any kept
    exact moved_keeps Conversation.Settled (fun settled => settled.goes goes) (sound.atRest any kept)
  · intro other any prepares
    exact moved_keeps (fun d => other ∉ d.asked) (by rw [asked]; exact id) (sound.unasked other any prepares)
  · intro other any writes
    refine moved_keeps (fun d => (d.Settled ∧ other ∉ d.asked) ∨ d.Awaits other) ?_ (sound.writing other any writes)
    rintro (⟨settled, unput⟩ | awaits)
    · exact .inl ⟨settled.goes goes, by rwa [asked]⟩
    · exact .inr (awaits.goes goes)
  · intro other any reads
    exact moved_keeps (fun d => d.Awaits other) (fun awaits => awaits.goes goes) (sound.reading other any reads)
  · intro other any reply stores
    exact moved_keeps Conversation.Settled (fun settled => settled.goes goes) (sound.storing other any reply stores)
  · intro other reply replied
    exact (sound.answered other reply replied).moved (asked ▸ List.prefix_refl _) goes.replies_prefix

/-! ### Runs -/

theorem Sound.next (sound : t.Sound) (happens : Step limit t deed later) : later.Sound := by
  cases happens with
  | act possible advanced => exact sound.acted (Link.advances_of_advance advanced) possible
  | put writes fresh => exact sound.put writes fresh
  | peer known goes => exact sound.peer known goes

theorem Sound.run (sound : t.Sound) (run : Run limit t later) : later.Sound := by
  induction run with
  | refl => exact sound
  | tail _ last ih =>
    obtain ⟨deed, happens⟩ := last
    exact ih.next happens

end Traffic
end RingCache
