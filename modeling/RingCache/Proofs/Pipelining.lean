import RingCache.Proofs.Streams
import RingCache.Server

/-!
# Requests sent ahead

A client may send request after request without waiting for the replies, and
what it sends arrives in pieces of any size, at any times (`Server.attend`). The
server hands the requests to its service in the order in which they were sent,
each when the one before it was answered (`Server.Handles`), and writes the frame
of each reply. At what follows the requests it hangs up, with the failure of the
read if there was one (`Server.Tail`), and no handler learns of it.
-/
namespace RingCache
open Wire

/-! ## Reading what has arrived so far -/

namespace Wire

variable {limit length : Nat} {pieces left : List Bytes} {header body more : Bytes}

theorem Source.exactly_of_few (short : pieces.flatten.length < length) : exactly length (pieces.map .data) = .dry := by
  have waits := exactly_pieces_of_lt short []
  rw [List.append_nil] at waits
  obtain ⟨missing, same⟩ := Nat.exists_eq_succ_of_ne_zero (Nat.sub_ne_zero_of_lt short)
  rw [waits, same]
  simp [exactly, Taken.after]

theorem read_of_few (few : pieces.flatten.length < 4) : read limit (pieces.map .data) = .dry := by
  rw [read, Source.exactly_of_few few]

theorem readBody_of_few (few : pieces.flatten.length < length) : readBody length (pieces.map .data) = .dry := by
  rw [readBody, Source.exactly_of_few few]

theorem readBody_of_ended (few : pieces.flatten.length < length) :
    readBody length (pieces.map .data ++ [.finish]) = .failed (.network (.receiveFailed "early eof")) [] := by
  rw [readBody, Source.exactly_of_ended few]
  rfl

variable (limit) in
/-- Once four bytes are there, they decide how many more are read, if any. -/
theorem exists_read_header (four : header.length = 4) (arrived : pieces.flatten = header ++ more) (after : Source) :
    ∃ left : List Bytes, left.flatten = more ∧ read limit (pieces.map .data ++ after) =
      if limit < Bytes.ofBig header then .failed (.tooLarge (Bytes.ofBig header)) (left.map .data ++ after)
      else readBody (Bytes.ofBig header) (left.map .data ++ after) := by
  have enough : 4 ≤ pieces.flatten.length := by
    rw [arrived, List.length_append]
    omega
  obtain ⟨left, taken, others⟩ := Source.exactly_pieces enough after
  rw [arrived, List.drop_left' four] at others
  rw [arrived, List.take_left' four] at taken
  refine ⟨left, others, ?_⟩
  rw [read, taken]

theorem exists_readBody_of_garbled {fault : Fault} (whole : body.length = length)
    (arrived : pieces.flatten = body ++ more) (undecodable : decode body = .error fault) (after : Source) :
    ∃ unread, readBody length (pieces.map .data ++ after) =
      .failed (.network (.serialization fault.message)) unread := by
  have enough : length ≤ pieces.flatten.length := by
    rw [arrived, List.length_append]
    omega
  obtain ⟨left, taken, _⟩ := Source.exactly_pieces enough after
  rw [arrived, List.take_left' whole] at taken
  refine ⟨left.map .data ++ after, ?_⟩
  rw [readBody, taken]
  simp only [undecodable]

/-- Of two parts of a byte string either the one has not arrived in full, or some of
    the other has. -/
theorem short_or_exists_more {rest : Bytes} (sent : pieces.flatten ++ rest = header ++ body) :
    pieces.flatten.length < header.length ∨ ∃ more, pieces.flatten = header ++ more ∧ more ++ rest = body := by
  by_cases short : pieces.flatten.length < header.length
  · exact .inl short
  · right
    rcases List.append_eq_append_iff.mp sent with ⟨missing, same, others⟩ | ⟨more, same, others⟩
    · have lengths := congrArg List.length same
      rw [List.length_append] at lengths
      have nothing : missing = [] := List.eq_nil_of_length_eq_zero (by omega)
      rw [nothing, List.append_nil] at same
      rw [nothing, List.nil_append] at others
      exact ⟨[], by rw [same, List.append_nil], others⟩
    · exact ⟨more, same, others.symm⟩

end Wire

namespace Server

/-! ## What follows the requests -/

/-- What follows the last request: bytes, and then other chunks. The server hangs up
    there, and fails with what the read fails with. It does not if the stream ends
    before a frame or within its length. -/
inductive Tail (limit : Nat) : Bytes → Source → Option Failure → Prop where
  | ended {bytes : Bytes} (few : bytes.length < 4) (after : Source) : Tail limit bytes (.finish :: after) none
  | tooLarge {header : Bytes} (four : header.length = 4) (exceeds : limit < Bytes.ofBig header) (bytes : Bytes)
      (after : Source) : Tail limit (header ++ bytes) after (some (.tooLarge (Bytes.ofBig header)))
  | cutShort {header bytes : Bytes} (four : header.length = 4) (accepted : Bytes.ofBig header ≤ limit)
      (short : bytes.length < Bytes.ofBig header) (after : Source) :
      Tail limit (header ++ bytes) (.finish :: after) (some (.network (.receiveFailed "early eof")))
  | garbled {header body : Bytes} (four : header.length = 4) (accepted : Bytes.ofBig header ≤ limit)
      (whole : body.length = Bytes.ofBig header) {fault : Fault} (undecodable : decode body = .error fault)
      (bytes : Bytes) (after : Source) :
      Tail limit (header ++ (body ++ bytes)) after (some (.network (.serialization fault.message)))

/-- How a server ends that meets a failure, or none. -/
def Ending.Hangs (ending : Ending) : Option Failure → Prop
  | none => ending = .finished
  | some failure => ∃ unread, ending = .dropped failure unread

variable {limit : Nat} {messages : List Message} {bytes rest : Bytes} {after : Source} {fate : Option Failure}
variable {pieces : List Bytes}

/-- Of a tail, as much as has arrived either leaves the server waiting, or makes it hang
    up already. -/
theorem Tail.read_cases (tail : Tail limit bytes after fate) (sent : pieces.flatten ++ rest = bytes) :
    read limit (pieces.map .data) = .dry ∨
      ∃ failure unread, fate = some failure ∧ read limit (pieces.map .data) = .failed failure unread := by
  by_cases few : pieces.flatten.length < 4
  · exact .inl (read_of_few few)
  · cases tail with
    | ended short =>
      rw [← sent, List.length_append] at short
      omega
    | tooLarge four exceeds =>
      rcases short_or_exists_more sent with short | ⟨more, arrived, _⟩
      · omega
      obtain ⟨left, _, got⟩ := exists_read_header limit four arrived []
      rw [List.append_nil, if_pos exceeds] at got
      exact .inr ⟨_, _, rfl, got⟩
    | cutShort four accepted missing =>
      rcases short_or_exists_more sent with short | ⟨more, arrived, begun⟩
      · omega
      obtain ⟨left, others, got⟩ := exists_read_header limit four arrived []
      rw [List.append_nil, List.append_nil, if_neg (Nat.not_lt.mpr accepted)] at got
      rw [← begun, List.length_append] at missing
      refine .inl (got.trans (readBody_of_few ?_))
      rw [others]
      omega
    | garbled four accepted whole undecodable =>
      rcases short_or_exists_more sent with short | ⟨more, arrived, begun⟩
      · omega
      obtain ⟨left, others, got⟩ := exists_read_header limit four arrived []
      rw [List.append_nil, List.append_nil, if_neg (Nat.not_lt.mpr accepted)] at got
      rw [← others] at begun
      rcases short_or_exists_more begun with short | ⟨beyond, filled, _⟩
      · rw [whole] at short
        exact .inl (got.trans (readBody_of_few short))
      · obtain ⟨unread, failed⟩ := exists_readBody_of_garbled whole filled undecodable []
        rw [List.append_nil] at failed
        exact .inr ⟨_, _, rfl, got.trans failed⟩

/-- At a tail that has arrived in full and still leaves the server waiting, it hangs up
    with the chunk that comes next. -/
theorem Tail.exists_next (tail : Tail limit bytes after fate) (arrived : pieces.flatten = bytes)
    (waits : read limit (pieces.map .data) = .dry) :
    ∃ later, after = .finish :: later ∧ match (fate : Option Failure) with
      | none => read limit (pieces.map .data ++ [.finish]) = .finished
      | some failure => ∃ unread, read limit (pieces.map .data ++ [.finish]) = .failed failure unread := by
  cases tail with
  | ended few later =>
    rw [← arrived] at few
    exact ⟨later, rfl, read_of_ended_in_length few⟩
  | tooLarge four exceeds =>
    obtain ⟨left, _, got⟩ := exists_read_header limit four arrived []
    rw [List.append_nil, if_pos exceeds, waits] at got
    cases got
  | cutShort four accepted short later =>
    obtain ⟨left, others, got⟩ := exists_read_header limit four arrived [.finish]
    rw [if_neg (Nat.not_lt.mpr accepted)] at got
    rw [← others] at short
    exact ⟨later, rfl, _, got.trans (readBody_of_ended short)⟩
  | garbled four accepted whole undecodable =>
    obtain ⟨left, others, got⟩ := exists_read_header limit four arrived []
    obtain ⟨unread, failed⟩ := exists_readBody_of_garbled whole others undecodable []
    rw [if_neg (Nat.not_lt.mpr accepted), failed, List.append_nil, waits] at got
    cases got

/-- Of a stream of requests and a tail, as much as has arrived lets the server read the
    next request, or leaves it waiting, or makes it hang up at the tail. -/
theorem Tail.read_stream_cases (tail : Tail limit bytes after fate)
    (framed : ∀ message ∈ messages, Framed limit message) (sent : pieces.flatten ++ rest = stream messages ++ bytes) :
    read limit (pieces.map .data) = .dry ∨
    (∃ message more left, messages = message :: more ∧ (left : List Bytes).flatten ++ rest = stream more ++ bytes ∧
      read limit (pieces.map .data) = .message message (left.map .data)) ∨
    (messages = [] ∧ ∃ failure unread, fate = some failure ∧
      read limit (pieces.map .data) = .failed failure unread) := by
  cases messages with
  | nil =>
    rcases tail.read_cases sent with waits | fails
    · exact .inl waits
    · exact .inr (.inr ⟨rfl, fails⟩)
  | cons message more =>
    have own := framed message List.mem_cons_self
    rw [stream_cons, List.append_assoc] at sent
    rcases short_or_exists_more sent with short | ⟨others, arrived, left_over⟩
    · refine .inl ?_
      by_cases few : pieces.flatten.length < 4
      · exact read_of_few few
      · have begun : pieces.flatten.take 4 = (frame message).take 4 := by
          have same := congrArg (List.take 4) sent
          rw [List.take_append_of_le_length (Nat.not_lt.mp few), List.take_append_of_le_length (by simp)] at same
          exact same
        obtain ⟨left, after, got⟩ := own.read_eq_readBody begun []
        rw [List.append_nil, List.append_nil] at got
        refine got.trans (readBody_of_few ?_)
        rw [length_frame] at short
        rw [after, List.length_drop]
        omega
    · obtain ⟨left, same, got⟩ := own.read_frame arrived []
      rw [List.append_nil, List.append_nil] at got
      exact .inr (.inl ⟨message, more, left, rfl, by rw [same]; exact left_over, got⟩)

/-! ## Handing requests to a service -/

section

variable {σ : Type} {service : Service σ} {now time earlier : Time} {first others : List Message}
variable {state next last : σ} {replies : List Message} {finish : Option Time}

/-- Messages are handed to a service one after another, each at some time after the
    one before it was answered: the replies, and what becomes of the state. When the
    last is answered is told, unless one never is. -/
inductive Handles (service : Service σ) : Time → List Message → σ → List Message → σ → Option Time → Prop where
  | done {now time : Time} (waits : now ≤ time) (state : σ) : Handles service now [] state [] state (some time)
  | answer {now time delay : Time} {message reply : Message} {more replies : List Message} {state next last : σ}
      {finish : Option Time} (waits : now ≤ time)
      (answers : dispatch service time message state = (next, .after delay reply))
      (later : Handles service (time + delay) more next replies last finish) :
      Handles service now (message :: more) state (reply :: replies) last finish
  | stuck {now time : Time} {message : Message} {state next : σ} (waits : now ≤ time)
      (silent : dispatch service time message state = (next, .never)) (more : List Message) :
      Handles service now (message :: more) state [] next none

theorem Handles.of_le (handles : Handles service now first state replies last finish) (before : earlier ≤ now) :
    Handles service earlier first state replies last finish := by
  cases handles with
  | done waits => exact .done (Nat.le_trans before waits) _
  | answer waits answers later => exact .answer (Nat.le_trans before waits) answers later
  | stuck waits silent more => exact .stuck (Nat.le_trans before waits) silent more

theorem Handles.append {more : List Message} (handles : Handles service now first state replies next (some time))
    (later : Handles service time others next more last finish) :
    Handles service now (first ++ others) state (replies ++ more) last finish := by
  generalize ends : some time = till at handles
  induction handles with
  | done waits =>
    cases ends
    exact later.of_le waits
  | answer waits answers _ ih => exact .answer waits answers (ih later ends)
  | stuck => cases ends

theorem Handles.length_eq (handles : Handles service now first state replies last (some time)) :
    replies.length = first.length := by
  generalize ends : some time = till at handles
  induction handles with
  | done => rfl
  | answer _ _ _ ih => rw [List.length_cons, List.length_cons, ih ends]
  | stuck => cases ends

end

/-! ## Serving a stream -/

section

variable {σ : Type} {attached : σ → Option (Service σ)} {now delay : Time} {source unread : Source} {state next : σ}
variable {message reply : Message} {failure : Failure}

theorem serve_of_dry (got : read limit source = .dry) :
    serve attached limit now source state = ⟨state, [], 0, .waiting source⟩ := by
  rw [serve]
  split <;> simp_all

theorem serve_of_finished (got : read limit source = .finished) :
    serve attached limit now source state = ⟨state, [], 0, .finished⟩ := by
  rw [serve]
  split <;> simp_all

theorem serve_of_failed (got : read limit source = .failed failure unread) :
    serve attached limit now source state = ⟨state, [], 0, .dropped failure unread⟩ := by
  rw [serve]
  split <;> simp_all

variable (attached) in
theorem serve_of_silent (got : read limit source = .message message unread)
    (silent : answer attached now message state = (next, .never)) :
    serve attached limit now source state = ⟨next, [], 0, .stuck⟩ := by
  rw [serve]
  split <;> simp_all

variable (attached) in
theorem serve_of_answered (got : read limit source = .message message unread)
    (answers : answer attached now message state = (next, .after delay reply)) :
    serve attached limit now source state =
      let served := serve attached limit (now + delay) unread next
      ⟨served.state, frame reply ++ served.written, delay + served.elapsed, served.ending⟩ := by
  rw [serve]
  split <;> simp_all

variable {σ : Type} {service : Service σ} {now : Time} {state : σ}

/-- What has come of a stream by a time: the state of the service, the bytes written, and
    where the server stands. -/
structure Attendance (σ : Type) where
  state : σ
  written : Bytes
  time : Time
  ending : Ending

/-- What came of serving what had arrived at a time. -/
def Served.since (served : Served σ) (now : Time) : Attendance σ :=
  ⟨served.state, served.written, now + served.elapsed, served.ending⟩

/-- Serves a stream whose chunks arrive one after another, each at a time. -/
def attend (attached : σ → Option (Service σ)) (limit : Nat) (now : Time) (unread : Source) (state : σ) :
    List (Time × Chunk) → Attendance σ
  | [] => ⟨state, [], now, .waiting unread⟩
  | (time, chunk) :: later =>
    let served := (serve attached limit (max now time) (unread ++ [chunk]) state).since (max now time)
    match served.ending with
    | .waiting left =>
      let rest := attend attached limit served.time left served.state later
      { rest with written := served.written ++ rest.written }
    | _ => served

theorem attend_append (attached : σ → Option (Service σ)) (limit : Nat) (now : Time) (unread : Source) (state : σ)
    (first later : List (Time × Chunk)) :
    attend attached limit now unread state (first ++ later) =
      let before := attend attached limit now unread state first
      match before.ending with
      | .waiting left =>
        let rest := attend attached limit before.time left before.state later
        { rest with written := before.written ++ rest.written }
      | _ => before := by
  induction first generalizing now unread state with
  | nil => simp [attend]
  | cons arrival first ih =>
    simp only [List.cons_append, attend]
    generalize (serve attached limit (max now arrival.1) (unread ++ [arrival.2]) state).since _ = served
    cases ends : served.ending with
    | waiting left =>
      simp only [ih]
      split <;> simp_all
    | finished | dropped | stuck => simp only [ends]

/-- Where a server stands with a stream of requests and a tail, of which `rest` has not
    arrived: before some requests, or at the tail. -/
inductive Stands (limit : Nat) (bytes rest : Bytes) (fate : Option Failure) : List Message → Ending → Prop where
  | waits {messages : List Message} (left : List Bytes) (nothing : read limit (left.map .data) = .dry)
      (unread : left.flatten ++ rest = stream messages ++ bytes) :
      Stands limit bytes rest fate messages (.waiting (left.map .data))
  | hangs {failure : Failure} (fails : fate = some failure) (unread : Source) :
      Stands limit bytes rest fate [] (.dropped failure unread)

/-- What may come of a stream of requests and a tail, of which `rest` has not arrived:
    the first requests were handled, and the server stands before the others; or a
    handler never answers. -/
inductive Attends (service : Service σ) (limit : Nat) (bytes rest : Bytes) (fate : Option Failure) (now : Time) :
    List Message → σ → Attendance σ → Prop where
  | stands {handled others replies : List Message} {state last : σ} {time : Time} {ending : Ending}
      (handles : Handles service now handled state replies last (some time))
      (stands : Stands limit bytes rest fate others ending) :
      Attends service limit bytes rest fate now (handled ++ others) state ⟨last, stream replies, time, ending⟩
  | stuck {messages replies : List Message} {state last : σ}
      (handles : Handles service now messages state replies last none) (time : Time) :
      Attends service limit bytes rest fate now messages state ⟨last, stream replies, time, .stuck⟩

theorem stream_append (first others : List Message) : stream (first ++ others) = stream first ++ stream others :=
  List.flatMap_append

theorem stream_singleton (message : Message) : stream [message] = frame message :=
  List.append_nil _

/-- What comes of the rest of a stream, once some requests were handled. -/
theorem Attends.prepend {first others replies : List Message} {next : σ} {time : Time} {attendance : Attendance σ}
    (attends : Attends service limit bytes rest fate time others next attendance)
    (handles : Handles service now first state replies next (some time)) :
    Attends service limit bytes rest fate now (first ++ others) state
      { attendance with written := stream replies ++ attendance.written } := by
  cases attends with
  | stands later stands =>
    rw [← List.append_assoc, ← stream_append]
    exact .stands (handles.append later) stands
  | stuck later last =>
    rw [← stream_append]
    exact .stuck (handles.append later) last

/-- Serving what has arrived of a stream hands some of its requests to the service, and
    leaves the server before the others. -/
theorem Tail.attends_serve (tail : Tail limit bytes after fate) (framed : ∀ message ∈ messages, Framed limit message)
    (sent : pieces.flatten ++ rest = stream messages ++ bytes) :
    Attends service limit bytes rest fate now messages state
      ((serve (fun _ => some service) limit now (pieces.map .data) state).since now) := by
  have nothing : Handles service now [] state [] state (some now) := .done (Nat.le_refl now) state
  induction messages generalizing pieces now state with
  | nil =>
    rcases tail.read_stream_cases framed sent with waits | ⟨_, _, _, none, _⟩ | ⟨_, failure, unread, fails, got⟩
    · rw [serve_of_dry waits]
      exact .stands nothing (.waits pieces waits sent)
    · cases none
    · rw [serve_of_failed got]
      exact .stands nothing (.hangs fails unread)
  | cons message more ih =>
    rcases tail.read_stream_cases framed sent with waits | ⟨_, _, left, same, others, got⟩ | ⟨none, _⟩
    · rw [serve_of_dry waits]
      exact .stands nothing (.waits pieces waits sent)
    · cases same
      rcases answered : dispatch service now message state with ⟨next, delay | _⟩
      · rename_i reply
        have own : Handles service now [message] state [reply] next (some (now + delay)) :=
          .answer (Nat.le_refl now) answered (.done (Nat.le_refl _) next)
        have still : ∀ later ∈ more, Framed limit later :=
          fun later listed => framed later (List.mem_cons_of_mem _ listed)
        have goesOn := (ih still others (.done (Nat.le_refl _) next)).prepend own
        rw [serve_of_answered (fun _ => some service) got answered]
        rw [stream_singleton, Served.since] at goesOn
        rw [Served.since, ← Nat.add_assoc]
        exact goesOn
      · rw [serve_of_silent (fun _ => some service) got answered]
        exact .stuck (.stuck (Nat.le_refl now) answered more) _
    · cases none

/-- What comes of a part of a stream that arrives in pieces. -/
theorem Tail.attends_pieces (tail : Tail limit bytes after fate) {arrivals : List (Time × Chunk)} {unread : List Bytes}
    (framed : ∀ message ∈ messages, Framed limit message) (waits : read limit (unread.map .data) = .dry)
    (sent : unread.flatten ++ (pieces.flatten ++ rest) = stream messages ++ bytes)
    (arrived : arrivals.map Prod.snd = pieces.map .data) :
    Attends service limit bytes rest fate now messages state
      (attend (fun _ => some service) limit now (unread.map .data) state arrivals) := by
  induction pieces generalizing unread now state messages arrivals with
  | nil =>
    cases List.map_eq_nil_iff.mp arrived
    exact .stands (.done (Nat.le_refl now) state) (.waits unread waits sent)
  | cons piece more ih =>
    obtain ⟨⟨time, chunk⟩, later, rfl, rfl, others⟩ := List.map_eq_cons_iff.mp arrived
    have onePiece : unread.map Chunk.data ++ [.data piece] = (unread ++ [piece]).map .data := by simp
    have begun : (unread ++ [piece]).flatten ++ (more.flatten ++ rest) = stream messages ++ bytes := by
      rw [← sent]
      simp
    have first : Attends service limit bytes (more.flatten ++ rest) fate (max now time) messages state _ :=
      tail.attends_serve framed begun
    have soon : now ≤ max now time := Nat.le_max_left now time
    simp only [attend, onePiece]
    generalize (serve (fun _ => some service) limit (max now time) _ state).since (max now time) = served at first ⊢
    cases first with
    | stuck handles => exact .stuck (handles.of_le soon) _
    | @stands handled _ _ _ _ _ _ handles stands =>
      cases stands with
      | hangs fails last => exact .stands (handles.of_le soon) (.hangs fails last)
      | waits left nothing unread =>
        have still : ∀ message ∈ _, Framed limit message :=
          fun message listed => framed message (List.mem_append_right handled listed)
        exact (ih still nothing unread others).prepend (handles.of_le soon)

/-- A server that waits before requests has not all of the first of them before it. -/
theorem eq_nil_of_waits {left : List Bytes} (framed : ∀ message ∈ messages, Framed limit message)
    (nothing : read limit (left.map .data) = .dry) (unread : left.flatten = stream messages ++ bytes) :
    messages = [] := by
  cases messages with
  | nil => rfl
  | cons message more =>
    rw [stream_cons, List.append_assoc] at unread
    obtain ⟨_, _, got⟩ := (framed message List.mem_cons_self).read_frame unread []
    rw [List.append_nil, List.append_nil, nothing] at got
    cases got

/-- A server that waits at a tail hangs up at the chunk that comes next. -/
theorem Tail.hangs_attend (tail : Tail limit bytes after fate) {left : List Bytes} {arrivals : List (Time × Chunk)}
    (nothing : read limit (left.map .data) = .dry) (unread : left.flatten = bytes)
    (arrived : arrivals.map Prod.snd = after) (attached : σ → Option (Service σ)) (now : Time) (state : σ) :
    let attendance := attend attached limit now (left.map .data) state arrivals
    attendance.state = state ∧ attendance.written = [] ∧ attendance.ending.Hangs fate := by
  obtain ⟨later, rfl, ends⟩ := tail.exists_next unread nothing
  obtain ⟨⟨time, chunk⟩, more, rfl, rfl, -⟩ := List.map_eq_cons_iff.mp arrived
  cases fate with
  | none =>
    simp [attend, serve_of_finished ends, Served.since, Ending.Hangs]
  | some failure =>
    obtain ⟨rest, failed⟩ := ends
    simp [attend, serve_of_failed failed, Served.since, Ending.Hangs]

/-- Requests are sent one after another without waiting for the replies, and then a
    tail at which the server hangs up. However the stream is cut into chunks, and
    whenever they arrive, the service handles the requests in the order in which they
    were sent, and nothing else. The server writes the frames of the replies in that
    order, one for each request, and hangs up at the tail as the tail has it. Only a
    handler that never answers keeps it from going on. -/
theorem attend_stream (service : Service σ) (state : σ) (now : Time) (pieces : List Bytes)
    (arrivals : List (Time × Chunk)) (framed : ∀ message ∈ messages, Framed limit message)
    (tail : Tail limit bytes after fate) (sent : pieces.flatten = stream messages ++ bytes)
    (arrived : arrivals.map Prod.snd = pieces.map .data ++ after) :
    ∃ replies finish,
      let attendance := attend (fun _ => some service) limit now [] state arrivals
      Handles service now messages state replies attendance.state finish ∧
      attendance.written = stream replies ∧
      (finish = none → attendance.ending = .stuck) ∧
      (finish ≠ none → replies.length = messages.length ∧ attendance.ending.Hangs fate) := by
  obtain ⟨first, later, rfl, firstArrived, lastArrived⟩ := List.map_eq_append_iff.mp arrived
  have nothing : read limit (([] : List Bytes).map .data) = .dry := read_of_few (by decide)
  have begun : ([] : List Bytes).flatten ++ (pieces.flatten ++ []) = stream messages ++ bytes := by simp [sent]
  have attends : Attends service limit bytes [] fate now messages state _ :=
    tail.attends_pieces framed nothing begun firstArrived
  rw [attend_append]
  rw [List.map_nil] at attends
  generalize attend (fun _ => some service) limit now [] state first = before at attends ⊢
  cases attends with
  | stuck handles => exact ⟨_, none, handles, rfl, fun _ => rfl, fun ends => absurd rfl ends⟩
  | @stands handled others _ _ _ _ _ handles stands =>
    cases stands with
    | hangs fails unread =>
      rw [List.append_nil] at framed ⊢
      refine ⟨_, _, handles, rfl, nofun, fun _ => ⟨handles.length_eq, ?_⟩⟩
      rw [fails]
      exact ⟨unread, rfl⟩
    | waits left dry unread =>
      rw [List.append_nil] at unread
      obtain rfl : others = [] :=
        eq_nil_of_waits (fun message listed => framed message (List.mem_append_right _ listed)) dry unread
      obtain ⟨same, quiet, hangs⟩ := tail.hangs_attend dry unread lastArrived (fun _ => some service) _ _
      dsimp only at same quiet hangs ⊢
      rw [same, quiet, List.append_nil, List.append_nil]
      exact ⟨_, _, handles, rfl, nofun, fun _ => ⟨handles.length_eq, hangs⟩⟩

/-- A service that keeps a list of what it was asked for, and takes its time. -/
def clerk : Service (List String) where
  retrieve _ _ _ key seen := (seen ++ [key], .after 40 (.ok [7]))
  delete _ _ _ key seen := (seen ++ [key], .after 20 (.error (.internal "kept")))
  amend _ _ addresses seen := (seen ++ addresses, .ready ())

/-- A retrieval, a deletion and an amendment. -/
def ahead : List Message := [.retrieve ⟨"g", "a", none⟩, .delete ⟨"g", "b", none⟩, .amend .replace ["x:1"]]

/-- Four bytes in a frame that are no message, and another one. -/
def garbage : Bytes := [0, 0, 0, 4] ++ ([9, 0, 0, 0] ++ [1])

/-- The requests and what follows them, cut within a length and within a text. -/
def cut : List Bytes :=
  let sent := stream ahead ++ garbage
  [sent.take 2, (sent.drop 2).take 25, [], sent.drop 27]

/-- Three requests are handled, each but the first while the one before it is not yet
    answered, and the stream is given up at what follows. -/
theorem attend_stream_of_three :
    (∀ message ∈ ahead, Framed 40 message) ∧
    Tail 40 garbage [] (some (.network (.serialization (Fault.variant 9).message))) ∧
    cut.flatten = stream ahead ++ garbage ∧
    let attendance := attend (fun _ => some clerk) 40 5 [] [] ([9, 3, 30, 50].zip (cut.map .data))
    attendance.state = ["a", "b", "x:1"] ∧
    attendance.written = stream [.retrieved [7], .error "internal error: kept", .ack] ∧
    attendance.ending.Hangs (some (.network (.serialization (Fault.variant 9).message))) := by
  have framed : ∀ message ∈ ahead, (encode message).length ≤ 40 ∧ (encode message).length < 2 ^ 32 := by decide
  have tail : Tail 40 garbage [] (some (.network (.serialization (Fault.variant 9).message))) :=
    .garbled rfl (by decide) rfl rfl [1] []
  have sent : cut.flatten = stream ahead ++ garbage := by decide
  refine ⟨framed, tail, sent, ?_⟩
  obtain ⟨replies, finish, handles, written, -, hangs⟩ :=
    attend_stream clerk [] 5 cut ([9, 3, 30, 50].zip (cut.map .data)) framed tail sent rfl
  intro attendance
  generalize last_eq : (attend _ _ _ _ _ _ : Attendance (List String)).state = last at handles
  -- The clerk answers at once or later, but it answers, and in the same way at any time.
  rcases handles with _ | ⟨_, retrieved, handles⟩ | ⟨_, silent⟩
  · cases retrieved
    rcases handles with _ | ⟨_, deleted, handles⟩ | ⟨_, silent⟩
    · cases deleted
      rcases handles with _ | ⟨_, amended, handles⟩ | ⟨_, silent⟩
      · cases amended
        cases handles
        exact ⟨rfl, written, (hangs nofun).2⟩
      · cases silent
    · cases silent
  · cases silent

end

end Server
end RingCache
