import RingCache.Cluster

/-!
# Requests under way

A server reads a request from a stream, and reads on when it has replied to it.
A retrieval starts a get at a group, which waits for a peer or for the loader
while other things happen to that group. It goes on when the other side of the
stream hangs up: nobody reads its reply then, but what it loads is stored.
-/
namespace RingCache
open Wire

/-- A get or a removal in progress at a group of a member. -/
structure Job where
  member : MemberId
  name : String
  flight : Flight

/-- The result of a get that has finished. -/
def Job.value? (job : Job) : Option (Except Failure Bytes) :=
  match job.flight with
  | .get { stage := .finished result, .. } => some result
  | _ => none

/-- What becomes of a request at once: it is a get in progress, or answered. -/
inductive Accepted where
  | started (request : KeyRequest) (job : Job)
  | answered (reply : Work Message)

/-- Where a server stands with a stream: the get that it works on, if it has
    started one, and otherwise since when it reads what it has not read yet. -/
structure Attendance where
  station : StationId
  limit : Nat
  unread : Source
  since : Time
  current : Option (KeyRequest × Job)

/-- When the server goes on, if it does. -/
def Attendance.wake (attendance : Attendance) : Option Time :=
  match attendance.current with
  | some (_, job) => job.flight.wake
  | none =>
    match read attendance.limit attendance.unread with
    | .dry => none
    | _ => some attendance.since

/-- One for a get that has not begun. -/
def Attendance.begins (attendance : Attendance) : Nat :=
  attendance.current.elim 0 (·.2.flight.begins)

/-- A bound on the steps of a get that has begun. -/
def Attendance.steps (attendance : Attendance) : Nat :=
  attendance.current.elim 0 (·.2.flight.steps)

/-- What came of waiting for a reply on a bare stream. -/
inductive Reply where
  | message (message : Message)
  | hungUp
deriving DecidableEq, Repr

namespace Cluster

/-- One step of a job. -/
def proceed (caller : Caller) (now : Time) (job : Job) (c : Cluster) : Cluster × Job :=
  let (c, flight) := job.flight.advance (host caller job.member job.name) now c
  (c, { job with flight })

/-- A member takes a request. A retrieval from a group that it has is counted
    there and starts a get, which its budget bounds. -/
def accept (caller : Caller) (member : MemberId) (now : Time) (message : Message) (c : Cluster) :
    Cluster × Accepted :=
  match message with
  | .retrieve request =>
    match c.holding? member request.group with
    | some _ =>
      (c.modifyGroup member request.group (·.count .serverRequests),
        .started request
          ⟨member, request.group, .startGet now (Deadline.ofBudget now request.budget) request.key⟩)
    | none => atOnce
  | _ => atOnce
where
  /-- The request is answered without anything else happening. -/
  atOnce : Cluster × Accepted :=
    let (c, work) := dispatch (service caller member) now message c
    (c, .answered work)

/-- A server goes on: it moves its get, or reads the next request. Tells how it
    stands then, unless it has hung up, and its reply, if this was the last step
    to one. -/
def attend (now : Time) (attendance : Attendance) (c : Cluster) : Cluster × Option Attendance × Option Reply :=
  match attendance.current with
  | some (request, job) =>
    let (c, job) := c.proceed (callAt c.depth) now job
    match job.value? with
    | some result =>
      (c, some { attendance with since := now, current := none }, some (.message (retrieveReply request result)))
    | none => (c, some { attendance with current := some (request, job) }, none)
  | none =>
    match read attendance.limit attendance.unread with
    | .message message unread =>
      let attendance := { attendance with unread }
      match c.attachedTo attendance.station with
      | none => (c, some attendance, some (.message unattended))
      | some member =>
        match c.accept (callAt c.depth) member now message with
        | (c, .started request job) => (c, some { attendance with current := some (request, job) }, none)
        | (c, .answered (.after delay reply)) =>
          (c, some { attendance with since := now + delay }, some (.message reply))
        | (c, .answered .never) => (c, some { attendance with unread := [] }, none)
    | _ => (c, none, some .hungUp)

/-- A server that goes on has less unread, or its get has fewer steps before it. -/
theorem attend_lt {now : Time} {attendance next : Attendance} {c c' : Cluster} {reply : Option Reply}
    (goesOn : attendance.wake ≠ none) (moved : c.attend now attendance = (c', some next, reply)) :
    next.unread.size < attendance.unread.size ∨
      next.unread.size = attendance.unread.size ∧
        (next.begins < attendance.begins ∨
          next.begins = attendance.begins ∧ next.steps < attendance.steps) := by
  obtain ⟨station, limit, unread, since, current⟩ := attendance
  cases current with
  | some current =>
    obtain ⟨request, job⟩ := current
    have less := job.flight.advance_lt (host (callAt c.depth) job.member job.name) now c goesOn
    simp only [attend] at moved
    split at moved <;> cases moved <;> refine .inr ⟨rfl, ?_⟩ <;>
      simp only [Attendance.begins, Attendance.steps, Option.elim, proceed] <;> omega
  | none =>
    simp only [attend] at moved
    split at moved
    next message rest got =>
      have shorter := size_read_lt got
      split at moved
      · cases moved
        exact .inl shorter
      · split at moved <;> cases moved <;> simp only [Source.size] <;> omega
    · cases moved

/-- A server goes on until it replies, or hangs up, or waits for more. -/
def await (c : Cluster) (attendance : Attendance) : Cluster × Option Attendance × Option Reply :=
  match _goesOn : attendance.wake with
  | none => (c, some attendance, none)
  | some time =>
    match _moved : c.attend time attendance with
    | (c, some next, none) => c.await next
    | settled => settled
termination_by (attendance.unread.size, attendance.begins, attendance.steps)
decreasing_by
  have less := attend_lt (by rw [_goesOn]; exact Option.some_ne_none _) _moved
  simp only [Prod.lex_def]
  omega

end Cluster

/-! ## Several streams -/

namespace Attendance

/-- Lists a server before those that go on later. -/
def place (attendance : Attendance) : List Attendance → List Attendance
  | [] => [attendance]
  | other :: rest =>
    if attendance.wake.any (fun time => other.wake.any (time < ·)) then attendance :: other :: rest
    else other :: attendance.place rest

/-- The total of a measure over servers. -/
def total (measure : Attendance → Nat) : List Attendance → Nat
  | [] => 0
  | attendance :: rest => measure attendance + total measure rest

theorem total_place (measure : Attendance → Nat) (attendance : Attendance) (rest : List Attendance) :
    total measure (attendance.place rest) = measure attendance + total measure rest := by
  induction rest with
  | nil => rfl
  | cons other rest ih =>
    simp only [place]
    split
    · rfl
    · simp only [total, ih]
      omega

end Attendance

namespace Cluster

/-- Servers go on, in the order of time, until nothing more happens by a time.
    Those that never go on are forgotten. -/
def catchUp (time : Time) (c : Cluster) : List Attendance → Cluster × List Attendance
  | [] => (c, [])
  | attendance :: rest =>
    match _goesOn : attendance.wake with
    | none => c.catchUp time rest
    | some next =>
      if time < next then (c, attendance :: rest)
      else
        match _moved : c.attend next attendance with
        | (c, some attendance, _) => c.catchUp time (attendance.place rest)
        | (c, none, _) => c.catchUp time rest
termination_by list => (Attendance.total (·.unread.size) list, Attendance.total (·.begins) list,
  Attendance.total (·.steps) list, list.length)
decreasing_by
  · simp only [Prod.lex_def, Attendance.total, List.length_cons]
    omega
  · have less := attend_lt (by rw [_goesOn]; exact Option.some_ne_none _) _moved
    simp only [Prod.lex_def, Attendance.total_place, Attendance.total]
    omega
  · simp only [Prod.lex_def, Attendance.total, List.length_cons]
    omega

/-! ## Conversations -/

/-- What came of talking to a server: when it was finished, the replies, and what
    the server still does on the stream. -/
structure Visit where
  cluster : Cluster
  finish : Time
  replies : List Reply
  left : Option Attendance

/-- Sends each of some lists of chunks on a stream and waits for a reply to it,
    until the server hangs up instead of replying. -/
def converse (attendance : Attendance) (now : Time) (c : Cluster) : List Source → Visit
  | [] => ⟨c, now, [], some attendance⟩
  | chunks :: rest =>
    let arrival := max attendance.since (now + c.latency)
    match c.await { attendance with unread := attendance.unread ++ chunks, since := arrival } with
    | (c, some attendance, some reply) =>
      let visit := converse attendance (attendance.since + c.latency) c rest
      { visit with replies := reply :: visit.replies }
    | (c, left, reply) => ⟨c, now, reply.toList, left⟩

/-- Talks to the server at an address over a stream of its own, and hangs up; none
    if nobody listens there. -/
def session (c : Cluster) (address : String) (now : Time) (sent : List Source) : Option Visit :=
  match c.dial address .standard, c.listening.find? (Endpoint.plain address) with
  | .ok _, some station =>
    let limit := (c.stations[station]?.map Station.maxFrame).getD defaultMaxFrame
    let visit := converse ⟨station, limit, [], now, none⟩ now c sent
    let left := visit.left.map (fun server => { server with unread := server.unread ++ [.finish] })
    some { visit with left }
  | _, _ => none

end Cluster

end RingCache
