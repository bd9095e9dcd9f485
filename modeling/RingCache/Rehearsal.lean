import RingCache.Endpoint
import RingCache.Exchange
import RingCache.Link
import RingCache.Wire.Frame

/-!
# A link rehearsed with a scripted peer

One link, and a peer that follows a script: for each request that it reads, on
whichever line, it takes the next turn. The clock moves only when everybody
waits. Between two moves of the clock the parties of the link go on in order,
each as far as it can; then the peer reads and replies, and dials come through.
When the clock has moved, those whose deadline has passed give up first.

A peer that hangs up may leave replies behind for calls to come, so the line is
kept until a call fails on it. The first request sent on it is lost without
notice, and the second cannot be sent; where the peer has left a request unread,
the first cannot be sent either.
-/
namespace RingCache
open Wire

namespace Rehearsal

/-! ## The peer -/

/-- What the peer does with a request: after a delay it may send bytes, and it
    may hang up. -/
structure Turn where
  delay : Time
  reply : Option Bytes
  hangsUp : Bool
deriving DecidableEq, Repr

/-- The turn of a peer whose script has run out. -/
def Turn.last : Turn := ⟨0, some (frame .ack), false⟩

/-- What becomes of what the caller sends on a line. -/
inductive Outlet where
  /-- It comes to the peer. -/
  | clear
  /-- The peer is done with the line. What is sent next is lost, and only then it
      is known here that nobody takes it. -/
  | lost
  /-- It is known that nobody takes it: nothing can be sent. -/
  | shut (reason : String)
deriving DecidableEq, Repr

/-- A line that the peer has accepted. -/
structure Line where
  /-- What the peer has not read. -/
  toPeer : Source
  /-- What the caller has not read. -/
  toCaller : Source
  /-- The turn that the peer will take, and when. It reads nothing until then. -/
  due : Option (Time × Turn)
  outlet : Outlet
deriving DecidableEq, Repr

namespace Line

/-- A line that was just accepted. -/
def fresh : Line := ⟨[], [], none, .clear⟩

/-- Whether the peer is done with the line. -/
def isFinished (line : Line) : Bool :=
  line.outlet ≠ .clear

/-- The line after the caller sent bytes, or why it cannot send. -/
def send (bytes : Bytes) (line : Line) : Except Failure Line :=
  match line.outlet with
  | .clear => .ok { line with toPeer := line.toPeer ++ [.data bytes] }
  | .lost => .ok { line with outlet := .shut "Broken pipe (os error 32)" }
  | .shut reason => .error (.network (.sendFailed reason))

/-- The line after the caller hung up: it comes to its end for the peer. -/
def hangUp (line : Line) : Line :=
  if line.isFinished then line else { line with toPeer := line.toPeer ++ [.finish] }

end Line

/-- A request that the peer has read, and the line that it came on. -/
structure Sighting where
  line : StreamId
  request : Message
deriving DecidableEq, Repr

/-- What the peer knows beside its lines: the turns to come, the requests that
    it has read, and how many lines it has read to their end. -/
structure Desk where
  script : List Turn
  seen : List Sighting
  ended : Nat
deriving DecidableEq, Repr

/-- The line after the peer took a turn on it. A peer that hangs up with bytes
    unread resets the line. -/
def Line.take (line : Line) (turn : Turn) : Line :=
  let sent := line.toCaller ++ (turn.reply.map Chunk.data).toList
  if !turn.hangsUp then { line with toCaller := sent, due := none }
  else if line.toPeer.size = 0 then
    { line with toCaller := sent ++ [.finish], due := none, outlet := .lost }
  else
    { line with toCaller := sent ++ [.fault .reset], due := none, outlet := .shut StreamFault.reset.text }

/-- The peer goes on with a line, as far as it can at a time. It reads frames of
    any length. -/
def Line.play (now : Time) (number : StreamId) (desk : Desk) (line : Line) : Desk × Line :=
  match _due : line.due with
  | some (time, turn) => if time ≤ now then play now number desk (line.take turn) else (desk, line)
  | none =>
    if line.isFinished then (desk, line)
    else match _got : read noLimit line.toPeer with
      | .dry => (desk, line)
      | .finished | .failed _ _ => ({ desk with ended := desk.ended + 1 }, { line with outlet := .lost })
      | .message request rest =>
        let turn := desk.script.headD .last
        play now number
          { desk with script := desk.script.tail, seen := desk.seen ++ [⟨number, request⟩] }
          { line with toPeer := rest, due := some (now + turn.delay, turn) }
termination_by (line.toPeer.size, if line.due.isSome then 1 else 0)
decreasing_by
  · have same : (line.take turn).toPeer = line.toPeer := by unfold Line.take; split; rfl; split <;> rfl
    have done : (line.take turn).due = none := by unfold Line.take; split; rfl; split <;> rfl
    simp [Prod.lex_def, same, done, _due]
  · exact Prod.Lex.left _ _ (size_read_lt _got)

/-! ## The link -/

/-- A party of the link: what it does, by when, and where it stands. -/
structure Party where
  command : LinkCommand
  deadline : Deadline
  request : Message
  stage : Stage
  /-- Whether the link was closed when the party began. -/
  foundClosed : Bool
deriving Repr

end Rehearsal

/-- A link, the lines of its peer, and the clock. -/
structure Rehearsal where
  address : String
  options : DialOptions
  /-- Whether the peer accepts further lines. -/
  listening : Bool
  now : Time
  link : Link
  lines : List Rehearsal.Line
  desk : Rehearsal.Desk
deriving Repr

namespace Rehearsal

/-- Opens the link. -/
def start (address : String) (options : DialOptions) (listening : Bool) (script : List Turn) :
    Except Failure Rehearsal :=
  match Endpoint.dial listening options 0 address with
  | .ok () => .ok ⟨address, options, true, 0, .around 0, [.fresh], ⟨script, [], 0⟩⟩
  | .error failure => .error failure

/-- The bytes that the caller has not read on a line. -/
def arrived (r : Rehearsal) (stream : StreamId) : Source :=
  (r.lines[stream]?.map Line.toCaller).getD []

/-- The rehearsal after a line changed. -/
def modifyLine (r : Rehearsal) (stream : StreamId) (change : Line → Line) : Rehearsal :=
  { r with lines := r.lines.modify stream change }

/-- What comes of sending a request on a line. -/
def send (r : Rehearsal) (stream : StreamId) (request : Message) : Event × Rehearsal :=
  match r.lines[stream]?.map (Line.send (frame request)) with
  | some (.ok line) => (.written, r.modifyLine stream (fun _ => line))
  | some (.error failure) => (.failed failure, r)
  | none => (.written, r)

/-- The rehearsal after the caller read on a line. -/
def leave (r : Rehearsal) (stream : StreamId) (rest : Source) : Rehearsal :=
  r.modifyLine stream (fun line => { line with toCaller := rest })

/-- What makes a party go on now, and the rehearsal once that was used up; none
    if it has to wait. Dials are not answered here. -/
def occasion (r : Rehearsal) (id : PartyId) (request : Message) : Stage → Option (Event × Rehearsal)
  | .waiting => if r.link.lock.heldBy id then some (.go, r) else none
  | .dialing => none
  | .writing stream => some (r.send stream request)
  | .reading stream =>
    match read r.options.maxFrame (r.arrived stream) with
    | .dry => none
    | .message reply rest => some (.received reply, r.leave stream rest)
    | .finished => some (.ended, r)
    | .failed failure rest => some (.failed failure, r.leave stream rest)
  | .finished _ => none
  | _ => some (.go, r)

/-- The rehearsal after a step of a party, which hangs up on a stream that it
    dropped. -/
def stepped (r : Rehearsal) (step : LinkStep) : Rehearsal :=
  let r := { r with link := step.link }
  match step.dropped with
  | some stream => r.modifyLine stream Line.hangUp
  | none => r

/-- A party goes on as far as it can without waiting. -/
def drive (id : PartyId) (request : Message) (stage : Stage) (r : Rehearsal) : Rehearsal × Stage :=
  match r.occasion id request stage with
  | none => (r, stage)
  | some (event, r) =>
    match _stepped : r.link.advance id stage event with
    | none => (r, stage)
    | some step => drive id request step.stage (r.stepped step)
termination_by stage.rank
decreasing_by exact Link.rank_advance_lt _stepped

/-- A party takes a step by an event of its own. -/
def nudge (id : PartyId) (stage : Stage) (event : Event) (r : Rehearsal) : Rehearsal × Stage :=
  match r.link.advance id stage event with
  | none => (r, stage)
  | some step => (r.stepped step, step.stage)

/-- A party begins, and goes on as far as it can. -/
def enter (id : PartyId) (command : LinkCommand) (r : Rehearsal) : Rehearsal × Party :=
  match command with
  | .run errand allowed =>
    let deadline := Deadline.allowing r.now allowed
    let request := errand.request (deadline.budget r.now)
    let (after, stage) := r.drive id request .entering
    (after, ⟨command, deadline, request, stage, r.link.closed⟩)
  | .close =>
    let (after, stage) := r.drive id .ack .closing
    (after, ⟨command, .never, .ack, stage, r.link.closed⟩)
  | .look => (r, ⟨command, .never, .ack, .finished .closed, r.link.closed⟩)

/-- Changes every party in order, together with the rehearsal. -/
def each (change : PartyId → Party → Rehearsal → Rehearsal × Stage) (parties : List (PartyId × Party))
    (r : Rehearsal) : Rehearsal × List (PartyId × Party) :=
  match parties with
  | [] => (r, [])
  | (id, party) :: rest =>
    let (r, stage) := change id party r
    let (r, rest) := each change rest r
    (r, (id, { party with stage }) :: rest)

/-- A party goes on. -/
def goOn (id : PartyId) (party : Party) (r : Rehearsal) : Rehearsal × Stage :=
  r.drive id party.request party.stage

/-- A party gives up when the alarm of its deadline goes off. -/
def expire (id : PartyId) (party : Party) (r : Rehearsal) : Rehearsal × Stage :=
  if party.deadline.rings r.now then r.nudge id party.stage .cancelled else (r, party.stage)

/-- A party that dials comes through, if the peer accepts further lines. -/
def dial (id : PartyId) (party : Party) (r : Rehearsal) : Rehearsal × Stage :=
  match party.stage with
  | .dialing =>
    match Endpoint.dial r.listening r.options 0 r.address with
    | .ok () => { r with lines := r.lines ++ [Line.fresh] }.nudge id .dialing (.dialed r.lines.length)
    | .error failure => r.nudge id .dialing (.failed failure)
  | stage => (r, stage)

/-- The peer goes on with some of its lines, as far as it can at a time. -/
def playAll (now : Time) (desk : Desk) : List (Line × StreamId) → Desk × List Line
  | [] => (desk, [])
  | (line, number) :: rest =>
    let (desk, line) := line.play now number desk
    let (desk, rest) := playAll now desk rest
    (desk, line :: rest)

/-- The peer goes on with its lines, in order. -/
def peerGoesOn (r : Rehearsal) : Rehearsal :=
  let (desk, lines) := playAll r.now r.desk r.lines.zipIdx
  { r with desk, lines }

/-- Whether a party has ended. -/
def Party.isFinished (party : Party) : Bool :=
  party.stage.conclusion?.isSome

/-- Whether a party can go on now. -/
def canGoOn (r : Rehearsal) (entry : PartyId × Party) : Bool :=
  (r.occasion entry.1 entry.2.request entry.2.stage).isSome

/-- Whether there are parties that have not ended, and all of them have to wait. -/
def stalled (r : Rehearsal) (parties : List (PartyId × Party)) : Bool :=
  !parties.all (·.2.isFinished) && !parties.any r.canGoOn

/-- The times at which the peer takes a turn. -/
def turns (r : Rehearsal) : List Time :=
  r.lines.filterMap (fun line => line.due.map Prod.fst)

/-- The earliest of the times at which the peer takes a turn or the alarm of the
    deadline of a party goes off. -/
def alarm (r : Rehearsal) (parties : List (PartyId × Party)) : Option Time :=
  let deadlines := parties.filterMap (fun entry => if entry.2.isFinished then none else entry.2.deadline.alarm r.now)
  (r.turns ++ deadlines).min?

/-- The rehearsal at a later time. -/
def wait (r : Rehearsal) (time : Time) : Rehearsal :=
  { r with now := max r.now time }

/-- Goes on until all parties have ended or everybody waits forever, for a
    number of rounds at most. -/
def run : (rounds : Nat) → List (PartyId × Party) → Rehearsal → Rehearsal × List (PartyId × Party)
  | 0, parties, r => (r, parties)
  | rounds + 1, parties, r =>
    let (r, parties) := r.each goOn parties
    if parties.all (·.2.isFinished) then (r, parties)
    else
      let (r, parties) := r.peerGoesOn.each dial parties
      if !r.stalled parties then run rounds parties r
      else match r.alarm parties with
        | none => (r, parties)
        | some time =>
          let (r, parties) := (r.wait time).each expire parties
          run rounds parties r

/-- Parties begin, in order. -/
def enterAll (r : Rehearsal) : List (LinkCommand × PartyId) → Rehearsal × List (PartyId × Party)
  | [] => (r, [])
  | (command, id) :: rest =>
    let (r, party) := r.enter id command
    let (r, parties) := r.enterAll rest
    (r, (id, party) :: parties)

/-- Enough rounds for some parties: in each one of them takes a step, or ends
    waiting at its deadline, or the peer reads a request of four bytes at least
    or takes a turn. -/
def rounds (r : Rehearsal) (parties : List (PartyId × Party)) : Nat :=
  let unread := r.lines.foldl (fun n line => n + line.toPeer.size + 1) 0
  parties.foldl (fun n entry => n + entry.2.stage.rank + (frame entry.2.request).length + 2) (unread + 1)

/-- What a party has come to. -/
def Party.response (address : String) (party : Party) : LinkResponse :=
  match party.command with
  | .close => .closed true
  | .look => .closed party.foundClosed
  | .run errand _ =>
    match party.stage.conclusion?.bind Conclusion.result? with
    | some result => .outcome (errand.outcome address result)
    | none => .pending

/-- The rehearsal with the requests forgotten that the peer has read so far. -/
def forgetSeen (r : Rehearsal) : Rehearsal :=
  { r with desk := { r.desk with seen := [] } }

/-- Carries out commands that begin together, in order. The requests that the
    peer has read since are in `seen`. -/
def perform (commands : List LinkCommand) (r : Rehearsal) : Rehearsal × List LinkResponse :=
  let (r, parties) := r.forgetSeen.enterAll commands.zipIdx
  let (r, parties) := r.run (r.rounds parties) parties
  (r, parties.map (fun entry => entry.2.response r.address))

/-- The peer stops accepting lines, and goes on with those that it has. -/
def deafen (r : Rehearsal) : Rehearsal :=
  { r.forgetSeen.peerGoesOn with listening := false }

/-- Waits, for a number of turns at most, until the peer has read a number of
    lines to their end. -/
def awaitEnds : (moves : Nat) → (ends : Nat) → Rehearsal → Rehearsal
  | 0, _, r => r
  | moves + 1, ends, r =>
    if ends ≤ r.desk.ended then r
    else
      let r := r.peerGoesOn
      match r.turns.min? with
      | none => r
      | some time => if ends ≤ r.desk.ended then r else awaitEnds moves ends (r.wait time)

/-- Waits until the peer has read a number of lines to their end, or nothing
    more happens. -/
def watch (ends : Nat) (r : Rehearsal) : Rehearsal :=
  r.forgetSeen.awaitEnds (r.rounds [] + 1) ends

end Rehearsal

end RingCache
