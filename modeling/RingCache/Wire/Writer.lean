import RingCache.Wire.Frame

/-!
# Writing frames

A writer takes some of the bytes that it is offered and may refuse at any byte;
a message is sent once all bytes of its frame are taken and the writer has
flushed them.
-/
namespace RingCache.Wire

/-- How many bytes are taken at once at most, by the number of those that were taken
    before; any number if none is given. -/
abbrev Pace := Nat → Option Nat

/-- The same pace all the time. -/
instance : Coe (Option Nat) Pace := ⟨fun most _ => most⟩

/-- A writer that takes bytes at a pace, refuses when it has taken `limit` bytes, and
    may refuse to flush. -/
structure Writer where
  pace : Pace
  limit : Option Nat
  flushes : Bool
  taken : Bytes
  flushCalls : Nat

namespace Writer

/-- The number of bytes that a writer takes of `offered` ones. -/
def portion (writer : Writer) (offered : Nat) : Nat :=
  let once := (writer.pace writer.taken.length).elim offered (min offered)
  writer.limit.elim once (fun limit => min once (limit - writer.taken.length))

/-- Whether the writer refuses everything. -/
def full (writer : Writer) : Bool :=
  writer.limit.any (· ≤ writer.taken.length)

/-- The writer after it took bytes. -/
def take (writer : Writer) (bytes : Bytes) : Writer :=
  { writer with taken := writer.taken ++ bytes }

/-- Offers bytes until all are taken. A refusal ends it, and so does a call that
    takes nothing. -/
def takeAll (writer : Writer) (bytes : Bytes) : Writer × Except String Unit :=
  match bytes with
  | [] => (writer, .ok ())
  | first :: more =>
    if writer.full then (writer, .error "write refused")
    else match writer.portion (more.length + 1) with
      | 0 => (writer, .error "write zero")
      | n + 1 => (writer.take ((first :: more).take (n + 1))).takeAll (more.drop n)
termination_by bytes.length
decreasing_by simp only [List.length_drop, List.length_cons]; omega

/-- Asks the writer to flush. -/
def flush (writer : Writer) : Writer × Except String Unit :=
  ({ writer with flushCalls := writer.flushCalls + 1 },
    if writer.flushes then .ok () else .error "flush refused")

/-- Sends one message: its whole frame, and then a flush. -/
def send (writer : Writer) (message : Message) : Writer × Except Failure Unit :=
  match writer.takeAll (frame message) with
  | (writer, .error reason) => (writer, .error (.network (.sendFailed reason)))
  | (writer, .ok ()) =>
    match writer.flush with
    | (writer, .error reason) => (writer, .error (.network (.sendFailed reason)))
    | (writer, .ok ()) => (writer, .ok ())

/-- Sends messages one by one, going on after failures. Each outcome comes with
    the writer as it then was. -/
def sendAll (writer : Writer) : List Message → Writer × List (Except Failure Unit × Writer)
  | [] => (writer, [])
  | message :: rest =>
    let (writer, outcome) := writer.send message
    let (last, outcomes) := writer.sendAll rest
    (last, (outcome, writer) :: outcomes)

end Writer

end RingCache.Wire
