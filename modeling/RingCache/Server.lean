import RingCache.Service
import RingCache.Wire.Frame

/-!
# Serving a byte stream

A server reads the requests on a stream one after another and writes the frame
of each reply before it reads on. It hangs up when the stream ends, and when a
frame cannot be read.
-/
namespace RingCache.Server
open RingCache.Wire

/-- Where a server stands with a stream. -/
inductive Ending where
  /-- It waits for the rest of a request. -/
  | waiting (unread : Source)
  /-- The stream ended and the server hung up. -/
  | finished
  /-- A request could not be read and the server hung up. -/
  | dropped (failure : Failure) (unread : Source)
  /-- A handler never answers. -/
  | stuck
deriving DecidableEq, Repr

/-- What came of serving what has arrived on a stream: the state of the service,
    the bytes written, the time that it took, and where the server stands. -/
structure Served (σ : Type) where
  state : σ
  written : Bytes
  elapsed : Time
  ending : Ending

/-- Serves what has arrived on a stream, with frames of at most `limit` bytes. -/
def serve {σ : Type} (attached : σ → Option (Service σ)) (limit : Nat) (now : Time) (source : Source)
    (state : σ) : Served σ :=
  match _got : read limit source with
  | .dry => ⟨state, [], 0, .waiting source⟩
  | .finished => ⟨state, [], 0, .finished⟩
  | .failed failure unread => ⟨state, [], 0, .dropped failure unread⟩
  | .message message rest =>
    match answer attached now message state with
    | (state, .never) => ⟨state, [], 0, .stuck⟩
    | (state, .after delay reply) =>
      let served := serve attached limit (now + delay) rest state
      { served with
        written := frame reply ++ served.written
        elapsed := delay + served.elapsed }
termination_by source.size
decreasing_by exact size_read_lt _got

/-- What the other side of the stream then receives besides the bytes written:
    nothing yet, the end of the stream, or a reset if bytes were left unread. -/
def Ending.notice : Ending → Source
  | .waiting _ => []
  | .stuck => []
  | .finished => [.finish]
  | .dropped _ unread => if unread.size = 0 then [.finish] else [.fault .reset]

end RingCache.Server
