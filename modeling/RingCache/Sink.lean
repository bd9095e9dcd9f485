import RingCache.Failure
import RingCache.Utf8

/-!
# Sinks

Where the value of a get goes: kept as bytes, or kept as a text in which bad
places are replaced. A sink keeps the last value written; a get that fails
writes none.
-/
namespace RingCache

/-- What a sink keeps a value as. -/
inductive SinkKind where
  | bytes
  | text
deriving DecidableEq, Repr

/-- A value as a sink keeps it. -/
inductive SinkValue where
  | bytes (bytes : Bytes)
  | text (text : String)
deriving DecidableEq, Repr

/-- A destination of values, and the value it has. -/
structure Sink where
  kind : SinkKind
  value : Option SinkValue
deriving DecidableEq, Repr

namespace Sink

/-- A sink that nothing was written to. -/
def empty (kind : SinkKind) : Sink := ⟨kind, none⟩

/-- A value as a kind of sink keeps it. -/
def SinkValue.of (kind : SinkKind) (bytes : Bytes) : SinkValue :=
  match kind with
  | .bytes => .bytes bytes
  | .text => .text (Utf8.lossy bytes)

/-- The sink after a value was written. -/
def write (sink : Sink) (bytes : Bytes) : Sink :=
  { sink with value := some (SinkValue.of sink.kind bytes) }

/-- The sink after a get into it ended. -/
def receive (sink : Sink) : Except Failure Bytes → Sink
  | .ok bytes => sink.write bytes
  | .error _ => sink

/-- The value at last, which is empty if nothing was written. -/
def final (sink : Sink) : SinkValue :=
  sink.value.getD (SinkValue.of sink.kind [])

end Sink

end RingCache
