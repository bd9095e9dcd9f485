import RingCache.Failure
import RingCache.Wire.Encoding

/-!
# Frames on a byte stream

A frame is the length of a message's bytes, in four bytes with the most
significant first, and then the bytes. A reader meets a stream as chunks: bytes
that arrive together, and faults. `Source.exactly` takes a number of bytes
across chunks, and `read` takes one message. A stream that ends before a frame,
or inside its length, has come to its end; one that ends later is broken.
-/
namespace RingCache.Wire

/-- The frame of a message. The length keeps only its low 32 bits. -/
def frame (message : Message) : Bytes :=
  let bytes := encode message
  Bytes.big 4 bytes.length ++ bytes

/-- A limit that the length of no frame exceeds. -/
def noLimit : Nat := Bytes.bound 4

/-- Why a read gives no bytes. `ending` marks the faults that say that the
    stream has come to its end. -/
structure StreamFault where
  ending : Bool
  text : String
deriving DecidableEq, Repr

/-- The end of a stream. -/
def StreamFault.endOfStream : StreamFault := ⟨true, "early eof"⟩

/-- The fault of a stream that the other side gave up with bytes unread. -/
def StreamFault.reset : StreamFault := ⟨false, "Connection reset by peer (os error 104)"⟩

/-- What arrives at a reader at one time. -/
inductive Chunk where
  | data (bytes : Bytes)
  | fault (fault : StreamFault)
  /-- The end of the stream, which stays the end. -/
  | finish
deriving DecidableEq, Repr

/-- What has arrived at a reader and was not read yet. -/
abbrev Source := List Chunk

/-- What came of taking a number of bytes. -/
inductive Taken where
  | bytes (bytes : Bytes) (rest : Source)
  | broken (fault : StreamFault)
  /-- Too few bytes have arrived so far. -/
  | dry
deriving DecidableEq, Repr

/-- Puts bytes that were taken earlier in front. -/
def Taken.after (earlier : Bytes) : Taken → Taken
  | .bytes later rest => .bytes (earlier ++ later) rest
  | .broken fault => .broken fault
  | .dry => .dry

namespace Source

/-- Takes exactly `n` bytes, from as many chunks as they need. -/
def exactly : (n : Nat) → Source → Taken
  | 0, source => .bytes [] source
  | _ + 1, [] => .dry
  | _ + 1, .finish :: _ => .broken .endOfStream
  | _ + 1, .fault fault :: _ => .broken fault
  | n + 1, .data bytes :: rest =>
    if n + 1 ≤ bytes.length then .bytes (bytes.take (n + 1)) (.data (bytes.drop (n + 1)) :: rest)
    else (exactly (n + 1 - bytes.length) rest).after bytes
termination_by _ source => source.length

/-- The number of bytes that wait in a source. -/
def size : Source → Nat
  | [] => 0
  | .data bytes :: rest => bytes.length + size rest
  | _ :: rest => size rest

/-- A source holds what was taken from it. -/
theorem size_exactly {n : Nat} {source rest : Source} {bytes : Bytes}
    (taken : exactly n source = .bytes bytes rest) : n + size rest = size source := by
  fun_induction exactly n source generalizing bytes rest with
  | case1 => cases taken; simp
  | case2 => cases taken
  | case3 => cases taken
  | case4 => cases taken
  | case5 n data tail enough =>
    cases taken
    simp only [size, List.length_drop]
    omega
  | case6 n data tail short ih =>
    cases later : exactly (n + 1 - data.length) tail with
    | bytes more left =>
      rw [later] at taken
      cases taken
      have held := ih later
      simp only [size]
      omega
    | broken fault =>
      rw [later] at taken
      cases taken
    | dry =>
      rw [later] at taken
      cases taken

end Source

/-- What came of reading one message. -/
inductive Reading where
  | message (message : Message) (rest : Source)
  /-- The stream came to its end before a message began. -/
  | finished
  /-- The read failed, with `rest` still unread. -/
  | failed (failure : Failure) (rest : Source)
  /-- The message has not arrived in full. -/
  | dry
deriving DecidableEq, Repr

/-- Reads the bytes that follow a length. -/
def readBody (length : Nat) (source : Source) : Reading :=
  match source.exactly length with
  | .dry => .dry
  | .broken fault => .failed (.network (.receiveFailed fault.text)) []
  | .bytes bytes rest =>
    match decode bytes with
    | .ok message => .message message rest
    | .error fault => .failed (.network (.serialization fault.message)) rest

/-- Reads one message of at most `limit` bytes. -/
def read (limit : Nat) (source : Source) : Reading :=
  match source.exactly 4 with
  | .dry => .dry
  | .broken fault => if fault.ending then .finished else .failed (.network (.io fault.text)) []
  | .bytes bytes rest =>
    let length := Bytes.ofBig bytes
    if limit < length then .failed (.tooLarge length) rest else readBody length rest

/-- Reading a message leaves fewer bytes. -/
theorem size_read_lt {limit : Nat} {source rest : Source} {message : Message}
    (got : read limit source = .message message rest) : rest.size < source.size := by
  unfold read at got
  split at got
  · cases got
  · split at got <;> cases got
  next bytes tail header =>
    have held := Source.size_exactly header
    simp only at got
    split at got
    · cases got
    · unfold readBody at got
      split at got
      · cases got
      · cases got
      next body left taken =>
        have kept := Source.size_exactly taken
        split at got
        · cases got
          omega
        · cases got

/-- How a stream of messages ends for its reader. -/
inductive Ending where
  | finished
  | failed (failure : Failure)
  | dry
deriving DecidableEq, Repr

/-- Reads messages until there is none. -/
def readAll (limit : Nat) (source : Source) : List Message × Ending :=
  match _got : read limit source with
  | .message message rest =>
    let (messages, ending) := readAll limit rest
    (message :: messages, ending)
  | .finished => ([], .finished)
  | .failed failure _ => ([], .failed failure)
  | .dry => ([], .dry)
termination_by source.size
decreasing_by exact size_read_lt _got

end RingCache.Wire
