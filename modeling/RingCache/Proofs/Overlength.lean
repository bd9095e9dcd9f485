import RingCache.Proofs.Streams
import RingCache.Proofs.Truncation
import RingCache.Wire.Supply

/-!
# Messages too long for their frames

The length of a frame has four bytes, and a message of 2^32 bytes or more loses the high bits
of its length there. Its reader takes as many bytes as the frame announces. They are a part of
the message that was cut off, so they are no message, and the bytes of the message that were
not taken stay on the stream, where the next frame is expected (`read_frame_of_any_length`).
-/
namespace RingCache.Wire

variable {limit : Nat} {message : Message} {pieces : List Bytes} {bytes : Bytes}

/-- The number of bytes that a frame announces. -/
def announced (message : Message) : Nat :=
  Bytes.ofBig ((frame message).take 4)

theorem announced_eq (message : Message) : announced message = (encode message).length % 2 ^ 32 := by
  have four : Bytes.bound 4 = 2 ^ 32 := rfl
  rw [announced, take_frame, Bytes.ofBig_big, four]

theorem announced_eq_length_iff :
    announced message = (encode message).length ↔ (encode message).length < 2 ^ 32 := by
  rw [announced_eq]
  omega

/-- Of a frame that has arrived, the reader takes the length and then as many bytes as it
    announces. -/
theorem exists_readBody_of_frame (within : announced message ≤ limit)
    (arrived : pieces.flatten = frame message ++ bytes) (tail : Source) :
    ∃ left : List Bytes, left.flatten = (encode message).drop (announced message) ++ bytes ∧
      read limit (pieces.map .data ++ tail) =
        match decode ((encode message).take (announced message)) with
        | .ok found => .message found (left.map .data ++ tail)
        | .error fault => .failed (.network (.serialization fault.message)) (left.map .data ++ tail) := by
  have few : announced message ≤ (encode message).length := by
    rw [announced_eq]
    omega
  have header : 4 ≤ pieces.flatten.length := by
    rw [arrived, List.length_append, length_frame]
    omega
  obtain ⟨body, begun, after⟩ := Source.exactly_pieces header tail
  rw [arrived, List.drop_append_of_le_length (by simp), drop_frame] at after
  have enough : announced message ≤ body.flatten.length := by
    rw [after, List.length_append]
    omega
  obtain ⟨left, taken, others⟩ := Source.exactly_pieces enough tail
  refine ⟨left, ?_, ?_⟩
  · rw [others, after, List.drop_append_of_le_length few]
  · rw [after, List.take_append_of_le_length few] at taken
    rw [arrived, List.take_append_of_le_length (by simp)] at begun
    have number : Bytes.ofBig ((frame message).take 4) = announced message := rfl
    cases told : decode ((encode message).take (announced message)) <;>
      simp [read, begun, number, Nat.not_lt.mpr within, readBody, taken, told]

/-- The frame of a message announces the number of bytes that follow exactly if there are fewer
    than 2^32. Such a frame is taken by a reader that accepts messages of its length, in any
    pieces, and nothing else with it. A longer message is not read back, whatever the reader
    accepts: what the frame announces ends too early, the read fails, and at least 2^32 bytes of
    the message are left for the next one. -/
theorem read_frame_of_any_length (message : Message) (limit : Nat) (accepted : (encode message).length ≤ limit)
    (short : (encode message).length < 2 ^ 64) (pieces : List Bytes) (bytes : Bytes)
    (arrived : pieces.flatten = frame message ++ bytes) (tail : Source) :
    (Bytes.ofBig ((frame message).take 4) = ((frame message).drop 4).length ↔ (encode message).length < 2 ^ 32) ∧
    ∃ left : List Bytes,
      ((encode message).length < 2 ^ 32 → left.flatten = bytes ∧
        read limit (pieces.map .data ++ tail) = .message message (left.map .data ++ tail)) ∧
      (2 ^ 32 ≤ (encode message).length →
        (∃ unread, 2 ^ 32 ≤ unread.length ∧ unread <:+ encode message ∧ left.flatten = unread ++ bytes) ∧
        ∃ fault : Fault, fault.endsEarly = true ∧
          read limit (pieces.map .data ++ tail) =
            .failed (.network (.serialization fault.message)) (left.map .data ++ tail)) := by
  have few : announced message ≤ (encode message).length := by
    rw [announced_eq]
    omega
  have fits : Fits message := fits_of_length short
  obtain ⟨left, after, taken⟩ := exists_readBody_of_frame (Nat.le_trans few accepted) arrived tail
  refine ⟨?_, left, ?_, ?_⟩
  · rw [drop_frame]
    exact announced_eq_length_iff
  · intro framed
    have all : announced message = (encode message).length := announced_eq_length_iff.mpr framed
    have whole : decode (encode message) = .ok message := decode_eq_ok_iff.mpr ⟨fits, List.prefix_refl _⟩
    rw [all, List.take_length, whole] at taken
    rw [all, List.drop_length, List.nil_append] at after
    exact ⟨after, taken⟩
  · intro long
    have part : (encode message).take (announced message) ≠ encode message := by
      intro same
      have lengths := congrArg List.length same
      rw [List.length_take, announced_eq] at lengths
      omega
    obtain ⟨fault, failed, early⟩ := exists_decode_of_cut fits (List.take_prefix _ _) part
    rw [failed] at taken
    refine ⟨⟨(encode message).drop (announced message), ?_, List.drop_suffix _ _, after⟩, fault, early, taken⟩
    rw [List.length_drop, announced_eq]
    omega

/-- A value of 2^32 - 12 bytes, so that its message has 2^32. -/
def hugeValue : Supply := .repeating #[0] (2 ^ 32 - 12)

def hugeMessage : Message := .retrieved hugeValue.bytes

theorem length_hugeMessage : (encode hugeMessage).length = 2 ^ 32 := by
  have size : hugeValue.size = 2 ^ 32 - 12 := rfl
  have framed := congrArg List.length (Supply.bytes_framed hugeValue)
  rw [Supply.length_bytes, length_frame] at framed
  have header : hugeValue.framed.size = 16 + hugeValue.size := rfl
  change (encode (.retrieved hugeValue.bytes)).length = 2 ^ 32
  omega

/-- The frame of a message of 2^32 bytes announces none of them. The read fails and leaves them
    all. -/
theorem read_frame_of_huge_message :
    (encode hugeMessage).length ≤ 2 ^ 32 ∧ (encode hugeMessage).length < 2 ^ 64 ∧
    [frame hugeMessage].flatten = frame hugeMessage ++ [] ∧
    Bytes.ofBig ((frame hugeMessage).take 4) ≠ ((frame hugeMessage).drop 4).length ∧
    ∃ (left : List Bytes) (fault : Fault), 2 ^ 32 ≤ left.flatten.length ∧ fault.endsEarly = true ∧
      read (2 ^ 32) ([frame hugeMessage].map .data ++ [.finish]) =
        .failed (.network (.serialization fault.message)) (left.map .data ++ [.finish]) := by
  have length := length_hugeMessage
  have accepted : (encode hugeMessage).length ≤ 2 ^ 32 := Nat.le_of_eq length
  have short : (encode hugeMessage).length < 2 ^ 64 := by omega
  have arrived : [frame hugeMessage].flatten = frame hugeMessage ++ [] := by
    rw [List.flatten_cons, List.flatten_nil]
  obtain ⟨announces, left, _, fails⟩ :=
    read_frame_of_any_length hugeMessage (2 ^ 32) accepted short _ [] arrived [.finish]
  obtain ⟨⟨unread, many, _, after⟩, fault, early, failed⟩ := fails (Nat.le_of_eq length.symm)
  refine ⟨accepted, short, arrived, ?_, left, fault, ?_, early, failed⟩
  · intro same
    have fewer := announces.mp same
    omega
  · rw [after, List.append_nil]
    exact many

end RingCache.Wire
