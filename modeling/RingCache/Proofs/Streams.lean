import RingCache.Proofs.Layout
import RingCache.Wire.Frame

/-!
# Streams read back

Frames arrive in pieces that need not end where frames end. A reader takes the
same bytes however they are cut into pieces (`Source.exactly_pieces`), so it
takes one message after another off the stream as long as whole frames have
arrived, and tells a stream that ended before a frame, or within its length,
from one that broke off later (`readAll_cut`).
-/
namespace RingCache.Wire

variable {limit n : Nat} {message : Message} {pieces : List Bytes} {source rest tail : Source} {bytes : Bytes}

/-! ## Bytes in pieces -/

/-- Enough bytes have arrived: the first of them are taken, and the others are
    still there. -/
theorem Source.exactly_pieces (enough : n ≤ pieces.flatten.length) (tail : Source) :
    ∃ left : List Bytes, exactly n (pieces.map .data ++ tail) =
        .bytes (pieces.flatten.take n) (left.map .data ++ tail) ∧ left.flatten = pieces.flatten.drop n := by
  induction pieces generalizing n with
  | nil =>
    cases Nat.le_zero.mp enough
    exact ⟨[], by simp [exactly], rfl⟩
  | cons piece more ih =>
    cases n with
    | zero => exact ⟨piece :: more, by simp [exactly], rfl⟩
    | succ n =>
      rw [List.flatten_cons, List.length_append] at enough
      simp only [List.map_cons, List.cons_append, exactly, List.flatten_cons]
      by_cases here : n + 1 ≤ piece.length
      · refine ⟨piece.drop (n + 1) :: more, ?_, ?_⟩
        · simp [here, List.take_append_of_le_length here]
        · simp [List.drop_append_of_le_length here]
      · have within : n + 1 - piece.length ≤ more.flatten.length := by omega
        obtain ⟨left, taken, others⟩ := ih within
        refine ⟨left, ?_, ?_⟩
        · simp only [here, if_false, taken, Taken.after, List.take_append,
            List.take_of_length_le (Nat.le_of_not_le here)]
        · rw [others, List.drop_append, List.drop_of_length_le (Nat.le_of_not_le here), List.nil_append]

/-- Too few bytes have arrived: what follows the pieces decides. -/
theorem Source.exactly_pieces_of_lt (short : pieces.flatten.length < n) (tail : Source) :
    exactly n (pieces.map .data ++ tail) = (exactly (n - pieces.flatten.length) tail).after pieces.flatten := by
  induction pieces generalizing n with
  | nil => cases h : exactly n tail <;> simp [Taken.after, h]
  | cons piece more ih =>
    rw [List.flatten_cons, List.length_append] at short
    cases n with
    | zero => omega
    | succ n =>
      have beyond : ¬ n + 1 ≤ piece.length := by omega
      simp only [List.map_cons, List.cons_append, exactly, beyond, if_false, List.flatten_cons, List.length_append]
      rw [ih (by omega), Nat.sub_sub]
      cases exactly (n + 1 - (piece.length + more.flatten.length)) tail <;> simp [Taken.after]

/-- A stream that ends too early is at its end. -/
theorem Source.exactly_of_ended (short : pieces.flatten.length < n) :
    exactly n (pieces.map .data ++ [.finish]) = .broken .endOfStream := by
  rw [exactly_pieces_of_lt short]
  obtain ⟨missing, same⟩ := Nat.exists_eq_succ_of_ne_zero (Nat.sub_ne_zero_of_lt short)
  rw [same]
  simp [exactly, Taken.after]

/-! ## One frame -/

@[simp]
theorem length_frame (message : Message) : (frame message).length = 4 + (encode message).length := by
  simp [frame]

theorem take_frame (message : Message) : (frame message).take 4 = Bytes.big 4 (encode message).length := by
  rw [frame, List.take_append_of_le_length (by simp), List.take_of_length_le (by simp)]

theorem drop_frame (message : Message) : (frame message).drop 4 = encode message := by
  rw [frame, List.drop_append, List.drop_of_length_le (by simp)]
  simp

/-- A message fits into the frames of a reader. -/
def Framed (limit : Nat) (message : Message) : Prop :=
  (encode message).length ≤ limit ∧ (encode message).length < 2 ^ 32

theorem Framed.ofBig_big (framed : Framed limit message) :
    Bytes.ofBig (Bytes.big 4 (encode message).length) = (encode message).length := by
  rw [Bytes.ofBig_big]
  exact Nat.mod_eq_of_lt framed.2

theorem Framed.decode_encode (framed : Framed limit message) : decode (encode message) = .ok message := by
  refine decode_eq_ok_iff.mpr ⟨fits_of_length ?_, List.prefix_refl _⟩
  exact Nat.lt_trans framed.2 (by decide)

/-- Once the length of a frame has arrived, the bytes that it announces are read. -/
theorem Framed.read_eq_readBody (framed : Framed limit message) (begun : pieces.flatten.take 4 = (frame message).take 4)
    (tail : Source) : ∃ left : List Bytes, left.flatten = pieces.flatten.drop 4 ∧
      read limit (pieces.map .data ++ tail) = readBody (encode message).length (left.map .data ++ tail) := by
  have enough : 4 ≤ pieces.flatten.length := by
    have lengths := congrArg List.length begun
    rw [take_frame, List.length_take, Bytes.length_big] at lengths
    omega
  obtain ⟨left, taken, others⟩ := Source.exactly_pieces enough tail
  refine ⟨left, others, ?_⟩
  rw [read, taken, begun, take_frame]
  simp only [framed.ofBig_big, Nat.not_lt.mpr framed.1, if_false]

/-- A frame that has arrived in full is read, and what follows it is left. -/
theorem Framed.read_frame (framed : Framed limit message) (arrived : pieces.flatten = frame message ++ bytes)
    (tail : Source) : ∃ left : List Bytes, left.flatten = bytes ∧
      read limit (pieces.map .data ++ tail) = .message message (left.map .data ++ tail) := by
  have begun : pieces.flatten.take 4 = (frame message).take 4 := by
    rw [arrived, List.take_append_of_le_length (by simp)]
  obtain ⟨body, after, same⟩ := framed.read_eq_readBody begun tail
  rw [arrived, List.drop_append_of_le_length (by simp), drop_frame] at after
  have enough : (encode message).length ≤ body.flatten.length := by simp [after]
  obtain ⟨left, taken, others⟩ := Source.exactly_pieces enough tail
  refine ⟨left, ?_, ?_⟩
  · rw [others, after, List.drop_left]
  · rw [same, readBody, taken, after, List.take_left]
    simp only [framed.decode_encode]

/-- A stream that ends within a length, or before it, has come to its end. -/
theorem read_of_ended_in_length (short : pieces.flatten.length < 4) :
    read limit (pieces.map .data ++ [.finish]) = .finished := by
  rw [read, Source.exactly_of_ended short]
  rfl

/-- A stream that ends after a length and within the frame is broken. -/
theorem Framed.read_of_ended_in_body (framed : Framed limit message) (header : 4 ≤ n)
    (short : n < (frame message).length) (arrived : pieces.flatten = (frame message).take n) :
    read limit (pieces.map .data ++ [.finish]) = .failed (.network (.receiveFailed "early eof")) [] := by
  have begun : pieces.flatten.take 4 = (frame message).take 4 := by
    rw [arrived, List.take_take, Nat.min_eq_left header]
  obtain ⟨body, after, same⟩ := framed.read_eq_readBody begun [.finish]
  have cut : body.flatten.length < (encode message).length := by
    rw [after, arrived]
    rw [length_frame] at short
    simp only [List.length_drop, List.length_take, length_frame]
    omega
  rw [same, readBody, Source.exactly_of_ended cut]
  rfl

/-! ## What was read -/

/-- The bytes in a source. -/
def Source.content : Source → Bytes
  | [] => []
  | .data piece :: rest => piece ++ content rest
  | _ :: rest => content rest

theorem Source.content_append (source tail : Source) : content (source ++ tail) = content source ++ content tail := by
  induction source with
  | nil => rfl
  | cons chunk rest ih => cases chunk <;> simp [content, ih]

/-- A source holds what was taken from it, in front. -/
theorem Source.content_exactly (taken : exactly n source = .bytes bytes rest) :
    bytes.length = n ∧ Source.content source = bytes ++ Source.content rest := by
  fun_induction exactly n source generalizing bytes rest with
  | case1 source =>
    cases taken
    exact ⟨rfl, rfl⟩
  | case2 | case3 | case4 => cases taken
  | case5 n piece tail enough =>
    cases taken
    refine ⟨List.length_take_of_le enough, ?_⟩
    rw [Source.content, Source.content, ← List.append_assoc, List.take_append_drop]
  | case6 n piece tail short ih =>
    cases later : exactly (n + 1 - piece.length) tail with
    | bytes more left =>
      rw [later] at taken
      cases taken
      obtain ⟨counted, held⟩ := ih later
      refine ⟨?_, by rw [Source.content, held, List.append_assoc]⟩
      rw [List.length_append]
      omega
    | broken fault =>
      rw [later] at taken
      cases taken
    | dry =>
      rw [later] at taken
      cases taken

/-- What is read as a message is a length and as many bytes, which begin with the
    message. -/
theorem content_of_read (got : read limit source = .message message rest) :
    ∃ header body : Bytes, header.length = 4 ∧ body.length = Bytes.ofBig header ∧ decode body = .ok message ∧
      source.content = header ++ (body ++ rest.content) := by
  unfold read at got
  split at got
  · cases got
  · split at got <;> cases got
  next header tail begun =>
    obtain ⟨four, first⟩ := Source.content_exactly begun
    simp only at got
    split at got
    · cases got
    · unfold readBody at got
      split at got
      · cases got
      · cases got
      next body left taken =>
        obtain ⟨counted, second⟩ := Source.content_exactly taken
        split at got <;> cases got
        next decoded => exact ⟨header, body, four, counted, decoded, by rw [first, second]⟩

/-- Nothing is read off a stream without bytes. -/
theorem read_ne_message {later : Bytes} (nothing : source.content ++ later = []) :
    read limit source ≠ .message message rest := by
  intro got
  obtain ⟨header, body, four, _, _, held⟩ := content_of_read got
  have lengths := congrArg List.length nothing
  rw [held, List.length_append, List.length_append, four, List.length_nil] at lengths
  omega

/-- If the bytes of a stream, those that have not arrived included, are one frame,
    then only its message can be read, and nothing is left. -/
theorem eq_of_read_frame {reply : Message} {later : Bytes} (got : read limit source = .message message rest)
    (one : source.content ++ later = frame reply) (short : (encode reply).length < 2 ^ 64) :
    message = reply ∧ rest.content ++ later = [] := by
  obtain ⟨header, body, four, _, decoded, held⟩ := content_of_read got
  rw [held, frame, List.append_assoc, List.append_assoc] at one
  obtain ⟨_, own⟩ := List.append_inj one (by rw [four, Bytes.length_big])
  have whole : decode (encode reply) = .ok reply := decode_eq_ok_iff.mpr ⟨fits_of_length short, List.prefix_refl _⟩
  obtain ⟨fits, begins⟩ := decode_eq_ok_iff.mp decoded
  have part : decode (encode reply) = .ok message := by
    refine decode_eq_ok_iff.mpr ⟨fits, begins.trans ?_⟩
    rw [← own]
    exact List.prefix_append _ _
  rw [whole] at part
  cases part
  refine ⟨rfl, List.eq_nil_of_length_eq_zero ?_⟩
  have lengths := congrArg List.length own
  have within := begins.length_le
  rw [List.length_append] at lengths
  omega

/-! ## Many frames -/

/-- The frames of messages, one after another. -/
def stream (messages : List Message) : Bytes :=
  messages.flatMap frame

theorem stream_cons (message : Message) (messages : List Message) :
    stream (message :: messages) = frame message ++ stream messages := rfl

theorem readAll_of_message (got : read limit source = .message message rest) :
    readAll limit source = (message :: (readAll limit rest).1, (readAll limit rest).2) := by
  rw [readAll]
  split <;> simp_all

theorem readAll_of_finished (got : read limit source = .finished) : readAll limit source = ([], .finished) := by
  rw [readAll]
  split <;> simp_all

theorem readAll_of_failed {failure : Failure} (got : read limit source = .failed failure rest) :
    readAll limit source = ([], .failed failure) := by
  rw [readAll]
  split <;> simp_all

/-- A stream that ends within its first frame, or before it. -/
theorem readAll_of_ended_in_frame (framed : Framed limit message) (short : n < (frame message).length)
    (arrived : pieces.flatten = (frame message).take n) :
    readAll limit (pieces.map .data ++ [.finish]) =
      ([], if n < 4 then .finished else .failed (.network (.receiveFailed "early eof"))) := by
  by_cases header : n < 4
  · have few : pieces.flatten.length < 4 := by
      rw [arrived, List.length_take]
      omega
    rw [readAll_of_finished (read_of_ended_in_length few), if_pos header]
  · rw [readAll_of_failed (framed.read_of_ended_in_body (Nat.not_lt.mp header) short arrived), if_neg header]

/-- A stream of frames is cut after `n` bytes, arrives in any pieces, and then
    ends. What is read are the messages whose frames lie wholly before the cut. Then
    the stream has come to its end if fewer than four bytes of the next frame are
    there, and else it is broken. -/
theorem readAll_cut (messages : List Message) (limit n : Nat)
    (framed : ∀ message ∈ messages, (encode message).length ≤ limit ∧ (encode message).length < 2 ^ 32)
    (within : n ≤ (stream messages).length) :
    ∃ whole ≤ messages.length,
      (∀ i < messages.length, (stream (messages.take (i + 1))).length ≤ n ↔ i < whole) ∧
      ∀ pieces : List Bytes, pieces.flatten = (stream messages).take n →
        readAll limit (pieces.map .data ++ [.finish]) =
          (messages.take whole,
            if n < (stream (messages.take whole)).length + 4 then .finished
            else .failed (.network (.receiveFailed "early eof"))) := by
  induction messages generalizing n with
  | nil =>
    cases Nat.le_zero.mp within
    refine ⟨0, Nat.le_refl 0, by simp, ?_⟩
    intro pieces arrived
    exact readAll_of_finished (read_of_ended_in_length (by simp [arrived]))
  | cons message more ih =>
    obtain ⟨first, others⟩ := List.forall_mem_cons.mp framed
    rw [stream_cons, List.length_append] at within
    by_cases short : n < (frame message).length
    · refine ⟨0, Nat.zero_le _, ?_, ?_⟩
      · intro i _
        rw [List.take_succ_cons, stream_cons, List.length_append]
        omega
      · intro pieces arrived
        rw [stream_cons, List.take_append_of_le_length (Nat.le_of_lt short)] at arrived
        rw [readAll_of_ended_in_frame first short arrived]
        simp [stream]
    · obtain ⟨whole, within, counted, read⟩ := ih (n - (frame message).length) others (by omega)
      refine ⟨whole + 1, Nat.succ_le_succ within, ?_, ?_⟩
      · intro i below
        rw [List.take_succ_cons, stream_cons, List.length_append]
        cases i with
        | zero =>
          simp only [List.take_zero, stream, List.flatMap_nil, List.length_nil]
          omega
        | succ i =>
          have tail := counted i (Nat.lt_of_succ_lt_succ below)
          omega
      · intro pieces arrived
        rw [stream_cons, List.take_append, List.take_of_length_le (Nat.not_lt.mp short)] at arrived
        obtain ⟨left, rest, taken⟩ := Framed.read_frame first arrived [.finish]
        rw [readAll_of_message taken, read left rest]
        simp only [List.take_succ_cons, stream_cons, List.length_append]
        congr 2
        exact propext (by omega)

/-- Two messages, cut after the first byte of the second one's bytes. The pieces are
    cut within the lengths and within the frames. -/
theorem readAll_cut_of_two :
    (∀ message ∈ [Message.ack, .retrieved [1, 2]],
      (encode message).length ≤ 14 ∧ (encode message).length < 2 ^ 32) ∧
    13 ≤ (stream [.ack, .retrieved [1, 2]]).length ∧
    readAll 14 ([[0, 0], [0, 4, 6], [], [0, 0, 0, 0, 0, 0], [14, 1]].map .data ++ [.finish]) =
      ([.ack], .failed (.network (.receiveFailed "early eof"))) := by
  have framed : ∀ message ∈ [Message.ack, .retrieved [1, 2]],
      (encode message).length ≤ 14 ∧ (encode message).length < 2 ^ 32 := by decide
  have within : 13 ≤ (stream [.ack, .retrieved [1, 2]]).length := by decide
  obtain ⟨whole, _, counted, read⟩ := readAll_cut _ 14 13 framed within
  have first : 0 < whole := (counted 0 (by decide)).mp (by decide)
  have second : ¬ 1 < whole := fun more => absurd ((counted 1 (by decide)).mpr more) (by decide)
  obtain rfl : whole = 1 := by omega
  exact ⟨framed, within, read _ (by decide)⟩

end RingCache.Wire
