import RingCache.Proofs.Streams
import RingCache.Wire.Writer

/-!
# Messages that a writer takes in part

A writer that refuses at a limit takes the first bytes of what it is offered,
whatever its pace is (`Capped.takeAll_eq`). Frames are not empty, so once it has
refused it takes nothing any more, and what was taken is cut where the first
message failed. A reader of it gets exactly the messages that were sent
(`sendAll_delivers`).
-/
namespace RingCache.Wire.Writer

variable {limit : Nat} {writer : Writer}

/-- A writer that refuses when it has taken `limit` bytes, takes some bytes whenever
    it does not refuse, and flushes. -/
structure Capped (limit : Nat) (writer : Writer) : Prop where
  limit_eq : writer.limit = some limit
  paced : ∀ taken, writer.pace taken ≠ some 0
  flushes : writer.flushes = true
  within : writer.taken.length ≤ limit

theorem Capped.full_iff (capped : writer.Capped limit) : writer.full = true ↔ limit ≤ writer.taken.length := by
  simp [full, capped.limit_eq]

/-- A writer that does not refuse takes at least one byte, and no more than there are
    and than the limit allows. -/
theorem Capped.portion_bounds (capped : writer.Capped limit) (room : writer.full = false) (offered : Nat)
    (some_byte : 0 < offered) :
    0 < writer.portion offered ∧ writer.portion offered ≤ offered ∧
      writer.taken.length + writer.portion offered ≤ limit := by
  have below : writer.taken.length < limit := by
    rw [← Bool.not_eq_true, capped.full_iff] at room
    omega
  unfold portion
  rw [capped.limit_eq]
  cases paced : writer.pace writer.taken.length with
  | none =>
    simp only [Option.elim_none, Option.elim_some]
    omega
  | some most =>
    have some_most : most ≠ 0 := by
      rintro rfl
      exact capped.paced _ paced
    simp only [Option.elim_some]
    omega

theorem Capped.take (capped : writer.Capped limit) {bytes : Bytes}
    (fits : writer.taken.length + bytes.length ≤ limit) : (writer.take bytes).Capped limit where
  limit_eq := capped.limit_eq
  paced := capped.paced
  flushes := capped.flushes
  within := by simpa [Writer.take] using fits

/-- Of the bytes that it is offered a writer takes those up to its limit. All are taken
    unless that cuts them. -/
theorem Capped.takeAll_eq (capped : writer.Capped limit) (bytes : Bytes) :
    writer.takeAll bytes = ({ writer with taken := (writer.taken ++ bytes).take limit },
      if writer.taken.length + bytes.length ≤ limit then .ok () else .error "write refused") := by
  fun_induction Writer.takeAll writer bytes with
  | case1 writer =>
    have within := capped.within
    rw [List.append_nil, List.take_of_length_le within, if_pos (by simpa using within)]
  | case2 writer first more full =>
    have at_limit := Nat.le_antisymm capped.within (capped.full_iff.mp full)
    rw [List.take_append_of_le_length (Nat.le_of_eq at_limit.symm), List.take_of_length_le (Nat.le_of_eq at_limit),
      if_neg (by rw [List.length_cons]; omega)]
  | case3 writer first more room nothing =>
    have bounds := capped.portion_bounds (Bool.not_eq_true _ ▸ room) (more.length + 1) (Nat.succ_pos _)
    omega
  | case4 writer first more room n portion ih =>
    have bounds := capped.portion_bounds (Bool.not_eq_true _ ▸ room) (more.length + 1) (Nat.succ_pos _)
    rw [portion] at bounds
    have counted : ((first :: more).take (n + 1)).length = n + 1 :=
      List.length_take_of_le (by rw [List.length_cons]; omega)
    rw [ih (capped.take (by rw [counted]; omega))]
    have rest : writer.taken ++ (first :: more).take (n + 1) ++ more.drop n = writer.taken ++ first :: more := by
      rw [List.append_assoc, List.take_succ_cons, List.cons_append, List.take_append_drop]
    simp only [Writer.take, rest, List.length_append, counted, List.length_drop, List.length_cons]
    congr 2
    exact propext (by omega)

/-! ## One message -/

/-- The failure of a message that was refused. -/
def refused : Failure := .network (.sendFailed "write refused")

/-- A message is sent exactly if its frame fits. Else the bytes of the frame up to the
    limit are taken. -/
theorem Capped.exists_send (capped : writer.Capped limit) (message : Message) :
    ∃ next, writer.send message =
        (next, if writer.taken.length + (frame message).length ≤ limit then .ok () else .error refused) ∧
      next.taken = (writer.taken ++ frame message).take limit ∧ next.Capped limit := by
  have filled : ∀ calls,
      ({ writer with taken := (writer.taken ++ frame message).take limit, flushCalls := calls } : Writer).Capped
        limit := by
    intro calls
    refine ⟨capped.limit_eq, capped.paced, capped.flushes, ?_⟩
    rw [List.length_take]
    exact Nat.min_le_left _ _
  by_cases fits : writer.taken.length + (frame message).length ≤ limit
  · refine ⟨_, ?_, rfl, filled (writer.flushCalls + 1)⟩
    simp only [send, capped.takeAll_eq, fits, if_true, flush, capped.flushes]
  · refine ⟨_, ?_, rfl, filled writer.flushCalls⟩
    simp only [send, capped.takeAll_eq, fits, if_false, refused]

/-! ## Many messages -/

theorem sendAll_cons {next : Writer} {outcome : Except Failure Unit} {message : Message}
    (sends : writer.send message = (next, outcome)) (messages : List Message) :
    writer.sendAll (message :: messages) =
      ((next.sendAll messages).1, (outcome, next) :: (next.sendAll messages).2) := by
  rw [sendAll, sends]

/-- The frames of some messages, up to the limit, are taken, and nothing after the
    first message whose frame does not fit. That one fails, and so do all after it. -/
theorem Capped.exists_sendAll (capped : writer.Capped limit) (messages : List Message) :
    ∃ sent ≤ messages.length,
      (∀ i < messages.length, writer.taken.length + (stream (messages.take (i + 1))).length ≤ limit ↔ i < sent) ∧
      (writer.sendAll messages).1.taken = (writer.taken ++ stream messages).take limit ∧
      (writer.sendAll messages).2.map Prod.fst =
        List.replicate sent (.ok ()) ++ List.replicate (messages.length - sent) (.error refused) ∧
      ∀ attempt ∈ (writer.sendAll messages).2.drop sent,
        attempt.2.taken = (writer.taken ++ stream messages).take limit := by
  induction messages generalizing writer with
  | nil =>
    refine ⟨0, Nat.le_refl 0, by simp, ?_, rfl, by simp [sendAll]⟩
    rw [stream, List.flatMap_nil, List.append_nil, List.take_of_length_le capped.within]
    rfl
  | cons message more ih =>
    obtain ⟨next, sends, taken, still⟩ := capped.exists_send message
    obtain ⟨sent, within, counted, last, outcomes, kept⟩ := ih still
    by_cases fits : writer.taken.length + (frame message).length ≤ limit
    · rw [List.take_of_length_le (by rwa [List.length_append])] at taken
      rw [if_pos fits] at sends
      rw [taken, List.append_assoc] at last kept
      refine ⟨sent + 1, Nat.succ_le_succ within, ?_, ?_, ?_, ?_⟩
      · intro i below
        rw [List.take_succ_cons, stream_cons, List.length_append]
        cases i with
        | zero =>
          rw [List.take_zero, stream, List.flatMap_nil, List.length_nil]
          omega
        | succ i =>
          have later := counted i (Nat.lt_of_succ_lt_succ below)
          rw [taken, List.length_append] at later
          omega
      · rw [sendAll_cons sends, stream_cons, last]
      · rw [sendAll_cons sends, List.map_cons, outcomes, List.replicate_succ, List.cons_append, List.length_cons,
          Nat.succ_sub_succ]
      · rw [sendAll_cons sends, stream_cons]
        exact kept
    · -- The writer is full from here on, and every frame needs room.
      have full : next.taken.length = limit := by
        rw [taken, List.length_take, List.length_append]
        omega
      obtain rfl : sent = 0 := by
        cases more with
        | nil => exact Nat.le_zero.mp within
        | cons second rest =>
          have first := counted 0 (Nat.succ_pos _)
          rw [full, List.take_succ_cons, stream_cons, List.length_append, length_frame] at first
          omega
      rw [if_neg fits] at sends
      have same : (next.taken ++ stream more).take limit = (writer.taken ++ stream (message :: more)).take limit := by
        have beyond : limit ≤ (writer.taken ++ frame message).length := by
          rw [List.length_append]
          omega
        rw [List.take_append_of_le_length (Nat.le_of_eq full.symm), taken, List.take_take, Nat.min_self, stream_cons,
          ← List.append_assoc, List.take_append_of_le_length beyond]
      rw [same] at last kept
      refine ⟨0, Nat.zero_le _, ?_, ?_, ?_, ?_⟩
      · intro i _
        rw [List.take_succ_cons, stream_cons, List.length_append]
        omega
      · rw [sendAll_cons sends, last]
      · rw [sendAll_cons sends, List.map_cons, outcomes, List.length_cons]
        rfl
      · rw [sendAll_cons sends]
        refine List.forall_mem_cons.mpr ⟨?_, kept⟩
        rw [← same, List.take_append_of_le_length (Nat.le_of_eq full.symm), List.take_of_length_le (Nat.le_of_eq full)]

/-- Two counts up to `n` are the same if the same numbers are below them. -/
theorem eq_of_lt_iff {n a b : Nat} (left : a ≤ n) (right : b ≤ n) (same : ∀ i < n, i < a ↔ i < b) : a = b := by
  rcases Nat.lt_trichotomy a b with less | equal | more
  · exact absurd ((same a (by omega)).mpr less) (Nat.lt_irrefl a)
  · exact equal
  · exact absurd ((same b (by omega)).mp more) (Nat.lt_irrefl b)

/-- Messages are written one by one, whatever comes of the ones before, to a writer
    that takes bytes at some pace, never none, and refuses everything once it has
    taken `limit` bytes. It takes the first `limit` bytes of their frames. The messages
    whose frames lie wholly within these are sent; all others fail, and from the first
    of them on nothing more is taken. Whoever reads the bytes that were taken, in any
    pieces, gets the messages that were sent. -/
theorem sendAll_delivers (messages : List Message) (pace : Pace) (limit frameLimit : Nat)
    (paced : ∀ taken, pace taken ≠ some 0)
    (framed : ∀ message ∈ messages, (encode message).length ≤ frameLimit ∧ (encode message).length < 2 ^ 32) :
    let written := (⟨pace, some limit, true, [], 0⟩ : Writer).sendAll messages
    written.1.taken = (stream messages).take limit ∧
    ∃ sent ≤ messages.length,
      (∀ i < messages.length, (stream (messages.take (i + 1))).length ≤ limit ↔ i < sent) ∧
      written.2.map Prod.fst =
        List.replicate sent (.ok ()) ++ List.replicate (messages.length - sent) (.error refused) ∧
      (∀ attempt ∈ written.2.drop sent, attempt.2.taken = written.1.taken) ∧
      ∀ pieces : List Bytes, pieces.flatten = written.1.taken →
        (readAll frameLimit (pieces.map .data ++ [.finish])).1 = messages.take sent := by
  intro written
  have capped : (⟨pace, some limit, true, [], 0⟩ : Writer).Capped limit := ⟨rfl, paced, rfl, Nat.zero_le limit⟩
  obtain ⟨sent, within, counted, last, outcomes, kept⟩ := capped.exists_sendAll messages
  simp only [List.length_nil, Nat.zero_add, List.nil_append] at counted last kept
  refine ⟨last, sent, within, counted, outcomes, fun attempt failed => (kept attempt failed).trans last.symm, ?_⟩
  intro pieces arrived
  obtain ⟨whole, most, before, reads⟩ :=
    readAll_cut messages frameLimit (min limit (stream messages).length) framed (Nat.min_le_right _ _)
  have same : sent = whole := by
    refine eq_of_lt_iff within most ?_
    intro i below
    rw [← counted i below, ← before i below]
    have part : (stream (messages.take (i + 1))).length ≤ (stream messages).length := by
      conv => rhs; rw [← List.take_append_drop (i + 1) messages]
      rw [stream, stream, List.flatMap_append, List.length_append]
      exact Nat.le_add_right _ _
    omega
  rw [reads pieces (by rw [arrived, last, List.take_eq_take_min]), same]

/-- Takes three bytes, or one, at once. -/
def unevenPace : Pace :=
  fun taken => if taken % 2 = 0 then some 3 else some 1

/-- Three messages, cut before the last byte of the second one. The third one is
    shorter, but nothing is taken any more. -/
theorem sendAll_delivers_of_three :
    (∀ taken, unevenPace taken ≠ some 0) ∧
    (∀ message ∈ [Message.ack, .retrieved [1, 2], .ack],
      (encode message).length ≤ 14 ∧ (encode message).length < 2 ^ 32) ∧
    let written := (⟨unevenPace, some 25, true, [], 0⟩ : Writer).sendAll [.ack, .retrieved [1, 2], .ack]
    written.2.map Prod.fst = [.ok (), .error refused, .error refused] ∧
      (readAll 14 ([written.1.taken.take 9, written.1.taken.drop 9].map .data ++ [.finish])).1 = [.ack] := by
  have paced : ∀ taken, unevenPace taken ≠ some 0 := by
    intro taken
    unfold unevenPace
    split <;> simp
  have framed : ∀ message ∈ [Message.ack, .retrieved [1, 2], .ack],
      (encode message).length ≤ 14 ∧ (encode message).length < 2 ^ 32 := by decide
  obtain ⟨_, sent, _, counted, outcomes, _, reads⟩ := sendAll_delivers _ unevenPace 25 14 paced framed
  have first : 0 < sent := (counted 0 (by decide)).mp (by decide)
  have second : ¬ 1 < sent := fun more => absurd ((counted 1 (by decide)).mpr more) (by decide)
  obtain rfl : sent = 1 := by omega
  refine ⟨paced, framed, outcomes, reads _ ?_⟩
  rw [List.flatten_cons, List.flatten_cons, List.flatten_nil, List.append_nil, List.take_append_drop]

end RingCache.Wire.Writer
