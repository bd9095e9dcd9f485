import RingCache.Wire.Writer

/-!
# Long values

A value of many gigabytes need not be written out to be sent. A supply gives bytes by their
places, and of a frame that is supplied only those bytes are made that the writer takes. What
is sent is the same (`Writer.sendEach_eq`).
-/
namespace RingCache.Wire

/-- Bytes by their places. -/
structure Supply where
  size : Nat
  byte : Nat → UInt8

namespace Supply

/-- The `n` bytes from a place on. -/
def part (supply : Supply) (start n : Nat) : Bytes :=
  (List.range' start n).map supply.byte

/-- All bytes of a supply. -/
def bytes (supply : Supply) : Bytes :=
  supply.part 0 supply.size

/-- The same bytes again and again. -/
def repeating (unit : Array UInt8) (times : Nat) : Supply where
  size := unit.size * times
  byte i := unit[i % unit.size]?.getD 0

/-- A supply with bytes in front. -/
def after (front : Bytes) (supply : Supply) : Supply where
  size := front.length + supply.size
  byte i := front[i]?.getD (supply.byte (i - front.length))

/-- The frame of the message that brings a value. -/
def framed (value : Supply) : Supply :=
  value.after (Bytes.big 4 (12 + value.size) ++ Bytes.little 4 1 ++ encodeLength value.size)

@[simp]
theorem length_part (supply : Supply) (start n : Nat) : (supply.part start n).length = n := by
  simp [part]

@[simp]
theorem length_bytes (supply : Supply) : supply.bytes.length = supply.size :=
  length_part supply 0 supply.size

theorem part_append (supply : Supply) (start n m : Nat) :
    supply.part start n ++ supply.part (start + n) m = supply.part start (n + m) := by
  rw [part, part, part, ← List.map_append, List.range'_append_1]

theorem bytes_after (front : Bytes) (supply : Supply) : (supply.after front).bytes = front ++ supply.bytes := by
  apply List.ext_getElem
  · rw [length_bytes, List.length_append, length_bytes]
    rfl
  · intro i _ _
    by_cases first : i < front.length
    · simp [bytes, part, after, List.getElem_append_left first, first]
    · have beyond := Nat.not_lt.mp first
      simp [bytes, part, after, List.getElem_append_right beyond, List.getElem?_eq_none beyond]

/-- The frame of a supplied value is the frame of the value. -/
theorem bytes_framed (value : Supply) : value.framed.bytes = frame (.retrieved value.bytes) := by
  have length : (encode (.retrieved value.bytes)).length = 12 + value.size := by
    simp only [encode, encodeFields, encodeLength, List.length_append, Bytes.length_little, length_bytes]
    omega
  rw [framed, bytes_after, frame, length, encode, variant, encodeFields, length_bytes]
  simp only [List.append_assoc]

end Supply

namespace Writer

theorem portion_le (writer : Writer) (offered : Nat) : writer.portion offered ≤ offered := by
  unfold portion
  cases writer.pace writer.taken.length <;> cases writer.limit <;> simp only [Option.elim] <;> omega

/-- Offers the bytes of a supply from a place on until all are taken, as `takeAll` does. -/
def takeSupply (writer : Writer) (supply : Supply) (start : Nat) : Writer × Except String Unit :=
  if start < supply.size then
    if writer.full then (writer, .error "write refused")
    else match writer.portion (supply.size - start) with
      | 0 => (writer, .error "write zero")
      | n + 1 => (writer.take (supply.part start (n + 1))).takeSupply supply (start + (n + 1))
  else (writer, .ok ())
termination_by supply.size - start

/-- `takeAll` on bytes that there are. -/
theorem takeAll_of_ne_nil (writer : Writer) {bytes : Bytes} (some_bytes : bytes ≠ []) :
    writer.takeAll bytes =
      if writer.full then (writer, .error "write refused")
      else match writer.portion bytes.length with
        | 0 => (writer, .error "write zero")
        | n + 1 => (writer.take (bytes.take (n + 1))).takeAll (bytes.drop (n + 1)) := by
  cases bytes with
  | nil => exact absurd rfl some_bytes
  | cons first more =>
    rw [takeAll]
    rfl

theorem takeSupply_eq (writer : Writer) (supply : Supply) (start : Nat) :
    writer.takeSupply supply start = writer.takeAll (supply.part start (supply.size - start)) := by
  have some_bytes {start : Nat} (more : start < supply.size) : supply.part start (supply.size - start) ≠ [] := by
    intro none
    have lengths := congrArg List.length none
    rw [Supply.length_part, List.length_nil] at lengths
    omega
  fun_induction takeSupply writer supply start with
  | case1 writer start more full => rw [takeAll_of_ne_nil writer (some_bytes more), if_pos full]
  | case2 writer start more room nothing =>
    simp only [takeAll_of_ne_nil writer (some_bytes more), room, Supply.length_part, nothing]
    rfl
  | case3 writer start more room n portion ih =>
    have within := writer.portion_le (supply.size - start)
    rw [portion] at within
    have parts := supply.part_append start (n + 1) (supply.size - (start + (n + 1)))
    have sum : n + 1 + (supply.size - (start + (n + 1))) = supply.size - start := by omega
    rw [sum] at parts
    have first : (supply.part start (supply.size - start)).take (n + 1) = supply.part start (n + 1) := by
      rw [← parts, List.take_left' (Supply.length_part supply start (n + 1))]
    have others : (supply.part start (supply.size - start)).drop (n + 1) =
        supply.part (start + (n + 1)) (supply.size - (start + (n + 1))) := by
      rw [← parts, List.drop_left' (Supply.length_part supply start (n + 1))]
    simp only [takeAll_of_ne_nil writer (some_bytes more), room, Supply.length_part, portion, first, others]
    exact ih
  | case4 writer start done =>
    rw [Nat.sub_eq_zero_of_le (Nat.not_lt.mp done)]
    simp [Supply.part, takeAll]

/-- What is sent: a message as it is, or one that brings a value which is supplied. -/
inductive Parcel where
  | plain (message : Message)
  | supplied (value : Supply)

/-- The message that a parcel stands for. -/
def Parcel.content : Parcel → Message
  | .plain message => message
  | .supplied value => .retrieved value.bytes

/-- Sends one parcel, as `send` sends its message. -/
def sendParcel (writer : Writer) : Parcel → Writer × Except Failure Unit
  | .plain message => writer.send message
  | .supplied value =>
    match writer.takeSupply value.framed 0 with
    | (writer, .error reason) => (writer, .error (.network (.sendFailed reason)))
    | (writer, .ok ()) =>
      match writer.flush with
      | (writer, .error reason) => (writer, .error (.network (.sendFailed reason)))
      | (writer, .ok ()) => (writer, .ok ())

/-- Sends parcels one by one, as `sendAll` sends their messages. -/
def sendEach (writer : Writer) : List Parcel → Writer × List (Except Failure Unit × Writer)
  | [] => (writer, [])
  | parcel :: rest =>
    let (writer, outcome) := writer.sendParcel parcel
    let (last, outcomes) := writer.sendEach rest
    (last, (outcome, writer) :: outcomes)

theorem sendParcel_eq (writer : Writer) (parcel : Parcel) :
    writer.sendParcel parcel = writer.send parcel.content := by
  cases parcel with
  | plain message => rfl
  | supplied value =>
    have all : writer.takeSupply value.framed 0 = writer.takeAll (frame (.retrieved value.bytes)) := by
      rw [takeSupply_eq, Nat.sub_zero, ← Supply.bytes_framed, Supply.bytes]
    simp only [sendParcel, all]
    rfl

/-- Parcels are sent as the messages that they stand for. -/
theorem sendEach_eq (writer : Writer) (parcels : List Parcel) :
    writer.sendEach parcels = writer.sendAll (parcels.map Parcel.content) := by
  induction parcels generalizing writer with
  | nil => rfl
  | cons parcel rest ih => simp only [sendEach, List.map_cons, sendAll, sendParcel_eq, ih]

end Writer

end RingCache.Wire
