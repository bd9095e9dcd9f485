import RingCache.Bytes

/-!
# Texts in UTF-8

`lead` tells what stands first in a byte string: a whole scalar value, an
ill-formed sequence, or a sequence that the end of the string cuts short. An
ill-formed sequence is the longest prefix that could still have become a scalar
value. `decode` refuses the first bad place and says where it is; `lossy`
replaces each bad place by one replacement character.
-/
namespace RingCache.Utf8

/-- What stands first in a byte string, and how many bytes it takes. -/
inductive Lead where
  | scalar (width : Nat)
  | illFormed (width : Nat)
  | cutShort (width : Nat)
deriving DecidableEq, Repr

/-- The number of bytes that a lead takes. -/
def Lead.width : Lead → Nat
  | .scalar n => n
  | .illFormed n => n
  | .cutShort n => n

/-- The number of continuation bytes after a first byte, and the range of the
    first of them; none for a byte that starts no sequence of several bytes. -/
def following (first : UInt8) : Option (Nat × UInt8 × UInt8) :=
  if 0xC2 ≤ first ∧ first ≤ 0xDF then some (1, 0x80, 0xBF)
  else if first = 0xE0 then some (2, 0xA0, 0xBF)
  else if first = 0xED then some (2, 0x80, 0x9F)
  else if 0xE1 ≤ first ∧ first ≤ 0xEF then some (2, 0x80, 0xBF)
  else if first = 0xF0 then some (3, 0x90, 0xBF)
  else if 0xF1 ≤ first ∧ first ≤ 0xF3 then some (3, 0x80, 0xBF)
  else if first = 0xF4 then some (3, 0x80, 0x8F)
  else none

/-- Reads `more` continuation bytes, the first of them from `low` to `high`,
    after `seen` bytes of the same sequence. -/
def continuation : (more : Nat) → (low high : UInt8) → (seen : Nat) → Bytes → Lead
  | 0, _, _, seen, _ => .scalar seen
  | _ + 1, _, _, seen, [] => .cutShort seen
  | more + 1, low, high, seen, b :: rest =>
    if low ≤ b ∧ b ≤ high then continuation more 0x80 0xBF (seen + 1) rest else .illFormed seen

/-- What stands first in a byte string that begins with `first`. -/
def lead (first : UInt8) (rest : Bytes) : Lead :=
  if first < 0x80 then .scalar 1
  else match following first with
    | none => .illFormed 1
    | some (more, low, high) => continuation more low high 1 rest

theorem width_continuation (more : Nat) (low high : UInt8) (seen : Nat) (rest : Bytes) :
    seen ≤ (continuation more low high seen rest).width := by
  fun_induction continuation more low high seen rest with
  | case1 => exact Nat.le_refl _
  | case2 => exact Nat.le_refl _
  | case3 _ _ _ _ _ _ _ ih => exact Nat.le_trans (Nat.le_succ _) ih
  | case4 => exact Nat.le_refl _

/-- What stands first takes at least one byte. -/
theorem width_lead (first : UInt8) (rest : Bytes) : 1 ≤ (lead first rest).width := by
  unfold lead
  split
  · exact Nat.le_refl _
  · split
    · exact Nat.le_refl _
    · exact width_continuation _ _ _ _ _

/-! ## Refusing bad places -/

/-- The first bad place of a byte string: its index, and the length of the
    ill-formed sequence there, or none if the string ends inside a sequence. -/
structure Fault where
  index : Nat
  length : Option Nat
deriving DecidableEq, Repr

/-- The text of a fault. -/
def Fault.message (fault : Fault) : String :=
  match fault.length with
  | some n => "invalid utf-8 sequence of " ++ toString n ++ " bytes from index " ++ toString fault.index
  | none => "incomplete utf-8 byte sequence from index " ++ toString fault.index

/-- The first bad place at or after `index`, for the bytes that stand there. -/
def firstFault (index : Nat) : Bytes → Fault
  | [] => ⟨index, none⟩
  | first :: rest =>
    match lead first rest with
    | .scalar n => firstFault (index + n) (rest.drop (n - 1))
    | .illFormed n => ⟨index, some n⟩
    | .cutShort _ => ⟨index, none⟩
termination_by bytes => bytes.length
decreasing_by simp only [List.length_drop, List.length_cons]; omega

/-- The text that bytes write, or the first bad place. -/
def decode (bytes : Bytes) : Except Fault String :=
  match String.fromUTF8? ⟨bytes.toArray⟩ with
  | some text => .ok text
  | none => .error (firstFault 0 bytes)

/-! ## Replacing bad places -/

/-- The character that stands for a bad place. -/
def replacement : Char := '\uFFFD'

/-- The characters of a byte string, with one replacement character for each
    bad place. -/
def lossyChars : Bytes → List Char
  | [] => []
  | first :: rest =>
    let width := (lead first rest).width
    let shown := match lead first rest with
      | .scalar n => (String.fromUTF8? ⟨((first :: rest).take n).toArray⟩).elim [replacement] String.toList
      | _ => [replacement]
    shown ++ lossyChars (rest.drop (width - 1))
termination_by bytes => bytes.length
decreasing_by simp only [List.length_drop, List.length_cons]; omega

/-- The text of a byte string, with one replacement character for each bad
    place. -/
def lossy (bytes : Bytes) : String :=
  String.ofList (lossyChars bytes)

/-! ## Texts read back -/

/-- The bytes of a text are read as that text. -/
theorem decode_ofText (text : String) : decode (Bytes.ofText text) = .ok text := by
  have whole : (⟨(Bytes.ofText text).toArray⟩ : ByteArray) = text.toByteArray := rfl
  have back : String.fromUTF8? text.toByteArray = some text := by
    unfold String.fromUTF8?
    split
    · rfl
    · exact absurd text.isValidUTF8 (by assumption)
  simp only [decode, whole, back]

/-- Only the bytes of a text are read as that text. -/
theorem eq_ofText_of_decode {bytes : Bytes} {text : String} (read : decode bytes = .ok text) :
    bytes = Bytes.ofText text := by
  unfold decode at read
  split at read
  next back =>
    cases read
    unfold String.fromUTF8? at back
    split at back
    · cases back
      rfl
    · cases back
  · cases read

/-- A text is read from its own bytes and from no others. -/
theorem decode_eq_ok_iff {bytes : Bytes} {text : String} : decode bytes = .ok text ↔ bytes = Bytes.ofText text :=
  ⟨eq_ofText_of_decode, fun same => same ▸ decode_ofText text⟩

end RingCache.Utf8
