import Mathlib.Algebra.Group.Nat.Defs
import RingCache.Wire.Encoding

/-!
# The layout read back

A decoder reads what was written, and nothing else: it takes a value off the
front exactly if the bytes begin with the value as it is written (`Reads`). This
holds of every field whose lengths fit into eight bytes, and so of whole messages
(`decode_eq_ok_iff`).
-/
namespace RingCache.Wire

variable {α β : Type} {bytes rest : Bytes}

/-! ## Steps of a decoder -/

theorem bind_eq_ok {first : Decoder α} {next : α → Decoder β} {b : β} :
    (first >>= next) bytes = .ok (b, rest) ↔
      ∃ a middle, first bytes = .ok (a, middle) ∧ next a middle = .ok (b, rest) := by
  change Except.bind (first bytes) (fun taken => next taken.1 taken.2) = _ ↔ _
  cases first bytes with
  | error fault => simp [Except.bind]
  | ok taken => simp [Except.bind, Prod.ext_iff, and_assoc]

theorem pure_eq_ok {a b : α} : (pure a : Decoder α) bytes = .ok (b, rest) ↔ a = b ∧ bytes = rest := by
  change Except.ok (a, bytes) = _ ↔ _
  simp

theorem throw_ne_ok {fault : Fault} {b : α} : (throw fault : Decoder α) bytes ≠ .ok (b, rest) := by
  rintro ⟨⟩

theorem takeBytes_eq_ok {n : Nat} {short : Fault} {taken : Bytes} :
    takeBytes n short bytes = .ok (taken, rest) ↔ taken.length = n ∧ bytes = taken ++ rest := by
  unfold takeBytes
  split
  next enough =>
    simp only [Except.ok.injEq, Prod.mk.injEq]
    constructor
    · rintro ⟨rfl, rfl⟩
      exact ⟨List.length_take_of_le enough, (List.take_append_drop n bytes).symm⟩
    · rintro ⟨rfl, rfl⟩
      simp
  next few =>
    refine iff_of_false (by simp) ?_
    rintro ⟨rfl, rfl⟩
    simp at few

/-- A decoder takes a value off the front of a byte string exactly if the value
    fits and the byte string begins with what is written for it. -/
def Reads (decoder : Decoder α) (fits : α → Prop) (write : α → Bytes) : Prop :=
  ∀ bytes a rest, decoder bytes = .ok (a, rest) ↔ fits a ∧ bytes = write a ++ rest

/-! ## Fields -/

theorem reads_number (n : Nat) : Reads (decodeNumber n) (· < Bytes.bound n) (Bytes.little n) := by
  intro bytes number rest
  simp only [decodeNumber, bind_eq_ok, takeBytes_eq_ok, pure_eq_ok]
  constructor
  · rintro ⟨taken, _, ⟨rfl, rfl⟩, rfl, rfl⟩
    exact ⟨Bytes.ofLittle_lt taken, by rw [Bytes.little_ofLittle]⟩
  · rintro ⟨fits, rfl⟩
    refine ⟨Bytes.little n number, rest, ⟨Bytes.length_little n number, rfl⟩, ?_, rfl⟩
    rw [Bytes.ofLittle_little, Nat.mod_eq_of_lt fits]

/-- The length of a text fits into its eight bytes. -/
def TextFits (text : String) : Prop := (Bytes.ofText text).length < Bytes.bound 8

theorem reads_text : Reads decodeText TextFits encodeText := by
  intro bytes text rest
  simp only [decodeText, bind_eq_ok, reads_number 8 _ _ _, takeBytes_eq_ok]
  constructor
  · rintro ⟨_, _, ⟨fits, rfl⟩, taken, _, ⟨rfl, rfl⟩, read⟩
    cases whole : Utf8.decode taken with
    | ok own =>
      rw [whole] at read
      obtain ⟨rfl, rfl⟩ := pure_eq_ok.mp read
      cases Utf8.eq_ofText_of_decode whole
      exact ⟨fits, by rw [encodeText, encodeLength, List.append_assoc]⟩
    | error fault =>
      rw [whole] at read
      exact absurd read throw_ne_ok
  · rintro ⟨fits, rfl⟩
    refine ⟨_, _, ⟨fits, by rw [encodeText, encodeLength, List.append_assoc]⟩, _, _, ⟨rfl, rfl⟩, ?_⟩
    rw [Utf8.decode_ofText]
    rfl

theorem reads_many (n : Nat) :
    Reads (decodeMany n) (fun texts => texts.length = n ∧ ∀ text ∈ texts, TextFits text)
      (fun texts => texts.flatMap encodeText) := by
  induction n with
  | zero =>
    intro bytes texts rest
    simp only [decodeMany, pure_eq_ok]
    constructor
    · rintro ⟨rfl, rfl⟩
      simp
    · rintro ⟨⟨none_left, _⟩, rfl⟩
      cases List.length_eq_zero_iff.mp none_left
      exact ⟨rfl, rfl⟩
  | succ n ih =>
    intro bytes texts rest
    simp only [decodeMany, bind_eq_ok, reads_text _ _ _, ih _ _ _, pure_eq_ok]
    constructor
    · rintro ⟨text, _, ⟨fits, rfl⟩, more, _, ⟨⟨rfl, all⟩, rfl⟩, rfl, rfl⟩
      exact ⟨⟨rfl, List.forall_mem_cons.mpr ⟨fits, all⟩⟩, by simp⟩
    · rintro ⟨⟨counted, all⟩, rfl⟩
      cases texts with
      | nil => cases counted
      | cons text more =>
        obtain ⟨fits, later⟩ := List.forall_mem_cons.mp all
        exact ⟨text, _, ⟨fits, by simp⟩, more, rest, ⟨⟨Nat.succ.inj counted, later⟩, rfl⟩, rfl, rfl⟩

/-- The lengths of a list of texts fit into their eight bytes. -/
def TextsFit (texts : List String) : Prop :=
  texts.length < Bytes.bound 8 ∧ ∀ text ∈ texts, TextFits text

theorem reads_texts : Reads decodeTexts TextsFit encodeTexts := by
  intro bytes texts rest
  simp only [decodeTexts, bind_eq_ok, reads_number 8 _ _ _, reads_many _ _ _ _]
  constructor
  · rintro ⟨_, _, ⟨fits, rfl⟩, ⟨rfl, all⟩, rfl⟩
    exact ⟨⟨fits, all⟩, by rw [encodeTexts, encodeLength, List.append_assoc]⟩
  · rintro ⟨⟨fits, all⟩, rfl⟩
    exact ⟨_, _, ⟨fits, by rw [encodeTexts, encodeLength, List.append_assoc]⟩, ⟨rfl, all⟩, rfl⟩

theorem reads_value :
    Reads decodeValue (fun value => value.length < Bytes.bound 8) (fun value => encodeLength value.length ++ value) := by
  intro bytes value rest
  simp only [decodeValue, bind_eq_ok, reads_number 8 _ _ _, takeBytes_eq_ok]
  constructor
  · rintro ⟨_, _, ⟨fits, rfl⟩, rfl, rfl⟩
    exact ⟨fits, by rw [encodeLength, List.append_assoc]⟩
  · rintro ⟨fits, rfl⟩
    exact ⟨_, _, ⟨fits, by rw [encodeLength, List.append_assoc]⟩, rfl, rfl⟩

theorem reads_budget : Reads decodeBudget (fun _ => True) encodeBudget := by
  intro bytes budget rest
  simp only [decodeBudget, bind_eq_ok, takeBytes_eq_ok]
  constructor
  · rintro ⟨tag, _, ⟨one, rfl⟩, read⟩
    split at read
    · obtain ⟨rfl, rfl⟩ := pure_eq_ok.mp read
      exact ⟨trivial, rfl⟩
    · obtain ⟨number, _, found, same⟩ := bind_eq_ok.mp read
      obtain ⟨fits, rfl⟩ := (reads_number 8 _ _ _).mp found
      obtain ⟨rfl, rfl⟩ := pure_eq_ok.mp same
      have kept : (UInt64.ofNat number).toNat = number := UInt64.toNat_ofNat_of_lt' fits
      exact ⟨trivial, by rw [encodeBudget, kept]; rfl⟩
    · exact absurd read throw_ne_ok
  · rintro ⟨_, rfl⟩
    cases budget with
    | none => exact ⟨[0], rest, ⟨rfl, rfl⟩, rfl⟩
    | some number =>
      refine ⟨[1], Bytes.little 8 number.toNat ++ rest, ⟨rfl, rfl⟩, bind_eq_ok.mpr ?_⟩
      exact ⟨number.toNat, rest, (reads_number 8 _ _ _).mpr ⟨number.toNat_lt, rfl⟩,
        pure_eq_ok.mpr ⟨congrArg some (UInt64.ofNat_toNat), rfl⟩⟩

/-- The lengths within a request fit. -/
def RequestFits (request : KeyRequest) : Prop :=
  TextFits request.group ∧ TextFits request.key

theorem reads_request : Reads decodeRequest RequestFits encodeRequest := by
  intro bytes request rest
  simp only [decodeRequest, bind_eq_ok, reads_text _ _ _, reads_budget _ _ _, pure_eq_ok]
  constructor
  · rintro ⟨group, _, ⟨groupFits, rfl⟩, key, _, ⟨keyFits, rfl⟩, budget, _, ⟨_, rfl⟩, rfl, rfl⟩
    exact ⟨⟨groupFits, keyFits⟩, by simp only [encodeRequest, List.append_assoc]⟩
  · rintro ⟨⟨groupFits, keyFits⟩, rfl⟩
    refine ⟨request.group, _, ⟨groupFits, ?_⟩, request.key, _, ⟨keyFits, rfl⟩, request.budget, rest, ⟨trivial, rfl⟩,
      rfl, rfl⟩
    simp only [encodeRequest, List.append_assoc]

/-! ## Messages -/

/-- The lengths within a message fit into their eight bytes. -/
def Fits : Message → Prop
  | .retrieve request => RequestFits request
  | .retrieved value => value.length < Bytes.bound 8
  | .delete request => RequestFits request
  | .amend _ addresses => TextsFit addresses
  | .ack => True
  | .error text => TextFits text

/-- A wrapped value is read exactly if the value is. -/
theorem Reads.wrap_eq_ok {decoder : Decoder α} {fits : α → Prop} {write : α → Bytes}
    (reads : Reads decoder fits write) {wrap : α → β} {b : β} :
    (decoder >>= fun a => pure (wrap a)) bytes = .ok (b, rest) ↔
      ∃ a, wrap a = b ∧ fits a ∧ bytes = write a ++ rest := by
  simp only [bind_eq_ok, reads _ _ _, pure_eq_ok]
  constructor
  · rintro ⟨a, _, read, same, rfl⟩
    exact ⟨a, same, read⟩
  · rintro ⟨a, same, read⟩
    exact ⟨a, rest, read, same, rfl⟩

theorem reads_fields (number : Nat) (message : Message) :
    decodeFields number bytes = .ok (message, rest) ↔
      variant message = number ∧ Fits message ∧ bytes = encodeFields message ++ rest := by
  constructor
  · intro read
    unfold decodeFields at read
    split at read
    · obtain ⟨_, rfl, found⟩ := reads_request.wrap_eq_ok.mp read
      exact ⟨rfl, found⟩
    · obtain ⟨_, rfl, found⟩ := reads_value.wrap_eq_ok.mp read
      exact ⟨rfl, found⟩
    · obtain ⟨_, rfl, found⟩ := reads_request.wrap_eq_ok.mp read
      exact ⟨rfl, found⟩
    · obtain ⟨_, rfl, found⟩ := reads_texts.wrap_eq_ok.mp read
      exact ⟨rfl, found⟩
    · obtain ⟨_, rfl, found⟩ := reads_texts.wrap_eq_ok.mp read
      exact ⟨rfl, found⟩
    · obtain ⟨_, rfl, found⟩ := reads_texts.wrap_eq_ok.mp read
      exact ⟨rfl, found⟩
    · obtain ⟨rfl, rfl⟩ := pure_eq_ok.mp read
      exact ⟨rfl, trivial, rfl⟩
    · obtain ⟨_, rfl, found⟩ := reads_text.wrap_eq_ok.mp read
      exact ⟨rfl, found⟩
    · exact absurd read throw_ne_ok
  · rintro ⟨rfl, found⟩
    cases message with
    | retrieve request => exact reads_request.wrap_eq_ok.mpr ⟨request, rfl, found⟩
    | retrieved value => exact reads_value.wrap_eq_ok.mpr ⟨value, rfl, found⟩
    | delete request => exact reads_request.wrap_eq_ok.mpr ⟨request, rfl, found⟩
    | amend how addresses => cases how <;> exact reads_texts.wrap_eq_ok.mpr ⟨addresses, rfl, found⟩
    | ack => exact pure_eq_ok.mpr ⟨rfl, found.2⟩
    | error text => exact reads_text.wrap_eq_ok.mpr ⟨text, rfl, found⟩

theorem variant_lt (message : Message) : variant message < Bytes.bound 4 := by
  unfold variant
  split <;> decide

theorem reads_message : Reads decodeMessage Fits encode := by
  intro bytes message rest
  simp only [decodeMessage, bind_eq_ok, reads_number 4 _ _ _, reads_fields]
  constructor
  · rintro ⟨_, _, ⟨_, rfl⟩, rfl, fits, rfl⟩
    exact ⟨fits, by rw [encode, List.append_assoc]⟩
  · rintro ⟨fits, rfl⟩
    exact ⟨_, _, ⟨variant_lt message, by rw [encode, List.append_assoc]⟩, rfl, fits, rfl⟩

/-- A byte string is a message exactly if the lengths of the message fit and the
    byte string begins with the message as it is written. -/
theorem decode_eq_ok_iff {message : Message} :
    decode bytes = .ok message ↔ Fits message ∧ encode message <+: bytes := by
  unfold decode
  constructor
  · intro decoded
    cases taken : decodeMessage bytes with
    | error fault => rw [taken] at decoded; cases decoded
    | ok both =>
      rw [taken] at decoded
      cases decoded
      obtain ⟨fits, split⟩ := (reads_message bytes both.1 both.2).mp taken
      exact ⟨fits, both.2, split.symm⟩
  · rintro ⟨fits, rest, rfl⟩
    rw [(reads_message _ message rest).mpr ⟨fits, rfl⟩]
    rfl

/-! ## Short messages -/

theorem length_le_encodeText (text : String) : (Bytes.ofText text).length < (encodeText text).length := by
  simp [encodeText, encodeLength]

theorem textsFit_of_length {texts : List String} (short : (texts.flatMap encodeText).length < Bytes.bound 8) :
    TextsFit texts := by
  have more : ∀ text ∈ texts, (encodeText text).length ≤ (texts.flatMap encodeText).length := by
    intro text listed
    obtain ⟨before, after, rfl⟩ := List.append_of_mem listed
    simp only [List.flatMap_append, List.flatMap_cons, List.length_append]
    omega
  have many : texts.length ≤ (texts.flatMap encodeText).length := by
    clear more short
    induction texts with
    | nil => exact Nat.le_refl 0
    | cons text rest ih =>
      have one := length_le_encodeText text
      simp only [List.flatMap_cons, List.length_append, List.length_cons]
      omega
  refine ⟨Nat.lt_of_le_of_lt many short, ?_⟩
  intro text listed
  have own := length_le_encodeText text
  have within := more text listed
  unfold TextFits
  omega

/-- The lengths within a message fit if the message is short. -/
theorem fits_of_length {message : Message} (short : (encode message).length < Bytes.bound 8) : Fits message := by
  have fields : (encodeFields message).length < Bytes.bound 8 := by
    rw [encode, List.length_append] at short
    omega
  have request : ∀ request, (encodeRequest request).length < Bytes.bound 8 → RequestFits request := by
    intro request short
    have group := length_le_encodeText request.group
    have key := length_le_encodeText request.key
    simp only [encodeRequest, List.length_append] at short
    unfold RequestFits TextFits
    omega
  cases message with
  | retrieve r => exact request r fields
  | retrieved value =>
    simp only [encodeFields, List.length_append] at fields
    exact Nat.lt_of_le_of_lt (Nat.le_add_left _ _) fields
  | delete r => exact request r fields
  | amend how addresses =>
    simp only [encodeFields, encodeTexts, List.length_append] at fields
    exact textsFit_of_length (Nat.lt_of_le_of_lt (Nat.le_add_left _ _) fields)
  | ack => trivial
  | error text => exact Nat.lt_trans (length_le_encodeText text) fields

/-- A short byte string is a message exactly if it begins with the message as it
    is written. So what is written is read back whatever follows it, and no
    message is written as the beginning of another. -/
theorem decode_eq_ok_iff_prefix :
    (∀ (bytes : Bytes) (message : Message), bytes.length < 2 ^ 64 →
      (decode bytes = .ok message ↔ encode message <+: bytes)) ∧
    (∀ message other : Message, (encode other).length < 2 ^ 64 → encode message <+: encode other →
      message = other) := by
  have eight : Bytes.bound 8 = 2 ^ 64 := rfl
  have iff : ∀ (bytes : Bytes) (message : Message), bytes.length < 2 ^ 64 →
      (decode bytes = .ok message ↔ encode message <+: bytes) := by
    intro bytes message short
    rw [decode_eq_ok_iff]
    refine ⟨And.right, fun begins => ⟨fits_of_length ?_, begins⟩⟩
    exact Nat.lt_of_le_of_lt begins.length_le short
  refine ⟨iff, ?_⟩
  intro message other short begins
  have first := (iff (encode other) message short).mpr begins
  have second := (iff (encode other) other short).mpr (List.prefix_refl _)
  rw [first] at second
  exact Except.ok.inj second

example : decode [6, 0, 0, 0, 255] = .ok .ack := rfl

end RingCache.Wire
