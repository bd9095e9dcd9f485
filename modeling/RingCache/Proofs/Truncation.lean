import RingCache.Proofs.Layout

/-!
# Bytes that end too early

Reading may fail because the bytes end too early, and then more bytes may change what comes of
it. Nothing else changes with what follows: a decoder that took a value takes the same value
off a longer byte string, and one that met any other fault meets the same fault there
(`Settles`). Each step of a decoder settles what it says, since it looks only at bytes that it
takes, and decoders are built of such steps. So the beginning of a message that was cut off is
never taken for a message, nor for a fault other than its early end (`decode_settles`).
-/
namespace RingCache.Wire

variable {α β : Type} {bytes rest : Bytes}

/-- Whether a fault says that the bytes end too early. These are the faults that are told as
    io errors. -/
def Fault.endsEarly : Fault → Bool
  | .cutShort | .textCutShort => true
  | .notUtf8 _ | .optionTag _ | .variant _ => false

/-- What a decoder says stands whatever bytes follow, unless it is that the bytes end too
    early. -/
structure Settles (decoder : Decoder α) : Prop where
  ok : ∀ {bytes a rest}, decoder bytes = .ok (a, rest) →
    ∀ more, decoder (bytes ++ more) = .ok (a, rest ++ more)
  error : ∀ {bytes fault}, decoder bytes = .error fault → fault.endsEarly = false →
    ∀ more, decoder (bytes ++ more) = .error fault

/-! ## Steps -/

theorem bind_eq_error {first : Decoder α} {next : α → Decoder β} {fault : Fault} :
    (first >>= next) bytes = .error fault ↔
      first bytes = .error fault ∨ ∃ a middle, first bytes = .ok (a, middle) ∧ next a middle = .error fault := by
  change Except.bind (first bytes) (fun taken => next taken.1 taken.2) = _ ↔ _
  cases first bytes with
  | error found => simp [Except.bind]
  | ok taken => simp [Except.bind, Prod.ext_iff, and_assoc]

theorem settles_pure (a : α) : Settles (pure a : Decoder α) where
  ok taken more := by
    obtain ⟨rfl, rfl⟩ := pure_eq_ok.mp taken
    rfl
  error failed := by cases failed

theorem settles_throw (fault : Fault) : Settles (throw fault : Decoder α) where
  ok taken := absurd taken throw_ne_ok
  error failed _ more := by
    cases failed
    rfl

/-- A decoder that goes on with a decoder settles what both settle. -/
theorem Settles.bind {first : Decoder α} {next : α → Decoder β} (begins : Settles first)
    (goes_on : ∀ a, Settles (next a)) : Settles (first >>= next) where
  ok taken more := by
    obtain ⟨a, middle, head, tail⟩ := bind_eq_ok.mp taken
    exact bind_eq_ok.mpr ⟨a, middle ++ more, begins.ok head more, (goes_on a).ok tail more⟩
  error failed late more := by
    apply bind_eq_error.mpr
    obtain head | ⟨a, middle, head, tail⟩ := bind_eq_error.mp failed
    · exact .inl (begins.error head late more)
    · exact .inr ⟨a, middle ++ more, begins.ok head more, (goes_on a).error tail late more⟩

/-- A decoder that changes what it took settles what it settles before. -/
theorem Settles.wrap {decoder : Decoder α} (settles : Settles decoder) (wrap : α → β) :
    Settles (decoder >>= fun a => pure (wrap a)) :=
  settles.bind (fun a => settles_pure (wrap a))

/-- Taking bytes fails only because the bytes end too early. -/
theorem settles_takeBytes (n : Nat) {short : Fault} (early : short.endsEarly = true) :
    Settles (takeBytes n short) where
  ok taken more := by
    obtain ⟨counted, rfl⟩ := takeBytes_eq_ok.mp taken
    exact takeBytes_eq_ok.mpr ⟨counted, by rw [List.append_assoc]⟩
  error failed late := by
    unfold takeBytes at failed
    split at failed
    · cases failed
    · cases failed
      rw [early] at late
      cases late

/-! ## Fields -/

theorem settles_number (n : Nat) : Settles (decodeNumber n) :=
  (settles_takeBytes n rfl).wrap Bytes.ofLittle

/-- The length of a text is checked before its bytes are, so that a text which was cut off is
    not taken for one that is no UTF-8. -/
theorem settles_text : Settles decodeText := by
  apply (settles_number 8).bind
  intro length
  apply (settles_takeBytes length rfl).bind
  intro taken
  cases Utf8.decode taken with
  | ok text => exact settles_pure text
  | error fault => exact settles_throw (.notUtf8 fault)

theorem settles_many (n : Nat) : Settles (decodeMany n) := by
  induction n with
  | zero => exact settles_pure []
  | succ n ih => exact settles_text.bind (fun text => ih.wrap (text :: ·))

theorem settles_texts : Settles decodeTexts :=
  (settles_number 8).bind settles_many

theorem settles_value : Settles decodeValue :=
  (settles_number 8).bind (fun length => settles_takeBytes length rfl)

theorem settles_budget : Settles decodeBudget := by
  apply (settles_takeBytes 1 rfl).bind
  intro tag
  split
  · exact settles_pure none
  · exact (settles_number 8).wrap (fun budget => some (UInt64.ofNat budget))
  · exact settles_throw _

theorem settles_request : Settles decodeRequest :=
  settles_text.bind fun group => settles_text.bind fun key =>
    settles_budget.wrap (fun budget => KeyRequest.mk group key budget)

/-! ## Messages -/

theorem settles_fields (number : Nat) : Settles (decodeFields number) := by
  unfold decodeFields
  split
  · exact settles_request.wrap Message.retrieve
  · exact settles_value.wrap Message.retrieved
  · exact settles_request.wrap Message.delete
  · exact settles_texts.wrap (Message.amend .add)
  · exact settles_texts.wrap (Message.amend .remove)
  · exact settles_texts.wrap (Message.amend .replace)
  · exact settles_pure Message.ack
  · exact settles_text.wrap Message.error
  · exact settles_throw _

theorem settles_message : Settles decodeMessage :=
  (settles_number 4).bind settles_fields

theorem decode_append_of_ok {message : Message} (decoded : decode bytes = .ok message) (more : Bytes) :
    decode (bytes ++ more) = .ok message := by
  unfold decode at decoded ⊢
  cases taken : decodeMessage bytes with
  | error fault =>
    rw [taken] at decoded
    cases decoded
  | ok both =>
    rw [taken] at decoded
    rw [settles_message.ok taken more]
    exact decoded

theorem decode_append_of_error {fault : Fault} (failed : decode bytes = .error fault)
    (late : fault.endsEarly = false) (more : Bytes) : decode (bytes ++ more) = .error fault := by
  unfold decode at failed ⊢
  cases taken : decodeMessage bytes with
  | error found =>
    rw [taken] at failed
    cases failed
    rw [settles_message.error taken late more]
    rfl
  | ok both =>
    rw [taken] at failed
    cases failed

/-- What was written for a message and then cut off ends too early for its reader. -/
theorem exists_decode_of_cut {message : Message} (fits : Fits message) (begins : bytes <+: encode message)
    (cut : bytes ≠ encode message) : ∃ fault, decode bytes = .error fault ∧ fault.endsEarly = true := by
  obtain ⟨missing, whole⟩ := begins
  have read : decode (bytes ++ missing) = .ok message := by
    rw [whole]
    exact decode_eq_ok_iff.mpr ⟨fits, List.prefix_refl _⟩
  cases said : decode bytes with
  | ok other =>
    -- The same message would be read off the whole, but it is longer than what was read.
    have same : other = message := by
      rw [decode_append_of_ok said missing] at read
      exact Except.ok.inj read
    obtain ⟨_, own⟩ := decode_eq_ok_iff.mp said
    rw [same] at own
    have begins : bytes <+: encode message := ⟨missing, whole⟩
    exact absurd (begins.eq_of_length_le own.length_le) cut
  | error fault =>
    refine ⟨fault, rfl, ?_⟩
    cases early : fault.endsEarly with
    | true => rfl
    | false =>
      rw [decode_append_of_error said early missing] at read
      cases read

/-- What is read off a byte string is read off every longer one, a message as well as a fault
    other than an early end. And of what is written for a message, each part that was cut off
    ends too early: it is neither a message nor another fault. -/
theorem decode_settles :
    (∀ (bytes more : Bytes) (message : Message), decode bytes = .ok message →
      decode (bytes ++ more) = .ok message) ∧
    (∀ (bytes more : Bytes) (fault : Fault), decode bytes = .error fault → fault.endsEarly = false →
      decode (bytes ++ more) = .error fault) ∧
    (∀ (message : Message) (bytes : Bytes), (encode message).length < 2 ^ 64 → bytes <+: encode message →
      bytes ≠ encode message → ∃ fault, decode bytes = .error fault ∧ fault.endsEarly = true) := by
  refine ⟨?_, ?_, ?_⟩
  · intro bytes more message decoded
    exact decode_append_of_ok decoded more
  · intro bytes more fault failed late
    exact decode_append_of_error failed late more
  · intro message bytes short begins cut
    exact exists_decode_of_cut (fits_of_length short) begins cut

end RingCache.Wire
