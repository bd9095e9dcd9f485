import RingCache.Message
import RingCache.Utf8

/-!
# The binary layout of messages

A message is a variant number in four bytes and then its fields. Numbers are
little-endian. A length, and a budget, takes eight bytes; a text is its length
and its UTF-8 bytes; a list is its length and its elements; an optional field is
a tag, 0 or 1, and then the field if the tag is 1. `decode` reads the fields in
order, reports the first that is wrong (`Fault`), and leaves alone what follows
the message.
-/
namespace RingCache.Wire

/-- Why bytes are not a message. -/
inductive Fault where
  /-- The bytes end inside a number, a tag or a value. -/
  | cutShort
  /-- Fewer bytes are left than the length of a text announces. -/
  | textCutShort
  | notUtf8 (fault : Utf8.Fault)
  | optionTag (tag : UInt8)
  | variant (number : Nat)
deriving DecidableEq, Repr

/-- The text of a fault. -/
def Fault.message : Fault → String
  | .cutShort => "io error: unexpected end of file"
  | .textCutShort => "io error: "
  | .notUtf8 fault => "string is not valid utf8: " ++ fault.message
  | .optionTag tag => "tag for enum is not valid, found " ++ toString tag.toNat
  | .variant number =>
    "invalid value: integer `" ++ toString number ++ "`, expected variant index 0 <= i < 8"

/-! ## Writing -/

/-- A length in eight bytes. -/
def encodeLength (n : Nat) : Bytes :=
  Bytes.little 8 n

/-- A text: its length and its octets. -/
def encodeText (text : String) : Bytes :=
  encodeLength (Bytes.ofText text).length ++ Bytes.ofText text

/-- A list of texts: its length and its elements. -/
def encodeTexts (texts : List String) : Bytes :=
  encodeLength texts.length ++ texts.flatMap encodeText

/-- An optional number: a tag, and the number in eight bytes if there is one. -/
def encodeBudget : Option UInt64 → Bytes
  | none => [0]
  | some budget => 1 :: Bytes.little 8 budget.toNat

def encodeRequest (request : KeyRequest) : Bytes :=
  encodeText request.group ++ encodeText request.key ++ encodeBudget request.budget

/-- The variant number of a message. -/
def variant : Message → Nat
  | .retrieve _ => 0
  | .retrieved _ => 1
  | .delete _ => 2
  | .amend .add _ => 3
  | .amend .remove _ => 4
  | .amend .replace _ => 5
  | .ack => 6
  | .error _ => 7

/-- The fields of a message. -/
def encodeFields : Message → Bytes
  | .retrieve request => encodeRequest request
  | .retrieved value => encodeLength value.length ++ value
  | .delete request => encodeRequest request
  | .amend _ addresses => encodeTexts addresses
  | .ack => []
  | .error text => encodeText text

/-- The bytes of a message. -/
def encode (message : Message) : Bytes :=
  Bytes.little 4 (variant message) ++ encodeFields message

/-! ## Reading -/

/-- Reads a value from the front of a byte string. -/
abbrev Decoder := StateT Bytes (Except Fault)

/-- Takes `n` bytes, or reports a fault if fewer are left. -/
def takeBytes (n : Nat) (short : Fault) : Decoder Bytes := fun bytes =>
  if n ≤ bytes.length then .ok (bytes.take n, bytes.drop n) else .error short

/-- A number in `n` bytes. -/
def decodeNumber (n : Nat) : Decoder Nat := do
  let bytes ← takeBytes n .cutShort
  return Bytes.ofLittle bytes

def decodeText : Decoder String := do
  let length ← decodeNumber 8
  let bytes ← takeBytes length .textCutShort
  match Utf8.decode bytes with
  | .ok text => return text
  | .error fault => throw (.notUtf8 fault)

/-- The next `n` texts. -/
def decodeMany : Nat → Decoder (List String)
  | 0 => return []
  | n + 1 => do
    let text ← decodeText
    let rest ← decodeMany n
    return text :: rest

def decodeTexts : Decoder (List String) := do
  let length ← decodeNumber 8
  decodeMany length

/-- A value of bytes: its length and as many bytes. -/
def decodeValue : Decoder Bytes := do
  let length ← decodeNumber 8
  takeBytes length .cutShort

def decodeBudget : Decoder (Option UInt64) := do
  let tag ← takeBytes 1 .cutShort
  match tag with
  | [0] => return none
  | [1] => do
    let budget ← decodeNumber 8
    return some (UInt64.ofNat budget)
  | other => throw (.optionTag (other.headD 0))

def decodeRequest : Decoder KeyRequest := do
  let group ← decodeText
  let key ← decodeText
  let budget ← decodeBudget
  return { group, key, budget }

/-- The fields of the message with a variant number. -/
def decodeFields (number : Nat) : Decoder Message :=
  match number with
  | 0 => return .retrieve (← decodeRequest)
  | 1 => return .retrieved (← decodeValue)
  | 2 => return .delete (← decodeRequest)
  | 3 => return .amend .add (← decodeTexts)
  | 4 => return .amend .remove (← decodeTexts)
  | 5 => return .amend .replace (← decodeTexts)
  | 6 => return .ack
  | 7 => return .error (← decodeText)
  | other => throw (.variant other)

def decodeMessage : Decoder Message := do
  let number ← decodeNumber 4
  decodeFields number

/-- The message that a byte string begins with, or why there is none. -/
def decode (bytes : Bytes) : Except Fault Message :=
  (decodeMessage bytes).map Prod.fst

end RingCache.Wire
