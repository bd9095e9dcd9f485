import RingCache.Bytes

/-!
# Messages between members

A member asks another to retrieve or to delete a key, or to amend its
membership; the answer is a value, an acknowledgement or the text of a failure.
-/
namespace RingCache

/-- A request for one key of one group. The budget is the time that the caller
    is still willing to wait, in milliseconds. -/
structure KeyRequest where
  group : String
  key : String
  budget : Option UInt64
deriving DecidableEq, Repr

/-- How a list of addresses changes a membership. -/
inductive Amendment where
  | add
  | remove
  | replace
deriving DecidableEq, Repr

/-- The name of an amendment, which is also the subject of its failures. -/
def Amendment.name : Amendment → String
  | .add => "add_peers"
  | .remove => "remove_peers"
  | .replace => "set_peers"

/-- What one member sends to another. -/
inductive Message where
  | retrieve (request : KeyRequest)
  | retrieved (value : Bytes)
  | delete (request : KeyRequest)
  | amend (how : Amendment) (addresses : List String)
  | ack
  | error (text : String)
deriving DecidableEq, Repr

/-- The name of a message's kind. -/
def Message.kind : Message → String
  | .retrieve _ => "retrieve"
  | .retrieved _ => "retrieve_response"
  | .delete _ => "delete"
  | .amend how _ => how.name
  | .ack => "ack"
  | .error _ => "error"

end RingCache
