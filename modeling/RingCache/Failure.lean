/-!
# Failures

What can go wrong with a call, and the text that says so. A failure crosses the
network as its text (`Failure.message`), so a remote failure carries a text and
not another failure.
-/
namespace RingCache

/-- What can go wrong between two members. -/
inductive NetworkFault where
  | connectionFailed (address reason : String)
  | connectionClosed
  | sendFailed (reason : String)
  | receiveFailed (reason : String)
  | unexpectedResponse (kind : String)
  | serialization (reason : String)
  | io (reason : String)
deriving DecidableEq, Repr

/-- What can go wrong with a call. The subject of a `remote` failure is the key
    asked for, or the name of an amendment. -/
inductive Failure where
  | config (reason : String)
  | network (fault : NetworkFault)
  | groupNotFound (name : String)
  | remote (peer subject reason : String)
  | load (key reason : String)
  | timeout
  | internal (reason : String)
deriving DecidableEq, Repr

/-- The text of a network fault, without the words that mark it as one. -/
def NetworkFault.message : NetworkFault → String
  | .connectionFailed address reason => "connection failed to " ++ address ++ ": " ++ reason
  | .connectionClosed => "connection closed"
  | .sendFailed reason => "send failed: " ++ reason
  | .receiveFailed reason => "receive failed: " ++ reason
  | .unexpectedResponse kind => "unexpected response: " ++ kind
  | .serialization reason => "serialization error: " ++ reason
  | .io reason => "io error: " ++ reason

namespace Failure

/-- The text of a failure. -/
def message : Failure → String
  | .config reason => "config error: " ++ reason
  | .network fault => "network error: " ++ fault.message
  | .groupNotFound name => "unable to find group [" ++ name ++ "]"
  | .remote peer subject reason => "remote call to [" ++ peer ++ "] for [" ++ subject ++ "] failed: " ++ reason
  | .load key reason => "failed to load key [" ++ key ++ "]: " ++ reason
  | .timeout => "operation timed out"
  | .internal reason => "internal error: " ++ reason

/-- Whether a failure is a dial that did not succeed. -/
def isConnectionFailure : Failure → Bool
  | .network (.connectionFailed _ _) => true
  | _ => false

/-- The failure of a frame that announces more bytes than are accepted. -/
def tooLarge (length : Nat) : Failure :=
  .network (.receiveFailed ("message too large: " ++ toString length ++ " bytes"))

end Failure

end RingCache
