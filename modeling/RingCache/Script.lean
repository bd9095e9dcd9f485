import RingCache.Bytes
import RingCache.Deadline
import RingCache.Table

/-!
# Scripts

A script says beforehand what a loader or a peer will answer: for each key, a
list of outcomes, one for each call with that key, the last for all further
calls. A `Loader` is anything that answers by the key and by how often it was
asked for it.
-/
namespace RingCache

/-- What a call comes to. -/
inductive Answer where
  | fails (failure : Failure)
  | value (bytes : Bytes)
  /-- A text followed by the key. -/
  | echo (stem : String)
deriving DecidableEq, Repr

/-- What an answer is for a key. -/
def Answer.result (answer : Answer) (key : String) : Except Failure Bytes :=
  match answer with
  | .fails failure => .error failure
  | .value bytes => .ok bytes
  | .echo stem => .ok (Bytes.ofText (stem ++ key))

/-- What a call comes to, and how long it sleeps before, if it does. -/
structure Outcome where
  delay : Option Time
  answer : Answer
deriving DecidableEq, Repr

/-- The work of an outcome that begins now, for a key. -/
def Outcome.work (outcome : Outcome) (now : Time) (key : String) : Work (Except Failure Bytes) :=
  match outcome.delay with
  | none => .ready (outcome.answer.result key)
  | some span => .sleep now span (outcome.answer.result key)

/-- Outcomes for some keys, and for all the others. -/
structure Script where
  standard : List Outcome
  byKey : Table String (List Outcome)

/-- The outcome of the `n`th call with a key, counted from 0. -/
def Script.outcome (script : Script) (key : String) (n : Nat) : Outcome :=
  let outcomes := (script.byKey.find? key).getD script.standard
  outcomes[min n (outcomes.length - 1)]?.getD ⟨none, .value []⟩

/-- What answers by the key and by how often it was asked for it, at the time of
    the call, and how often that was so far. -/
structure Loader where
  work : Time → (key : String) → (n : Nat) → Work (Except Failure Bytes)
  asked : Table String Nat

namespace Loader

/-- A loader that was not asked yet and follows a script. -/
def follow (script : Script) : Loader where
  work now key n := (script.outcome key n).work now key
  asked := .empty

/-- Asks for a key. -/
def ask (loader : Loader) (now : Time) (key : String) : Loader × Work (Except Failure Bytes) :=
  let n := (loader.asked.find? key).getD 0
  ({ loader with asked := loader.asked.insert key (n + 1) }, loader.work now key n)

end Loader

end RingCache
