/-!
# Locks

A lock serves its waiters in the order in which they came. Releasing it hands it
to the first of them at once, so while somebody waits a lock is never free; a
waiter that goes away after the lock was handed to it hands it on.
-/
namespace RingCache

/-- Names one of the parties that share something. -/
abbrev PartyId := Nat

/-- Who holds a lock, and who waits for it. -/
structure Lock where
  holder : Option PartyId
  queue : List PartyId
deriving DecidableEq, Repr

namespace Lock

/-- The lock that nobody holds. -/
def free : Lock := ⟨none, []⟩

/-- Whether nobody holds the lock. -/
def isFree (lock : Lock) : Bool :=
  lock.holder.isNone

/-- Whether a party holds the lock. -/
def heldBy (lock : Lock) (party : PartyId) : Bool :=
  lock.holder == some party

/-- A party asks for the lock: it holds it if it is free, and else waits. -/
def request (lock : Lock) (party : PartyId) : Lock :=
  match lock.holder with
  | none => { lock with holder := some party }
  | some _ => { lock with queue := lock.queue ++ [party] }

/-- The holder lets go, and the first waiter holds the lock. -/
def release (lock : Lock) : Lock :=
  match lock.queue with
  | [] => free
  | next :: rest => ⟨some next, rest⟩

/-- A party goes away, from the lock or from the queue. -/
def withdraw (lock : Lock) (party : PartyId) : Lock :=
  if lock.heldBy party then lock.release else { lock with queue := lock.queue.erase party }

theorem holder_request {lock : Lock} {holder : PartyId} (held : lock.holder = some holder) (party : PartyId) :
    (lock.request party).holder = some holder := by
  rw [request, held]

theorem holder_withdraw {lock : Lock} {holder party : PartyId} (held : lock.holder = some holder)
    (apart : holder ≠ party) : (lock.withdraw party).holder = some holder := by
  have free : lock.heldBy party = false := by simp [heldBy, held, apart]
  rw [withdraw, free]
  exact held

end Lock

end RingCache
