import RingCache.Bytes
import RingCache.Table

/-!
# The store of a group

A store keeps values by key. An entry weighs the bytes of its key and its value.
One that is heavier than the capacity is turned away if its key is new. If its
key has a value, it takes the place of that value first, and then the entries
give way one by one, the newest last, until the store is light enough: so none
is left. A store of capacity zero keeps nothing. Which of several entries goes
when each fits but not all together is not settled here: every entry is weighed
by itself.
-/
namespace RingCache

/-- Values by key, and the weight that an entry may have. -/
structure Store where
  capacity : Nat
  entries : Table String Bytes
deriving DecidableEq

namespace Store

/-- The store without entries. -/
def empty (capacity : Nat) : Store where
  capacity
  entries := .empty

/-- The weight of an entry, which counts up to 32 bits. -/
def weight (key : String) (value : Bytes) : Nat :=
  min ((Bytes.ofText key).length + value.length) (Bytes.bound 4 - 1)

/-- Whether a store can keep an entry. -/
def fits (store : Store) (key : String) (value : Bytes) : Bool :=
  0 < store.capacity ∧ weight key value ≤ store.capacity

/-- The value of a key. -/
def find? (store : Store) (key : String) : Option Bytes :=
  store.entries.find? key

/-- Whether a key has a value. -/
def contains (store : Store) (key : String) : Bool :=
  store.entries.contains key

/-- The store after a key was given a value. -/
def insert (store : Store) (key : String) (value : Bytes) : Store :=
  { store with
    entries :=
      if store.fits key value then store.entries.insert key value
      else if store.contains key then .empty
      else store.entries }

/-- The store after a key was dropped. -/
def invalidate (store : Store) (key : String) : Store :=
  { store with entries := store.entries.erase key }

/-- The number of entries. -/
def entryCount (store : Store) : Nat :=
  store.entries.size

/-- A store as text. -/
def describe (store : Store) : String :=
  "GroupStorage \x7b entry_count: " ++ toString store.entryCount ++ " \x7d"

end Store

end RingCache
