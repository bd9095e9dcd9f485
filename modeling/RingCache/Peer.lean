/-!
# Peers

What a group and a membership know of another member. Two links to one address
are two peers, so that a link that was kept is told from one that was dialed
anew.
-/
namespace RingCache

/-- A peer: the address that it is reached under, and which link to it this is. -/
structure Peer where
  address : String
  id : Nat
deriving DecidableEq, Repr

end RingCache
