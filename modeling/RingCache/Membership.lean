import RingCache.Message
import RingCache.Peer
import RingCache.Settings

/-!
# Memberships

A membership is the ring of the members that could be dialed and the link to
each of them. A change of membership is drafted beside the current one: it goes
through the listed addresses one by one, keeps the links that stay, and waits
for the peers that have to be dialed (`Draft`).
-/
namespace RingCache

/-- The members on the ring, and the peer at each of their addresses. -/
structure Membership where
  ring : Ring
  links : Table String Peer

namespace Membership

/-- The membership of nobody. -/
def empty (settings : Settings) : Membership := ⟨settings.emptyRing, .empty⟩

/-- The membership with a peer. -/
def enlist (membership : Membership) (peer : Peer) : Membership :=
  ⟨membership.ring.add peer.address, membership.links.insert peer.address peer⟩

/-- The membership without an address. -/
def dismiss (membership : Membership) (address : String) : Membership :=
  if membership.ring.contains address then ⟨membership.ring.remove address, membership.links.erase address⟩
  else membership

/-- The peers of a membership that another one does not have at their address. -/
def stale (before after : Membership) : List Peer :=
  (before.links.entries.filter (fun entry => !after.links.contains entry.1)).map Prod.snd

/-- The peer that owns a key, for the member at an address; none if nobody does,
    or that member itself. -/
def owner (membership : Membership) (selfAddress key : String) : Option Peer :=
  match membership.ring.owner key with
  | none => none
  | some address => if address = selfAddress then none else membership.links.find? address

/-- All peers, by address. -/
def peers (membership : Membership) : List Peer :=
  membership.links.values

end Membership

/-- How a membership is to change. -/
inductive Change where
  | amend (how : Amendment) (addresses : List String)
  /-- Nobody stays. -/
  | clear
deriving DecidableEq, Repr

/-- A membership in the making, with the peers that it may take over and the
    addresses that it still has to go through. -/
structure Draft where
  next : Membership
  retained : Table String Peer
  pending : List String

namespace Draft

/-- The draft that a change of a membership begins with. Removing needs no peer,
    so all of it is done at once. -/
def begin (settings : Settings) (current : Membership) : Change → Draft
  | .clear => ⟨.empty settings, .empty, []⟩
  | .amend .replace addresses => ⟨.empty settings, current.links, addresses⟩
  | .amend .add addresses => ⟨current, .empty, addresses⟩
  | .amend .remove addresses => ⟨addresses.foldl Membership.dismiss current, .empty, []⟩

/-- The draft with a peer. -/
def enlist (draft : Draft) (peer : Peer) : Draft :=
  { draft with next := draft.next.enlist peer }

/-- What a draft makes of an address: it has it already, it takes a peer over,
    or it has to be dialed. -/
inductive Finding where
  | settled (draft : Draft)
  | unknown

/-- Looks an address up in a draft. -/
def consider (draft : Draft) (address : String) : Finding :=
  if draft.next.ring.contains address then .settled draft
  else match draft.retained.find? address with
    | some peer => .settled (draft.enlist peer)
    | none => .unknown

end Draft

end RingCache
