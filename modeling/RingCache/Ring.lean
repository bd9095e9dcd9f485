import RingCache.Digest.XxHash64
import RingCache.Table

/-!
# The ring of members

Every member stands on the ring at `replicas` positions, the hashes of its
labels. A key belongs to the first position at or after its hash, going round,
and of several members at one position to the one with the least address, so
ownership does not depend on the order in which members came.
-/
namespace RingCache

/-- A placement of byte strings on the ring. -/
abbrev HashFunction := Bytes → UInt64

/-- The placement used unless another is chosen: xxHash64 with seed 0. -/
def defaultHash : HashFunction :=
  Digest.XxHash64.digest 0

/-- Members on a ring. `nodes` are the members; `slots` lists the members that
    stand at each occupied position. -/
structure Ring where
  hash : HashFunction
  replicas : Nat
  nodes : Roster
  slots : Table UInt64 Roster

namespace Ring

/-- The ring without members; each member will stand at one position at least. -/
def empty (replicas : Nat) (hash : HashFunction) : Ring where
  hash
  replicas := max replicas 1
  nodes := .empty
  slots := .empty

/-- The text whose hash is the `i`th position of a member. -/
def label (address : String) (i : Nat) : String :=
  address ++ ":" ++ toString i

/-- The positions of a member, one for each replica. -/
def positions (ring : Ring) (address : String) : List UInt64 :=
  (List.range ring.replicas).map (fun i => ring.hash (Bytes.ofText (label address i)))

/-- The slots with a member at a position. -/
def settle (address : String) (slots : Table UInt64 Roster) (position : UInt64) : Table UInt64 Roster :=
  slots.insert position (((slots.find? position).getD .empty).add address)

/-- The slots without a member at a position; a slot that is left empty goes. -/
def unsettle (address : String) (slots : Table UInt64 Roster) (position : UInt64) : Table UInt64 Roster :=
  match slots.find? position with
  | none => slots
  | some slot =>
    let left := slot.erase address
    if left.isEmpty then slots.erase position else slots.insert position left

/-- Whether an address is a member. -/
def contains (ring : Ring) (address : String) : Bool :=
  ring.nodes.contains address

/-- Whether there are no members. -/
def isEmpty (ring : Ring) : Bool :=
  ring.nodes.isEmpty

/-- The addresses of the members, ascending. -/
def members (ring : Ring) : List String :=
  ring.nodes.names

/-- The ring with a member, which may be one already. -/
def add (ring : Ring) (address : String) : Ring :=
  if ring.contains address then ring
  else { ring with
    nodes := ring.nodes.add address
    slots := (ring.positions address).foldl (settle address) ring.slots }

/-- The ring with several members more. -/
def addAll (ring : Ring) (addresses : List String) : Ring :=
  addresses.foldl add ring

/-- The ring without a member, which may be none. -/
def remove (ring : Ring) (address : String) : Ring :=
  if ring.contains address then
    { ring with
      nodes := ring.nodes.erase address
      slots := (ring.positions address).foldl (unsettle address) ring.slots }
  else ring

/-- The member that owns a position: the least at the first occupied position
    that is not below it, or else at the first of all. -/
def ownerAt (ring : Ring) (position : UInt64) : Option String :=
  ((ring.slots.ceiling? position).or ring.slots.first?).bind (fun slot => slot.2.first?.map Prod.fst)

/-- The member that owns a key. -/
def owner (ring : Ring) (key : String) : Option String :=
  ring.ownerAt (ring.hash (Bytes.ofText key))

/-- How many of the keys each member owns, for the members that own one. -/
def distribution (ring : Ring) (keys : List String) : Table String Nat :=
  keys.foldl (fun counts key =>
    match ring.owner key with
    | some address => counts.insert address ((counts.find? address).getD 0 + 1)
    | none => counts) .empty

/-- The keys that two rings give to different owners. -/
def moved (before after : Ring) (keys : List String) : List String :=
  keys.filter (fun key => before.owner key != after.owner key)

/-- The `n` texts that begin with `stem` and go on with 0, 1, …. -/
def numbered (stem : String) (n : Nat) : List String :=
  (List.range n).map (fun i => stem ++ toString i)

/-! ## The ring of a set of members -/

/-- Whether one of a member's first `replicas` labels hashes to a position. -/
def standsAt (hash : HashFunction) (replicas : Nat) (address : String) (position : UInt64) : Bool :=
  (List.range replicas).any (fun i => hash (Bytes.ofText (label address i)) == position)

/-- The roster of a list of names. -/
def rosterOf (names : List String) : Roster :=
  names.foldl Roster.add .empty

/-- The ring whose members are exactly the listed ones, position by position:
    at each position that some member takes stand all the members that take it. -/
def ofMembers (replicas : Nat) (hash : HashFunction) (addresses : List String) : Ring :=
  let count := max replicas 1
  let taken := addresses.flatMap (fun a => (List.range count).map (fun i => hash (Bytes.ofText (label a i))))
  { hash
    replicas := count
    nodes := rosterOf addresses
    slots := taken.foldl (fun slots position =>
      slots.insert position (rosterOf (addresses.filter (fun a => standsAt hash count a position)))) .empty }

end Ring

end RingCache
