import RingCache.Proofs.Agreement
import RingCache.Proofs.Calls

/-!
# Members in concord

Members with the same membership agree on the owner of every key. The others ask it,
on links that lead to it (`Cluster.Concord.exists_pick`), and everybody is linked to
everybody (`Cluster.Concord.exists_who`).
-/
namespace RingCache
namespace Cluster

/-- Members with the same membership and the same kind of ring, each of them in it
    under an address of its own. Each link of a pool leads to the member at its
    address. All have a group of a name, in which nothing is stored. -/
structure Concord (c : Cluster) (name : String) (S : Set String) (histories : MemberId → History) : Prop where
  pools : ∀ id < c.members.length, c.pool? id = some (histories id).pool
  alike : ∀ id < c.members.length, ∀ other < c.members.length,
    (histories id).settings.normalized.replicas = (histories other).settings.normalized.replicas ∧
      (histories id).settings.hash = (histories other).settings.hash
  same : ∀ id < c.members.length, {address | address ∈ (histories id).pool.members} = S
  among : ∀ id < c.members.length, (histories id).selfAddress ∈ S
  distinct : ∀ id < c.members.length, ∀ other < c.members.length,
    (histories id).selfAddress = (histories other).selfAddress → id = other
  linked : ∀ id < c.members.length, ∀ address peer,
    (histories id).pool.membership.links.find? address = some peer → ∃ other requests replies,
      other < c.members.length ∧ (histories other).selfAddress = address ∧ c.Leads peer.id other requests replies
  groups : ∀ id < c.members.length, ∃ holding, c.holding? id name = some holding ∧ holding.group.name = name ∧
    holding.group.store.entries = .empty

variable {c : Cluster} {name key : String} {S : Set String} {histories : MemberId → History} {id owner : MemberId}

/-- The owner of a key on the ring of every member. -/
def Owns (c : Cluster) (histories : MemberId → History) (owner : MemberId) (key : String) : Prop :=
  owner < c.members.length ∧
    ∀ id < c.members.length, (histories id).pool.membership.ring.owner key = some (histories owner).selfAddress

theorem Concord.mem_members (concord : c.Concord name S histories) (known : id < c.members.length) {address : String} :
    address ∈ (histories id).pool.members ↔ address ∈ S := by
  rw [← concord.same id known]
  rfl

/-- Every member is linked to every member, in the pool of each. -/
theorem Concord.exists_link (concord : c.Concord name S histories) (known : id < c.members.length) {other : MemberId}
    (also : other < c.members.length) :
    ∃ peer, (histories id).pool.membership.links.find? (histories other).selfAddress = some peer ∧
      peer.address = (histories other).selfAddress := by
  have member : (histories other).selfAddress ∈ (histories id).pool.members :=
    (concord.mem_members known).mpr (concord.among other also)
  have sound := (histories id).sound
  rw [Pool.members, ← sound.keys_eq, Table.mem_keys_iff] at member
  obtain ⟨peer, found⟩ := Table.contains_iff_exists.mp member
  exact ⟨peer, found, sound.address_eq _ _ found⟩

theorem Concord.exists_owns (concord : c.Concord name S histories) (inhabited : 0 < c.members.length) (key : String) :
    ∃ owner, c.Owns histories owner key := by
  have some_member : {address | address ∈ (histories 0).pool.members}.Nonempty :=
    ⟨(histories 0).selfAddress, (concord.mem_members inhabited).mpr (concord.among 0 inhabited)⟩
  obtain ⟨address, _, owns⟩ := (histories 0).exists_owner key some_member
  obtain ⟨peer, found, _⟩ := (histories 0).sound.exists_link owns
  obtain ⟨owner, _, _, known, rfl, _⟩ := concord.linked 0 inhabited address peer found
  refine ⟨owner, known, ?_⟩
  intro id also
  rw [History.ring_eq (concord.alike id also 0 inhabited)
    ((concord.same id also).trans (concord.same 0 inhabited).symm)]
  exact owns

theorem Concord.pick (concord : c.Concord name S histories) (known : id < c.members.length) (key : String) :
    c.pick id key = (histories id).pool.pick key := by
  rw [Cluster.pick, concord.pools id known]
  rfl

theorem Concord.pick_owner (concord : c.Concord name S histories) (owns : c.Owns histories owner key) :
    c.pick owner key = none := by
  rw [concord.pick owns.1]
  exact ((histories owner).pick_of_owner (owns.2 owner owns.1)).1 rfl

theorem Concord.mem_peersOf (concord : c.Concord name S histories) (known : id < c.members.length) {peer : Peer} :
    peer ∈ c.peersOf id ↔ ∃ address, (histories id).pool.membership.links.find? address = some peer := by
  rw [← Membership.mem_peers_iff, Cluster.peersOf, concord.pools id known]
  rfl

/-- A member that does not own a key asks its owner. -/
theorem Concord.exists_pick (concord : c.Concord name S histories) (owns : c.Owns histories owner key)
    (known : id < c.members.length) (apart : id ≠ owner) :
    ∃ peer requests replies, c.pick id key = some peer ∧ peer ∈ c.peersOf id ∧
      c.Leads peer.id owner requests replies := by
  obtain ⟨_, asks⟩ := (histories id).pick_of_owner (owns.2 id known)
  obtain ⟨peer, found, _, picked⟩ := asks (fun same => apart (concord.distinct id known owner owns.1 same))
  obtain ⟨other, requests, replies, also, same, leads⟩ := concord.linked id known _ peer found
  obtain rfl := concord.distinct other also owner owns.1 same
  exact ⟨peer, requests, replies, (concord.pick known key).trans picked, (concord.mem_peersOf known).mpr ⟨_, found⟩,
    leads⟩

/-- The peers of a member lead to all members. -/
theorem Concord.exists_who (concord : c.Concord name S histories) (known : id < c.members.length) :
    ∃ who : Peer → MemberId, (∀ peer ∈ c.peersOf id, who peer < c.members.length ∧
        ∃ requests replies, c.Leads peer.id (who peer) requests replies) ∧
      ∀ other < c.members.length, other ∈ (c.peersOf id).map who := by
  have leads : ∀ peer : Peer, ∃ other, peer ∈ c.peersOf id → other < c.members.length ∧
      (histories other).selfAddress = peer.address ∧ ∃ requests replies, c.Leads peer.id other requests replies := by
    intro peer
    by_cases listed : peer ∈ c.peersOf id
    · obtain ⟨address, found⟩ := (concord.mem_peersOf known).mp listed
      obtain ⟨other, requests, replies, also, same, leads⟩ := concord.linked id known address peer found
      rw [← (histories id).sound.address_eq address peer found] at same
      exact ⟨other, fun _ => ⟨also, same, requests, replies, leads⟩⟩
    · exact ⟨0, fun also => absurd also listed⟩
  choose who leads using leads
  refine ⟨who, fun peer listed => ⟨(leads peer listed).1, (leads peer listed).2.2⟩, ?_⟩
  intro other also
  obtain ⟨peer, found, address_eq⟩ := concord.exists_link known also
  have listed := (concord.mem_peersOf known).mpr ⟨_, found⟩
  obtain ⟨within, same, _⟩ := leads peer listed
  exact List.mem_map.mpr ⟨peer, listed, concord.distinct _ within _ also (same.trans address_eq)⟩

end Cluster

end RingCache
