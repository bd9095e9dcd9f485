import Mathlib
import RingCache.Proofs.Holdings
import RingCache.Proofs.PoolHistory

/-!
# Pools that agree

A ring is determined by its members, so pools with the same members agree on the
owner of a key, whatever their histories were: the owner serves the key and
everybody else asks the owner (`owner_agreed`). A request that reaches the owner
goes no further (`Cluster.AnswersAlone`).
-/
namespace RingCache

/-! ## Answers without calls -/

namespace Cluster

variable {c : Cluster} {member : MemberId} {name key : String}

/-- A member answers a message without calling peers: the answer and all that comes
    of it are the same, whatever calls come to. -/
def AnswersAlone (c : Cluster) (member : MemberId) (message : Message) : Prop :=
  ∀ now (caller other : Caller),
    dispatch (service caller member) now message c = dispatch (service other member) now message c

/-- A key that no peer owns is retrieved without calls. -/
theorem answersAlone_of_pick_eq_none {budget : Option UInt64} (here : c.pick member key = none) :
    c.AnswersAlone member (.retrieve ⟨name, key, budget⟩) := by
  have served : ∀ (caller : Caller) (now : Time) (deadline : Deadline) (c : Cluster), c.pick member key = none →
      (host caller member name).get now deadline key c = (host caller member name).getHere now deadline key c := by
    intro caller now deadline c here
    refine Host.get_eq_getHere ?_
    exact ((keeps_modifyHolding ..).pick ..).trans here
  intro now caller other
  have counted : (c.modifyGroup member name (·.count .serverRequests)).pick member key = none :=
    ((keeps_modifyHolding ..).pick ..).trans here
  cases found : c.holding? member name with
  | none => simp only [dispatch, service, found]
  | some holding =>
    simp only [dispatch, service, found, served caller now _ _ counted, served other now _ _ counted]
    rfl

end Cluster

/-! ## Owners -/

/-- A member of a cluster: its address, its settings, and what its pool has gone
    through. -/
structure History where
  selfAddress : String
  settings : Settings
  dialing : Dialing
  changes : List Change

namespace History

/-- The pool that a history leads to. -/
def pool (history : History) : Pool :=
  (Course.after history.dialing history.selfAddress history.settings history.changes).pool

theorem sound (history : History) : history.pool.membership.Sound history.settings.normalized :=
  (Course.sound_after history.dialing history.selfAddress history.settings history.changes).published

theorem selfAddress_eq (history : History) : history.pool.selfAddress = history.selfAddress :=
  (Course.sound_after history.dialing history.selfAddress history.settings history.changes).selfAddress_eq

/-- The ring of a pool is determined by its members, the replicas and the hash
    function. -/
theorem ring_eq {history other : History}
    (alike : history.settings.normalized.replicas = other.settings.normalized.replicas ∧
      history.settings.hash = other.settings.hash)
    (same : {address | address ∈ history.pool.members} = {address | address ∈ other.pool.members}) :
    history.pool.membership.ring = other.pool.membership.ring := by
  have placed : Ring.Placed history.settings.hash (max history.settings.normalized.replicas 1)
      {address | address ∈ history.pool.members} history.pool.membership.ring := history.sound.placed_members
  rw [alike.1, alike.2, same] at placed
  exact placed.eq other.sound.placed_members

/-- A key that somebody owns is served by the owner, and everybody else is linked to
    the owner and asks there. -/
theorem pick_of_owner (history : History) {key owner : String}
    (owns : history.pool.membership.ring.owner key = some owner) :
    (history.selfAddress = owner → history.pool.pick key = none) ∧
    (history.selfAddress ≠ owner → ∃ peer, history.pool.membership.links.find? owner = some peer ∧
      peer.address = owner ∧ history.pool.pick key = some peer) := by
  rw [← history.selfAddress_eq]
  constructor
  · intro own
    refine (history.sound.pick_eq_none_iff _ key).mpr (.inr ?_)
    rw [own]
    exact owns
  · intro other
    obtain ⟨peer, found, address_eq⟩ := history.sound.exists_link owns
    exact ⟨peer, found, address_eq, Membership.pick_of_owner owns other.symm found⟩

theorem exists_owner (history : History) (key : String)
    (inhabited : {address | address ∈ history.pool.members}.Nonempty) :
    ∃ owner ∈ {address | address ∈ history.pool.members}, history.pool.membership.ring.owner key = some owner := by
  cases owns : history.pool.membership.ring.owner key with
  | none => exact absurd ((history.sound.owner_eq_none_iff key).mp owns) inhabited.ne_empty
  | some owner => exact ⟨owner, history.sound.placed_members.ownerAt_mem owns, rfl⟩

theorem exists_owner_of_pick (history : History) {key : String} {peer : Peer}
    (asks : history.pool.pick key = some peer) :
    ∃ owner, history.pool.membership.ring.owner key = some owner ∧ peer.address = owner := by
  rw [Pool.pick, Membership.owner] at asks
  cases owns : history.pool.membership.ring.owner key with
  | none =>
    rw [owns] at asks
    cases asks
  | some owner =>
    simp only [owns] at asks
    split at asks
    · cases asks
    · exact ⟨owner, rfl, history.sound.address_eq owner peer asks⟩

end History

/-- Members that are set up alike and have the same members agree on the owner of
    every key. Without members everybody serves the key. Else there is one owner
    among the members; it serves the key, and everybody else asks it, on the link to
    it. So in a cluster with these pools a request of one of them that reaches the
    owner is answered there without another call. -/
theorem owner_agreed {ι : Type} (histories : ι → History) (S : Set String) (key : String)
    (alike : ∀ i j, (histories i).settings.normalized.replicas = (histories j).settings.normalized.replicas ∧
      (histories i).settings.hash = (histories j).settings.hash)
    (same : ∀ i, {address | address ∈ (histories i).pool.members} = S) :
    (S = ∅ → ∀ i, (histories i).pool.pick key = none) ∧
    (S.Nonempty → ∃ owner ∈ S, ∀ i,
      ((histories i).selfAddress = owner → (histories i).pool.pick key = none) ∧
      ((histories i).selfAddress ≠ owner →
        ∃ peer, (histories i).pool.membership.links.find? owner = some peer ∧ peer.address = owner ∧
          (histories i).pool.pick key = some peer)) ∧
    (∀ (c : Cluster) (member : ι → MemberId), (∀ i, c.pool? (member i) = some (histories i).pool) →
      ∀ sender receiver peer, c.pick (member sender) key = some peer →
        peer.address = (histories receiver).selfAddress →
        ∀ name budget, c.AnswersAlone (member receiver) (.retrieve ⟨name, key, budget⟩)) := by
  have rings : ∀ i j, (histories i).pool.membership.ring = (histories j).pool.membership.ring :=
    fun i j => History.ring_eq (alike i j) ((same i).trans (same j).symm)
  refine ⟨?_, ?_, ?_⟩
  · rintro rfl i
    rw [Pool.pick, Membership.owner, ((histories i).sound.owner_eq_none_iff key).mpr (same i)]
  · intro inhabited
    rcases isEmpty_or_nonempty ι with nobody | ⟨⟨first⟩⟩
    · obtain ⟨address, member⟩ := inhabited
      exact ⟨address, member, fun i => nobody.elim i⟩
    · rw [← same first] at inhabited
      obtain ⟨owner, member, owns⟩ := (histories first).exists_owner key inhabited
      refine ⟨owner, same first ▸ member, ?_⟩
      intro i
      rw [rings first i] at owns
      exact (histories i).pick_of_owner owns
  · intro c member pools sender receiver peer asks reaches name budget
    refine Cluster.answersAlone_of_pick_eq_none ?_
    rw [Cluster.pick, pools, Option.bind_some] at asks ⊢
    obtain ⟨owner, owns, at_owner⟩ := (histories sender).exists_owner_of_pick asks
    rw [rings sender receiver] at owns
    exact ((histories receiver).pick_of_owner owns).1 (reaches.symm.trans at_owner)

/-- Two members whose pools came to the same members in different ways, one after a
    dial that failed, the other after somebody was removed. All positions collide. -/
def twoHistories : Bool → History
  | true => ⟨"a", ⟨0, fun _ => 7, .standard⟩, fun number _ => if number = 0 then none else some number,
      [.amend .add ["b"], .amend .replace ["b", "a", "b"]]⟩
  | false => ⟨"b", ⟨50, fun _ => 7, .standard⟩, fun number _ => some number,
      [.amend .add ["c", "b"], .clear, .amend .add ["c", "a", "b"], .amend .remove ["c"]]⟩

/-- The cluster of the two, each with a group whose loader echoes the key. -/
def twoMembers : Cluster where
  latency := 0
  members :=
    let echo : Loader := .follow ⟨[⟨none, .echo ""⟩], .empty⟩
    let registry : Registry Holding := ⟨Table.empty.insert "g" ⟨.new "g" Group.ample, echo⟩⟩
    [⟨some (twoHistories true).pool, registry⟩, ⟨some (twoHistories false).pool, registry⟩]
  stations := []
  listening := .empty
  channels := []
  links := []

theorem members_twoHistories (who : Bool) : (twoHistories who).pool.members = ["a", "b"] := by
  cases who <;> cbv

theorem pick_twoMembers : twoMembers.pick 1 "k" = some ⟨"a", 3⟩ := by
  cbv

theorem owner_agreed_of_two :
    (∃ owner ∈ ({"a", "b"} : Set String), ∀ who,
      ((twoHistories who).selfAddress = owner → (twoHistories who).pool.pick "k" = none) ∧
      ((twoHistories who).selfAddress ≠ owner →
        ∃ peer, (twoHistories who).pool.membership.links.find? owner = some peer ∧ peer.address = owner ∧
          (twoHistories who).pool.pick "k" = some peer)) ∧
    twoMembers.AnswersAlone 0 (.retrieve ⟨"g", "k", none⟩) := by
  have alike : ∀ i j, (twoHistories i).settings.normalized.replicas = (twoHistories j).settings.normalized.replicas ∧
      (twoHistories i).settings.hash = (twoHistories j).settings.hash := by
    intro i j
    cases i <;> cases j <;> exact ⟨rfl, rfl⟩
  have same : ∀ who, {address | address ∈ (twoHistories who).pool.members} = {"a", "b"} := by
    intro who
    ext address
    simp [members_twoHistories who]
  have pools : ∀ who, twoMembers.pool? (if who then 0 else 1) = some (twoHistories who).pool := by
    intro who
    cases who <;> rfl
  obtain ⟨_, agreed, alone⟩ := owner_agreed twoHistories {"a", "b"} "k" alike same
  exact ⟨agreed ⟨"a", .inl rfl⟩, alone twoMembers _ pools false true ⟨"a", 3⟩ pick_twoMembers rfl "g" none⟩

end RingCache
