import RingCache.Proofs.Placement

/-!
# Who owns a key

The owner of a position has a seat at some position, so it is a member, and
there is an owner as soon as there is a member: every member stands somewhere.
-/
namespace RingCache.Ring

variable {hash : HashFunction} {replicas : Nat} {S : Set String} {ring : Ring}

/-- The slot that decides about a position. -/
def slotFor (ring : Ring) (position : UInt64) : Option (UInt64 × Roster) :=
  (ring.slots.ceiling? position).or ring.slots.first?

theorem mem_of_slotFor {position : UInt64} {slot : UInt64 × Roster} (found : ring.slotFor position = some slot) :
    slot ∈ ring.slots.entries := by
  rcases Option.or_eq_some_iff.mp found with above | ⟨_, first⟩
  · exact List.mem_of_find?_eq_some above
  · exact Table.mem_of_first? first

theorem slotFor_eq_none {position : UInt64} (nowhere : ring.slotFor position = none) : ring.slots.isEmpty = true :=
  Table.first?_eq_none_iff.mp (Option.or_eq_none_iff.mp nowhere).2

/-- The slot that decides about a position has an owner, who is seated there. -/
theorem Placed.slot_owner (placed : Placed hash replicas S ring) {position : UInt64} {slot : UInt64 × Roster}
    (found : ring.slotFor position = some slot) :
    ∃ address, ring.ownerAt position = some address ∧ slot.2.contains address = true := by
  have entry : ring.slots.find? slot.1 = some slot.2 := Table.find?_eq_some_iff.mpr (mem_of_slotFor found)
  have nonempty := placed.kept slot.1 slot.2 entry
  cases first : slot.2.first? with
  | none =>
    rw [Table.first?_eq_none_iff.mp first] at nonempty
    cases nonempty
  | some seat =>
    refine ⟨seat.1, ?_, ?_⟩
    · rw [slotFor] at found
      rw [ownerAt, found, Option.bind_some, first]
      rfl
    · exact Table.mem_keys_iff.mp (List.mem_map_of_mem (Table.mem_of_first? first))

theorem Placed.ownerAt_mem (placed : Placed hash replicas S ring) {position : UInt64} {address : String}
    (owns : ring.ownerAt position = some address) : address ∈ S := by
  cases found : ring.slotFor position with
  | none =>
    rw [slotFor] at found
    rw [ownerAt, found] at owns
    cases owns
  | some slot =>
    obtain ⟨other, same, seated⟩ := placed.slot_owner found
    rw [owns] at same
    cases same
    have entry : ring.slots.find? slot.1 = some slot.2 := Table.find?_eq_some_iff.mpr (mem_of_slotFor found)
    refine ((placed.seated_iff slot.1 address).mp ?_).1
    rw [entry]
    exact seated

/-- A position has an owner exactly if there are members. -/
theorem Placed.ownerAt_eq_none_iff (placed : Placed hash replicas S ring) (some_replica : 0 < replicas)
    (position : UInt64) : ring.ownerAt position = none ↔ S = ∅ := by
  constructor
  · intro nobody
    by_contra inhabited
    obtain ⟨address, member⟩ := Set.nonempty_iff_ne_empty.mpr inhabited
    -- The first label of a member takes a position, so some slot decides.
    have seat := (placed.seated_iff _ address).mpr ⟨member, 0, some_replica, rfl⟩
    cases found : ring.slotFor position with
    | none =>
      rw [Table.find?_of_isEmpty (slotFor_eq_none found)] at seat
      exact not_seated_none address seat
    | some slot =>
      obtain ⟨owner, owns, _⟩ := placed.slot_owner found
      rw [nobody] at owns
      cases owns
  · rintro rfl
    cases owns : ring.ownerAt position with
    | none => rfl
    | some address => exact absurd (placed.ownerAt_mem owns) (Set.notMem_empty address)

theorem isEmpty_iff : ring.isEmpty = true ↔ {a | a ∈ ring.members} = ∅ := by
  rw [Set.eq_empty_iff_forall_notMem, ← Bool.not_eq_false]
  refine Iff.trans (not_congr Table.isEmpty_eq_false_iff) ?_
  rw [not_exists]
  exact forall_congr' (fun address => not_congr Table.mem_keys_iff.symm)

end RingCache.Ring
