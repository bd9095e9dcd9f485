import Mathlib
import RingCache.Proofs.Assignment
import RingCache.Utf8

/-!
# How many positions members take

The label of a virtual node is the address of its member, a colon and a number. A number
has no colon in it, so the last colon of a label tells where its address ends, whatever
colons and digits that has itself (`label_inj`). So two virtual nodes share a position only
if the hash function sends two labels to one place: without such collisions each position
has one member, and there are as many positions as labels (`play_occupies`).
-/
namespace RingCache

theorem Bytes.ofText_injective : Function.Injective Bytes.ofText := by
  intro a b same
  have read := Utf8.decode_ofText a
  rw [same, Utf8.decode_ofText] at read
  exact (Except.ok.inj read).symm

theorem Table.keys_nodup {κ α : Type} [Ord κ] [Std.TransOrd κ] [Std.LawfulEqOrd κ] (t : Table κ α) : t.keys.Nodup := by
  refine t.keys_ascending.imp ?_
  rintro k _ less rfl
  rw [compare_self] at less
  cases less

namespace Ring

variable {hash : HashFunction} {replicas : Nat} {S : Set String} {ring : Ring}
variable {a b address : String} {i j : Nat} {position : UInt64}

/-! ## Labels -/

theorem colon_notMem_toString (i : Nat) : ':' ∉ (toString i).toList := by
  intro listed
  rw [Nat.toString_eq_repr, Nat.toList_repr] at listed
  have digit := Nat.isDigit_of_mem_toDigits (by decide) (by decide) listed
  cases digit

/-- A list has one last colon. -/
theorem eq_of_append_colon {front other digits rest : List Char} (plain : ':' ∉ digits) (plainRest : ':' ∉ rest)
    (same : front ++ ':' :: digits = other ++ ':' :: rest) : front = other ∧ digits = rest := by
  -- If one of the parts in front were longer, its last colon would lie behind that of the other.
  rcases List.append_eq_append_iff.mp same with ⟨_ | ⟨c, more⟩, longer, ends⟩ | ⟨_ | ⟨c, more⟩, longer, ends⟩
  · simp_all
  · obtain ⟨-, rfl⟩ := List.cons.inj ends
    simp at plain
  · simp_all
  · obtain ⟨-, rfl⟩ := List.cons.inj ends
    simp at plainRest

/-- Labels are equal only if they are the same label of one address. -/
theorem label_inj : label a i = label b j ↔ a = b ∧ i = j := by
  constructor
  · intro same
    have texts : a.toList ++ ':' :: (toString i).toList = b.toList ++ ':' :: (toString j).toList := by
      simpa [label] using congrArg String.toList same
    obtain ⟨addresses, numbers⟩ := eq_of_append_colon (colon_notMem_toString i) (colon_notMem_toString j) texts
    exact ⟨String.toList_injective addresses, Nat.repr_inj.mp (String.toList_injective numbers)⟩
  · rintro ⟨rfl, rfl⟩
    rfl

/-! ## Positions -/

/-- The positions at which an address has a seat. -/
def places (ring : Ring) (address : String) : List UInt64 :=
  (ring.slots.entries.filter (fun slot => slot.2.contains address)).map Prod.fst

/-- What is hashed to place the members. -/
def labels (ring : Ring) : Set Bytes :=
  {bytes | ∃ address ∈ ring.members, ∃ i < ring.replicas, bytes = Bytes.ofText (label address i)}

theorem places_nodup (ring : Ring) (address : String) : (ring.places address).Nodup :=
  ring.slots.keys_nodup.sublist (List.filter_sublist.map Prod.fst)

theorem Placed.mem_places (placed : Placed hash replicas S ring) :
    position ∈ ring.places address ↔ address ∈ S ∧ Stands hash replicas address position := by
  rw [← placed.seated_iff]
  simp only [places, List.mem_map, List.mem_filter, Seated]
  constructor
  · rintro ⟨slot, ⟨listed, held⟩, rfl⟩
    rw [Table.find?_eq_some_iff.mpr listed]
    exact held
  · intro held
    cases found : ring.slots.find? position with
    | none => exact absurd (found ▸ held) (not_seated_none address)
    | some slot =>
      rw [found] at held
      exact ⟨(position, slot), ⟨Table.find?_eq_some_iff.mp found, held⟩, rfl⟩

theorem Placed.mem_keys (placed : Placed hash replicas S ring) :
    position ∈ ring.slots.keys ↔ Taken hash replicas S position := by
  rw [placed.taken_iff, Table.mem_keys_iff, Table.contains_iff_exists]
  simp only [Table.find?_eq_some_iff]

/-- A member takes as many positions as its labels have hashes. -/
theorem Placed.length_places (placed : Placed hash replicas S ring) (member : address ∈ S) :
    (ring.places address).length =
      ((Finset.range replicas).image (fun i => hash (Bytes.ofText (label address i)))).card := by
  rw [← List.toFinset_card_of_nodup (ring.places_nodup address)]
  congr 1
  ext position
  simp [placed.mem_places, member, Stands]

/-- A member takes a position at least, and one for each of its labels at most. -/
theorem Placed.places_bounds (placed : Placed hash replicas S ring) (some_replica : 0 < replicas)
    (member : address ∈ S) : 1 ≤ (ring.places address).length ∧ (ring.places address).length ≤ replicas := by
  rw [placed.length_places member]
  constructor
  · have first : 0 ∈ Finset.range replicas := Finset.mem_range.mpr some_replica
    exact Finset.card_pos.mpr ⟨_, Finset.mem_image_of_mem _ first⟩
  · exact Finset.card_image_le.trans (Finset.card_range replicas).le

/-- Without collisions members that stand at one position are the same, by the same label. -/
theorem Placed.apart (placed : Placed hash replicas S ring) (injective : Set.InjOn hash ring.labels) (memberA : a ∈ S)
    (memberB : b ∈ S) (inA : i < replicas) (inB : j < replicas)
    (meet : hash (Bytes.ofText (label a i)) = hash (Bytes.ofText (label b j))) : a = b ∧ i = j := by
  have labelled {address : String} {i : Nat} (member : address ∈ S) (below : i < replicas) :
      Bytes.ofText (label address i) ∈ ring.labels :=
    ⟨address, (placed.canonical.mem_members address).mpr member, i, placed.replicas_eq.symm ▸ below, rfl⟩
  have same := injective (labelled memberA inA) (labelled memberB inB) meet
  exact label_inj.mp (Bytes.ofText_injective same)

/-- Without collisions a slot has one member. -/
theorem Placed.exists_names_eq (placed : Placed hash replicas S ring) (injective : Set.InjOn hash ring.labels)
    {slot : UInt64 × Roster} (listed : slot ∈ ring.slots.entries) : ∃ address ∈ S, slot.2.names = [address] := by
  have found := Table.find?_eq_some_iff.mpr listed
  obtain ⟨some_name, sorted, named⟩ := (placed.canonical.slot_iff slot.1 slot.2.names).mp ⟨slot.2, found, rfl⟩
  obtain ⟨address, rest, names⟩ := List.exists_cons_of_ne_nil some_name
  obtain ⟨member, i, below, here⟩ := (named address).mp (names ▸ List.mem_cons_self)
  refine ⟨address, member, ?_⟩
  cases rest with
  | nil => exact names
  | cons other rest =>
    obtain ⟨member', j, below', here'⟩ := (named other).mp (by simp [names])
    obtain ⟨same, -⟩ := placed.apart injective member member' below below' (here.trans here'.symm)
    rw [names] at sorted
    have less := (List.pairwise_cons.mp sorted).1 other List.mem_cons_self
    exact absurd less (same ▸ lt_irrefl address)

/-- Without collisions there is a position for each label. -/
theorem Placed.size_slots (placed : Placed hash replicas S ring) (injective : Set.InjOn hash ring.labels) :
    ring.slots.size = ring.members.length * replicas := by
  have distinct : ring.members.Nodup := ring.nodes.keys_nodup
  have image : ring.slots.keys.toFinset = (ring.members.toFinset ×ˢ Finset.range replicas).image
      (fun label => hash (Bytes.ofText (Ring.label label.1 label.2))) := by
    ext position
    simp [placed.mem_keys, Taken, Stands, placed.canonical.mem_members, and_assoc]
  have injOn : Set.InjOn (fun label : String × Nat => hash (Bytes.ofText (Ring.label label.1 label.2)))
      (ring.members.toFinset ×ˢ Finset.range replicas : Finset (String × Nat)) := by
    rintro ⟨a, i⟩ first ⟨b, j⟩ second meet
    simp only [Finset.coe_product, Set.mem_prod, Finset.mem_coe, List.mem_toFinset, Finset.mem_range,
      placed.canonical.mem_members] at first second
    obtain ⟨rfl, rfl⟩ := placed.apart injective first.1 second.1 first.2 second.2 meet
    rfl
  calc ring.slots.size
      = ring.slots.keys.length := by simp [Table.size, Table.keys]
    _ = ring.slots.keys.toFinset.card := (List.toFinset_card_of_nodup ring.slots.keys_nodup).symm
    _ = (ring.members.toFinset ×ˢ Finset.range replicas).card := by rw [image, Finset.card_image_of_injOn injOn]
    _ = ring.members.toFinset.card * replicas := by rw [Finset.card_product, Finset.card_range]
    _ = ring.members.length * replicas := by rw [List.toFinset_card_of_nodup distinct]

/-- Labels are told apart by their text, whatever the addresses. So after any calls, if the hash
    function is injective on the labels of the members, each position has one member, and there
    are as many positions as members times replicas. Whatever the hash function, each member
    takes a position at least and as many as there are replicas at most. -/
theorem play_occupies (replicas : Nat) (hash : HashFunction) (moves : List Move) :
    let ring := play replicas hash moves
    (∀ a b i j, label a i = label b j → a = b ∧ i = j) ∧
    (Set.InjOn hash ring.labels →
      (∀ slot ∈ ring.slots.entries, ∃ address ∈ ring.members, slot.2.names = [address]) ∧
        ring.slots.size = ring.members.length * ring.replicas) ∧
    ∀ address ∈ ring.members,
      1 ≤ (ring.places address).length ∧ (ring.places address).length ≤ ring.replicas := by
  intro ring
  have placed : Placed hash (max replicas 1) (membersAfter moves) ring := placed_play replicas hash moves
  have some_replica : 0 < max replicas 1 := Nat.lt_of_lt_of_le Nat.one_pos (Nat.le_max_right _ _)
  simp only [placed.canonical.mem_members, placed.replicas_eq]
  refine ⟨fun a b i j same => label_inj.mp same, fun injective => ⟨?_, placed.size_slots injective⟩, ?_⟩
  · exact fun slot listed => placed.exists_names_eq injective listed
  · exact fun address member => placed.places_bounds some_replica member

/-- A hash function that takes up to eight bytes for the digits of a number. -/
def numeral : HashFunction :=
  fun bytes => bytes.foldl (fun number byte => 256 * number + UInt64.ofNat byte.toNat) 0

/-- Two members of which one has the address of the other in front of its own, as a label has. -/
theorem play_occupies_of_nested :
    let ring := play 2 numeral [.add ["h:1", "h"], .addNode "x", .remove "x"]
    Set.InjOn numeral ring.labels ∧ ring.members = ["h", "h:1"] ∧
    (∀ slot ∈ ring.slots.entries, ∃ address ∈ ring.members, slot.2.names = [address]) ∧
    ring.slots.size = 4 ∧ (ring.places "h:1").length ≤ 2 := by
  intro ring
  have members : ring.members = ["h", "h:1"] := by decide
  have injective : Set.InjOn numeral ring.labels := by
    have apart : ∀ a ∈ ["h", "h:1"], ∀ i < 2, ∀ b ∈ ["h", "h:1"], ∀ j < 2,
        numeral (Bytes.ofText (label a i)) = numeral (Bytes.ofText (label b j)) →
          Bytes.ofText (label a i) = Bytes.ofText (label b j) := by decide
    rintro _ ⟨a, memberA, i, belowI, rfl⟩ _ ⟨b, memberB, j, belowJ, rfl⟩ same
    rw [members] at memberA memberB
    exact apart a memberA i belowI b memberB j belowJ same
  obtain ⟨_, single, bounds⟩ := play_occupies 2 numeral [.add ["h:1", "h"], .addNode "x", .remove "x"]
  obtain ⟨names, size⟩ := single injective
  have listed : "h:1" ∈ ring.members := by rw [members]; simp
  rw [members] at size
  exact ⟨injective, members, names, size, (bounds "h:1" listed).2⟩

end Ring

end RingCache
