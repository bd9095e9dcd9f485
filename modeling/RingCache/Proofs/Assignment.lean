import RingCache.Proofs.Owner
import RingCache.Proofs.TextOrder

/-!
# Owners by members and hashes

Which member owns a key depends on the members and the hash function alone. The hash
of the key leads to the first position at or above it where a member stands, or else
to the first of all (`Decides`), and of the members that stand there the one whose
address has the least bytes owns the key (`play_owner`). If some members go, the
position of a key that one of the others owns still decides, and that member is still
the least there. So keys move to members that came, or from members that went, and
otherwise not at all (`play_owner_moves`).
-/
namespace RingCache.Ring

variable {hash : HashFunction} {replicas : Nat} {S T : Set String} {ring : Ring}
variable {position place : UInt64} {address : String}

/-! ## The position that decides -/

/-- Some member stands at a position. -/
def Taken (hash : HashFunction) (replicas : Nat) (S : Set String) (position : UInt64) : Prop :=
  ∃ address ∈ S, Stands hash replicas address position

/-- A place decides about a position: it is the first taken one that is not below the
    position or, if all are below it, the first of all. -/
inductive Decides (hash : HashFunction) (replicas : Nat) (S : Set String) (position place : UInt64) : Prop where
  | above (taken : Taken hash replicas S place) (reaches : position ≤ place)
      (first : ∀ other, Taken hash replicas S other → position ≤ other → place ≤ other)
  | around (taken : Taken hash replicas S place) (below : ∀ other, Taken hash replicas S other → other < position)
      (first : ∀ other, Taken hash replicas S other → place ≤ other)

/-- A member is the one with the least bytes of those that stand at a place. -/
structure Foremost (hash : HashFunction) (replicas : Nat) (S : Set String) (place : UInt64) (address : String) :
    Prop where
  member : address ∈ S
  stands : Stands hash replicas address place
  least : ∀ other ∈ S, Stands hash replicas other place → other ≠ address →
    Bytes.ofText address < Bytes.ofText other

theorem Decides.taken (decides : Decides hash replicas S position place) : Taken hash replicas S place := by
  cases decides with
  | above taken => exact taken
  | around taken => exact taken

/-- One place decides about a position. -/
theorem Decides.unique {other : UInt64} (decides : Decides hash replicas S position place)
    (also : Decides hash replicas S position other) : place = other := by
  cases decides with
  | above taken reaches first =>
    cases also with
    | above taken' reaches' first' => exact UInt64.le_antisymm (first other taken' reaches') (first' place taken reaches)
    | around taken' below' first' => exact absurd reaches (UInt64.not_le.mpr (below' place taken))
  | around taken below first =>
    cases also with
    | above taken' reaches' first' => exact absurd reaches' (UInt64.not_le.mpr (below other taken'))
    | around taken' below' first' => exact UInt64.le_antisymm (first other taken') (first' place taken)

theorem Foremost.unique {other : String} (foremost : Foremost hash replicas S place address)
    (also : Foremost hash replicas S place other) : address = other := by
  by_contra apart
  have less := foremost.least other also.member also.stands (Ne.symm apart)
  have greater := also.least address foremost.member foremost.stands apart
  exact List.lt_asymm less greater

/-! ## The ring finds it -/

theorem Placed.taken_iff (placed : Placed hash replicas S ring) (position : UInt64) :
    Taken hash replicas S position ↔ ∃ slot, (position, slot) ∈ ring.slots.entries := by
  simp only [← Table.find?_eq_some_iff]
  constructor
  · rintro ⟨address, member, stands⟩
    have seat := (placed.seated_iff position address).mpr ⟨member, stands⟩
    cases found : ring.slots.find? position with
    | none => exact absurd (found ▸ seat) (not_seated_none address)
    | some slot => exact ⟨slot, rfl⟩
  · rintro ⟨slot, found⟩
    obtain ⟨address, held⟩ := Table.isEmpty_eq_false_iff.mp (placed.kept position slot found)
    refine ⟨address, (placed.seated_iff position address).mp ?_⟩
    rw [found]
    exact held

theorem Placed.decides_of_slotFor (placed : Placed hash replicas S ring) {slot : UInt64 × Roster}
    (found : ring.slotFor position = some slot) : Decides hash replicas S position slot.1 := by
  have taken : Taken hash replicas S slot.1 := (placed.taken_iff slot.1).mpr ⟨slot.2, mem_of_slotFor found⟩
  rcases Option.or_eq_some_iff.mp found with above | ⟨nothing, first⟩
  · obtain ⟨_, reaches, least⟩ := Table.ceiling?_eq_some_iff.mp above
    refine .above taken (Std.isLE_compare.mp reaches) ?_
    intro other also high
    obtain ⟨names, listed⟩ := (placed.taken_iff other).mp also
    refine UInt64.not_lt.mp (fun less => ?_)
    have short := least (other, names) listed (Std.compare_eq_lt.mpr less)
    exact UInt64.not_le.mpr (Std.compare_eq_lt.mp short) high
  · refine .around taken ?_ ?_
    · intro other also
      obtain ⟨names, listed⟩ := (placed.taken_iff other).mp also
      exact Std.compare_eq_lt.mp (Table.lt_of_ceiling?_eq_none nothing listed)
    · intro other also
      obtain ⟨names, listed⟩ := (placed.taken_iff other).mp also
      rcases Table.eq_or_lt_of_first? first listed with own | less
      · exact UInt64.le_of_eq (congrArg Prod.fst own).symm
      · exact UInt64.le_of_lt (Std.compare_eq_lt.mp less)

theorem Placed.foremost_of_first? (placed : Placed hash replicas S ring) {slot : Roster} {seat : String × Unit}
    (listed : (place, slot) ∈ ring.slots.entries) (first : slot.first? = some seat) :
    Foremost hash replicas S place seat.1 := by
  have entry : ring.slots.find? place = some slot := Table.find?_eq_some_iff.mpr listed
  have seated : ∀ address, slot.contains address = true ↔ address ∈ S ∧ Stands hash replicas address place := by
    intro address
    rw [← placed.seated_iff, entry]
    rfl
  obtain ⟨member, stands⟩ := (seated seat.1).mp
    (Table.mem_keys_iff.mp (List.mem_map_of_mem (Table.mem_of_first? first)))
  refine ⟨member, stands, ?_⟩
  intro other also beside apart
  obtain ⟨entry, held, same⟩ := List.mem_map.mp (Table.mem_keys_iff.mpr ((seated other).mpr ⟨also, beside⟩))
  rcases Table.eq_or_lt_of_first? first held with own | less
  · exact absurd (same.symm.trans (congrArg Prod.fst own)) apart
  · rw [Bytes.ofText_lt_iff, ← same]
    exact compare_eq_lt_iff.mp less

/-- Who owns a position: the foremost of the members at the place that decides. -/
theorem Placed.ownerAt_iff (placed : Placed hash replicas S ring) :
    ring.ownerAt position = some address ↔
      ∃ place, Decides hash replicas S position place ∧ Foremost hash replicas S place address := by
  have sound : ∀ owner, ring.ownerAt position = some owner →
      ∃ place, Decides hash replicas S position place ∧ Foremost hash replicas S place owner := by
    intro owner owns
    obtain ⟨slot, found, first⟩ := Option.bind_eq_some_iff.mp owns
    obtain ⟨seat, head, rfl⟩ := Option.map_eq_some_iff.mp first
    exact ⟨slot.1, placed.decides_of_slotFor found, placed.foremost_of_first? (mem_of_slotFor found) head⟩
  constructor
  · exact sound address
  · rintro ⟨place, decides, foremost⟩
    cases found : ring.slotFor position with
    | none =>
      obtain ⟨slot, listed⟩ := (placed.taken_iff place).mp decides.taken
      rw [List.isEmpty_iff.mp (slotFor_eq_none found)] at listed
      cases listed
    | some slot =>
      obtain ⟨owner, owns, _⟩ := placed.slot_owner found
      obtain ⟨other, also, head⟩ := sound owner owns
      cases decides.unique also
      rw [owns, foremost.unique head]

/-- After any calls nobody owns a key exactly if there are no members. Else its owner is
    the one with the least bytes of the members that stand at the place which decides
    about the hash of the key. -/
theorem play_owner (replicas : Nat) (hash : HashFunction) (moves : List Move) (key : String) :
    ((play replicas hash moves).owner key = none ↔ (play replicas hash moves).members = []) ∧
    ∀ address, (play replicas hash moves).owner key = some address ↔
      ∃ place, Decides hash (max replicas 1) (membersAfter moves) (hash (Bytes.ofText key)) place ∧
        Foremost hash (max replicas 1) (membersAfter moves) place address := by
  have placed := placed_play replicas hash moves
  have at_hash : (play replicas hash moves).owner key =
      (play replicas hash moves).ownerAt (hash (Bytes.ofText key)) := by
    rw [owner, placed.hash_eq]
  rw [at_hash]
  refine ⟨?_, fun address => placed.ownerAt_iff⟩
  rw [placed.ownerAt_eq_none_iff (Nat.lt_of_lt_of_le Nat.one_pos (Nat.le_max_right _ _)),
    List.eq_nil_iff_forall_not_mem, Set.eq_empty_iff_forall_notMem]
  exact forall_congr' (fun address => not_congr (placed.canonical.mem_members address).symm)

/-! ## Members that come and go -/

theorem Taken.mono (within : S ⊆ T) (taken : Taken hash replicas S position) : Taken hash replicas T position := by
  obtain ⟨address, member, stands⟩ := taken
  exact ⟨address, within member, stands⟩

/-- A place that decides goes on deciding while somebody stands there. -/
theorem Decides.anti (decides : Decides hash replicas T position place) (within : S ⊆ T)
    (still : Taken hash replicas S place) : Decides hash replicas S position place := by
  cases decides with
  | above taken reaches first => exact .above still reaches (fun other also => first other (also.mono within))
  | around taken below first =>
    exact .around still (fun other also => below other (also.mono within))
      (fun other also => first other (also.mono within))

theorem Foremost.anti (foremost : Foremost hash replicas T place address) (within : S ⊆ T) (member : address ∈ S) :
    Foremost hash replicas S place address where
  member := member
  stands := foremost.stands
  least other also := foremost.least other (within also)

/-- An owner that stays keeps what it owns when others go. -/
theorem Placed.ownerAt_of_subset {more : Ring} (placed : Placed hash replicas S ring)
    (all : Placed hash replicas T more) (within : S ⊆ T) (owns : more.ownerAt position = some address)
    (stays : address ∈ S) : ring.ownerAt position = some address := by
  obtain ⟨place, decides, foremost⟩ := all.ownerAt_iff.mp owns
  exact placed.ownerAt_iff.mpr
    ⟨place, decides.anti within ⟨address, stays, foremost.stands⟩, foremost.anti within stays⟩

/-- If two rings differ on an owner, one of the members that the lesser ring does not
    have owns the position in the greater one. -/
theorem Placed.exists_owner_of_ne {more : Ring} (placed : Placed hash replicas S ring)
    (all : Placed hash replicas T more) (some_replica : 0 < replicas) (within : S ⊆ T)
    (moved : ring.ownerAt position ≠ more.ownerAt position) :
    ∃ owner ∈ T \ S, more.ownerAt position = some owner := by
  cases owns : more.ownerAt position with
  | none =>
    have nobody := Set.subset_empty_iff.mp ((all.ownerAt_eq_none_iff some_replica position).mp owns ▸ within)
    exact absurd ((placed.ownerAt_eq_none_iff some_replica position).mpr nobody) (owns ▸ moved)
  | some owner =>
    refine ⟨owner, ⟨all.ownerAt_mem owns, ?_⟩, rfl⟩
    intro stays
    exact moved ((placed.ownerAt_of_subset all within owns stays).trans owns.symm)

theorem membersAfter_concat (moves : List Move) (step : Move) :
    membersAfter (moves ++ [step]) = step.members (membersAfter moves) := by
  rw [membersAfter, List.foldl_append]
  rfl

theorem membersAfter_removals (moves : List Move) (removed : List String) :
    membersAfter (moves ++ removed.map .remove) = membersAfter moves \ {a | a ∈ removed} := by
  induction removed generalizing moves with
  | nil => simp
  | cons first rest ih =>
    rw [List.map_cons, List.append_cons, ih, membersAfter_concat]
    ext address
    simp [Move.members, and_assoc]

/-- A key whose owner in the ring of some members is one of fewer has the same owner in
    the ring of these. So members that are added take keys over, and no other key moves,
    and of members that are removed the keys go, and no others. -/
theorem play_owner_moves (replicas : Nat) (hash : HashFunction) (key : String) :
    (∀ fewer more, membersAfter fewer ⊆ membersAfter more → ∀ owner ∈ membersAfter fewer,
      (play replicas hash more).owner key = some owner → (play replicas hash fewer).owner key = some owner) ∧
    (∀ (moves : List Move) (added : List String),
      (play replicas hash (moves ++ [.add added])).owner key ≠ (play replicas hash moves).owner key →
      ∃ owner ∈ added, owner ∉ membersAfter moves ∧
        (play replicas hash (moves ++ [.add added])).owner key = some owner) ∧
    (∀ (moves : List Move) (removed : List String),
      (play replicas hash (moves ++ removed.map .remove)).owner key ≠ (play replicas hash moves).owner key →
      ∃ owner ∈ removed, owner ∈ membersAfter moves ∧ (play replicas hash moves).owner key = some owner) := by
  have placed := placed_play replicas hash
  have at_hash : ∀ moves, (play replicas hash moves).owner key =
      (play replicas hash moves).ownerAt (hash (Bytes.ofText key)) := by
    intro moves
    rw [owner, (placed moves).hash_eq]
  have some_replica : 0 < max replicas 1 := Nat.lt_of_lt_of_le Nat.one_pos (Nat.le_max_right _ _)
  simp only [at_hash]
  refine ⟨?_, ?_, ?_⟩
  · intro fewer more within owner stays owns
    exact (placed fewer).ownerAt_of_subset (placed more) within owns stays
  · intro moves added moved
    have joined := membersAfter_concat moves (.add added)
    obtain ⟨owner, ⟨member, new⟩, owns⟩ := (placed moves).exists_owner_of_ne (placed _) some_replica
      (by rw [joined]; exact Set.subset_union_left) (Ne.symm moved)
    rw [joined] at member
    exact ⟨owner, member.resolve_left new, new, owns⟩
  · intro moves removed moved
    have left := membersAfter_removals moves removed
    obtain ⟨owner, ⟨member, gone⟩, owns⟩ := (placed _).exists_owner_of_ne (placed moves) some_replica
      (by rw [left]; exact Set.sdiff_subset) moved
    refine ⟨owner, ?_, member, owns⟩
    by_contra stays
    exact gone (left ▸ ⟨member, stays⟩)

/-- A hash function of four values, so that members meet at positions. -/
def coarse : HashFunction :=
  fun bytes => bytes.foldl (fun sum byte => sum + UInt64.ofNat byte.toNat) 0 % 4

/-- One member that stands at the positions 0 and 1. Another one at 1 and 2 comes and
    goes, while a third at 3 and 0 stays or goes. The key "k2" hashes to 1 and "k3" to
    2, from where one member alone is found by going round. -/
theorem play_owner_moves_of_three :
    let one : List Move := [.add ["b", "d"], .remove "d"]
    let three : List Move := [.addNode "c", .add ["a", "b"]]
    (membersAfter one ⊆ membersAfter three ∧ "b" ∈ membersAfter one ∧
      (play 2 coarse three).owner "k2" = some "b" ∧ (play 2 coarse one).owner "k2" = some "b") ∧
    ((play 2 coarse (one ++ [.add ["c"]])).owner "k3" ≠ (play 2 coarse one).owner "k3" ∧
      ∃ owner ∈ ["c"], owner ∉ membersAfter one ∧ (play 2 coarse (one ++ [.add ["c"]])).owner "k3" = some owner) ∧
    ((play 2 coarse (three ++ ["a", "c"].map .remove)).owner "k3" ≠ (play 2 coarse three).owner "k3" ∧
      ∃ owner ∈ ["a", "c"], owner ∈ membersAfter three ∧ (play 2 coarse three).owner "k3" = some owner) := by
  intro one three
  have within : membersAfter one ⊆ membersAfter three := by
    rintro address ⟨_ | listed, gone⟩
    · contradiction
    · simp_all [three, membersAfter, Move.members]
  have stays : "b" ∈ membersAfter one := by
    simp [one, membersAfter, Move.members]
  have owns : (play 2 coarse three).owner "k2" = some "b" := by decide
  have comes : (play 2 coarse (one ++ [.add ["c"]])).owner "k3" ≠ (play 2 coarse one).owner "k3" := by decide
  have goes : (play 2 coarse (three ++ ["a", "c"].map .remove)).owner "k3" ≠ (play 2 coarse three).owner "k3" := by
    decide
  obtain ⟨keeps, _, _⟩ := play_owner_moves 2 coarse "k2"
  obtain ⟨_, added, removed⟩ := play_owner_moves 2 coarse "k3"
  exact ⟨⟨within, stays, owns, keeps one three within "b" stays owns⟩, ⟨comes, added one ["c"] comes⟩,
    ⟨goes, removed three ["a", "c"] goes⟩⟩

end RingCache.Ring
