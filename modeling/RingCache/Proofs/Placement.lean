import Mathlib.Order.BooleanAlgebra.Set
import RingCache.Ring

/-!
# Where members stand

A ring depends on its members alone. At a position stand exactly the members one
of whose labels hashes to it (`Placed`), and both loops over the labels of a
member keep this, although several labels of the member may meet one position
and other members may stand there too. So the ring after any calls is the
canonical ring of the addresses that were added and not removed since
(`play_canonical`).
-/
namespace RingCache

/-! ## Rosters -/

theorem Roster.ext_contains {r s : Roster} (same : ∀ name, r.contains name = true ↔ s.contains name = true) :
    r = s := by
  apply Table.ext_find?
  intro name
  have both := same name
  simp only [Table.contains] at both
  cases atR : r.find? name <;> cases atS : s.find? name <;> simp_all

theorem Roster.add_contains (r : Roster) (name other : String) :
    (r.add name).contains other = true ↔ other = name ∨ r.contains other = true :=
  Table.contains_insert r name other ()

theorem compare_eq_lt_iff {a b : String} : compare a b = .lt ↔ a < b :=
  compareOfLessAndEq_eq_lt

theorem Roster.names_sorted (r : Roster) : r.names.Pairwise (· < ·) :=
  r.keys_ascending.imp compare_eq_lt_iff.mp

theorem Roster.mem_names {r : Roster} {name : String} : name ∈ r.names ↔ r.contains name = true :=
  Table.mem_keys_iff

/-- A roster lists the names that it contains, sorted, and is the only such list. -/
theorem Roster.names_eq_iff {r : Roster} {names : List String} :
    r.names = names ↔ names.Pairwise (· < ·) ∧ ∀ name, name ∈ names ↔ r.contains name = true := by
  constructor
  · rintro rfl
    exact ⟨r.names_sorted, fun name => Roster.mem_names⟩
  · rintro ⟨sorted, listed⟩
    exact Table.eq_of_ascending r.keys_ascending (sorted.imp compare_eq_lt_iff.mpr)
      (fun name => Roster.mem_names.trans (listed name).symm)

namespace Ring

theorem contains_rosterOf (names : List String) (name : String) :
    (rosterOf names).contains name = true ↔ name ∈ names := by
  have general : ∀ r : Roster, (names.foldl Roster.add r).contains name = true ↔
      name ∈ names ∨ r.contains name = true := by
    induction names with
    | nil => simp
    | cons first rest ih =>
      intro r
      rw [List.foldl_cons, ih, Roster.add_contains, List.mem_cons, or_left_comm, or_assoc]
  rw [rosterOf, general]
  simp [Table.contains]

/-! ## One position -/

/-- What taking a seat makes of a slot. -/
def seat (address : String) (slot : Option Roster) : Option Roster :=
  some ((slot.getD .empty).add address)

/-- What leaving a seat makes of a slot; one that is left empty goes. -/
def unseat (address : String) : Option Roster → Option Roster
  | none => none
  | some slot => if (slot.erase address).isEmpty then none else some (slot.erase address)

/-- An address has a seat in a slot. -/
def Seated (slot : Option Roster) (address : String) : Prop :=
  (slot.getD .empty).contains address = true

theorem not_seated_none (address : String) : ¬ Seated none address :=
  Bool.false_ne_true

theorem seated_seat (address other : String) (slot : Option Roster) :
    Seated (seat address slot) other ↔ other = address ∨ Seated slot other :=
  Roster.add_contains _ address other

theorem seated_unseat (address other : String) (slot : Option Roster) :
    Seated (unseat address slot) other ↔ other ≠ address ∧ Seated slot other := by
  cases slot with
  | none => exact iff_of_false (not_seated_none other) (fun both => not_seated_none other both.2)
  | some slot =>
    have left := Table.contains_erase slot address other
    simp only [unseat]
    split
    next empty =>
      have nobody : ¬ (slot.erase address).contains other = true := by
        intro held
        rw [Table.isEmpty_eq_false_iff.mpr ⟨other, held⟩] at empty
        cases empty
      exact iff_of_false Bool.false_ne_true (fun remains => nobody (left.mpr remains))
    next => exact left

/-- A slot that is kept is not empty. -/
def Kept (slot : Option Roster) : Prop :=
  ∀ names, slot = some names → names.isEmpty = false

theorem kept_seat (address : String) (slot : Option Roster) : Kept (seat address slot) := by
  rintro _ ⟨⟩
  exact Table.isEmpty_eq_false_iff.mpr ⟨address, (Roster.add_contains _ address address).mpr (.inl rfl)⟩

theorem kept_unseat (address : String) (slot : Option Roster) : Kept (unseat address slot) := by
  intro names found
  unfold unseat at found
  split at found
  · cases found
  · split at found <;> cases found
    next more => exact Bool.eq_false_iff.mpr more

/-- Kept slots with the same seats are equal. -/
theorem eq_of_seated {slot slot' : Option Roster} (kept : Kept slot) (kept' : Kept slot')
    (same : ∀ address, Seated slot address ↔ Seated slot' address) : slot = slot' := by
  have apart : ∀ names, Kept (some names) → ¬ ∀ address, Seated none address ↔ Seated (some names) address := by
    intro names kept same
    obtain ⟨address, held⟩ := Table.isEmpty_eq_false_iff.mp (kept names rfl)
    exact not_seated_none address ((same address).mpr held)
  cases slot with
  | none =>
    cases slot' with
    | none => rfl
    | some names => exact absurd same (apart names kept')
  | some names =>
    cases slot' with
    | none => exact absurd (fun address => (same address).symm) (apart names kept)
    | some names' => exact congrArg some (Roster.ext_contains same)

theorem seat_seat (address : String) (slot : Option Roster) :
    seat address (seat address slot) = seat address slot := by
  apply eq_of_seated (kept_seat _ _) (kept_seat _ _)
  simp [seated_seat]

theorem unseat_unseat (address : String) (slot : Option Roster) :
    unseat address (unseat address slot) = unseat address slot := by
  apply eq_of_seated (kept_unseat _ _) (kept_unseat _ _)
  simp [seated_unseat]

theorem find?_settle (address : String) (slots : Table UInt64 Roster) (position other : UInt64) :
    (settle address slots position).find? other =
      if other = position then seat address (slots.find? other) else slots.find? other := by
  rw [settle, Table.find?_insert]
  split
  next same => rw [same]; rfl
  · rfl

theorem find?_unsettle (address : String) (slots : Table UInt64 Roster) (position other : UInt64) :
    (unsettle address slots position).find? other =
      if other = position then unseat address (slots.find? other) else slots.find? other := by
  by_cases here : other = position
  · subst here
    cases found : slots.find? other with
    | none => simp [unsettle, unseat, found]
    | some slot =>
      cases empty : (slot.erase address).isEmpty <;>
        simp [unsettle, unseat, found, empty, Table.find?_insert, Table.find?_erase]
  · unfold unsettle
    split
    · simp [here]
    · dsimp only
      split <;> simp [here, Table.find?_insert, Table.find?_erase]

/-- A loop over positions that changes the slot at each of them changes the slot
    of every position that it meets, once or several times, as one change does. -/
theorem find?_foldl {step : Table UInt64 Roster → UInt64 → Table UInt64 Roster}
    {change : Option Roster → Option Roster}
    (one : ∀ slots position other, (step slots position).find? other =
      if other = position then change (slots.find? other) else slots.find? other)
    (twice : ∀ slot, change (change slot) = change slot)
    (positions : List UInt64) (slots : Table UInt64 Roster) (other : UInt64) :
    (positions.foldl step slots).find? other =
      if other ∈ positions then change (slots.find? other) else slots.find? other := by
  induction positions generalizing slots with
  | nil => simp
  | cons position rest ih =>
    rw [List.foldl_cons, ih, one]
    by_cases here : other = position
    · subst here
      by_cases again : other ∈ rest
      · simp only [again, if_true, List.mem_cons, true_or, twice]
      · simp only [again, if_false, if_true, List.mem_cons, true_or]
    · simp only [here, if_false, List.mem_cons, false_or]

/-! ## All positions -/

/-- An address stands at a position: one of its labels hashes to it. -/
def Stands (hash : HashFunction) (replicas : Nat) (address : String) (position : UInt64) : Prop :=
  ∃ i < replicas, hash (Bytes.ofText (label address i)) = position

theorem mem_positions {ring : Ring} {address : String} {position : UInt64} :
    position ∈ ring.positions address ↔ Stands ring.hash ring.replicas address position := by
  simp [positions, Stands]

theorem standsAt_iff {hash : HashFunction} {replicas : Nat} {address : String} {position : UInt64} :
    standsAt hash replicas address position = true ↔ Stands hash replicas address position := by
  simp [standsAt, Stands]

/-- The members of a ring are those of a set, and at every position those of them
    have a seat that stand there. -/
structure Placed (hash : HashFunction) (replicas : Nat) (S : Set String) (ring : Ring) : Prop where
  hash_eq : ring.hash = hash
  replicas_eq : ring.replicas = replicas
  contains_iff : ∀ address, ring.contains address = true ↔ address ∈ S
  kept : ∀ position, Kept (ring.slots.find? position)
  seated_iff : ∀ position address, Seated (ring.slots.find? position) address ↔
    address ∈ S ∧ Stands hash replicas address position

variable {hash : HashFunction} {replicas : Nat} {S : Set String} {ring ring' : Ring}

theorem placed_empty (hash : HashFunction) (replicas : Nat) :
    Placed hash (max replicas 1) ∅ (empty replicas hash) where
  hash_eq := rfl
  replicas_eq := rfl
  contains_iff address := by simp [contains, empty, Table.contains]
  kept position names found := by cases found
  seated_iff position address := iff_of_false (not_seated_none address) (fun both => both.1)

/-- A set has one ring. -/
theorem Placed.eq (placed : Placed hash replicas S ring) (placed' : Placed hash replicas S ring') :
    ring = ring' := by
  have nodes : ring.nodes = ring'.nodes :=
    Roster.ext_contains (fun address => (placed.contains_iff address).trans (placed'.contains_iff address).symm)
  have slots : ring.slots = ring'.slots := by
    apply Table.ext_find?
    intro position
    exact eq_of_seated (placed.kept position) (placed'.kept position) (fun address =>
      (placed.seated_iff position address).trans (placed'.seated_iff position address).symm)
  have hashes := placed.hash_eq.trans placed'.hash_eq.symm
  have counts := placed.replicas_eq.trans placed'.replicas_eq.symm
  cases ring
  cases ring'
  simp_all

theorem Placed.add (placed : Placed hash replicas S ring) (address : String) :
    Placed hash replicas (insert address S) (ring.add address) := by
  unfold Ring.add
  split
  next already =>
    rw [Set.insert_eq_of_mem ((placed.contains_iff address).mp already)]
    exact placed
  next =>
    have slot := fun position => find?_foldl (find?_settle address) (seat_seat address)
      (ring.positions address) ring.slots position
    refine ⟨placed.hash_eq, placed.replicas_eq, ?_, ?_, ?_⟩
    · intro other
      rw [Set.mem_insert_iff, ← placed.contains_iff]
      exact Roster.add_contains ring.nodes address other
    · intro position
      dsimp only
      rw [slot]
      split
      · exact kept_seat address _
      · exact placed.kept position
    · intro position other
      dsimp only
      rw [slot, Set.mem_insert_iff]
      split
      next here =>
        rw [seated_seat, placed.seated_iff, or_and_right]
        rw [mem_positions, placed.hash_eq, placed.replicas_eq] at here
        constructor
        · rintro (rfl | stays)
          · exact .inl ⟨rfl, here⟩
          · exact .inr stays
        · exact Or.imp_left And.left
      next elsewhere =>
        rw [placed.seated_iff, or_and_right]
        rw [mem_positions, placed.hash_eq, placed.replicas_eq] at elsewhere
        constructor
        · exact .inr
        · rintro (⟨rfl, stands⟩ | stays)
          · exact absurd stands elsewhere
          · exact stays

theorem Placed.addAll (placed : Placed hash replicas S ring) (addresses : List String) :
    Placed hash replicas (S ∪ {a | a ∈ addresses}) (ring.addAll addresses) := by
  induction addresses generalizing S ring with
  | nil => simpa [Ring.addAll] using placed
  | cons address rest ih =>
    have listed : insert address S ∪ {a | a ∈ rest} = S ∪ {a | a ∈ address :: rest} := by
      ext a
      simp only [Set.mem_union, Set.mem_insert_iff, Set.mem_ofPred_eq, List.mem_cons]
      rw [or_assoc, or_left_comm]
    rw [← listed]
    exact ih (placed.add address)

theorem Placed.remove (placed : Placed hash replicas S ring) (address : String) :
    Placed hash replicas (S \ {address}) (ring.remove address) := by
  unfold Ring.remove
  split
  next =>
    have slot := fun position => find?_foldl (find?_unsettle address) (unseat_unseat address)
      (ring.positions address) ring.slots position
    refine ⟨placed.hash_eq, placed.replicas_eq, ?_, ?_, ?_⟩
    · intro other
      rw [Set.mem_sdiff, Set.mem_singleton_iff, ← placed.contains_iff, and_comm]
      exact Table.contains_erase ring.nodes address other
    · intro position
      dsimp only
      rw [slot]
      split
      · exact kept_unseat address _
      · exact placed.kept position
    · intro position other
      dsimp only
      rw [slot, Set.mem_sdiff, Set.mem_singleton_iff]
      split
      next here =>
        rw [seated_unseat, placed.seated_iff, and_left_comm, and_assoc]
      next elsewhere =>
        -- The address had no seat here, so nobody else leaves.
        rw [placed.seated_iff]
        rw [mem_positions, placed.hash_eq, placed.replicas_eq] at elsewhere
        constructor
        · rintro ⟨member, stands⟩
          refine ⟨⟨member, ?_⟩, stands⟩
          rintro rfl
          exact elsewhere stands
        · rintro ⟨⟨member, _⟩, stands⟩
          exact ⟨member, stands⟩
  next absent =>
    rw [Set.sdiff_singleton_eq_self (fun member => absent ((placed.contains_iff address).mpr member))]
    exact placed

/-- At each listed position `slots` is put as the filling of the position. -/
theorem find?_foldl_insert (filling : UInt64 → Roster) (positions : List UInt64) (slots : Table UInt64 Roster)
    (position : UInt64) :
    (positions.foldl (fun slots p => slots.insert p (filling p)) slots).find? position =
      if position ∈ positions then some (filling position) else slots.find? position := by
  induction positions generalizing slots with
  | nil => simp
  | cons first rest ih =>
    rw [List.foldl_cons, ih, Table.find?_insert]
    by_cases later : position ∈ rest
    · simp [later]
    · by_cases here : position = first
      · simp [here]
      · simp [later, here]

theorem placed_ofMembers (hash : HashFunction) (replicas : Nat) (addresses : List String) :
    Placed hash (max replicas 1) {a | a ∈ addresses} (ofMembers replicas hash addresses) := by
  have taken : ∀ position, position ∈ addresses.flatMap (fun a =>
      (List.range (max replicas 1)).map (fun i => hash (Bytes.ofText (label a i)))) ↔
      ∃ a ∈ addresses, Stands hash (max replicas 1) a position := by
    simp [Stands]
  have slot := fun position => find?_foldl_insert
    (fun p => rosterOf (addresses.filter (fun a => standsAt hash (max replicas 1) a p)))
    (addresses.flatMap (fun a => (List.range (max replicas 1)).map (fun i => hash (Bytes.ofText (label a i)))))
    .empty position
  have seats : ∀ position address, (rosterOf (addresses.filter (fun a =>
      standsAt hash (max replicas 1) a position))).contains address = true ↔
      address ∈ addresses ∧ Stands hash (max replicas 1) address position := by
    simp [contains_rosterOf, standsAt_iff]
  refine ⟨rfl, rfl, ?_, ?_, ?_⟩
  · exact contains_rosterOf addresses
  · intro position names found
    dsimp only [ofMembers] at found
    rw [slot] at found
    split at found
    next here =>
      cases found
      obtain ⟨a, member, stands⟩ := (taken position).mp here
      exact Table.isEmpty_eq_false_iff.mpr ⟨a, (seats position a).mpr ⟨member, stands⟩⟩
    next => cases found
  · intro position address
    dsimp only [ofMembers]
    rw [slot]
    split
    next here => exact seats position address
    next elsewhere =>
      refine iff_of_false (not_seated_none address) ?_
      rintro ⟨member, stands⟩
      exact elsewhere ((taken position).mpr ⟨address, member, stands⟩)

/-! ## Any calls -/

/-- A call that changes a ring. -/
inductive Move where
  | add (addresses : List String)
  | addNode (address : String)
  | remove (address : String)

/-- The ring after a call. -/
def move (ring : Ring) : Move → Ring
  | .add addresses => ring.addAll addresses
  | .addNode address => ring.add address
  | .remove address => ring.remove address

/-- The ring after calls on a new ring. -/
def play (replicas : Nat) (hash : HashFunction) (moves : List Move) : Ring :=
  moves.foldl move (empty replicas hash)

/-- The members after a call, by the members before it. -/
def Move.members (before : Set String) : Move → Set String
  | .add addresses => before ∪ {a | a ∈ addresses}
  | .addNode address => insert address before
  | .remove address => before \ {address}

/-- The addresses that calls added and did not remove since. -/
def membersAfter (moves : List Move) : Set String :=
  moves.foldl Move.members ∅

theorem Placed.move (placed : Placed hash replicas S ring) (step : Move) :
    Placed hash replicas (step.members S) (ring.move step) := by
  cases step with
  | add addresses => exact placed.addAll addresses
  | addNode address => exact placed.add address
  | remove address => exact placed.remove address

theorem placed_play (replicas : Nat) (hash : HashFunction) (moves : List Move) :
    Placed hash (max replicas 1) (membersAfter moves) (play replicas hash moves) := by
  have general : ∀ S ring, Placed hash (max replicas 1) S ring →
      Placed hash (max replicas 1) (moves.foldl Move.members S) (moves.foldl Ring.move ring) := by
    induction moves with
    | nil => exact fun S ring placed => placed
    | cons step rest ih => exact fun S ring placed => ih _ _ (placed.move step)
  exact general ∅ _ (placed_empty hash replicas)

/-- The canonical ring of a set: its members, sorted, and at every position the
    sorted list of exactly the members that stand there, unless that is empty. -/
structure Canonical (hash : HashFunction) (replicas : Nat) (S : Set String) (ring : Ring) : Prop where
  hash_eq : ring.hash = hash
  replicas_eq : ring.replicas = replicas
  members_sorted : ring.members.Pairwise (· < ·)
  mem_members : ∀ address, address ∈ ring.members ↔ address ∈ S
  slot_iff : ∀ position names, (∃ slot, ring.slots.find? position = some slot ∧ slot.names = names) ↔
    names ≠ [] ∧ names.Pairwise (· < ·) ∧
      ∀ address, address ∈ names ↔ address ∈ S ∧ Stands hash replicas address position

theorem Placed.canonical (placed : Placed hash replicas S ring) : Canonical hash replicas S ring := by
  have listed : ∀ {position slot}, ring.slots.find? position = some slot → ∀ address,
      address ∈ slot.names ↔ address ∈ S ∧ Stands hash replicas address position := by
    intro position slot found address
    rw [← placed.seated_iff, found]
    exact Roster.mem_names
  refine ⟨placed.hash_eq, placed.replicas_eq, ring.nodes.names_sorted, ?_, ?_⟩
  · intro address
    rw [← placed.contains_iff]
    exact Roster.mem_names
  · intro position names
    constructor
    · rintro ⟨slot, found, rfl⟩
      refine ⟨?_, slot.names_sorted, listed found⟩
      obtain ⟨address, held⟩ := Table.isEmpty_eq_false_iff.mp (placed.kept position slot found)
      exact List.ne_nil_of_mem (Roster.mem_names.mpr held)
    · rintro ⟨some_name, sorted, exact_names⟩
      obtain ⟨address, named⟩ := List.exists_mem_of_ne_nil names some_name
      have seat := (placed.seated_iff position address).mpr ((exact_names address).mp named)
      cases found : ring.slots.find? position with
      | none => exact absurd (found ▸ seat) (not_seated_none address)
      | some slot =>
        refine ⟨slot, rfl, Roster.names_eq_iff.mpr ⟨sorted, ?_⟩⟩
        intro other
        rw [exact_names, ← listed found, Roster.mem_names]

/-- After any calls a ring is the canonical ring of the addresses that were added
    and not removed since. So it is the ring of any list of them, whatever calls
    led to them, and adding an absent address and removing it changes nothing. -/
theorem play_canonical (replicas : Nat) (hash : HashFunction) (moves : List Move) :
    Canonical hash (max replicas 1) (membersAfter moves) (play replicas hash moves) ∧
    (∀ addresses : List String, {a | a ∈ addresses} = membersAfter moves →
      play replicas hash moves = ofMembers replicas hash addresses) ∧
    (∀ others : List Move, membersAfter others = membersAfter moves →
      play replicas hash others = play replicas hash moves) ∧
    (∀ address, address ∉ membersAfter moves →
      ((play replicas hash moves).add address).remove address = play replicas hash moves) := by
  have placed := placed_play replicas hash moves
  refine ⟨placed.canonical, ?_, ?_, ?_⟩
  · intro addresses same
    have listed := placed_ofMembers hash replicas addresses
    rw [same] at listed
    exact placed.eq listed
  · intro others same
    have other := placed_play replicas hash others
    rw [same] at other
    exact other.eq placed
  · intro address absent
    have back := (placed.add address).remove address
    rw [Set.insert_sdiff_self_of_notMem absent] at back
    exact back.eq placed

end Ring

end RingCache
