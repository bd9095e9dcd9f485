/-!
# Tables in the order of their keys

A `Table` lists its entries by ascending key, no key twice, so that two tables
with the same look-ups are equal (`Table.ext_find?`). `insert`, `erase` and
`find?` are described by look-ups alone (`find?_insert`, `find?_erase`), and
`ceiling?` is the entry of the least key that is not below a bound
(`ceiling?_eq_some_iff`). A `Roster` is a table of keys only.
-/
namespace RingCache

universe u v w
variable {κ : Type u} {α : Type v} [Ord κ]

/-- Entries by ascending key, no key twice. -/
structure Table (κ : Type u) (α : Type v) [Ord κ] where
  entries : List (κ × α)
  ascending : entries.Pairwise (fun a b => compare a.1 b.1 = .lt)

/-- A set of names in ascending order. -/
abbrev Roster := Table String Unit

namespace Table

/-- Two tables with the same entries are equal. -/
@[ext]
theorem ext {s t : Table κ α} (same : s.entries = t.entries) : s = t := by
  cases s
  cases t
  cases same
  rfl

instance [DecidableEq κ] [DecidableEq α] : DecidableEq (Table κ α) := fun s t =>
  if same : s.entries = t.entries then .isTrue (ext same)
  else .isFalse (fun equal => same (congrArg entries equal))

/-- The table without entries. -/
def empty : Table κ α where
  entries := []
  ascending := .nil

instance : Inhabited (Table κ α) := ⟨empty⟩

/-- The keys, ascending. -/
def keys (t : Table κ α) : List κ :=
  t.entries.map Prod.fst

/-- The values, in the order of their keys. -/
def values (t : Table κ α) : List α :=
  t.entries.map Prod.snd

/-- The number of entries. -/
def size (t : Table κ α) : Nat :=
  t.entries.length

/-- Whether there is no entry. -/
def isEmpty (t : Table κ α) : Bool :=
  t.entries.isEmpty

/-- The entry of the least key. -/
def first? (t : Table κ α) : Option (κ × α) :=
  t.entries.head?

/-- Looks a key up among ascending entries. -/
def lookup (k : κ) : List (κ × α) → Option α
  | [] => none
  | e :: rest =>
    match compare k e.1 with
    | .lt => none
    | .eq => some e.2
    | .gt => lookup k rest

/-- The value of a key. -/
def find? (t : Table κ α) (k : κ) : Option α :=
  lookup k t.entries

/-- Whether a key has a value. -/
def contains (t : Table κ α) (k : κ) : Bool :=
  (t.find? k).isSome

/-- The entry of the least key that is not below a bound. -/
def ceiling? (t : Table κ α) (bound : κ) : Option (κ × α) :=
  t.entries.find? (fun e => (compare bound e.1).isLE)

/-- Puts a value under a key, in place of an older one. -/
def put (k : κ) (v : α) : List (κ × α) → List (κ × α)
  | [] => [(k, v)]
  | e :: rest =>
    match compare k e.1 with
    | .lt => (k, v) :: e :: rest
    | .eq => (k, v) :: rest
    | .gt => e :: put k v rest

/-- Takes the entry of a key out. -/
def cut (k : κ) : List (κ × α) → List (κ × α)
  | [] => []
  | e :: rest =>
    match compare k e.1 with
    | .lt => e :: rest
    | .eq => rest
    | .gt => e :: cut k rest

theorem mem_put {k : κ} {v : α} {e : κ × α} {entries : List (κ × α)} (listed : e ∈ put k v entries) :
    e = (k, v) ∨ e ∈ entries := by
  induction entries with
  | nil => exact .inl (List.mem_singleton.mp listed)
  | cons f rest ih =>
    unfold put at listed
    split at listed
    · exact (List.mem_cons.mp listed)
    · exact (List.mem_cons.mp listed).imp_right (List.mem_cons_of_mem f)
    · rcases List.mem_cons.mp listed with same | later
      · exact .inr (same ▸ List.mem_cons_self)
      · exact (ih later).imp_right (List.mem_cons_of_mem f)

theorem mem_cut {k : κ} {e : κ × α} {entries : List (κ × α)} (listed : e ∈ cut k entries) : e ∈ entries := by
  induction entries with
  | nil => exact listed
  | cons f rest ih =>
    unfold cut at listed
    split at listed
    · exact listed
    · exact List.mem_cons_of_mem f listed
    · rcases List.mem_cons.mp listed with same | later
      · exact same ▸ List.mem_cons_self
      · exact List.mem_cons_of_mem f (ih later)

theorem lookup_none_of_above {k : κ} {entries : List (κ × α)} (above : ∀ e ∈ entries, compare k e.1 = .lt) :
    lookup k entries = none := by
  cases entries with
  | nil => rfl
  | cons e rest => simp only [lookup, above e List.mem_cons_self]

@[simp]
theorem find?_empty (k : κ) : (empty : Table κ α).find? k = none := rfl

theorem contains_iff_exists {t : Table κ α} {k : κ} : t.contains k = true ↔ ∃ v, t.find? k = some v :=
  Option.isSome_iff_exists

theorem keys_ascending (t : Table κ α) : t.keys.Pairwise (fun a b => compare a b = .lt) :=
  List.pairwise_map.mpr t.ascending

theorem first?_eq_none_iff {t : Table κ α} : t.first? = none ↔ t.isEmpty = true := by
  simp [first?, isEmpty]

theorem mem_of_first? {t : Table κ α} {e : κ × α} (first : t.first? = some e) : e ∈ t.entries :=
  List.mem_of_head? first

/-- The first entry is the one of the least key. -/
theorem eq_or_lt_of_first? {t : Table κ α} {e f : κ × α} (first : t.first? = some e) (listed : f ∈ t.entries) :
    f = e ∨ compare e.1 f.1 = .lt := by
  obtain ⟨rest, same⟩ := List.head?_eq_some_iff.mp first
  have ascending := t.ascending
  rw [same] at listed ascending
  rcases List.mem_cons.mp listed with own | later
  · exact .inl own
  · exact .inr ((List.pairwise_cons.mp ascending).1 f later)

theorem find?_of_isEmpty {t : Table κ α} (vacant : t.isEmpty = true) (k : κ) : t.find? k = none := by
  rw [find?, List.isEmpty_iff.mp vacant]
  rfl

theorem compare_self [Std.LawfulEqOrd κ] (k : κ) : compare k k = .eq :=
  Std.ReflCmp.compare_self

theorem compare_swap [Std.TransOrd κ] (j k : κ) : compare j k = (compare k j).swap :=
  Std.OrientedCmp.eq_swap

/-- If a bound has no ceiling, all entries are below it. -/
theorem lt_of_ceiling?_eq_none [Std.TransOrd κ] {t : Table κ α} {bound : κ} {e : κ × α}
    (nothing : t.ceiling? bound = none) (listed : e ∈ t.entries) : compare e.1 bound = .lt := by
  have short := List.find?_eq_none.mp nothing e listed
  rw [compare_swap]
  cases order : compare bound e.1 <;> simp_all

theorem cut_ascending (k : κ) {entries : List (κ × α)}
    (ascending : entries.Pairwise (fun a b => compare a.1 b.1 = .lt)) :
    (cut k entries).Pairwise (fun a b => compare a.1 b.1 = .lt) := by
  induction entries with
  | nil => exact .nil
  | cons f rest ih =>
    obtain ⟨below, tail⟩ := List.pairwise_cons.mp ascending
    unfold cut
    split
    · exact ascending
    · exact tail
    · exact List.pairwise_cons.mpr ⟨fun e listed => below e (mem_cut listed), ih tail⟩

/-- The table without the entry of a key. -/
def erase (t : Table κ α) (k : κ) : Table κ α where
  entries := cut k t.entries
  ascending := cut_ascending k t.ascending

section Order
variable [Std.TransOrd κ] [Std.LawfulEqOrd κ]

theorem put_ascending (k : κ) (v : α) {entries : List (κ × α)}
    (ascending : entries.Pairwise (fun a b => compare a.1 b.1 = .lt)) :
    (put k v entries).Pairwise (fun a b => compare a.1 b.1 = .lt) := by
  induction entries with
  | nil => exact List.pairwise_singleton _ _
  | cons f rest ih =>
    obtain ⟨below, tail⟩ := List.pairwise_cons.mp ascending
    unfold put
    split
    next lt =>
      refine List.pairwise_cons.mpr ⟨?_, ascending⟩
      intro e listed
      rcases List.mem_cons.mp listed with rfl | later
      · exact lt
      · exact Std.TransCmp.lt_trans lt (below e later)
    next eq =>
      cases Std.LawfulEqCmp.eq_of_compare eq
      exact List.pairwise_cons.mpr ⟨fun e listed => below e listed, tail⟩
    next gt =>
      refine List.pairwise_cons.mpr ⟨?_, ih tail⟩
      intro e listed
      rcases mem_put listed with rfl | earlier
      · exact Std.OrientedCmp.lt_of_gt gt
      · exact below e earlier

/-- The table with a value under a key, in place of an older one. -/
def insert (t : Table κ α) (k : κ) (v : α) : Table κ α where
  entries := put k v t.entries
  ascending := put_ascending k v t.ascending

/-- The table with the value of a key changed, if it has one. -/
def modify (t : Table κ α) (k : κ) (change : α → α) : Table κ α :=
  match t.find? k with
  | some v => t.insert k (change v)
  | none => t

/-! ## Look-ups -/

theorem lookup_put (k j : κ) (v : α) {entries : List (κ × α)}
    (ascending : entries.Pairwise (fun a b => compare a.1 b.1 = .lt)) :
    lookup j (put k v entries) = if compare j k = .eq then some v else lookup j entries := by
  induction entries with
  | nil =>
    simp only [put, lookup]
    cases compare j k <;> rfl
  | cons f rest ih =>
    obtain ⟨below, tail⟩ := List.pairwise_cons.mp ascending
    unfold put
    split
    next lt =>
      rw [lookup]
      cases order : compare j k with
      | lt => simp [lookup, Std.TransCmp.lt_trans order lt]
      | eq => simp
      | gt => simp
    next eq =>
      cases Std.LawfulEqCmp.eq_of_compare eq
      simp only [lookup]
      cases compare j f.1 <;> simp
    next gt =>
      rw [lookup, ih tail]
      cases order : compare j f.1 with
      | lt =>
        have apart : compare j k = .lt := Std.TransCmp.lt_trans order (Std.OrientedCmp.lt_of_gt gt)
        simp [lookup, order, apart]
      | eq =>
        have apart : compare j k = .lt := by
          rw [Std.LawfulEqCmp.eq_of_compare order]
          exact Std.OrientedCmp.lt_of_gt gt
        simp [lookup, order, apart]
      | gt => simp [lookup, order]

theorem lookup_cut (k j : κ) {entries : List (κ × α)}
    (ascending : entries.Pairwise (fun a b => compare a.1 b.1 = .lt)) :
    lookup j (cut k entries) = if compare j k = .eq then none else lookup j entries := by
  induction entries with
  | nil => simp [cut, lookup]
  | cons f rest ih =>
    obtain ⟨below, tail⟩ := List.pairwise_cons.mp ascending
    unfold cut
    split
    next lt =>
      split
      next same =>
        cases Std.LawfulEqCmp.eq_of_compare same
        simp [lookup, lt]
      · rfl
    next eq =>
      cases Std.LawfulEqCmp.eq_of_compare eq
      cases order : compare j f.1 with
      | lt =>
        simp only [lookup, order]
        exact lookup_none_of_above (fun e listed => Std.TransCmp.lt_trans order (below e listed))
      | eq =>
        cases Std.LawfulEqCmp.eq_of_compare order
        exact lookup_none_of_above below
      | gt => simp [lookup, order]
    next gt =>
      rw [lookup, ih tail]
      cases order : compare j f.1 with
      | lt =>
        have apart : compare j k = .lt := Std.TransCmp.lt_trans order (Std.OrientedCmp.lt_of_gt gt)
        simp [lookup, order, apart]
      | eq =>
        have apart : compare j k = .lt := by
          rw [Std.LawfulEqCmp.eq_of_compare order]
          exact Std.OrientedCmp.lt_of_gt gt
        simp [lookup, order, apart]
      | gt => simp [lookup, order]

/-- A value is found under its key, and the others stay. -/
theorem find?_insert [DecidableEq κ] (t : Table κ α) (k j : κ) (v : α) :
    (t.insert k v).find? j = if j = k then some v else t.find? j := by
  have iff : compare j k = .eq ↔ j = k :=
    ⟨Std.LawfulEqCmp.eq_of_compare, fun same => same ▸ compare_self k⟩
  simp only [find?, insert, lookup_put k j v t.ascending, iff]

/-- Nothing is found under a key that was erased, and the others stay. -/
theorem find?_erase [DecidableEq κ] (t : Table κ α) (k j : κ) :
    (t.erase k).find? j = if j = k then none else t.find? j := by
  have iff : compare j k = .eq ↔ j = k :=
    ⟨Std.LawfulEqCmp.eq_of_compare, fun same => same ▸ compare_self k⟩
  simp only [find?, erase, lookup_cut k j t.ascending, iff]

/-- A value that was modified is found under its key, and the others stay. -/
theorem find?_modify [DecidableEq κ] (t : Table κ α) (k j : κ) (change : α → α) :
    (t.modify k change).find? j = if j = k then (t.find? k).map change else t.find? j := by
  unfold modify
  split
  next v found => rw [find?_insert, found, Option.map_some]
  next missing =>
    split
    next same => rw [same, missing, Option.map_none]
    next => rfl

theorem lookup_eq_some_iff {k : κ} {v : α} {entries : List (κ × α)}
    (ascending : entries.Pairwise (fun a b => compare a.1 b.1 = .lt)) :
    lookup k entries = some v ↔ (k, v) ∈ entries := by
  induction entries with
  | nil => simp [lookup]
  | cons f rest ih =>
    obtain ⟨below, tail⟩ := List.pairwise_cons.mp ascending
    rw [lookup]
    cases order : compare k f.1 with
    | lt =>
      have absent : ∀ e ∈ f :: rest, e.1 ≠ k := by
        intro e listed same
        rcases List.mem_cons.mp listed with rfl | later
        · rw [same, compare_self] at order
          cases order
        · have beyond := Std.TransCmp.lt_trans order (below e later)
          rw [same, compare_self] at beyond
          cases beyond
      simp only [reduceCtorEq, false_iff]
      exact fun listed => absent _ listed rfl
    | eq =>
      cases Std.LawfulEqCmp.eq_of_compare order
      constructor
      · intro found
        cases found
        exact List.mem_cons_self
      · intro listed
        rcases List.mem_cons.mp listed with same | later
        · rw [← same]
        · have beyond := below _ later
          rw [compare_self] at beyond
          cases beyond
    | gt =>
      rw [ih tail]
      constructor
      · exact List.mem_cons_of_mem f
      · intro listed
        rcases List.mem_cons.mp listed with same | later
        · rw [← same, compare_self] at order
          cases order
        · exact later

/-- A value is found under a key exactly when it is listed there. -/
theorem find?_eq_some_iff {t : Table κ α} {k : κ} {v : α} : t.find? k = some v ↔ (k, v) ∈ t.entries :=
  lookup_eq_some_iff t.ascending

theorem entries_eq_of_lookup {xs ys : List (κ × α)} (hx : xs.Pairwise (fun a b => compare a.1 b.1 = .lt))
    (hy : ys.Pairwise (fun a b => compare a.1 b.1 = .lt)) (same : ∀ k, lookup k xs = lookup k ys) : xs = ys := by
  induction xs generalizing ys with
  | nil =>
    cases ys with
    | nil => rfl
    | cons e rest =>
      have head := same e.1
      simp [lookup] at head
  | cons e xs ih =>
    cases ys with
    | nil =>
      have head := same e.1
      simp [lookup] at head
    | cons f ys =>
      obtain ⟨belowX, tailX⟩ := List.pairwise_cons.mp hx
      obtain ⟨belowY, tailY⟩ := List.pairwise_cons.mp hy
      have heads : e = f := by
        have atE := same e.1
        have atF := same f.1
        rw [lookup, compare_self] at atE
        conv at atF => rhs; rw [lookup, compare_self]
        rw [lookup] at atE atF
        cases order : compare e.1 f.1 with
        | lt => simp [order] at atE
        | eq =>
          simp only [order, Option.some.injEq] at atE
          exact Prod.ext (Std.LawfulEqCmp.eq_of_compare order) atE
        | gt => simp [Std.OrientedCmp.lt_of_gt order] at atF
      cases heads
      congr 1
      apply ih tailX tailY
      intro k
      have here := same k
      rw [lookup, lookup] at here
      cases order : compare k e.1 with
      | lt =>
        rw [lookup_none_of_above (fun g listed => Std.TransCmp.lt_trans order (belowX g listed)),
          lookup_none_of_above (fun g listed => Std.TransCmp.lt_trans order (belowY g listed))]
      | eq =>
        cases Std.LawfulEqCmp.eq_of_compare order
        rw [lookup_none_of_above belowX, lookup_none_of_above belowY]
      | gt => simpa [order] using here

/-- Tables with the same look-ups are equal. -/
theorem ext_find? {s t : Table κ α} (same : ∀ k, s.find? k = t.find? k) : s = t :=
  ext (entries_eq_of_lookup s.ascending t.ascending same)

/-! ## Keys -/

theorem contains_insert [DecidableEq κ] (t : Table κ α) (k j : κ) (v : α) :
    (t.insert k v).contains j = true ↔ j = k ∨ t.contains j = true := by
  simp only [contains, find?_insert]
  split
  · simp [*]
  · simp [*]

theorem contains_erase [DecidableEq κ] (t : Table κ α) (k j : κ) :
    (t.erase k).contains j = true ↔ j ≠ k ∧ t.contains j = true := by
  simp only [contains, find?_erase]
  split
  · simp [*]
  · simp [*]

theorem mem_keys_iff {t : Table κ α} {k : κ} : k ∈ t.keys ↔ t.contains k = true := by
  simp only [keys, List.mem_map, contains_iff_exists, find?_eq_some_iff]
  constructor
  · rintro ⟨e, listed, rfl⟩
    exact ⟨e.2, listed⟩
  · rintro ⟨v, listed⟩
    exact ⟨(k, v), listed, rfl⟩

/-- Ascending lists of the same keys are equal. -/
theorem eq_of_ascending {xs ys : List κ} (hx : xs.Pairwise (fun a b => compare a b = .lt))
    (hy : ys.Pairwise (fun a b => compare a b = .lt)) (same : ∀ k, k ∈ xs ↔ k ∈ ys) : xs = ys := by
  have distinct : ∀ {zs : List κ}, zs.Pairwise (fun a b => compare a b = .lt) → zs.Nodup := by
    intro zs order
    refine order.imp ?_
    rintro a _ less rfl
    rw [compare_self] at less
    cases less
  have perm : xs.Perm ys := (List.perm_ext_iff_of_nodup (distinct hx) (distinct hy)).mpr same
  refine perm.eq_of_pairwise ?_ hx hy
  intro a b _ _ ab ba
  rw [compare_swap, ab] at ba
  cases ba

theorem keys_eq_of_contains {β : Type w} {s : Table κ α} {t : Table κ β}
    (same : ∀ k, s.contains k = true ↔ t.contains k = true) : s.keys = t.keys :=
  eq_of_ascending s.keys_ascending t.keys_ascending
    (fun k => mem_keys_iff.trans ((same k).trans mem_keys_iff.symm))

/-- A table is not empty exactly when some key has a value. -/
theorem isEmpty_eq_false_iff {t : Table κ α} : t.isEmpty = false ↔ ∃ k, t.contains k = true := by
  simp only [← mem_keys_iff]
  rw [isEmpty, List.isEmpty_eq_false_iff_exists_mem]
  constructor
  · rintro ⟨e, listed⟩
    exact ⟨e.1, List.mem_map_of_mem listed⟩
  · rintro ⟨k, listed⟩
    obtain ⟨e, found, _⟩ := List.mem_map.mp listed
    exact ⟨e, found⟩

/-- The ceiling of a bound is an entry that is not below it, while every
    entry of a lesser key is. -/
theorem ceiling?_eq_some_iff {t : Table κ α} {bound : κ} {e : κ × α} :
    t.ceiling? bound = some e ↔
      e ∈ t.entries ∧ (compare bound e.1).isLE ∧ ∀ f ∈ t.entries, compare f.1 e.1 = .lt → compare f.1 bound = .lt := by
  obtain ⟨entries, ascending⟩ := t
  simp only [ceiling?]
  induction entries with
  | nil => simp
  | cons g rest ih =>
    obtain ⟨below, tail⟩ := List.pairwise_cons.mp ascending
    rw [List.find?_cons]
    cases reached : (compare bound g.1).isLE with
    | true =>
      simp only [Option.some.injEq]
      constructor
      · rintro rfl
        refine ⟨List.mem_cons_self, reached, ?_⟩
        intro f listed less
        rcases List.mem_cons.mp listed with rfl | later
        · rw [compare_self] at less
          cases less
        · have more := below f later
          rw [compare_swap, less] at more
          cases more
      · rintro ⟨listed, _, least⟩
        rcases List.mem_cons.mp listed with same | later
        · exact same.symm
        · have short := least g List.mem_cons_self (below e later)
          rw [compare_swap, short] at reached
          cases reached
    | false =>
      have short : compare g.1 bound = .lt := by
        rw [compare_swap]
        cases order : compare bound g.1 <;> simp_all
      rw [ih tail]
      constructor
      · rintro ⟨listed, high, least⟩
        refine ⟨List.mem_cons_of_mem g listed, high, ?_⟩
        intro f member less
        rcases List.mem_cons.mp member with rfl | later
        · exact short
        · exact least f later less
      · rintro ⟨listed, high, least⟩
        rcases List.mem_cons.mp listed with rfl | later
        · rw [reached] at high
          cases high
        · exact ⟨later, high, fun f member => least f (List.mem_cons_of_mem g member)⟩

end Order

end Table

namespace Roster

/-- The names, ascending. -/
def names (r : Roster) : List String :=
  r.keys

/-- The roster with a name. -/
def add (r : Roster) (name : String) : Roster :=
  r.insert name ()

end Roster

end RingCache
