import RingCache.Proofs.Concord
import RingCache.Proofs.Errands

/-!
# What gets and removals do to groups

In a cluster of members in concord a get changes one thing about what is stored: the
owner of the key has the value afterwards, and gives it (`Cluster.Serves`). A removal
drops the key everywhere (`Cluster.Sheds`). So what is stored at a member are keys
that it owns, with values that its loader gave (`Cluster.Kept`).
-/
namespace RingCache
open Wire

/-- A get or a removal of a key, at a member and a time. -/
inductive Demand where
  | get (member : MemberId) (now : Time) (key : String)
  | remove (member : MemberId) (now : Time) (key : String)
deriving DecidableEq, Repr

/-- The member that a demand is made at. -/
def Demand.member : Demand → MemberId
  | .get member _ _ | .remove member _ _ => member

def Demand.key : Demand → String
  | .get _ _ key | .remove _ _ key => key

/-- The time at which a get comes to the owner of its key. -/
def Demand.comes (latency : Time) (owner : MemberId) : Demand → Time
  | .get member now _ => if member = owner then now else now + latency
  | .remove _ now _ => now

/-- A value that a loader gives for a key at some time. -/
def Loader.MayGive (loader : Loader) (key : String) (value : Bytes) : Prop :=
  ∃ now n delay, loader.work now key n = .after delay (.ok value)

/-! ## Groups at later times -/

namespace Holding
variable {holding before after last : Holding} {now delay : Time} {key : String} {value : Bytes}

/-- A group at a later time: its loader gives what it gave, and its store has the
    room that it had. -/
structure Evolves (before after : Holding) : Prop where
  work : after.loader.work = before.loader.work
  capacity : after.group.store.capacity = before.group.store.capacity
  name : after.group.name = before.group.name

theorem Evolves.trans (first : before.Evolves after) (second : after.Evolves last) : before.Evolves last :=
  ⟨second.work.trans first.work, second.capacity.trans first.capacity, second.name.trans first.name⟩

theorem Evolves.fits (evolves : before.Evolves after) (fits : before.group.store.fits key value = true) :
    after.group.store.fits key value = true := by
  rwa [Store.fits, evolves.capacity]

theorem Evolves.neverFails (evolves : before.Evolves after) (gives : before.loader.NeverFails key) :
    after.loader.NeverFails key := by
  rwa [Loader.NeverFails, evolves.work]

theorem Evolves.mayGive (evolves : before.Evolves after) (gives : after.loader.MayGive key value) :
    before.loader.MayGive key value := by
  rwa [Loader.MayGive, ← evolves.work]

theorem Answers.evolves (answers : holding.Answers now key after delay value) : holding.Evolves after := by
  cases answers <;> exact ⟨rfl, rfl, rfl⟩

theorem Answers.given (answers : holding.Answers now key after delay value) :
    holding.group.store.find? key = some value ∨ holding.group.store.find? key = none ∧
      holding.loader.work now key (holding.asked key) = .after delay (.ok value) := by
  cases answers with
  | stored found => exact .inl found
  | loaded missing gives => exact .inr ⟨missing, gives⟩

/-- After a get the value is stored, and else nothing has changed. -/
theorem Answers.find? (answers : holding.Answers now key after delay value)
    (fits : holding.group.store.find? key = none → holding.group.store.fits key value = true) (other : String) :
    after.group.store.find? other = if other = key then some value else holding.group.store.find? other := by
  cases answers with
  | stored found =>
    split
    next same => rw [same]; exact found
    next => rfl
  | loaded missing =>
    have room := fits missing
    simp only [Group.loaded, Group.count, Store.insert, room, if_true, Store.find?]
    exact Table.find?_insert ..

/-- The loader was asked if nothing was stored. -/
theorem Answers.asked (answers : holding.Answers now key after delay value) (other : String) :
    after.asked other =
      if other = key ∧ holding.group.store.find? key = none then holding.asked other + 1 else holding.asked other := by
  cases answers with
  | stored found => simp [Holding.asked, found, Holding.count]
  | loaded missing =>
    simp only [Holding.asked, Loader.ask, Table.find?_insert, missing, and_true]
    split
    next same => rw [same, Option.getD_some]
    next => rfl

/-- Groups that differ in what they have counted have the same loader and store. -/
theorem same_of_quiet (same : before.quiet = after.quiet) :
    before.loader = after.loader ∧ before.group.store = after.group.store :=
  ⟨(congrArg Holding.loader same :), (congrArg (fun h : Holding => h.group.store) same :)⟩

theorem find?_drop (holding : Holding) (key other : String) :
    (holding.drop key).group.store.find? other = if other = key then none else holding.group.store.find? other :=
  Table.find?_erase ..

end Holding

namespace Cluster
variable {c later last : Cluster} {name key : String} {id : MemberId} {holding counted after : Holding}
variable {time delay : Time} {value : Bytes}

/-! ## What is seen of groups -/

/-- The value of a key that is stored at a member. -/
def stored (c : Cluster) (name : String) (id : MemberId) (key : String) : Option Bytes :=
  (c.holding? id name).bind (fun holding => holding.group.store.find? key)

/-- How often the loader of a member was asked for a key. -/
def asked (c : Cluster) (name : String) (id : MemberId) (key : String) : Nat :=
  ((c.holding? id name).map (fun holding => holding.asked key)).getD 0

/-- The value that the loader of a member gives if it is asked for a key now. -/
def gives (c : Cluster) (name : String) (id : MemberId) (now : Time) (key : String) : Option Bytes :=
  (c.holding? id name).bind (fun holding =>
    match holding.loader.work now key (holding.asked key) with
    | .after _ (.ok value) => some value
    | _ => none)

theorem exists_of_gives (gives : c.gives name id time key = some value) :
    ∃ holding, c.holding? id name = some holding ∧ holding.loader.MayGive key value := by
  obtain ⟨holding, held, loads⟩ := Option.bind_eq_some_iff.mp gives
  refine ⟨holding, held, ?_⟩
  split at loads
  next delay other work => exact ⟨time, _, delay, Option.some.inj loads ▸ work⟩
  next => cases loads

theorem stored_of_holding (held : c.holding? id name = some holding) (key : String) :
    c.stored name id key = holding.group.store.find? key := by
  rw [stored, held, Option.bind_some]

theorem asked_of_holding (held : c.holding? id name = some holding) (key : String) :
    c.asked name id key = holding.asked key := by
  rw [asked, held]
  rfl

theorem stored_of_quietly (c : Cluster) (name : String) (id : MemberId) (key : String) :
    c.stored name id key = (c.quietly name id).bind (fun holding => holding.group.store.find? key) := by
  rw [stored, quietly]
  cases c.holding? id name <;> rfl

theorem asked_of_quietly (c : Cluster) (name : String) (id : MemberId) (key : String) :
    c.asked name id key = ((c.quietly name id).map (fun holding => holding.asked key)).getD 0 := by
  rw [asked, quietly]
  cases c.holding? id name <;> rfl

theorem exists_of_quietly {quiet : Holding} (held : c.quietly name id = some quiet) :
    ∃ holding, c.holding? id name = some holding ∧ holding.quiet = quiet :=
  Option.map_eq_some_iff.mp held

/-- All groups of a name are there at a later time. -/
def Evolve (c later : Cluster) (name : String) : Prop :=
  ∀ id holding, c.holding? id name = some holding → ∃ after, later.holding? id name = some after ∧ holding.Evolves after

theorem Evolve.refl (c : Cluster) (name : String) : c.Evolve c name :=
  fun _ holding held => ⟨holding, held, rfl, rfl, rfl⟩

theorem Evolve.trans (first : c.Evolve later name) (second : later.Evolve last name) : c.Evolve last name := by
  intro id holding held
  obtain ⟨between, heldThen, evolves⟩ := first id holding held
  obtain ⟨after, heldLast, evolvesThen⟩ := second id between heldThen
  exact ⟨after, heldLast, evolves.trans evolvesThen⟩

theorem evolve_of_quietly (evolves : ∀ id quiet, c.quietly name id = some quiet →
      ∃ after, later.quietly name id = some after ∧ quiet.Evolves after) : c.Evolve later name := by
  intro id holding held
  have quiet : c.quietly name id = some holding.quiet := congrArg (Option.map Holding.quiet) held
  obtain ⟨after, heldThen, work, capacity, named⟩ := evolves id holding.quiet quiet
  obtain ⟨final, heldLast, rfl⟩ := exists_of_quietly heldThen
  exact ⟨final, heldLast, work, capacity, named⟩

/-! ## A get -/

/-- A get of a key was served by a member at a time, with a value: it has the value
    stored afterwards, and its loader was asked if it had none. -/
structure Serves (c later : Cluster) (name key : String) (id : MemberId) (time : Time) (value : Bytes) : Prop where
  keeps : c.Keeps later
  evolve : c.Evolve later name
  stored : ∀ other any, later.stored name other any =
    if other = id ∧ any = key then some value else c.stored name other any
  asked : ∀ other any, later.asked name other any =
    if other = id ∧ any = key ∧ c.stored name id key = none then c.asked name other any + 1
    else c.asked name other any
  given : c.stored name id key = some value ∨ c.stored name id key = none ∧ c.gives name id time key = some value

section
variable (held : c.holding? id name = some holding) (answers : counted.Answers time key after delay value)
variable (same : counted.quiet = holding.quiet)
variable (quietly : later.quietly name = Function.update (c.quietly name) id (some after.quiet))
include held answers same quietly

theorem evolve_of_answers : c.Evolve later name := by
  have before : c.quietly name id = some counted.quiet := by rw [same, Cluster.quietly, held]; rfl
  refine evolve_of_quietly ?_
  intro other quiet heldThere
  rw [quietly]
  by_cases own : other = id
  · subst own
    obtain rfl : counted.quiet = quiet := Option.some.inj (before.symm.trans heldThere)
    obtain ⟨work, capacity, named⟩ := answers.evolves
    exact ⟨after.quiet, Function.update_self .., work, capacity, named⟩
  · exact ⟨quiet, (Function.update_of_ne own ..).trans heldThere, rfl, rfl, rfl⟩

theorem stored_of_answers (fits : holding.group.store.find? key = none → holding.group.store.fits key value = true)
    (other : MemberId) (any : String) :
    later.stored name other any = if other = id ∧ any = key then some value else c.stored name other any := by
  have store := (Holding.same_of_quiet same).2
  rw [stored_of_quietly, quietly, Function.update_apply]
  by_cases own : other = id
  · subst own
    rw [if_pos rfl, stored_of_holding held, ← store]
    simp only [Option.bind_some, true_and]
    exact answers.find? (by rwa [store]) any
  · rw [if_neg own, ← stored_of_quietly, if_neg (fun both => own both.1)]

theorem asked_of_answers (other : MemberId) (any : String) :
    later.asked name other any =
      if other = id ∧ any = key ∧ c.stored name id key = none then c.asked name other any + 1
      else c.asked name other any := by
  obtain ⟨loader, store⟩ := Holding.same_of_quiet same
  rw [asked_of_quietly, quietly, Function.update_apply]
  by_cases own : other = id
  · subst own
    rw [if_pos rfl, asked_of_holding held, stored_of_holding held, ← store, Holding.asked, ← loader]
    simp only [true_and]
    exact answers.asked any
  · rw [if_neg own, ← asked_of_quietly, if_neg (fun all => own all.1)]

/-- A group serves a get, when it may have counted something before. -/
theorem serves_of_answers (keeps : c.Keeps later)
    (fits : holding.group.store.find? key = none → holding.group.store.fits key value = true) :
    c.Serves later name key id time value where
  keeps
  evolve := evolve_of_answers held answers same quietly
  stored := stored_of_answers held answers same quietly fits
  asked := asked_of_answers held answers same quietly
  given := by
    obtain ⟨loader, store⟩ := Holding.same_of_quiet same
    rw [stored_of_holding held, ← store]
    obtain found | ⟨missing, gives⟩ := answers.given
    · exact .inl found
    · refine .inr ⟨missing, ?_⟩
      rw [Cluster.gives, held, Option.bind_some, Holding.asked, ← loader]
      rw [Holding.asked] at gives
      rw [gives]

end

/-! ## A removal -/

/-- A key was dropped everywhere. -/
structure Sheds (c later : Cluster) (name key : String) : Prop where
  keeps : c.Keeps later
  evolve : c.Evolve later name
  stored : ∀ other any, later.stored name other any = if any = key then none else c.stored name other any
  asked : ∀ other any, later.asked name other any = c.asked name other any

theorem sheds_of_quietly (keeps : c.Keeps later)
    (quietly : ∀ id, later.quietly name id = (c.quietly name id).map (·.drop key)) :
    c.Sheds later name key := by
  refine ⟨keeps, evolve_of_quietly ?_, ?_, ?_⟩
  · intro id quiet held
    exact ⟨quiet.drop key, by rw [quietly, held, Option.map_some], rfl, rfl, rfl⟩
  · intro other any
    rw [stored_of_quietly, stored_of_quietly, quietly]
    cases c.quietly name other with
    | none => simp
    | some quiet => exact quiet.find?_drop key any
  · intro other any
    rw [asked_of_quietly, asked_of_quietly, quietly, Option.map_map]
    rfl

end Cluster

end RingCache
