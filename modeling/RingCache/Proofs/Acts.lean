import RingCache.Attendance
import RingCache.Proofs.ClusterChange
import RingCache.Proofs.Demands
import RingCache.Proofs.Letters

/-!
# What a group goes through

Whatever happens to a group is one of a few acts (`Act`). The loader of the group, its name
and its room stay (`Holding.evolves_after`), and requests and gets are counted by one act
each (`Holding.serverRequests_after`, `Holding.gets_after`). A step of a get or of a removal
is acts on its own group, and leaves the other groups of the member as they are
(`Picker.exists_goes_advance`). The peers may be picked by anyone, as long as what they are
asked for does not come back to the member (`Picker.LeavesAlone`).
-/
namespace RingCache

/-! ## Acts -/

/-- What happens to a group. -/
inductive Act where
  | requested
  | lookedUp (key : String)
  | answered (answer : Except Failure Bytes)
  | asked (now : Time) (key : String)
  | loaded (key : String) (answer : Except Failure Bytes)
  | dropped (key : String)

namespace Act

/-- The group after an act. -/
def on (act : Act) (holding : Holding) : Holding :=
  match act with
  | requested => holding.count .serverRequests
  | lookedUp key => { holding with group := (holding.group.lookup key).1 }
  | answered answer => { holding with group := (holding.group.peerAnswered answer).1 }
  | asked now key => { holding with loader := (holding.loader.ask now key).1 }
  | loaded key answer => { holding with group := (holding.group.loaded key answer).1 }
  | dropped key => holding.drop key

/-- A request is counted. -/
def isRequest : Act → Bool
  | requested => true
  | _ => false

/-- A get is counted. -/
def isLookUp : Act → Bool
  | lookedUp _ => true
  | _ => false

end Act

theorem Group.gets_lookup (group : Group) (key : String) :
    (group.lookup key).1.counters.gets = group.counters.gets + 1 := by
  rw [lookup]
  split <;> rfl

theorem Group.gets_peerAnswered (group : Group) (answer : Except Failure Bytes) :
    (group.peerAnswered answer).1.counters.gets = group.counters.gets := by
  cases answer with
  | ok value => rfl
  | error failure => cases failure <;> rfl

theorem Group.gets_loaded (group : Group) (key : String) (answer : Except Failure Bytes) :
    (group.loaded key answer).1.counters.gets = group.counters.gets := by
  cases answer with
  | ok value => rfl
  | error failure => cases failure <;> rfl

namespace Holding
variable {holding : Holding} {acts later : List Act}

/-- The group after some acts. -/
def after (holding : Holding) (acts : List Act) : Holding :=
  acts.foldl (fun holding act => act.on holding) holding

theorem map_after_nil (found : Option Holding) : found.map (·.after []) = found :=
  Option.map_id'

theorem after_append (holding : Holding) (acts later : List Act) :
    holding.after (acts ++ later) = (holding.after acts).after later :=
  List.foldl_append

/-- What goes up by one with each act of a kind, and with no other, counts these acts. -/
theorem measure_after (measure : Holding → Nat) {counted : Act → Bool}
    (one : ∀ act holding, measure (act.on holding) = measure holding + if counted act then 1 else 0)
    (holding : Holding) (acts : List Act) :
    measure (holding.after acts) = measure holding + acts.countP counted := by
  induction acts generalizing holding with
  | nil => rfl
  | cons act acts ih =>
    show measure ((act.on holding).after acts) = _
    rw [ih, one, List.countP_cons]
    omega

theorem serverRequests_after (holding : Holding) (acts : List Act) :
    (holding.after acts).group.counters.serverRequests =
      holding.group.counters.serverRequests + acts.countP Act.isRequest := by
  refine measure_after (fun holding => holding.group.counters.serverRequests) (fun act holding => ?_) holding acts
  cases act with
  | requested | asked | dropped => rfl
  | lookedUp key => exact Group.serverRequests_lookup holding.group key
  | answered answer => exact Group.serverRequests_peerAnswered holding.group answer
  | loaded key answer => exact Group.serverRequests_loaded holding.group key answer

theorem gets_after (holding : Holding) (acts : List Act) :
    (holding.after acts).group.counters.gets = holding.group.counters.gets + acts.countP Act.isLookUp := by
  refine measure_after (fun holding => holding.group.counters.gets) (fun act holding => ?_) holding acts
  cases act with
  | requested | asked | dropped => rfl
  | lookedUp key => exact Group.gets_lookup holding.group key
  | answered answer => exact Group.gets_peerAnswered holding.group answer
  | loaded key answer => exact Group.gets_loaded holding.group key answer

theorem evolves_on (holding : Holding) (act : Act) : holding.Evolves (act.on holding) := by
  cases act with
  | requested | asked | dropped => exact ⟨rfl, rfl, rfl⟩
  | lookedUp key =>
    simp only [Act.on, Group.lookup]
    split <;> exact ⟨rfl, rfl, rfl⟩
  | answered answer =>
    cases answer with
    | ok value => exact ⟨rfl, rfl, rfl⟩
    | error failure => cases failure <;> exact ⟨rfl, rfl, rfl⟩
  | loaded key answer =>
    cases answer with
    | ok value => exact ⟨rfl, rfl, rfl⟩
    | error failure => cases failure <;> exact ⟨rfl, rfl, rfl⟩

/-- A group keeps its loader, its name and its room. -/
theorem evolves_after (holding : Holding) (acts : List Act) : holding.Evolves (holding.after acts) := by
  induction acts generalizing holding with
  | nil => exact ⟨rfl, rfl, rfl⟩
  | cons act acts ih => exact (holding.evolves_on act).trans (ih (act.on holding))

end Holding

/-! ## Registries -/

namespace Registry
variable {γ : Type} {registry : Registry γ} {name : String} {first second : γ → γ}

theorem find?_update (registry : Registry γ) (name other : String) (change : γ → γ) :
    (registry.update name change).find? other =
      if other = name then (registry.find? name).map change else registry.find? other :=
  Table.find?_modify registry.groups name other change

theorem ext_find? {other : Registry γ} (same : ∀ name, registry.find? name = other.find? name) : registry = other :=
  congrArg Registry.mk (Table.ext_find? same)

/-- Changes of the group that is there are the same if they agree on it. -/
theorem update_congr (same : ∀ group, registry.find? name = some group → first group = second group) :
    registry.update name first = registry.update name second := by
  apply ext_find?
  intro other
  rw [find?_update, find?_update]
  by_cases here : other = name
  · subst here
    rw [if_pos rfl, if_pos rfl]
    exact Option.map_congr same
  · rw [if_neg here, if_neg here]

theorem update_eq_self (same : ∀ group, registry.find? name = some group → first group = group) :
    registry.update name first = registry := by
  apply ext_find?
  intro other
  rw [find?_update]
  split
  next here =>
    subst here
    cases found : registry.find? other with
    | none => rfl
    | some group => rw [Option.map_some, same group found]
  next => rfl

theorem update_update (registry : Registry γ) (name : String) (first second : γ → γ) :
    (registry.update name first).update name second = registry.update name (second ∘ first) := by
  apply ext_find?
  intro other
  simp only [find?_update]
  split
  next => exact Option.map_map second first _
  next => rfl

end Registry

namespace Cluster
variable {c later last : Cluster} {member : MemberId} {name other : String} {holding : Holding} {acts more : List Act}
variable {change : Holding → Holding}

/-- The groups of a member, if there is such a member. -/
def groupsOf? (c : Cluster) (id : MemberId) : Option (Registry Holding) :=
  c.members[id]?.map Member.registry

theorem holding?_eq_bind (c : Cluster) (id : MemberId) (name : String) :
    c.holding? id name = (c.groupsOf? id).bind (·.find? name) := by
  rw [holding?, registry, groupsOf?]
  cases c.members[id]? with
  | none => exact Table.find?_empty name
  | some member => rfl

theorem holding?_congr (same : later.groupsOf? member = c.groupsOf? member) (name : String) :
    later.holding? member name = c.holding? member name := by
  rw [holding?_eq_bind, holding?_eq_bind, same]

theorem isSome_groupsOf?_of_held (held : c.holding? member name = some holding) : (c.groupsOf? member).isSome := by
  rw [holding?_eq_bind] at held
  obtain ⟨registry, known, -⟩ := Option.bind_eq_some_iff.mp held
  rw [known]
  rfl

theorem groupsOf?_congr (same : later.members = c.members) (id : MemberId) : later.groupsOf? id = c.groupsOf? id := by
  rw [groupsOf?, groupsOf?, same]

theorem groupsOf?_modifyHolding (c : Cluster) (id : MemberId) (name : String) (change : Holding → Holding) :
    (c.modifyHolding id name change).groupsOf? id = (c.groupsOf? id).map (·.update name change) := by
  simp only [groupsOf?, modifyHolding, modifyMember, List.getElem?_modify, if_true]
  cases c.members[id]? <;> rfl

/-! ### Changes of the membership -/

theorem groupsOf?_changed (c : Cluster) (id member : MemberId) (step : ChangeStep) :
    (c.changed id step).groupsOf? member = c.groupsOf? member := by
  have put : (c.putPool id step.pool).groupsOf? member = c.groupsOf? member := by
    simp only [groupsOf?, putPool, modifyMember, List.getElem?_modify]
    by_cases same : id = member
    · simp only [same, if_true]
      cases c.members[member]? <;> rfl
    · simp [same]
  rw [changed]
  split
  next peer closes => exact (groupsOf?_congr (members_sweep ..) member).trans put
  next => exact put

/-- A change of a membership leaves all groups alone. -/
theorem groupsOf?_pursue (c : Cluster) (id : MemberId) (party : PartyId) (stage : ChangeStage) (member : MemberId) :
    (c.pursue id party stage).groupsOf? member = c.groupsOf? member := by
  have answered (c : Cluster) (pool : Pool) (stage : ChangeStage) :
      (c.changeEvent pool stage).2.groupsOf? member = c.groupsOf? member :=
    groupsOf?_congr (members_changeEvent c pool stage) member
  fun_induction Cluster.pursue c id party stage with
  | case1 => rfl
  | case2 c stage pool found event next goes stuck =>
    have same := answered c pool stage
    rwa [goes] at same
  | case3 c stage pool found event next goes step advanced ih =>
    have same := answered c pool stage
    rw [goes] at same
    rw [ih, groupsOf?_changed]
    exact same

/-! ## Acts on one group -/

/-- A later state of a cluster in which a group of a member went through acts, and the
    other groups of the member are as they were. -/
def Goes (c : Cluster) (member : MemberId) (name : String) (acts : List Act) (later : Cluster) : Prop :=
  later.groupsOf? member = (c.groupsOf? member).map (·.update name (·.after acts))

theorem goes_of_same (same : later.groupsOf? member = c.groupsOf? member) (name : String) :
    c.Goes member name [] later := by
  rw [Goes, same]
  cases c.groupsOf? member with
  | none => rfl
  | some registry => exact congrArg some (Registry.update_eq_self (fun _ _ => rfl)).symm

/-- A group that is not there goes through anything. -/
theorem goes_of_absent (absent : c.holding? member name = none) (acts : List Act) : c.Goes member name acts c := by
  rw [holding?_eq_bind] at absent
  rw [Goes]
  cases known : c.groupsOf? member with
  | none => rfl
  | some registry =>
    rw [known] at absent
    refine congrArg some (Registry.update_eq_self (fun group found => ?_)).symm
    cases absent.symm.trans found

theorem goes_modifyHolding
    (same : ∀ holding, c.holding? member name = some holding → change holding = holding.after acts) :
    c.Goes member name acts (c.modifyHolding member name change) := by
  rw [Goes, groupsOf?_modifyHolding]
  cases known : c.groupsOf? member with
  | none => rfl
  | some registry =>
    refine congrArg some (Registry.update_congr (fun group found => same group ?_))
    rw [holding?_eq_bind, known]
    exact found

namespace Goes

theorem trans (first : c.Goes member name acts later) (second : later.Goes member name more last) :
    c.Goes member name (acts ++ more) last := by
  rw [Goes, second, first, Option.map_map]
  congr 1
  funext registry
  rw [Function.comp_apply, Registry.update_update]
  congr 1
  funext holding
  exact (holding.after_append acts more).symm

theorem holding?_self (goes : c.Goes member name acts later) :
    later.holding? member name = (c.holding? member name).map (·.after acts) := by
  rw [holding?_eq_bind, holding?_eq_bind, goes]
  cases c.groupsOf? member with
  | none => rfl
  | some registry => exact (registry.find?_update name name _).trans (if_pos rfl)

theorem holding?_of_ne (goes : c.Goes member name acts later) (apart : other ≠ name) :
    later.holding? member other = c.holding? member other := by
  rw [holding?_eq_bind, holding?_eq_bind, goes]
  cases c.groupsOf? member with
  | none => rfl
  | some registry => exact (registry.find?_update name other _).trans (if_neg apart)

theorem isSome_groupsOf? (goes : c.Goes member name acts later) :
    (later.groupsOf? member).isSome = (c.groupsOf? member).isSome := by
  rw [goes, Option.isSome_map]

end Goes

end Cluster

/-! ## Pickers -/

/-- What picks the peers that groups ask, and asks them. -/
structure Picker where
  /-- The peer that owns a key, or none if the key is served here. -/
  owner : (group key : String) → Cluster → Option Peer
  /-- The peers that a removal visits, in order. -/
  peers : (group : String) → Cluster → List Peer
  fetch : Peer → Time → Deadline → (group key : String) → Cluster → Cluster × Work (Except Failure Bytes)
  forget : Peer → Time → Deadline → (group key : String) → Cluster → Cluster × Work (Except Failure Unit)

/-- A get that has not begun. -/
def Flight.looks : Flight → Bool
  | .get ⟨_, _, .fresh _⟩ => true
  | _ => false

/-- The first step of a get looks its key up, and no later one does. -/
theorem Flight.looks_advance {σ : Type} (host : Host σ) (now : Time) (flight : Flight) (state : σ) :
    (flight.advance host now state).2.looks = false := by
  cases flight with
  | get get =>
    obtain ⟨key, deadline, stage⟩ := get
    cases stage with
    | fresh start =>
      simp only [advance, Get.advance, Get.begin]
      split
      · rfl
      · split <;> rfl
    | asking answer =>
      cases answer with
      | none => rfl
      | some due =>
        simp only [advance, Get.advance, Get.takePeer]
        split <;> rfl
    | loading answer => cases answer <;> rfl
    | finished result => rfl
  | removal removal => rfl

namespace Picker
open Cluster
variable {picker : Picker} {member : MemberId} {name key : String} {c : Cluster} {now : Time}

/-- What the groups of a name at a member draw on if their peers are picked so. -/
def host (picker : Picker) (member : MemberId) (name : String) : Host Cluster :=
  { Cluster.host uncalled member name with
    owner := fun c key => picker.owner name key c
    peers := fun c => picker.peers name c
    fetch := picker.fetch
    forget := picker.forget }

/-- The pool of a member picks its peers. -/
def ofPool (caller : Caller) (member : MemberId) : Picker where
  owner _ key c := c.pick member key
  peers _ c := c.peersOf member
  fetch := (Cluster.host caller member "").fetch
  forget := (Cluster.host caller member "").forget

theorem host_ofPool (caller : Caller) (member : MemberId) (name : String) :
    (ofPool caller member).host member name = Cluster.host caller member name := rfl

/-- What is asked of peers does not come back to a member. -/
structure LeavesAlone (picker : Picker) (member : MemberId) : Prop where
  fetch : ∀ peer now deadline group key c,
    (picker.fetch peer now deadline group key c).1.groupsOf? member = c.groupsOf? member
  forget : ∀ peer now deadline group key c,
    (picker.forget peer now deadline group key c).1.groupsOf? member = c.groupsOf? member

theorem leavesAlone_ofPool {caller : Caller} (alone : ∀ now peer deadline message c,
    (caller now peer deadline message c).1.groupsOf? member = c.groupsOf? member) :
    (ofPool caller member).LeavesAlone member where
  fetch peer now deadline _ _ c := alone now peer deadline _ c
  forget peer now deadline _ _ c := alone now peer deadline _ c

/-! ### Steps of gets and removals -/

/-- The shared part of a group becomes what an act makes of it. -/
theorem goes_putGroup (picker : Picker) {group : Group} (act : Act)
    (same : ∀ holding, c.holding? member name = some holding → { holding with group } = act.on holding) :
    c.Goes member name [act] ((picker.host member name).putGroup group c) :=
  goes_modifyHolding same

theorem group_host (held : c.holding? member name = some holding) : (picker.host member name).group c = holding.group :=
  @Cluster.group_host c member name holding uncalled held

theorem goes_load (picker : Picker) (deadline : Deadline) :
    c.Goes member name [.asked now key] ((picker.host member name).load now deadline key c).1 := by
  cases held : c.holding? member name with
  | none =>
    rw [show ((picker.host member name).load now deadline key c).1 = c by simp [host, Cluster.host, held]]
    exact goes_of_absent held _
  | some holding =>
    have asks := @load_host c member name key holding uncalled now held deadline
    rw [show (picker.host member name).load now deadline key c = _ from asks]
    apply goes_modifyHolding
    intro other same
    cases held.symm.trans same
    rfl

theorem goes_askLoader (picker : Picker) (get : Get) :
    c.Goes member name [.asked now get.key] (get.askLoader (picker.host member name) now c).1 :=
  goes_load picker get.deadline

theorem goes_askPeer (alone : picker.LeavesAlone member) (peer : Peer) (get : Get) :
    c.Goes member name [] (get.askPeer (picker.host member name) now peer c).1 :=
  goes_of_same (alone.fetch peer now get.deadline _ get.key c) name

theorem goes_visit (alone : picker.LeavesAlone member) (peers : List Peer) (removal : Removal) :
    c.Goes member name [] (removal.visit (picker.host member name) now peers c).1 := by
  cases peers with
  | nil => exact goes_of_same rfl name
  | cons peer rest => exact goes_of_same (alone.forget peer now removal.deadline _ removal.key c) name

theorem exists_goes_begin (alone : picker.LeavesAlone member) (get : Get) :
    ∃ acts, c.Goes member name acts (get.begin (picker.host member name) now c).1 ∧
      acts.countP Act.isRequest = 0 ∧ acts.countP Act.isLookUp = 1 := by
  have looked : c.Goes member name [.lookedUp get.key]
      ((picker.host member name).putGroup (((picker.host member name).group c).lookup get.key).1 c) := by
    apply goes_putGroup picker
    intro holding held
    rw [group_host held]
    rfl
  simp only [Get.begin]
  split
  next value found => exact ⟨[.lookedUp get.key], looked, rfl, rfl⟩
  next missing =>
    split
    next peer owns => exact ⟨[_] ++ [], looked.trans (goes_askPeer alone peer get), rfl, rfl⟩
    next here => exact ⟨[_] ++ [_], looked.trans (goes_askLoader picker get), rfl, rfl⟩

theorem exists_goes_takePeer (picker : Picker) (get : Get) (answer : Except Failure Bytes) :
    ∃ acts, c.Goes member name acts (get.takePeer (picker.host member name) now answer c).1 ∧
      acts.countP Act.isRequest = 0 ∧ acts.countP Act.isLookUp = 0 := by
  have answered : c.Goes member name [.answered answer]
      ((picker.host member name).putGroup (((picker.host member name).group c).peerAnswered answer).1 c) := by
    apply goes_putGroup picker
    intro holding held
    rw [group_host held]
    rfl
  simp only [Get.takePeer]
  split
  next result settled => exact ⟨[_], answered, rfl, rfl⟩
  next loads => exact ⟨[_] ++ [_], answered.trans (goes_askLoader picker get), rfl, rfl⟩

theorem goes_takeLoader (picker : Picker) (get : Get) (answer : Except Failure Bytes) :
    c.Goes member name [.loaded get.key answer] (get.takeLoader (picker.host member name) answer c).1 := by
  apply goes_putGroup picker
  intro holding held
  rw [group_host held]
  rfl

theorem goes_localRemove (picker : Picker) (key : String) :
    c.Goes member name [.dropped key]
      ((picker.host member name).putGroup (((picker.host member name).group c).localRemove key) c) := by
  apply goes_putGroup picker
  intro holding held
  rw [group_host held]
  rfl

/-- A step of a get or of a removal is acts on its group. It counts no request, and a get
    if this is its first step. -/
theorem exists_goes_advance (alone : picker.LeavesAlone member) (name : String) (now : Time) (flight : Flight)
    (c : Cluster) :
    ∃ acts, c.Goes member name acts (flight.advance (picker.host member name) now c).1 ∧
      acts.countP Act.isRequest = 0 ∧ acts.countP Act.isLookUp = if flight.looks then 1 else 0 := by
  have stays : c.Goes member name [] c := goes_of_same rfl name
  cases flight with
  | get get =>
    obtain ⟨key, deadline, stage⟩ := get
    cases stage with
    | fresh start => exact exists_goes_begin alone _
    | asking answer =>
      cases answer with
      | none => exact ⟨[], stays, rfl, rfl⟩
      | some due => exact exists_goes_takePeer picker _ due.2
    | loading answer =>
      cases answer with
      | none => exact ⟨[], stays, rfl, rfl⟩
      | some due => exact ⟨[_], goes_takeLoader picker _ due.2, rfl, rfl⟩
    | finished result => exact ⟨[], stays, rfl, rfl⟩
  | removal removal =>
    obtain ⟨key, deadline, firstFailure, stage⟩ := removal
    cases stage with
    | fresh start => exact ⟨[_] ++ [], (goes_localRemove picker key).trans (goes_visit alone _ _), rfl, rfl⟩
    | visiting rest answer =>
      cases answer with
      | none => exact ⟨[], stays, rfl, rfl⟩
      | some due => exact ⟨[], goes_visit alone rest _, rfl, rfl⟩
    | finished result => exact ⟨[], stays, rfl, rfl⟩

end Picker

end RingCache
