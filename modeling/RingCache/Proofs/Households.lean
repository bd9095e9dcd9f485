import RingCache.Proofs.Acts

/-!
# A member at work

A member registers groups, takes messages, and has gets and removals in progress at its
groups that go on in any order, or are given up (`Household.Run`). A message that is
dispatched while nothing else happens makes such a run as well
(`Household.exists_run_dispatch`). However a run goes, a name keeps the group that was
registered under it first, and this group goes through acts of its own: they count each
request for it and each get of it once, and there are none while nothing concerns the
group (`Household.Run.exists_undergoes`).
-/
namespace RingCache

/-! ## Registrations -/

namespace Cluster
variable {c next : Cluster} {member : MemberId} {name : String} {holding : Holding}

/-- A member gets a group that was built before, if the name of the group is still free. -/
def register (c : Cluster) (id : MemberId) (holding : Holding) : Except Failure Cluster :=
  match (c.registry id).register holding.group.name holding with
  | .ok registry => .ok (c.modifyMember id (fun member => { member with registry }))
  | .error failure => .error failure

theorem newGroup_eq_register (c : Cluster) (id : MemberId) (name : String) (loader : Loader) :
    c.newGroup id name loader = c.register id ⟨.new name Group.ample, loader⟩ := rfl

/-- A name that is taken stays with its group. -/
theorem register_of_held (held : (c.holding? member holding.group.name).isSome) : c.register member holding =
    .error (.config ("duplicate registration of group [" ++ holding.group.name ++ "]")) := by
  have taken : (c.registry member).groups.contains holding.group.name = true := held
  rw [register, Registry.register, if_pos taken]

/-- A name that is free goes to the group that is registered under it. -/
theorem exists_register (known : (c.groupsOf? member).isSome) (free : c.holding? member holding.group.name = none) :
    ∃ next, c.register member holding = .ok next ∧ (next.groupsOf? member).isSome ∧
      ∀ name, next.holding? member name =
        if name = holding.group.name then some holding else c.holding? member name := by
  have untaken : ¬(c.registry member).groups.contains holding.group.name = true := by
    rw [Table.contains, show (c.registry member).groups.find? holding.group.name = none from free]
    exact Bool.false_ne_true
  have entered (registry : Registry Holding) :
      (c.modifyMember member (fun member => { member with registry })).groupsOf? member = some registry := by
    obtain ⟨groups, present⟩ := Option.isSome_iff_exists.mp known
    obtain ⟨found, listed, -⟩ := Option.map_eq_some_iff.mp present
    simp [groupsOf?, modifyMember, listed]
  refine ⟨_, by rw [register, Registry.register, if_neg untaken], ?_, ?_⟩
  · rw [entered]
    rfl
  · intro name
    rw [holding?_eq_bind, entered]
    exact Table.find?_insert (c.registry member).groups holding.group.name name holding

end Cluster

/-! ## Services -/

/-- The service of a member whose peers are picked so. -/
def Picker.service (picker : Picker) (member : MemberId) : Service Cluster :=
  { Cluster.service Cluster.uncalled member with
    retrieve := fun now deadline name key c =>
      match c.holding? member name with
      | none => (c, .ready (.error (.groupNotFound name)))
      | some _ =>
        (picker.host member name).get now deadline key (c.modifyGroup member name (·.count .serverRequests)) }

theorem Picker.service_ofPool (caller : Cluster.Caller) (member : MemberId) :
    (ofPool caller member).service member = Cluster.service caller member := by
  rw [service]
  simp only [host_ofPool]
  rfl

/-! ## Households -/

/-- A cluster, and the gets and removals that are in progress at the groups of one of its
    members. -/
structure Household where
  cluster : Cluster
  jobs : List (String × Flight)

namespace Household

/-- What happens at a member. -/
inductive Event where
  | registers (holding : Holding)
  | takes (message : Message)
  | begins
  | moves (name : String) (flight : Flight)
  | leaves
  | elsewhere

namespace Event

/-- A message that asks for a key of a group, or asks to drop one. -/
def requests (name : String) : Event → Bool
  | takes message => message.request?.any (·.group == name)
  | _ => false

/-- A get of a group begins. -/
def looksUp (name : String) : Event → Bool
  | takes (.retrieve request) => request.group == name
  | moves other flight => other == name && flight.looks
  | _ => false

/-- A message asks for something of a group, or a get or a removal goes on there. -/
def concerns (name : String) : Event → Bool
  | takes message => message.request?.any (·.group == name)
  | moves other _ => other == name
  | _ => false

/-- The group that is to be registered under a name. -/
def registered? (name : String) : Event → Option Holding
  | registers holding => if holding.group.name = name then some holding else none
  | _ => none

end Event

variable {picker : Picker} {member : MemberId} {name : String} {start home next last : Household}
variable {event : Event} {events more : List Event} {acts later : List Act} {now : Time} {message : Message}
variable {request : KeyRequest}

/-- The member takes a message. A get that this starts begins at once. -/
def take (picker : Picker) (member : MemberId) (now : Time) (message : Message) (home : Household) : Household :=
  match home.cluster.accept Cluster.uncalled member now message with
  | (c, .answered _) => { home with cluster := c }
  | (c, .started _ job) =>
    let (c, flight) := job.flight.advance (picker.host member job.name) now c
    ⟨c, home.jobs ++ [(job.name, flight)]⟩

/-- A group is registered, unless its name is taken; a message is taken; a get or a removal
    begins, goes on, or is given up; or something happens elsewhere. -/
inductive Step (picker : Picker) (member : MemberId) (home : Household) : Event → Household → Prop where
  | registers (holding : Holding) {c : Cluster} (free : home.cluster.register member holding = .ok c) :
      Step picker member home (.registers holding) { home with cluster := c }
  | refuses (holding : Holding) {failure : Failure} (taken : home.cluster.register member holding = .error failure) :
      Step picker member home (.registers holding) home
  | takes (now : Time) (message : Message) :
      Step picker member home (.takes message) (home.take picker member now message)
  | begins (name : String) {flight : Flight} (fresh : flight.begins = 1) :
      Step picker member home .begins { home with jobs := home.jobs ++ [(name, flight)] }
  | moves {before rest : List (String × Flight)} {name : String} {flight : Flight} {due now : Time}
      (listed : home.jobs = before ++ (name, flight) :: rest) (wakes : flight.wake = some due) (comes : due ≤ now) :
      Step picker member home (.moves name flight)
        ⟨(flight.advance (picker.host member name) now home.cluster).1,
          before ++ (name, (flight.advance (picker.host member name) now home.cluster).2) :: rest⟩
  | leaves {before rest : List (String × Flight)} {job : String × Flight}
      (listed : home.jobs = before ++ job :: rest) :
      Step picker member home .leaves { home with jobs := before ++ rest }
  | elsewhere {c : Cluster} (same : c.groupsOf? member = home.cluster.groupsOf? member) :
      Step picker member home .elsewhere { home with cluster := c }

/-- Steps, with what happened. -/
inductive Run (picker : Picker) (member : MemberId) (start : Household) : List Event → Household → Prop where
  | start : Run picker member start [] start
  | step {events : List Event} {event : Event} {home next : Household} (run : Run picker member start events home)
      (step : Step picker member home event next) : Run picker member start (events ++ [event]) next

/-! ### What a message does -/

/-- The get that a message starts. -/
theorem take_retrieve (held : (home.cluster.holding? member request.group).isSome) :
    home.take picker member now (.retrieve request) =
      let begun := (Flight.startGet now (.ofBudget now request.budget) request.key).advance
        (picker.host member request.group) now (home.cluster.modifyGroup member request.group (·.count .serverRequests))
      ⟨begun.1, home.jobs ++ [(request.group, begun.2)]⟩ := by
  obtain ⟨holding, held⟩ := Option.isSome_iff_exists.mp held
  simp only [take, Cluster.accept, held]

theorem take_retrieve_of_absent (absent : home.cluster.holding? member request.group = none) :
    home.take picker member now (.retrieve request) = home := by
  simp only [take, Cluster.accept, Cluster.accept.atOnce, dispatch, Cluster.service, absent]

theorem take_delete (held : (home.cluster.holding? member request.group).isSome) :
    home.take picker member now (.delete request) = { home with
      cluster := home.cluster.modifyHolding member request.group (fun h => (h.count .serverRequests).drop request.key) } := by
  obtain ⟨holding, held⟩ := Option.isSome_iff_exists.mp held
  simp only [take, Cluster.accept, Cluster.accept.atOnce, dispatch, Cluster.service, held]
  rfl

theorem take_delete_of_absent (absent : home.cluster.holding? member request.group = none) :
    home.take picker member now (.delete request) = home := by
  simp only [take, Cluster.accept, Cluster.accept.atOnce, dispatch, Cluster.service, absent]

/-- A retrieval is counted, and so is the get that it starts. -/
theorem exists_goes_take_retrieve (alone : picker.LeavesAlone member) (now : Time) (request : KeyRequest) :
    ∃ acts, home.cluster.Goes member request.group acts (home.take picker member now (.retrieve request)).cluster ∧
      acts.countP Act.isRequest = 1 ∧ acts.countP Act.isLookUp = 1 := by
  cases held : home.cluster.holding? member request.group with
  | none =>
    rw [take_retrieve_of_absent held]
    exact ⟨[.requested, .lookedUp request.key], Cluster.goes_of_absent held _, rfl, rfl⟩
  | some holding =>
    rw [take_retrieve (by rw [held]; rfl)]
    have counted : home.cluster.Goes member request.group [.requested]
        (home.cluster.modifyGroup member request.group (·.count .serverRequests)) :=
      Cluster.goes_modifyHolding (fun _ _ => rfl)
    obtain ⟨acts, goes, requests, lookUps⟩ := Picker.exists_goes_advance alone request.group now
      (Flight.startGet now (.ofBudget now request.budget) request.key)
      (home.cluster.modifyGroup member request.group (·.count .serverRequests))
    refine ⟨_, counted.trans goes, ?_, ?_⟩
    · rw [List.countP_append, requests]
      rfl
    · rw [List.countP_append, lookUps]
      rfl

/-- A deletion is counted, and starts no get. -/
theorem exists_goes_take_delete (picker : Picker) (member : MemberId) (now : Time) (request : KeyRequest)
    (home : Household) :
    ∃ acts, home.cluster.Goes member request.group acts (home.take picker member now (.delete request)).cluster ∧
      acts.countP Act.isRequest = 1 ∧ acts.countP Act.isLookUp = 0 := by
  cases held : home.cluster.holding? member request.group with
  | none =>
    rw [take_delete_of_absent held]
    exact ⟨[.requested], Cluster.goes_of_absent held _, rfl, rfl⟩
  | some holding =>
    rw [take_delete (by rw [held]; rfl)]
    exact ⟨[.requested, .dropped request.key], Cluster.goes_modifyHolding (fun _ _ => rfl), rfl, rfl⟩

/-- A request is acts on the group that it names. -/
theorem exists_goes_take (alone : picker.LeavesAlone member) (asks : message.request? = some request) (now : Time) :
    ∃ acts, home.cluster.Goes member request.group acts (home.take picker member now message).cluster ∧
      acts.countP Act.isRequest = 1 ∧
      acts.countP Act.isLookUp = if (Event.takes message).looksUp request.group then 1 else 0 := by
  cases message with
  | retrieve =>
    cases asks
    rw [show (Event.takes (.retrieve request)).looksUp request.group = true from beq_self_eq_true request.group]
    exact exists_goes_take_retrieve alone now request
  | delete =>
    cases asks
    exact exists_goes_take_delete picker member now request home
  | amend | retrieved | ack | error => cases asks

/-- A message that asks for no key leaves all groups alone. -/
theorem groupsOf?_take (asks : message.request? = none) (picker : Picker) (member : MemberId) (now : Time)
    (home : Household) :
    (home.take picker member now message).cluster.groupsOf? member = home.cluster.groupsOf? member := by
  cases message with
  | retrieve | delete => cases asks
  | amend how addresses => exact Cluster.groupsOf?_pursue _ _ _ _ _
  | retrieved | ack | error => rfl

/-! ### What becomes of a group -/

/-- Events lead from one state to another, and the group of a name goes through acts on the
    way. If the name was free at first, it is the group that was registered first. -/
structure Undergoes (member : MemberId) (name : String) (home : Household) (events : List Event) (acts : List Act)
    (next : Household) : Prop where
  known : (next.cluster.groupsOf? member).isSome
  holding : next.cluster.holding? member name =
    ((home.cluster.holding? member name).or (events.findSome? (Event.registered? name))).map (·.after acts)
  requests : (home.cluster.holding? member name).isSome → acts.countP Act.isRequest = events.countP (Event.requests name)
  lookUps : (home.cluster.holding? member name).isSome → acts.countP Act.isLookUp = events.countP (Event.looksUp name)
  quiet : (∀ event ∈ events, event.concerns name = false) → acts = []

/-- What happens to other groups, or to none, leaves a group as it is. -/
theorem undergoes_nothing (known : (next.cluster.groupsOf? member).isSome)
    (same : next.cluster.holding? member name = home.cluster.holding? member name)
    (registers : event.registered? name = none) (requests : event.requests name = false)
    (looksUp : event.looksUp name = false) : Undergoes member name home [event] [] next where
  known := known
  holding := by
    rw [same, List.findSome?_singleton, registers, Option.or_none, Holding.map_after_nil]
  requests _ := by simp [requests]
  lookUps _ := by simp [looksUp]
  quiet _ := rfl

namespace Undergoes

theorem trans (first : Undergoes member name start events acts home)
    (second : Undergoes member name home more later last) :
    ∃ acts, Undergoes member name start (events ++ more) acts last := by
  have quietly (quiet : ∀ event ∈ events ++ more, event.concerns name = false) : acts = [] ∧ later = [] :=
    ⟨first.quiet (fun event among => quiet event (List.mem_append_left _ among)),
      second.quiet (fun event among => quiet event (List.mem_append_right _ among))⟩
  have holding := second.holding
  rw [first.holding] at holding
  cases owned : (start.cluster.holding? member name).or (events.findSome? (Event.registered? name)) with
  | some group =>
    -- The name has its group by now, so later registrations change nothing.
    rw [owned] at holding
    have present : (home.cluster.holding? member name).isSome := by
      rw [first.holding, owned]
      rfl
    refine ⟨acts ++ later, second.known, ?_, fun had => ?_, fun had => ?_, fun quiet => ?_⟩
    · rw [holding, List.findSome?_append, ← Option.or_assoc, owned]
      exact congrArg some (group.after_append acts later).symm
    · rw [List.countP_append, List.countP_append, first.requests had, second.requests present]
    · rw [List.countP_append, List.countP_append, first.lookUps had, second.lookUps present]
    · rw [(quietly quiet).1, (quietly quiet).2]
      rfl
  | none =>
    rw [owned] at holding
    have absent : start.cluster.holding? member name = none := (Option.or_eq_none_iff.mp owned).1
    refine ⟨later, second.known, ?_, fun had => ?_, fun had => ?_, fun quiet => (quietly quiet).2⟩
    · rw [holding, List.findSome?_append, ← Option.or_assoc, owned]
      rfl
    · rw [absent] at had
      cases had
    · rw [absent] at had
      cases had

/-- A group that nothing concerns is as it was. -/
theorem holding?_of_quiet (undergoes : Undergoes member name start events acts home)
    (quiet : ∀ event ∈ events, event.concerns name = false ∧ event.registered? name = none) :
    home.cluster.holding? member name = start.cluster.holding? member name := by
  have unregistered : events.findSome? (Event.registered? name) = none :=
    List.findSome?_eq_none_iff.mpr (fun event among => (quiet event among).2)
  rw [undergoes.holding, undergoes.quiet (fun event among => (quiet event among).1), unregistered, Option.or_none,
    Holding.map_after_nil]

end Undergoes

/-- Acts on one group are what an event does that concerns this group. -/
theorem exists_undergoes_of_goes {own : String} (event : Event) (known : (home.cluster.groupsOf? member).isSome)
    (goes : home.cluster.Goes member own acts next.cluster) (registers : ∀ name, event.registered? name = none)
    (concerns : ∀ name, event.concerns name = (own == name))
    (requests : ∀ name, event.requests name = true → own = name)
    (looksUp : ∀ name, event.looksUp name = true → own = name)
    (requested : acts.countP Act.isRequest = if event.requests own then 1 else 0)
    (lookedUp : acts.countP Act.isLookUp = if event.looksUp own then 1 else 0) (name : String) :
    ∃ acts, Undergoes member name home [event] acts next := by
  have still : (next.cluster.groupsOf? member).isSome := goes.isSome_groupsOf?.trans known
  by_cases here : own = name
  · subst here
    refine ⟨acts, still, ?_, fun _ => ?_, fun _ => ?_, fun quiet => ?_⟩
    · rw [goes.holding?_self, List.findSome?_singleton, registers, Option.or_none]
    · rw [requested, List.countP_singleton]
    · rw [lookedUp, List.countP_singleton]
    · have concerned := quiet event List.mem_cons_self
      rw [concerns, beq_self_eq_true] at concerned
      cases concerned
  · exact ⟨[], undergoes_nothing still (goes.holding?_of_ne (Ne.symm here)) (registers name)
      (Bool.eq_false_iff.mpr (fun asks => here (requests name asks)))
      (Bool.eq_false_iff.mpr (fun looks => here (looksUp name looks)))⟩

theorem exists_undergoes_take (alone : picker.LeavesAlone member) (known : (home.cluster.groupsOf? member).isSome)
    (now : Time) (message : Message) (name : String) :
    ∃ acts, Undergoes member name home [.takes message] acts (home.take picker member now message) := by
  cases asks : message.request? with
  | none =>
    have same := groupsOf?_take asks picker member now home
    refine ⟨[], undergoes_nothing (by rwa [same]) (Cluster.holding?_congr same name) rfl (by simp [Event.requests, asks]) ?_⟩
    cases message with
    | retrieve => cases asks
    | _ => rfl
  | some request =>
    obtain ⟨acts, goes, requested, lookedUp⟩ := exists_goes_take alone asks now
    have requests (name : String) : (Event.takes message).requests name = (request.group == name) := by
      rw [Event.requests, asks, Option.any_some]
    refine exists_undergoes_of_goes (.takes message) known goes (fun _ => rfl) requests
      (fun name asks => ?_) (fun name looks => ?_) ?_ lookedUp name
    · rwa [requests, beq_iff_eq] at asks
    · cases message with
      | retrieve =>
        cases asks
        exact beq_iff_eq.mp looks
      | _ => cases looks
    · rw [requested, requests, beq_self_eq_true]
      rfl

/-- A group that is registered has the name, if the name was free. -/
theorem undergoes_registers {c : Cluster} {holding : Holding} (known : (home.cluster.groupsOf? member).isSome)
    (free : home.cluster.register member holding = .ok c) (name : String) :
    Undergoes member name home [.registers holding] [] { home with cluster := c } := by
  have unheld : home.cluster.holding? member holding.group.name = none := by
    rw [← Option.not_isSome_iff_eq_none]
    intro held
    rw [Cluster.register_of_held held] at free
    cases free
  obtain ⟨next, registered, still, holds⟩ := Cluster.exists_register known unheld
  cases registered.symm.trans free
  refine ⟨still, ?_, fun _ => rfl, fun _ => rfl, fun _ => rfl⟩
  rw [holds, List.findSome?_singleton, Event.registered?]
  by_cases here : name = holding.group.name
  · subst here
    rw [if_pos rfl, if_pos rfl, unheld]
    rfl
  · rw [if_neg here, if_neg (Ne.symm here), Option.or_none, Holding.map_after_nil]

/-- Only a name that has a group refuses another, and keeps its own. -/
theorem undergoes_refuses {failure : Failure} {holding : Holding} (known : (home.cluster.groupsOf? member).isSome)
    (taken : home.cluster.register member holding = .error failure) (name : String) :
    Undergoes member name home [.registers holding] [] home := by
  refine ⟨known, ?_, fun _ => rfl, fun _ => rfl, fun _ => rfl⟩
  rw [List.findSome?_singleton, Event.registered?]
  by_cases here : holding.group.name = name
  · cases held : home.cluster.holding? member name with
    | none =>
      obtain ⟨c, registered, -⟩ := @Cluster.exists_register home.cluster member holding known (here ▸ held)
      cases registered.symm.trans taken
    | some group => rfl
  · rw [if_neg here, Option.or_none, Holding.map_after_nil]

/-- What one step does to the group of a name. -/
theorem Step.exists_undergoes (alone : picker.LeavesAlone member) (known : (home.cluster.groupsOf? member).isSome)
    (step : Step picker member home event next) (name : String) :
    ∃ acts, Undergoes member name home [event] acts next := by
  cases step with
  | registers holding free => exact ⟨[], undergoes_registers known free name⟩
  | refuses holding taken => exact ⟨[], undergoes_refuses known taken name⟩
  | takes now message => exact exists_undergoes_take alone known now message name
  | begins | leaves => exact ⟨[], undergoes_nothing known rfl rfl rfl rfl⟩
  | @moves before rest own flight due now listed wakes comes =>
    obtain ⟨acts, goes, requested, lookedUp⟩ := Picker.exists_goes_advance alone own now flight home.cluster
    refine exists_undergoes_of_goes _ known goes (fun _ => rfl) (fun _ => rfl) (fun _ asks => ?_) (fun name looks => ?_)
      requested ?_ name
    · cases asks
    · exact beq_iff_eq.mp (Bool.and_eq_true_iff.mp looks).1
    · rw [lookedUp, Event.looksUp, beq_self_eq_true, Bool.true_and]
  | elsewhere same =>
    exact ⟨[], undergoes_nothing (by rwa [same]) (Cluster.holding?_congr same name) rfl rfl rfl⟩

/-- What a run does to the group of a name. -/
theorem Run.exists_undergoes (alone : picker.LeavesAlone member) (known : (start.cluster.groupsOf? member).isSome)
    (run : Run picker member start events home) (name : String) :
    ∃ acts, Undergoes member name start events acts home := by
  induction run with
  | start =>
    refine ⟨[], known, ?_, fun _ => rfl, fun _ => rfl, fun _ => rfl⟩
    rw [List.findSome?_nil, Option.or_none, Holding.map_after_nil]
  | step run step ih =>
    obtain ⟨acts, undergoes⟩ := ih
    obtain ⟨later, next⟩ := step.exists_undergoes alone undergoes.known name
    exact undergoes.trans next

/-! ### Flights alone, and messages alone -/

/-- A flight that nothing overlaps with is moved until it does not go on any more. -/
theorem Run.exists_schedule {c : Cluster} {jobs : List (String × Flight)} {flight : Flight}
    (run : Run picker member start events ⟨c, jobs ++ [(name, flight)]⟩) (now : Time) :
    ∃ moves ended,
      (∀ event ∈ moves, ∃ moved, event = .moves name moved ∧ (flight.looks = false → moved.looks = false)) ∧
      Run picker member start (events ++ moves)
        ⟨(Schedule.run (picker.host member name) now [flight] c).2.2, jobs ++ [(name, ended)]⟩ := by
  -- The induction follows the schedule, whose list holds this one flight all along.
  generalize alone : [flight] = flights
  revert run
  fun_induction Schedule.run (picker.host member name) now flights c generalizing flight events with
  | case1 now flights c nothing =>
    intro run
    refine ⟨[], flight, List.forall_mem_nil _, ?_⟩
    rwa [List.append_nil]
  | case2 now flights c p picked moved =>
    rename_i ih
    intro run
    obtain ⟨parts, wakes⟩ := Schedule.pick_eq_some picked
    rw [← alone] at parts
    obtain ⟨nobody, same⟩ | ⟨-, impossible⟩ := List.append_eq_singleton_iff.mp parts.symm
    · obtain ⟨rfl, nothing⟩ := List.cons_eq_cons.mp same
      have next : Run picker member start (events ++ [.moves name p.flight]) ⟨moved.1, jobs ++ [(name, moved.2)]⟩ :=
        .step run (.moves rfl wakes (Nat.le_max_right now p.time))
      obtain ⟨moves, ended, only, last⟩ := ih (by rw [nobody, nothing]; rfl) next
      refine ⟨.moves name p.flight :: moves, ended,
        List.forall_mem_cons.mpr ⟨⟨p.flight, rfl, id⟩, fun event among => ?_⟩, ?_⟩
      · obtain ⟨flight, is, begun⟩ := only event among
        exact ⟨flight, is, fun _ => begun (Flight.looks_advance _ _ _ _)⟩
      · rwa [List.append_assoc] at last
    · cases impossible

/-- A message that is dispatched while nothing else happens is taken, and then the get that
    it starts is moved. -/
theorem exists_run_dispatch (picker : Picker) (member : MemberId) (now : Time) (message : Message) (home : Household) :
    ∃ moves jobs, (∀ event ∈ moves, ∃ request flight, message = .retrieve request ∧
        event = .moves request.group flight ∧ flight.looks = false) ∧
      Run picker member home (.takes message :: moves)
        ⟨(dispatch (picker.service member) now message home.cluster).1, jobs⟩ := by
  have taken : Run picker member home [.takes message] (home.take picker member now message) :=
    .step .start (.takes now message)
  cases message with
  | retrieve request =>
    cases held : home.cluster.holding? member request.group with
    | none =>
      rw [take_retrieve_of_absent held] at taken
      refine ⟨[], home.jobs, List.forall_mem_nil _, ?_⟩
      simp only [dispatch, Picker.service, held]
      exact taken
    | some holding =>
      rw [take_retrieve (by rw [held]; rfl)] at taken
      obtain ⟨moves, ended, only, run⟩ := taken.exists_schedule now
      refine ⟨moves, home.jobs ++ [(request.group, ended)], fun event among => ?_, ?_⟩
      · obtain ⟨flight, is, begun⟩ := only event among
        exact ⟨request, flight, rfl, is, begun (Flight.looks_advance _ _ _ _)⟩
      · simp only [dispatch, Picker.service, held, Host.get]
        rw [Schedule.run_alone_of_wakes (show (Flight.startGet now _ _).wake = some now from rfl) (Nat.le_refl now)]
        exact run
  | delete | amend | retrieved | ack | error => exact ⟨[], home.jobs, List.forall_mem_nil _, taken⟩

/-- A get of a group that nothing overlaps with. -/
theorem exists_run_get (picker : Picker) (member : MemberId) (name : String) (now : Time) (deadline : Deadline)
    (key : String) (home : Household) :
    ∃ moves jobs, (∀ event ∈ moves, ∃ flight, event = .moves name flight) ∧
      Run picker member home (.begins :: moves)
        ⟨((picker.host member name).get now deadline key home.cluster).1, jobs⟩ := by
  have begun : Run picker member home [.begins]
      { home with jobs := home.jobs ++ [(name, .startGet now deadline key)] } :=
    .step .start (.begins name rfl)
  obtain ⟨moves, ended, only, run⟩ := begun.exists_schedule now
  refine ⟨moves, _, fun event among => ?_, run⟩
  obtain ⟨flight, is, -⟩ := only event among
  exact ⟨flight, is⟩

end Household

end RingCache
