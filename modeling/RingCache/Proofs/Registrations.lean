import RingCache.Proofs.Households
import RingCache.Proofs.TextOrder

/-!
# Names of groups

A name belongs to the group that was registered under it first, whatever a member does. A
later registration of the name is refused and changes nothing, the names are listed in
ascending order, and what is done with one group changes no other group
(`Household.first_registered_stays`).
-/
namespace RingCache

/-- Names are listed by ascending bytes. -/
theorem Registry.names_ascending {γ : Type} (registry : Registry γ) :
    registry.names.Pairwise (fun a b => Bytes.ofText a < Bytes.ofText b) :=
  registry.groups.keys_ascending.imp (fun less => Bytes.ofText_lt (compare_eq_lt_iff.mp less))

theorem Cluster.mem_names_iff {c : Cluster} {member : MemberId} {name : String} :
    name ∈ (c.registry member).names ↔ (c.holding? member name).isSome :=
  Table.mem_keys_iff

namespace Household
variable {picker : Picker} {member : MemberId} {name other : String} {start home next last : Household}
variable {events more : List Event} {acts : List Act} {holding : Holding}

theorem Event.registered?_eq_some {event : Event} (registers : event.registered? name = some holding) :
    event = .registers holding ∧ holding.group.name = name := by
  cases event with
  | registers offered =>
    simp only [registered?] at registers
    split at registers
    next named =>
      cases registers
      exact ⟨rfl, named⟩
    next => cases registers
  | takes | begins | moves | leaves | elsewhere => cases registers

/-- A name has a group if it had one at first, or if a group was registered under it. -/
theorem Undergoes.isSome_holding? (undergoes : Undergoes member name start events acts home) :
    (home.cluster.holding? member name).isSome ↔ (start.cluster.holding? member name).isSome ∨
      ∃ holding, .registers holding ∈ events ∧ holding.group.name = name := by
  rw [undergoes.holding, Option.isSome_map, Option.isSome_or, Bool.or_eq_true]
  apply or_congr_right
  rw [List.findSome?_isSome_iff]
  constructor
  · rintro ⟨event, among, registers⟩
    obtain ⟨holding, registers⟩ := Option.isSome_iff_exists.mp registers
    obtain ⟨rfl, named⟩ := Event.registered?_eq_some registers
    exact ⟨holding, among, named⟩
  · rintro ⟨holding, among, named⟩
    refine ⟨_, among, ?_⟩
    rw [Event.registered?, if_pos named]
    rfl

/-- From when a name has a group it keeps it, and the group goes through acts. -/
theorem Undergoes.holding?_of_held (undergoes : Undergoes member name start events acts home)
    (held : start.cluster.holding? member name = some holding) :
    home.cluster.holding? member name = some (holding.after acts) := by
  rw [undergoes.holding, held]
  rfl

/-- A registration that is refused changes nothing. -/
theorem Step.eq_of_held (held : (home.cluster.holding? member holding.group.name).isSome)
    (step : Step picker member home (.registers holding) next) : next = home := by
  cases step with
  | registers _ free =>
    rw [Cluster.register_of_held held] at free
    cases free
  | refuses => rfl

/-- A get changes no group but its own. -/
theorem holding?_get_of_ne (alone : picker.LeavesAlone member) (known : (home.cluster.groupsOf? member).isSome)
    (apart : other ≠ name) (now : Time) (deadline : Deadline) (key : String) :
    ((picker.host member name).get now deadline key home.cluster).1.holding? member other =
      home.cluster.holding? member other := by
  obtain ⟨moves, jobs, only, run⟩ := exists_run_get picker member name now deadline key home
  obtain ⟨acts, undergoes⟩ := run.exists_undergoes alone known other
  refine undergoes.holding?_of_quiet (List.forall_mem_cons.mpr ⟨⟨rfl, rfl⟩, fun event among => ?_⟩)
  obtain ⟨flight, rfl⟩ := only event among
  exact ⟨beq_false_of_ne (Ne.symm apart), rfl⟩

/-- However a member works, up to some time and on from there: a name has the group that was
    registered under it first, and keeps this group. It changes by acts of its own, and by
    nothing while nothing concerns it. The names are those that were registered, in
    ascending order. A registration under one of them is refused with no change at all, and
    one under a new name adds just this group. A get leaves all groups but its own alone. -/
theorem first_registered_stays (alone : picker.LeavesAlone member) (known : (start.cluster.groupsOf? member).isSome)
    (run : Run picker member start events home) (onward : Run picker member home more last) :
    (∀ name, ∃ acts,
      home.cluster.holding? member name =
        ((start.cluster.holding? member name).or (events.findSome? (Event.registered? name))).map (·.after acts) ∧
      ((∀ event ∈ events, event.concerns name = false) → acts = [])) ∧
    (∀ name holding, home.cluster.holding? member name = some holding → ∃ acts,
      last.cluster.holding? member name = some (holding.after acts) ∧ holding.Evolves (holding.after acts) ∧
      ((∀ event ∈ more, event.concerns name = false) → acts = [])) ∧
    ((home.cluster.registry member).names.Pairwise (fun a b => Bytes.ofText a < Bytes.ofText b) ∧
      ∀ name, name ∈ (home.cluster.registry member).names ↔ name ∈ (start.cluster.registry member).names ∨
        ∃ holding, .registers holding ∈ events ∧ holding.group.name = name) ∧
    (∀ holding, holding.group.name ∈ (home.cluster.registry member).names →
      home.cluster.register member holding =
        .error (.config ("duplicate registration of group [" ++ holding.group.name ++ "]")) ∧
      (∀ loader, home.cluster.newGroup member holding.group.name loader =
        .error (.config ("duplicate registration of group [" ++ holding.group.name ++ "]"))) ∧
      ∀ next, Step picker member home (.registers holding) next → next = home) ∧
    (∀ holding, holding.group.name ∉ (home.cluster.registry member).names → ∃ c,
      home.cluster.register member holding = .ok c ∧
      ∀ name, c.holding? member name =
        if name = holding.group.name then some holding else home.cluster.holding? member name) ∧
    ∀ name other now deadline key, other ≠ name →
      ((picker.host member name).get now deadline key home.cluster).1.holding? member other =
        home.cluster.holding? member other := by
  have still : (home.cluster.groupsOf? member).isSome := by
    obtain ⟨acts, undergoes⟩ := run.exists_undergoes alone known ""
    exact undergoes.known
  refine ⟨fun name => ?_, fun name holding held => ?_, ⟨Registry.names_ascending _, fun name => ?_⟩,
    fun holding listed => ?_, fun holding unlisted => ?_, fun name other now deadline key apart => ?_⟩
  · obtain ⟨acts, undergoes⟩ := run.exists_undergoes alone known name
    exact ⟨acts, undergoes.holding, undergoes.quiet⟩
  · obtain ⟨acts, undergoes⟩ := onward.exists_undergoes alone still name
    exact ⟨acts, undergoes.holding?_of_held held, holding.evolves_after acts, undergoes.quiet⟩
  · obtain ⟨acts, undergoes⟩ := run.exists_undergoes alone known name
    rw [Cluster.mem_names_iff, Cluster.mem_names_iff]
    exact undergoes.isSome_holding?
  · have held := Cluster.mem_names_iff.mp listed
    refine ⟨Cluster.register_of_held held, fun loader => ?_, fun next step => step.eq_of_held held⟩
    rw [Cluster.newGroup_eq_register]
    exact Cluster.register_of_held held
  · rw [Cluster.mem_names_iff, Bool.not_eq_true, Option.isSome_eq_false_iff, Option.isNone_iff_eq_none] at unlisted
    obtain ⟨c, registered, -, holds⟩ := Cluster.exists_register still unlisted
    exact ⟨c, registered, holds⟩
  · exact holding?_get_of_ne alone still apart now deadline key

/-! ## Two groups of one name -/

/-- No peers are asked. -/
def solitary : Picker where
  owner _ _ _ := none
  peers _ _ := []
  fetch _ _ _ _ _ c := (c, .never)
  forget _ _ _ _ _ c := (c, .never)

/-- A member without groups. -/
def vacant : Household := ⟨((Cluster.empty 0).enroll none).1, []⟩

/-- A group whose loader gives one byte. -/
def yielding (byte : UInt8) : Holding := ⟨.new "a" 16, ⟨fun _ _ _ => .ready (.ok [byte]), .empty⟩⟩

/-- The member has a group. -/
def tenanted : Household :=
  let groups : Registry Holding := ⟨Table.empty.insert "a" (yielding 1)⟩
  ⟨vacant.cluster.modifyMember 0 (fun member => { member with registry := groups }), []⟩

/-- A get waits for the loader of the group. -/
def asking : Household := tenanted.take solitary 0 0 (.retrieve ⟨"a", "k", none⟩)

/-- The get that waits. -/
def waiting : Flight := .get ⟨"k", .never, .loading (some (0, .ok [1]))⟩

/-- The get has its value, and the group stores it. -/
def served : Household :=
  ⟨(waiting.advance (solitary.host 0 "a") 0 asking.cluster).1,
    [("a", (waiting.advance (solitary.host 0 "a") 0 asking.cluster).2)]⟩

theorem run_served :
    Run solitary 0 vacant [.registers (yielding 1), .takes (.retrieve ⟨"a", "k", none⟩), .moves "a" waiting] served := by
  have registers : Run solitary 0 vacant [.registers (yielding 1)] tenanted := .step .start (.registers _ rfl)
  have takes : Run solitary 0 vacant [.registers (yielding 1), .takes (.retrieve ⟨"a", "k", none⟩)] asking :=
    .step registers (.takes 0 _)
  exact .step takes (@Step.moves _ _ _ [] [] _ _ _ _ rfl rfl (Nat.le_refl 0))

/-- Another group of the name comes too late: the value that was stored stays. -/
theorem first_registered_stays_of_rival :
    solitary.LeavesAlone 0 ∧ (vacant.cluster.groupsOf? 0).isSome ∧
    Run solitary 0 vacant [.registers (yielding 1), .takes (.retrieve ⟨"a", "k", none⟩), .moves "a" waiting] served ∧
    Run solitary 0 served [.registers (yielding 2)] served ∧
    served.cluster.register 0 (yielding 2) = .error (.config "duplicate registration of group [a]") ∧
    (∃ acts, served.cluster.holding? 0 "a" = some ((yielding 1).after acts)) ∧
    "a" ∈ (served.cluster.registry 0).names ∧ ((served.cluster.groupAt 0 "a").store.find? "k") = some [1] := by
  have alone : solitary.LeavesAlone 0 := ⟨fun _ _ _ _ _ _ => rfl, fun _ _ _ _ _ _ => rfl⟩
  obtain ⟨first, -, ⟨-, names⟩, refused, -⟩ := first_registered_stays alone rfl run_served .start
  have listed : "a" ∈ (served.cluster.registry 0).names := (names "a").mpr (.inr ⟨yielding 1, List.mem_cons_self, rfl⟩)
  have refusal := (refused (yielding 2) listed).1
  obtain ⟨acts, holding, -⟩ := first "a"
  exact ⟨alone, rfl, run_served, .step .start (.refuses _ refusal), refusal, ⟨acts, holding⟩, listed, rfl⟩

end Household

end RingCache
