import Mathlib.Logic.Function.Basic
import RingCache.Cluster
import RingCache.Proofs.LocalGet
import RingCache.Proofs.Streams

/-!
# Groups in a cluster

What gets and removals do to a cluster they do to the groups of one name
(`Cluster.holdings`) and to channels, and between two calls every channel that was
used is at rest again. All else stays (`Cluster.Keeps`). A group whose loader does
not fail answers a get that is served there (`Holding.Answers`).
-/
namespace RingCache
open Wire

/-! ## Sources that were read -/

/-- Nothing is left to read. -/
def Wire.Source.Drained (source : Source) : Prop :=
  ∃ pieces : List Bytes, source = pieces.map .data ∧ pieces.flatten = []

theorem Wire.Source.drained_nil : Source.Drained [] :=
  ⟨[], rfl, rfl⟩

theorem Wire.Source.Drained.read {source : Source} (drained : source.Drained) (limit : Nat) :
    Wire.read limit source = .dry := by
  obtain ⟨pieces, rfl, nothing⟩ := drained
  have short : pieces.flatten.length < 4 := by rw [nothing]; decide
  have waits := Source.exactly_pieces_of_lt short []
  rw [List.append_nil] at waits
  simp only [Wire.read, waits, nothing, List.length_nil, Source.exactly, Taken.after]

/-- A message that comes in one piece is read, and nothing is left. -/
theorem Wire.Source.Drained.read_frame {source : Source} {limit : Nat} {message : Message} (drained : source.Drained)
    (framed : Framed limit message) :
    ∃ rest : Source, rest.Drained ∧ Wire.read limit (source ++ [.data (frame message)]) = .message message rest := by
  obtain ⟨pieces, rfl, nothing⟩ := drained
  have arrived : (pieces ++ [frame message]).flatten = frame message ++ [] := by simp [nothing]
  obtain ⟨left, none_left, got⟩ := framed.read_frame arrived []
  rw [List.append_nil, List.append_nil, List.map_append] at got
  exact ⟨left.map .data, ⟨left, rfl, none_left⟩, got⟩

namespace Cluster

variable {c later last : Cluster} {id other : MemberId} {name key : String} {holding : Holding} {stream : StreamId}
variable {station : StationId}

/-! ## What stays -/

/-- A channel to a station on which nothing is on the way. -/
def Rests (c : Cluster) (stream : StreamId) (station : StationId) : Prop :=
  ∃ channel unread, c.channels[stream]? = some channel ∧ channel.station = station ∧
    channel.serving = .waiting unread ∧ unread.Drained ∧ channel.arrived.Drained

/-- A later state of a cluster that differs in groups, and in channels that are at rest
    before and after. -/
structure Keeps (c later : Cluster) : Prop where
  latency : later.latency = c.latency
  links : later.links = c.links
  stations : later.stations = c.stations
  size : later.members.length = c.members.length
  pools : ∀ id, later.pool? id = c.pool? id
  rests : ∀ stream station, c.Rests stream station → later.Rests stream station

theorem Keeps.refl (c : Cluster) : c.Keeps c :=
  ⟨rfl, rfl, rfl, rfl, fun _ => rfl, fun _ _ => id⟩

theorem Keeps.trans (first : c.Keeps later) (second : later.Keeps last) : c.Keeps last where
  latency := second.latency.trans first.latency
  links := second.links.trans first.links
  stations := second.stations.trans first.stations
  size := second.size.trans first.size
  pools id := (second.pools id).trans (first.pools id)
  rests stream station := second.rests stream station ∘ first.rests stream station

theorem Keeps.pick (keeps : c.Keeps later) (id : MemberId) (key : String) : later.pick id key = c.pick id key := by
  rw [Cluster.pick, Cluster.pick, keeps.pools]

theorem Keeps.peersOf (keeps : c.Keeps later) (id : MemberId) : later.peersOf id = c.peersOf id := by
  rw [Cluster.peersOf, Cluster.peersOf, keeps.pools]

theorem keeps_modifyHolding (c : Cluster) (id : MemberId) (name : String) (change : Holding → Holding) :
    c.Keeps (c.modifyHolding id name change) where
  latency := rfl
  links := rfl
  stations := rfl
  size := List.length_modify ..
  pools member := by
    simp only [pool?, modifyHolding, modifyMember, List.getElem?_modify]
    cases c.members[member]? with
    | none => rfl
    | some found => by_cases same : id = member <;> simp [same]
  rests _ _ rests := rests

/-! ## Groups of one name -/

/-- The groups of a name, by member. -/
def holdings (c : Cluster) (name : String) : MemberId → Option Holding :=
  fun id => c.holding? id name

theorem holdings_congr (same : later.members = c.members) (name : String) : later.holdings name = c.holdings name := by
  funext id
  rw [holdings, holdings, holding?, holding?, registry, registry, same]

theorem registry_modifyHolding (c : Cluster) (id other : MemberId) (name : String) (change : Holding → Holding) :
    (c.modifyHolding id name change).registry other =
      if other = id then (c.registry other).update name change else c.registry other := by
  simp only [registry, modifyHolding, modifyMember, List.getElem?_modify]
  by_cases same : id = other
  · subst same
    cases c.members[id]? with
    | none =>
      simp [Registry.update, Registry.empty, Table.modify, Table.find?_empty]
    | some member => simp
  · simp [same, Ne.symm same]

theorem holdings_modifyHolding (held : c.holding? id name = some holding) (change : Holding → Holding) :
    (c.modifyHolding id name change).holdings name =
      Function.update (c.holdings name) id (some (change holding)) := by
  funext other
  rw [holdings, holding?, registry_modifyHolding]
  by_cases same : other = id
  · subst same
    rw [if_pos rfl, Function.update_self, Registry.find?, Registry.update, Table.find?_modify, if_pos rfl]
    exact congrArg (Option.map change) held
  · rw [if_neg same, Function.update_of_ne same]
    rfl

end Cluster

/-! ## Gets that are served here -/

theorem Group.lookup_of_found {group : Group} {key : String} {value : Bytes}
    (found : group.store.find? key = some value) :
    group.lookup key = ((group.count .gets).count .cacheHits, some value) := by
  simp only [lookup, count, found]

theorem Group.lookup_of_missing {group : Group} {key : String} (missing : group.store.find? key = none) :
    group.lookup key = (group.count .gets, none) := by
  simp only [lookup, count, missing]

/-- How often a loader was asked for a key. -/
def Holding.asked (holding : Holding) (key : String) : Nat :=
  (holding.loader.asked.find? key).getD 0

/-- The group after a counter went up. -/
def Holding.count (holding : Holding) (counter : Counter) : Holding :=
  { holding with group := holding.group.count counter }

/-- The group after a key was dropped. -/
def Holding.drop (holding : Holding) (key : String) : Holding :=
  { holding with group := holding.group.localRemove key }

/-- What a get of a key makes of a group that serves it, when it is answered, and the
    value: it is found, or loaded and stored. -/
inductive Holding.Answers (holding : Holding) (now : Time) (key : String) : Holding → Time → Bytes → Prop where
  | stored {value : Bytes} (found : holding.group.store.find? key = some value) :
      Answers holding now key ((holding.count .gets).count .cacheHits) 0 value
  | loaded {delay : Time} {value : Bytes} (missing : holding.group.store.find? key = none)
      (gives : holding.loader.work now key (holding.asked key) = .after delay (.ok value)) :
      Answers holding now key
        ⟨((holding.group.count .gets).loaded key (.ok value)).1, (holding.loader.ask now key).1⟩ delay value

/-- A loader that gives a value whenever it is asked for a key. -/
def Loader.NeverFails (loader : Loader) (key : String) : Prop :=
  ∀ now n, ∃ delay value, loader.work now key n = .after delay (.ok value)

theorem Holding.exists_answers {holding : Holding} {key : String} (gives : holding.loader.NeverFails key) (now : Time) :
    ∃ after delay value, holding.Answers now key after delay value := by
  cases found : holding.group.store.find? key with
  | some value => exact ⟨_, 0, value, .stored found⟩
  | none =>
    obtain ⟨delay, value, loads⟩ := gives now (holding.asked key)
    exact ⟨_, delay, value, .loaded found loads⟩

/-! ## Services -/

namespace Cluster

variable {c : Cluster} {member : MemberId} {name key : String} {holding after : Holding} {caller : Caller}
variable {now delay : Time} {value : Bytes}

/-- A later state of a cluster in which the groups of a name have become others. -/
structure Becomes (c : Cluster) (name : String) (groups : MemberId → Option Holding) (later : Cluster) : Prop where
  keeps : c.Keeps later
  holdings : later.holdings name = groups

theorem Becomes.holding?_self {later : Cluster} {groups : MemberId → Option Holding}
    (becomes : c.Becomes name (Function.update groups member (some holding)) later) :
    later.holding? member name = some holding :=
  (congrFun becomes.holdings member).trans (Function.update_self ..)

theorem Becomes.holding?_of_ne {later : Cluster} {groups : MemberId → Option Holding} {other : MemberId}
    (becomes : c.Becomes name (Function.update groups member (some holding)) later) (apart : other ≠ member) :
    later.holding? other name = groups other :=
  (congrFun becomes.holdings other).trans (Function.update_of_ne apart ..)

theorem becomes_modifyHolding (held : c.holding? member name = some holding) (change : Holding → Holding) :
    c.Becomes name (Function.update (c.holdings name) member (some (change holding)))
      (c.modifyHolding member name change) :=
  ⟨keeps_modifyHolding c member name change, holdings_modifyHolding held change⟩

/-- One change of a group after another. -/
theorem Becomes.modifyHolding {later : Cluster}
    (becomes : c.Becomes name (Function.update (c.holdings name) member (some holding)) later)
    (change : Holding → Holding) :
    c.Becomes name (Function.update (c.holdings name) member (some (change holding)))
      (later.modifyHolding member name change) := by
  have next := becomes_modifyHolding becomes.holding?_self change
  refine ⟨becomes.keeps.trans next.keeps, ?_⟩
  rw [next.holdings, becomes.holdings, Function.update_idem]

theorem group_host (held : c.holding? member name = some holding) :
    (host caller member name).group c = holding.group := by
  simp [host, held]

theorem putGroup_host (group : Group) :
    (host caller member name).putGroup group c = c.modifyHolding member name (fun h => { h with group }) :=
  rfl

theorem load_host (held : c.holding? member name = some holding) (deadline : Deadline) :
    (host caller member name).load now deadline key c =
      (c.modifyHolding member name (fun h => { h with loader := (holding.loader.ask now key).1 }),
        (holding.loader.ask now key).2) := by
  simp [host, held]

/-- A get is served here as the group answers it. -/
theorem exists_getHere (held : c.holding? member name = some holding)
    (answers : holding.Answers now key after delay value) :
    ∃ later, (host caller member name).getHere now .never key c = (later, .after delay (.ok value)) ∧
      c.Becomes name (Function.update (c.holdings name) member (some after)) later := by
  rw [Host.getHere, group_host held]
  cases answers with
  | stored found =>
    rw [Group.lookup_of_found found]
    exact ⟨_, rfl, becomes_modifyHolding held
      (fun h => { h with group := (holding.group.count .gets).count .cacheHits })⟩
  | loaded missing gives =>
    rw [Group.lookup_of_missing missing]
    have counted := becomes_modifyHolding held (fun h => { h with group := holding.group.count .gets })
    have asked := counted.modifyHolding (fun h => { h with loader := (holding.loader.ask now key).1 })
    have work : (holding.loader.ask now key).2 = .after delay (.ok value) := gives
    simp only [putGroup_host, load_host counted.holding?_self, work, Deadline.bound_never, group_host asked.holding?_self]
    exact ⟨_, rfl, asked.modifyHolding
      (fun h => { h with group := ((holding.group.count .gets).loaded key (.ok value)).1 })⟩

variable (caller) in
/-- A get at the member that owns the key. -/
theorem exists_get_here (held : c.holding? member name = some holding) (here : c.pick member key = none)
    (answers : holding.Answers now key after delay value) :
    ∃ later, (host caller member name).get now .never key c = (later, .after delay (.ok value)) ∧
      c.Becomes name (Function.update (c.holdings name) member (some after)) later := by
  have still : (host caller member name).owner
      ((host caller member name).putGroup (((host caller member name).group c).lookup key).1 c) key = none :=
    ((keeps_modifyHolding c member name _).pick member key).trans here
  rw [Host.get_eq_getHere still]
  exact exists_getHere held answers

variable (caller) in
/-- A request for a key that reaches its owner. -/
theorem exists_retrieved (held : c.holding? member name = some holding) (here : c.pick member key = none)
    (answers : (holding.count .serverRequests).Answers now key after delay value) :
    ∃ later, dispatch (service caller member) now (.retrieve ⟨name, key, none⟩) c =
        (later, .after delay (.retrieved value)) ∧
      c.Becomes name (Function.update (c.holdings name) member (some after)) later := by
  have counted := becomes_modifyHolding held (fun h => h.count .serverRequests)
  obtain ⟨later, got, becomes⟩ := exists_get_here caller counted.holding?_self
    ((counted.keeps.pick member key).trans here) answers
  have retrieves : (service caller member).retrieve now .never name key c = (later, .after delay (.ok value)) := by
    simp only [service, held]
    exact got
  refine ⟨later, ?_, counted.keeps.trans becomes.keeps, ?_⟩
  · simp only [dispatch, Deadline.ofBudget, retrieves, Deadline.bound_never, Work.map, retrieveReply]
  · rw [becomes.holdings, counted.holdings, Function.update_idem]

variable (caller now) in
/-- A request to drop a key. -/
theorem exists_deleted (held : c.holding? member name = some holding) :
    ∃ later, dispatch (service caller member) now (.delete ⟨name, key, none⟩) c = (later, .after 0 .ack) ∧
      c.Becomes name (Function.update (c.holdings name) member (some ((holding.count .serverRequests).drop key)))
        later := by
  have dropped := becomes_modifyHolding held (fun h => (h.count .serverRequests).drop key)
  refine ⟨_, ?_, dropped⟩
  simp only [dispatch, service, held]
  rfl

end Cluster

end RingCache
