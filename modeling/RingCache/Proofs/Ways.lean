import RingCache.Proofs.Forwards
import RingCache.Proofs.Letters

/-!
# Ways of a get

The chain of forwards of a get as a path of members (`Cluster.Way`): each of them forwards it
to the next, over a link that no other of them uses. While the get goes along its way, members
route as at the start (`Cluster.Steady`), and a step of one of its gets changes nothing but
the group at that member (`Cluster.Confined`).
-/
namespace RingCache

/-- Whether a flight is a get that has not begun, or that waits for a call to end. -/
def Flight.pends : Flight → Bool
  | .get { stage := .fresh _, .. } => true
  | .get { stage := .asking none, .. } => true
  | _ => false

theorem Group.name_peerAnswered (group : Group) (answer : Except Failure Bytes) :
    (group.peerAnswered answer).1.name = group.name := by
  cases answer with
  | ok value => rfl
  | error failure => cases failure <;> rfl

theorem Group.name_loaded (group : Group) (key : String) (answer : Except Failure Bytes) :
    (group.loaded key answer).1.name = group.name := by
  cases answer with
  | ok value => rfl
  | error failure => cases failure <;> rfl

namespace Cluster

variable {c later last : Cluster} {id origin member next : MemberId} {name key : String} {now due : Time}
variable {used : List LinkId} {asked path : List MemberId} {circles : Bool} {place other : Nat} {letter : Letter}

/-! ## Paths -/

/-- A member on a path, the peer that it forwards a get to, over a link around a stream, and
    the next member of the path, which is behind that stream. -/
structure Hop (c : Cluster) (name key : String) (path : List MemberId) (place : Nat) (peer : Peer) (wiring : Wiring)
    (stream : StreamId) (next : MemberId) : Prop where
  asks : ∃ id, path[place]? = some id ∧ c.forward name key id = some peer
  follows : path[place + 1]? = some next
  wired : c.links[peer.id]? = some wiring
  idle : wiring.link = .around stream
  behind : ∃ channel, c.channels[stream]? = some channel ∧ c.attachedTo channel.station = some next

/-- The way of a get: each member forwards it to the next one, over a link of its own, and
    the last one serves it or, if the way comes back, stands on it before. -/
structure Way (c : Cluster) (name key : String) (path : List MemberId) (circles : Bool) : Prop where
  named : ∀ id, (c.groupAt id name).name = name
  hops : ∀ {place id next}, path[place]? = some id → path[place + 1]? = some next →
    ∃ peer wiring stream, c.Hop name key path place peer wiring stream next
  apart : ∀ {place other peer wiring stream next also wire line after},
    c.Hop name key path place peer wiring stream next → c.Hop name key path other also wire line after →
    peer.id = also.id → place = other
  ends : ∀ {place id}, circles = false → path[place]? = some id → path.length = place + 1 → c.forward name key id = none
  once : circles = false → path.Nodup
  closes : ∀ {place id}, circles = true → path[place]? = some id → path.length = place + 1 →
    ∃ earlier, earlier < place ∧ path[earlier]? = some id

theorem Hop.forward {peer : Peer} {wiring : Wiring} {stream : StreamId}
    (hop : c.Hop name key path place peer wiring stream next) (at_place : path[place]? = some id) :
    c.forward name key id = some peer := by
  obtain ⟨other, stands, asks⟩ := hop.asks
  rwa [Option.some.inj (at_place.symm.trans stands)]

theorem Chain.leads (chain : c.Chain name key used id asked circles) (at_place : (id :: asked)[place]? = some member)
    (follows : (id :: asked)[place + 1]? = some next) :
    ∃ peer requests replies, c.forward name key member = some peer ∧ c.Leads peer.id next requests replies := by
  induction chain generalizing place with
  | ends | closes => simp at follows
  | asks asks new leads rest ih =>
    cases place with
    | zero =>
      cases at_place
      cases follows
      exact ⟨_, _, _, asks, leads⟩
    | succ place => exact ih at_place follows

/-- The last member of a chain that does not come back forwards nothing. -/
theorem Chain.forward_last (chain : c.Chain name key used id asked circles) (straight : circles = false) :
    c.forward name key (asked.getLastD id) = none := by
  induction chain with
  | ends here => exact here
  | closes => cases straight
  | asks asks new leads rest ih =>
    rw [List.getLastD_cons]
    exact ih straight

theorem getLastD_of_getElem? (at_place : (origin :: asked)[place]? = some id)
    (last : (origin :: asked).length = place + 1) : asked.getLastD origin = id := by
  have same : (origin :: asked).getLast? = some id := by
    rw [List.getLast?_eq_getElem?, last]
    exact at_place
  simpa [List.getLast?_cons] using same

theorem Leads.exists_hop {requests replies : Nat} {peer : Peer} (leads : c.Leads peer.id next requests replies)
    (at_place : path[place]? = some id) (asks : c.forward name key id = some peer)
    (follows : path[place + 1]? = some next) : ∃ wiring stream, c.Hop name key path place peer wiring stream next := by
  obtain @⟨wiring, stream, station, post, wired, idle, ⟨channel, _, opened, rfl, _⟩, stands, attached, _, _⟩ := leads
  refine ⟨wiring, stream, ⟨id, at_place, asks⟩, follows, wired, idle, channel, opened, ?_⟩
  rw [attachedTo, stands, Option.bind_some, attached]

/-- A chain is a way. -/
theorem Chain.way (chain : c.Chain name key [] origin asked circles) (calm : c.Calm name key)
    (apart : (origin :: asked).dropLast.Nodup) (comesBack : circles = true ↔ ¬ (origin :: asked).Nodup) :
    c.Way name key (origin :: asked) circles where
  named id := by
    rw [groupAt]
    cases held : c.holding? id name with
    | none => rfl
    | some holding => exact calm.named id holding held
  hops at_place follows := by
    obtain ⟨peer, _, _, asks, leads⟩ := chain.leads at_place follows
    obtain ⟨wiring, stream, hop⟩ := leads.exists_hop at_place asks follows
    exact ⟨peer, wiring, stream, hop⟩
  apart := by
    intro place other peer wiring stream next also wire line after hop another same
    obtain ⟨id, at_place, asks⟩ := hop.asks
    obtain ⟨place_id, at_other, asksToo⟩ := another.asks
    obtain rfl := calm.apart id place_id peer also asks asksToo same
    have short := (List.getElem?_eq_some_iff.mp hop.follows).1
    have shortToo := (List.getElem?_eq_some_iff.mp another.follows).1
    have lower : place < (origin :: asked).dropLast.length := by
      rw [List.length_dropLast]
      omega
    apply (List.getElem?_inj lower apart).mp
    rw [List.getElem?_dropLast, List.getElem?_dropLast, if_pos (by omega), if_pos (by omega), at_place, at_other]
  ends straight at_place last := by
    rw [← getLastD_of_getElem? at_place last]
    exact chain.forward_last straight
  once straight := by
    by_contra twice
    rw [comesBack.mpr twice] at straight
    cases straight
  closes := by
    intro place id back at_place last
    have twice := comesBack.mp back
    have final : (origin :: asked).getLast (List.cons_ne_nil origin asked) = id := by
      rw [List.getLast_eq_getLastD]
      exact getLastD_of_getElem? at_place last
    have listed : id ∈ (origin :: asked).dropLast := by
      by_contra absent
      apply twice
      rw [← List.dropLast_append_getLast (List.cons_ne_nil origin asked), final, List.nodup_append_comm]
      exact List.nodup_cons.mpr ⟨absent, apart⟩
    obtain ⟨earlier, stands⟩ := List.mem_iff_getElem?.mp listed
    rw [List.getElem?_dropLast] at stands
    split at stands
    · exact ⟨earlier, by omega, stands⟩
    · cases stands

/-- Every member on a way that comes back forwards the get. -/
theorem Way.exists_forward (way : c.Way name key path circles) (back : circles = true) (at_place : path[place]? = some id) :
    ∃ peer, c.forward name key id = some peer := by
  have forwards {place : Nat} (at_place : path[place]? = some id) (inside : place + 1 < path.length) :
      ∃ peer, c.forward name key id = some peer := by
    obtain ⟨peer, _, _, hop⟩ := way.hops at_place (List.getElem?_eq_getElem inside)
    exact ⟨peer, hop.forward at_place⟩
  have short := (List.getElem?_eq_some_iff.mp at_place).1
  by_cases last : path.length = place + 1
  · obtain ⟨earlier, before, stands⟩ := way.closes back at_place last
    exact forwards stands (by omega)
  · exact forwards at_place (by omega)

theorem forward_of_held (held : (c.holding? id name).isSome) : c.forward name key id =
    if ((c.groupAt id name).store.find? key).isSome then none else c.pick id key := by
  obtain ⟨holding, held⟩ := Option.isSome_iff_exists.mp held
  rw [forward, groupAt, held]
  rfl

theorem letter?_fresh {deadline : Deadline} {start : Time} (held : (c.holding? member name).isSome) :
    c.letter? now ⟨member, name, .get ⟨key, deadline, .fresh start⟩⟩ = (c.forward name key member).map (fun peer =>
      ⟨member, peer, .retrieve ⟨(c.groupAt member name).name, key, deadline.budget now⟩⟩) := by
  rw [forward_of_held held]
  simp only [letter?]
  cases (c.groupAt member name).store.find? key <;> rfl

/-! ## What a step of a get changes -/

/-- A later state of a cluster that differs from it in the group of a name at a member, which
    has its name still. -/
structure Confined (c : Cluster) (member : MemberId) (name : String) (later : Cluster) : Prop where
  stations : later.stations = c.stations
  channels : later.channels = c.channels
  links : later.links = c.links
  named : (later.groupAt member name).name = (c.groupAt member name).name
  others : ∀ id, id ≠ member → later.groupAt id name = c.groupAt id name

theorem Confined.refl (c : Cluster) (member : MemberId) (name : String) : c.Confined member name c :=
  ⟨rfl, rfl, rfl, rfl, fun _ _ => rfl⟩

theorem Confined.trans (first : c.Confined member name later) (second : later.Confined member name last) :
    c.Confined member name last where
  stations := second.stations.trans first.stations
  channels := second.channels.trans first.channels
  links := second.links.trans first.links
  named := second.named.trans first.named
  others id apart := (second.others id apart).trans (first.others id apart)

theorem confined_modifyHolding {change : Holding → Holding}
    (named : ∀ holding, c.holding? member name = some holding → (change holding).group.name = holding.group.name) :
    c.Confined member name (c.modifyHolding member name change) where
  stations := rfl
  channels := rfl
  links := rfl
  named := by
    rw [groupAt, groupAt, holding?_modifyHolding, if_pos rfl]
    cases held : c.holding? member name with
    | none => rfl
    | some holding => exact named holding held
  others id apart := by rw [groupAt, groupAt, holding?_modifyHolding, if_neg apart]

theorem confined_modifyGroup {group : Group} (named : group.name = (c.groupAt member name).name) :
    c.Confined member name (c.modifyGroup member name (fun _ => group)) := by
  apply confined_modifyHolding
  intro holding held
  rwa [groupAt, held] at named

theorem store_modifyHolding {change : Holding → Holding}
    (same : ∀ holding, c.holding? member name = some holding → (change holding).group.store = holding.group.store)
    (id : MemberId) : ((c.modifyHolding member name change).groupAt id name).store = (c.groupAt id name).store := by
  simp only [groupAt, holding?_modifyHolding]
  split
  next here =>
    subst here
    cases held : c.holding? id name with
    | none => rfl
    | some holding => exact same holding held
  next => rfl

theorem confined_askLoader (get : Get) (caller : Caller) :
    c.Confined member name (get.askLoader (host caller member name) now c).1 := by
  rw [Get.askLoader]
  cases held : c.holding? member name with
  | none =>
    simp only [host, held]
    exact .refl c member name
  | some holding =>
    rw [load_host held]
    exact confined_modifyHolding (fun _ _ => rfl)

/-- A get that goes on without a call changes its own group at most, and does not wait for a
    call then. -/
theorem proceed_of_alone {get : Get} (wakes : (Flight.get get).wake = some due)
    (alone : c.letter? now ⟨member, name, .get get⟩ = none) :
    c.Confined member name (c.proceed uncalled now ⟨member, name, .get get⟩).1 ∧
      ∃ stage, (c.proceed uncalled now ⟨member, name, .get get⟩).2 = ⟨member, name, .get { get with stage }⟩ ∧
        (Flight.get { get with stage }).pends = false := by
  obtain ⟨key, deadline, stage⟩ := get
  cases stage with
  | fresh start =>
    let looked := c.modifyGroup member name (fun _ => ((c.groupAt member name).lookup key).1)
    have counted : c.Confined member name looked := confined_modifyGroup (Group.name_lookup _ key)
    have owner : looked.pick member key = c.pick member key := (keeps_modifyHolding c member name _).pick member key
    simp only [letter?, Group.find?_eq_lookup] at alone
    simp only [proceed, Flight.advance, Get.advance, Get.begin, host_group, host_putGroup, host_owner]
    cases found : ((c.groupAt member name).lookup key).2 with
    | some value => exact ⟨counted, _, rfl, rfl⟩
    | none =>
      rw [found] at alone
      rw [show (c.modifyGroup member name _).pick member key = none from owner.trans (Option.map_eq_none_iff.mp alone)]
      exact ⟨counted.trans (confined_askLoader _ uncalled), _, rfl, rfl⟩
  | asking answer =>
    cases answer with
    | none => cases wakes
    | some answer =>
      have counted : c.Confined member name
          (c.modifyGroup member name (fun _ => ((c.groupAt member name).peerAnswered answer.2).1)) :=
        confined_modifyGroup (Group.name_peerAnswered _ answer.2)
      simp only [proceed, Flight.advance, Get.advance, Get.takePeer, host_group, host_putGroup]
      cases ((c.groupAt member name).peerAnswered answer.2).2 with
      | settled result => exact ⟨counted, _, rfl, rfl⟩
      | loadHere => exact ⟨counted.trans (confined_askLoader _ uncalled), _, rfl, rfl⟩
  | loading answer =>
    cases answer with
    | none => cases wakes
    | some answer => exact ⟨confined_modifyGroup (Group.name_loaded _ key answer.2), _, rfl, rfl⟩
  | finished result => cases wakes

/-- A get that asks a peer has just begun. -/
theorem proceed_of_letter {get : Get} (asks : c.letter? now ⟨member, name, .get get⟩ = some letter) :
    (∃ start, get.stage = .fresh start) ∧ c.proceed uncalled now ⟨member, name, .get get⟩ =
      (c.modifyGroup member name (fun _ => ((c.groupAt member name).lookup get.key).1),
        ⟨member, name, .get { get with stage := .asking none }⟩) := by
  obtain ⟨key, deadline, stage⟩ := get
  cases stage with
  | fresh start =>
    refine ⟨⟨start, rfl⟩, ?_⟩
    have owner : (c.modifyGroup member name (fun _ => ((c.groupAt member name).lookup key).1)).pick member key =
      c.pick member key := (keeps_modifyHolding c member name _).pick member key
    simp only [letter?, Group.find?_eq_lookup] at asks
    cases found : ((c.groupAt member name).lookup key).2 with
    | some value =>
      rw [found] at asks
      cases asks
    | none =>
      rw [found] at asks
      obtain ⟨peer, picked, _⟩ := Option.map_eq_some_iff.mp asks
      simp only [proceed, Flight.advance, Get.advance, Get.begin, host_group, host_putGroup, host_owner, found]
      rw [owner.trans picked]
      rfl
  | asking | loading | finished => cases asks

/-- A member answers a request for a value at once if it lacks the group. -/
theorem accept_retrieve_answered {caller : Caller} {request : KeyRequest} {work : Work Message}
    (answered : c.accept caller member now (.retrieve request) = (later, .answered work)) :
    c.holding? member request.group = none ∧ later = c := by
  rw [accept] at answered
  cases held : c.holding? member request.group with
  | some holding =>
    rw [held] at answered
    cases answered
  | none =>
    rw [held] at answered
    simp only [accept.atOnce, dispatch, service, held] at answered
    exact ⟨rfl, (congrArg Prod.fst answered).symm⟩

/-- A member starts a get only for a request of a group that it has. -/
theorem accept_retrieve_started {caller : Caller} {request served : KeyRequest} {job : Job}
    (started : c.accept caller member now (.retrieve request) = (later, .started served job)) :
    (c.holding? member request.group).isSome ∧ later = c.modifyGroup member request.group (·.count .serverRequests) ∧
      job = ⟨member, request.group, .startGet now (.ofBudget now request.budget) request.key⟩ := by
  rw [accept] at started
  cases held : c.holding? member request.group with
  | some holding =>
    rw [held] at started
    cases started
    exact ⟨rfl, rfl, rfl⟩
  | none =>
    rw [held] at started
    cases started

/-! ## What no step of a relay changes -/

/-- A later state of a cluster whose members route as before, whose groups of a name have
    their names, and whose channels lead where they did. -/
structure Steady (c : Cluster) (name : String) (later : Cluster) : Prop where
  stations : later.stations = c.stations
  channels : ∀ (stream : StreamId) (channel : Channel), c.channels[stream]? = some channel →
    ∃ after : Channel, later.channels[stream]? = some after ∧ after.station = channel.station
  pools : ∀ id, later.pool? id = c.pool? id
  holds : ∀ id, (later.holding? id name).isSome = (c.holding? id name).isSome
  named : ∀ id, (later.groupAt id name).name = (c.groupAt id name).name

theorem Steady.refl (c : Cluster) (name : String) : c.Steady name c :=
  ⟨rfl, fun _ channel opened => ⟨channel, opened, rfl⟩, fun _ => rfl, fun _ => rfl, fun _ => rfl⟩

theorem Steady.trans (first : c.Steady name later) (second : later.Steady name last) : c.Steady name last where
  stations := second.stations.trans first.stations
  channels stream channel opened := by
    obtain ⟨between, still, same⟩ := first.channels stream channel opened
    obtain ⟨after, later, again⟩ := second.channels stream between still
    exact ⟨after, later, again.trans same⟩
  pools id := (second.pools id).trans (first.pools id)
  holds id := (second.holds id).trans (first.holds id)
  named id := (second.named id).trans (first.named id)

theorem Confined.steady (confined : c.Confined member name later) (pools : ∀ id, later.pool? id = c.pool? id)
    (holds : ∀ id, (later.holding? id name).isSome = (c.holding? id name).isSome) : c.Steady name later where
  stations := confined.stations
  channels stream channel opened := ⟨channel, by rwa [confined.channels], rfl⟩
  pools
  holds
  named id := by
    by_cases here : id = member
    · rw [here, confined.named]
    · rw [confined.others id here]

theorem holding?_of_members (same : later.members = c.members) (id : MemberId) (name : String) :
    later.holding? id name = c.holding? id name :=
  congrFun (holdings_congr same name) id

theorem groupAt_congr (same : later.members = c.members) (id : MemberId) (name : String) :
    later.groupAt id name = c.groupAt id name := by
  rw [groupAt, groupAt, holding?_of_members same]

theorem steady_stepped (c : Cluster) (id : LinkId) (step : LinkStep) (name : String) :
    c.Steady name (c.stepped id step) where
  stations := by
    rw [stepped]
    split <;> rfl
  channels stream channel opened := by
    rw [stepped]
    split
    next dropped _ =>
      rw [hangUp, modifyChannel, List.getElem?_modify, opened]
      exact ⟨_, rfl, by split <;> rfl⟩
    next => exact ⟨channel, opened, rfl⟩
  pools member := by rw [pool?, members_stepped, pool?]
  holds member := by rw [holding?_of_members (members_stepped c id step)]
  named member := by rw [groupAt_congr (members_stepped c id step)]

theorem Steady.forward (steady : c.Steady name later) (held : (c.holding? id name).isSome)
    (same : (later.groupAt id name).store.find? key = (c.groupAt id name).store.find? key) :
    later.forward name key id = c.forward name key id := by
  have still : (later.holding? id name).isSome := by rwa [steady.holds]
  have picks : later.pick id key = c.pick id key := by rw [pick, pick, steady.pools]
  rw [forward_of_held still, forward_of_held held, same, picks]

theorem Steady.attachedTo (steady : c.Steady name later) (id : StationId) :
    later.attachedTo id = c.attachedTo id := by
  rw [Cluster.attachedTo, Cluster.attachedTo, steady.stations]

theorem links_stepped (c : Cluster) (id : LinkId) (step : LinkStep) :
    (c.stepped id step).links = c.links.modify id (fun wiring => { wiring with link := step.link }) := by
  rw [stepped]
  split <;> rfl

end Cluster

end RingCache
