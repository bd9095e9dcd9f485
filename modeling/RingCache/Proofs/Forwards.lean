import RingCache.Proofs.Ownership
import RingCache.Proofs.Requests

/-!
# Forwards of a get

Members whose rings differ pass a get on: each one that neither stores the key nor owns it
asks the peer that it takes for the owner, and waits. The chain of forwards ends at a member
that asks nobody, or comes back to a member that waits already (`Cluster.Chain`), which would
forward over the link that its own call holds. Without a deadline a get along a chain that
comes back has no end (`Cluster.Chain.waits`), and one along a chain that does not come back
ends with a value (`Cluster.Chain.answers`).
-/
namespace RingCache
open Wire

/-- A value that a group stores under a key, or that its loader may give. -/
def Holding.Has (holding : Holding) (key : String) (value : Bytes) : Prop :=
  holding.group.store.find? key = some value ∨ holding.loader.MayGive key value

namespace Cluster

variable {c start later : Cluster} {id origin member : MemberId} {name key : String} {holding own : Holding}
variable {caller : Caller} {deadline : Deadline} {peer : Peer} {now time : Time} {used : List LinkId} {depth : Nat}
variable {asked : List MemberId} {circles : Bool} {requests replies : Nat} {link : LinkId} {budget : Option UInt64}
variable {value : Bytes}

/-- The peer that a member forwards a get to: it has the group, does not store the key, and
    takes the peer for the owner. -/
def forward (c : Cluster) (name key : String) (id : MemberId) : Option Peer :=
  match c.holding? id name with
  | none => none
  | some holding => if (holding.group.store.find? key).isSome then none else c.pick id key

/-- The members that a get is forwarded to, starting at a member, while it holds some links
    already; and whether it comes back to one of these links. -/
inductive Chain (c : Cluster) (name key : String) : List LinkId → MemberId → List MemberId → Bool → Prop where
  | ends {used : List LinkId} {id : MemberId} (here : c.forward name key id = none) : Chain c name key used id [] false
  | closes {used : List LinkId} {id : MemberId} {peer : Peer} (asks : c.forward name key id = some peer)
      (again : peer.id ∈ used) : Chain c name key used id [] true
  | asks {used : List LinkId} {id next : MemberId} {asked : List MemberId} {circles : Bool} {peer : Peer}
      {requests replies : Nat} (asks : c.forward name key id = some peer) (new : peer.id ∉ used)
      (leads : c.Leads peer.id next requests replies) (rest : Chain c name key (peer.id :: used) next asked circles) :
      Chain c name key used id (next :: asked) circles

/-- All is at rest: what members forward to leads to members, over links that are theirs
    alone and take the request. -/
structure Calm (c : Cluster) (name key : String) : Prop where
  named : ∀ id holding, c.holding? id name = some holding → holding.group.name = name
  leads : ∀ id peer, c.forward name key id = some peer → ∃ member requests replies,
    c.Leads peer.id member requests replies
  asks : ∀ id peer member requests replies budget, c.forward name key id = some peer →
    c.Leads peer.id member requests replies → Framed requests (.retrieve ⟨name, key, budget⟩)
  apart : ∀ first second peer other, c.forward name key first = some peer → c.forward name key second = some other →
    peer.id = other.id → first = second

/-- The members that a get is forwarded to have the group, loaders do not fail, and the
    values fit into replies. -/
structure Supplies (c : Cluster) (name key : String) (asked : List MemberId) : Prop where
  grouped : ∀ id ∈ asked, ∃ holding, c.holding? id name = some holding
  gives : ∀ id holding, c.holding? id name = some holding → holding.loader.NeverFails key
  frames : ∀ link member requests replies id holding value, c.Leads link member requests replies →
    c.holding? id name = some holding → holding.Has key value → Framed replies (.retrieved value)

theorem Supplies.rest (supplies : c.Supplies name key (id :: asked)) : c.Supplies name key asked :=
  { supplies with grouped := (List.forall_mem_cons.mp supplies.grouped).2 }

/-! ## Chains -/

theorem holding?_of_forward (asks : c.forward name key id = some peer) :
    ∃ holding, c.holding? id name = some holding ∧ holding.group.store.find? key = none ∧ c.pick id key = some peer := by
  rw [forward] at asks
  split at asks
  · cases asks
  next holding held =>
    split at asks
    · cases asks
    next missing => exact ⟨holding, held, by simpa using missing, asks⟩

/-- A member that lacks the group forwards nothing. -/
theorem Chain.ends_of_lacking (chain : c.Chain name key used id asked circles) (lacks : c.holding? id name = none) :
    asked = [] ∧ circles = false := by
  have nobody (peer : Peer) (asks : c.forward name key id = some peer) : False := by
    obtain ⟨holding, held, _⟩ := holding?_of_forward asks
    rw [lacks] at held
    cases held
  cases chain with
  | ends here => exact ⟨rfl, rfl⟩
  | closes asks again => exact (nobody _ asks).elim
  | asks asks new leads rest => exact (nobody _ asks).elim

theorem Leads.unique {asks reads : Nat} (first : c.Leads link member requests replies)
    (second : c.Leads link id asks reads) : member = id := by
  obtain @⟨wiring, stream, station, post, wired, idle, ⟨channel, _, opened, rfl, _⟩, stands, attached, _, _⟩ := first
  obtain @⟨other, _, _, _, also, idleToo, ⟨_, _, openedToo, rfl, _⟩, standsToo, attachedToo, _, _⟩ := second
  cases Option.some.inj (wired.symm.trans also)
  cases idle.symm.trans idleToo
  cases Option.some.inj (opened.symm.trans openedToo)
  cases Option.some.inj (stands.symm.trans standsToo)
  exact Option.some.inj (attached.symm.trans attachedToo)

/-- The members that a get is forwarded to are given with its first member. -/
theorem Chain.unique {others : List MemberId} {back : Bool} (first : c.Chain name key used id asked circles)
    (second : c.Chain name key used id others back) : asked = others ∧ circles = back := by
  induction first generalizing others back with
  | ends here =>
    cases second with
    | ends => exact ⟨rfl, rfl⟩
    | closes asks _ => cases here.symm.trans asks
    | asks asks _ _ _ => cases here.symm.trans asks
  | closes asks again =>
    cases second with
    | ends here => cases here.symm.trans asks
    | closes => exact ⟨rfl, rfl⟩
    | asks also new _ _ =>
      cases Option.some.inj (asks.symm.trans also)
      exact absurd again new
  | asks asks new leads rest ih =>
    cases second with
    | ends here => cases here.symm.trans asks
    | closes also again =>
      cases Option.some.inj (asks.symm.trans also)
      exact absurd again new
    | asks also _ leadsToo restToo =>
      cases Option.some.inj (asks.symm.trans also)
      cases leads.unique leadsToo
      obtain ⟨rfl, rfl⟩ := ih restToo
      exact ⟨rfl, rfl⟩

/-- Links that a get holds, each of them once. -/
structure Holds (c : Cluster) (used : List LinkId) : Prop where
  nodup : used.Nodup
  known : ∀ link ∈ used, link < c.links.length

theorem Holds.length_le (holds : c.Holds used) : used.length ≤ c.links.length := by
  have among : used ⊆ List.range c.links.length := fun link listed => List.mem_range.mpr (holds.known link listed)
  simpa using (List.subperm_of_subset holds.nodup among).length_le

theorem Holds.cons (holds : c.Holds used) (new : link ∉ used) (leads : c.Leads link member requests replies) :
    c.Holds (link :: used) := by
  obtain ⟨wired, _, _, _, _, _, _⟩ := leads
  refine ⟨List.nodup_cons.mpr ⟨new, holds.nodup⟩, List.forall_mem_cons.mpr ⟨?_, holds.known⟩⟩
  exact (List.getElem?_eq_some_iff.mp wired).1

/-- Members that wait for an answer to a get which they have forwarded, and the links that
    they hold. -/
structure Waits (c : Cluster) (name key : String) (waiting : List MemberId) (used : List LinkId) : Prop where
  nodup : waiting.Nodup
  forwards : ∀ id ∈ waiting, ∃ peer, c.forward name key id = some peer ∧ peer.id ∈ used
  covers : ∀ link ∈ used, ∃ id ∈ waiting, ∃ peer, c.forward name key id = some peer ∧ peer.id = link

/-- A member waits exactly if the link over which it forwards is held. -/
theorem Waits.mem_iff {waiting : List MemberId} (waits : c.Waits name key waiting used) (calm : c.Calm name key)
    (asks : c.forward name key id = some peer) : id ∈ waiting ↔ peer.id ∈ used := by
  constructor
  · intro listed
    obtain ⟨other, same, held⟩ := waits.forwards id listed
    rw [asks] at same
    cases same
    exact held
  · intro held
    obtain ⟨other, listed, owned, also, same⟩ := waits.covers peer.id held
    rwa [calm.apart id other peer owned asks also same.symm]

theorem Waits.cons {waiting : List MemberId} (waits : c.Waits name key waiting used) (calm : c.Calm name key)
    (asks : c.forward name key id = some peer) (new : peer.id ∉ used) :
    c.Waits name key (waiting ++ [id]) (peer.id :: used) where
  nodup := by
    rw [List.nodup_append_comm]
    exact List.nodup_cons.mpr ⟨fun listed => new ((waits.mem_iff calm asks).mp listed), waits.nodup⟩
  forwards := by
    simp only [List.forall_mem_append, List.forall_mem_singleton]
    refine ⟨?_, peer, asks, List.mem_cons_self⟩
    intro other listed
    obtain ⟨owned, also, held⟩ := waits.forwards other listed
    exact ⟨owned, also, List.mem_cons_of_mem peer.id held⟩
  covers := by
    rw [List.forall_mem_cons]
    refine ⟨⟨id, by simp, peer, asks, rfl⟩, ?_⟩
    intro link held
    obtain ⟨other, listed, rest⟩ := waits.covers link held
    exact ⟨other, List.mem_append_left _ listed, rest⟩

/-- Only the last member that is asked may be one that waits, and it is one exactly if the
    chain comes back to a link that it holds. -/
theorem Chain.nodup_iff {waiting : List MemberId} (chain : c.Chain name key used id asked circles)
    (calm : c.Calm name key) (waits : c.Waits name key waiting used) :
    (waiting ++ (id :: asked).dropLast).Nodup ∧ (circles = true ↔ ¬ (waiting ++ id :: asked).Nodup) := by
  induction chain generalizing waiting with
  | @ends used id here =>
    have absent : id ∉ waiting := by
      intro listed
      obtain ⟨peer, asks, _⟩ := waits.forwards id listed
      rw [here] at asks
      cases asks
    have all : (waiting ++ [id]).Nodup := by
      rw [List.nodup_append_comm]
      exact List.nodup_cons.mpr ⟨absent, waits.nodup⟩
    simpa using ⟨waits.nodup, all⟩
  | @closes used id peer asks again =>
    have listed := (waits.mem_iff calm asks).mpr again
    have twice : ¬ (waiting ++ [id]).Nodup := by
      rw [List.nodup_append_comm]
      exact fun apart => (List.nodup_cons.mp apart).1 listed
    simpa using ⟨waits.nodup, twice⟩
  | @asks used id next asked circles peer requests replies asks new leads rest ih =>
    have later := ih (waits.cons calm asks new)
    rw [List.append_assoc, List.append_assoc] at later
    exact later

/-! ## One get -/

/-- A get that is not forwarded counts no request. -/
theorem requestsAt_get_of_here (held : c.holding? member name = some holding)
    (here : c.forward name key member = none) (id : MemberId) :
    ((host caller member name).get now deadline key c).1.requestsAt name id = c.requestsAt name id := by
  rw [forward, held] at here
  cases found : holding.group.store.find? key with
  | some value =>
    have same := Group.serverRequests_lookup ((host caller member name).group c) key
    rw [Host.get_eq_getAlone, Host.getAlone]
    simp only [group_host held, Group.lookup_of_found found] at same ⊢
    exact requestsAt_putGroup id (by rw [group_host held]; exact same)
  | none =>
    have nobody : c.pick member key = none := by simpa [found] using here
    rw [get_of_here key caller deadline now held found nobody, requestsAt_loadAlone]
    exact requestsAt_begun held id

/-- A get that is forwarded counts what its call counts. -/
theorem requestsAt_get_of_forward (held : c.holding? member name = some holding) (named : holding.group.name = name)
    (asks : c.forward name key member = some peer) (id : MemberId) :
    ((host caller member name).get now deadline key c).1.requestsAt name id =
      (caller now peer deadline (.retrieve ⟨name, key, deadline.budget now⟩) (c.begun member name holding)).1.requestsAt
        name id := by
  obtain ⟨other, also, missing, picks⟩ := holding?_of_forward asks
  rw [held] at also
  cases also
  rw [get_of_picked caller deadline now held missing picks]
  exact (requestsAt_fetchAlone id).trans (by rw [fetch_begun held named])

theorem fetch_of_call {next : Cluster} {work : Work (Except Failure Message)}
    (held : c.holding? member name = some holding) (named : holding.group.name = name)
    (called : caller now peer deadline (.retrieve ⟨name, key, deadline.budget now⟩) (c.begun member name holding) =
      (next, work)) :
    (host caller member name).fetch peer now deadline
        ((host caller member name).group (c.begun member name holding)).name key (c.begun member name holding) =
      (next, work.map (Exchange.value peer.address key)) := by
  rw [fetch_begun held named, called]

/-- A get whose call never comes back does not come back either. -/
theorem get_of_silent_call (held : c.holding? member name = some holding) (named : holding.group.name = name)
    (asks : c.forward name key member = some peer)
    (silent : (caller now peer .never (.retrieve ⟨name, key, none⟩) (c.begun member name holding)).2 = .never) :
    ((host caller member name).get now .never key c).2 = .never := by
  obtain ⟨other, also, missing, picks⟩ := holding?_of_forward asks
  rw [held] at also
  cases also
  rcases called : caller now peer .never (.retrieve ⟨name, key, none⟩) (c.begun member name holding) with ⟨next, work⟩
  rw [called] at silent
  obtain rfl : work = .never := silent
  rw [get_of_picked caller .never now held missing picks, Host.fetchAlone, fetch_of_call held named called]
  rfl

/-- A get whose call brings a value returns it. -/
theorem exists_get_of_answer {next : Cluster} (held : c.holding? member name = some holding)
    (named : holding.group.name = name) (asks : c.forward name key member = some peer)
    (called : caller now peer .never (.retrieve ⟨name, key, none⟩) (c.begun member name holding) =
      (next, .after time (.ok (.retrieved value)))) :
    ∃ later, (host caller member name).get now .never key c = (later, .after time (.ok value)) ∧ next.Keeps later := by
  obtain ⟨other, also, missing, picks⟩ := holding?_of_forward asks
  rw [held] at also
  cases also
  rw [get_of_picked caller .never now held missing picks, Host.fetchAlone, fetch_of_call held named called]
  exact ⟨_, rfl, keeps_modifyHolding next member name _⟩

variable (caller now) in
/-- A get that is not forwarded returns what the member stores or loads. -/
theorem exists_get_of_here (held : c.holding? member name = some holding) (here : c.forward name key member = none)
    (gives : holding.loader.NeverFails key) :
    ∃ later delay value, (host caller member name).get now .never key c = (later, .after delay (.ok value)) ∧
      c.Keeps later ∧ holding.Has key value := by
  rw [forward, held] at here
  cases found : holding.group.store.find? key with
  | some value =>
    rw [Host.get_eq_getAlone, Host.getAlone]
    simp only [group_host held, Group.lookup_of_found found]
    exact ⟨_, _, value, rfl, keeps_modifyHolding c member name _, .inl found⟩
  | none =>
    obtain ⟨delay, value, loads⟩ := gives now (holding.asked key)
    have nobody : c.pick member key = none := by simpa [found] using here
    obtain ⟨later, got, becomes⟩ := exists_get_here caller held nobody (.loaded found loads)
    exact ⟨later, delay, value, got, becomes.keeps, .inr ⟨now, _, delay, loads⟩⟩

/-! ## While a get is forwarded -/

/-- The cluster while a get holds some links: besides them only what groups have counted is
    other than at the start. The calls that hold the links are nested less deep than those
    still to come. -/
structure Descends (start : Cluster) (name : String) (used : List LinkId) (depth : Nat) (c : Cluster) : Prop where
  stations : c.stations = start.stations
  channels : c.channels = start.channels
  pools : ∀ id, c.pool? id = start.pool? id
  quiet : c.quietly name = start.quietly name
  free : ∀ link, link ∉ used → c.links[link]? = start.links[link]?
  held : ∀ link ∈ used, ∃ wiring party, c.links[link]? = some wiring ∧ wiring.link = inUse party ∧ depth < party

theorem Descends.refl (c : Cluster) (name : String) (depth : Nat) : c.Descends name [] depth c :=
  ⟨rfl, rfl, fun _ => rfl, rfl, fun _ _ => rfl, List.forall_mem_nil _⟩

/-- A group is the same as at the start but for what it has counted. -/
theorem Descends.same (descends : start.Descends name used depth c) (member : MemberId) :
    (c.holding? member name).map Holding.quiet = (start.holding? member name).map Holding.quiet :=
  congrFun descends.quiet member

theorem Descends.exists_holding (descends : start.Descends name used depth c)
    (held : start.holding? member name = some own) :
    ∃ holding, c.holding? member name = some holding ∧ holding.quiet = own.quiet := by
  have same := descends.same member
  rw [held] at same
  exact Option.map_eq_some_iff.mp same

theorem Descends.holding?_eq_none (descends : start.Descends name used depth c)
    (lacks : start.holding? member name = none) : c.holding? member name = none := by
  have same := descends.same member
  rw [lacks] at same
  exact Option.map_eq_none_iff.mp same

theorem Descends.named (descends : start.Descends name used depth c) (calm : start.Calm name key)
    (held : c.holding? member name = some holding) : holding.group.name = name := by
  have same := descends.same member
  rw [held] at same
  obtain ⟨own, also, alike⟩ := Option.map_eq_some_iff.mp same.symm
  exact (congrArg (fun h : Holding => h.group.name) alike).symm.trans (calm.named member own also)

theorem Descends.forward (descends : start.Descends name used depth c) (key : String) (id : MemberId) :
    c.forward name key id = start.forward name key id := by
  have picks : c.pick id key = start.pick id key := by rw [pick, pick, descends.pools]
  rw [Cluster.forward, Cluster.forward, picks]
  cases held : start.holding? id name with
  | none => rw [descends.holding?_eq_none held]
  | some own =>
    obtain ⟨holding, also, alike⟩ := descends.exists_holding held
    rw [also]
    simp only [(Holding.same_of_quiet alike).2]

theorem Descends.leads (descends : start.Descends name used depth c) (new : link ∉ used)
    (leads : start.Leads link member requests replies) : c.Leads link member requests replies := by
  obtain @⟨wiring, stream, station, post, wired, idle, rests, stands, attached, accepts, reads⟩ := leads
  have restsThen : c.Rests stream station := by rwa [Rests, descends.channels]
  refine .intro ?_ idle restsThen ?_ attached accepts reads
  · rwa [descends.free link new]
  · rwa [descends.stations]

/-- Something is counted for a group. -/
theorem Descends.count (descends : start.Descends name used depth c) {change : Holding → Holding}
    (same : ∀ holding, c.holding? member name = some holding → (change holding).quiet = holding.quiet) :
    start.Descends name used depth (c.modifyHolding member name change) where
  stations := descends.stations
  channels := descends.channels
  pools id := ((keeps_modifyHolding c member name change).pools id).trans (descends.pools id)
  quiet := by
    rw [← descends.quiet]
    funext id
    rw [quietly, quietly, holding?_modifyHolding]
    split
    next here =>
      subst here
      cases held : c.holding? id name with
      | none => rfl
      | some holding => exact congrArg some (same holding held)
    next => rfl
  free := descends.free
  held := descends.held

theorem Descends.counted (descends : start.Descends name used depth c) (member : MemberId) :
    start.Descends name used depth (c.modifyHolding member name (·.count .serverRequests)) :=
  descends.count (fun _ _ => rfl)

theorem Descends.begun (descends : start.Descends name used depth c) (held : c.holding? member name = some holding) :
    start.Descends name used depth (c.begun member name holding) := by
  apply descends.count
  intro other also
  rw [held] at also
  cases also
  rfl

/-- One more link is held. -/
theorem Descends.lent (descends : start.Descends name used (depth + 1) c)
    (leads : c.Leads link member requests replies) (alarm : Option Time) :
    start.Descends name (link :: used) depth (c.lent link (depth + 1) alarm) where
  stations := descends.stations
  channels := descends.channels
  pools := descends.pools
  quiet := descends.quiet
  free other apart := by
    rw [List.mem_cons, not_or] at apart
    rw [← descends.free other apart.2]
    simp [Cluster.lent, setAlarm, withLink, Ne.symm apart.1]
  held := by
    obtain ⟨wired, _, _, _, _, _, _⟩ := leads
    rw [List.forall_mem_cons]
    refine ⟨⟨_, depth + 1, getElem?_withLink wired _, rfl, Nat.lt_succ_self depth⟩, ?_⟩
    intro other listed
    obtain ⟨wiring, party, also, holds, deeper⟩ := descends.held other listed
    by_cases same : other = link
    · subst same
      exact ⟨_, depth + 1, getElem?_withLink wired _, rfl, Nat.lt_succ_self depth⟩
    · refine ⟨wiring, party, ?_, holds, Nat.lt_of_succ_lt deeper⟩
      simpa [Cluster.lent, setAlarm, withLink, Ne.symm same] using also

/-- The calls that hold some links never give up. -/
def Patient (c : Cluster) (used : List LinkId) : Prop := ∀ link ∈ used, c.alarms link = none

theorem Patient.lent (patient : c.Patient used) (link : LinkId) (party : PartyId) :
    (c.lent link party none).Patient (link :: used) := by
  intro other listed
  by_cases same : other = link
  · simp [Cluster.lent, setAlarm, same]
  · simpa [Cluster.lent, setAlarm, same, withLink] using patient other (List.mem_of_ne_of_mem same listed)

variable (deadline now) in
/-- A get that is forwarded holds the link over which its request arrives. -/
theorem Descends.exists_forwarded (descends : start.Descends name used (depth + 1) c) (calm : start.Calm name key)
    (held : start.holding? id name = some own) (asks : start.forward name key id = some peer) (new : peer.id ∉ used)
    (leads : start.Leads peer.id member requests replies) :
    ∃ holding, c.holding? id name = some holding ∧ holding.group.name = name ∧ c.forward name key id = some peer ∧
      (c.begun id name holding).Leads peer.id member requests replies ∧
      start.Descends name (peer.id :: used) depth
        ((c.begun id name holding).lent peer.id (depth + 1) (deadline.alarm now)) := by
  obtain ⟨holding, heldNow, _⟩ := descends.exists_holding held
  have begun := descends.begun heldNow
  have leadsNow := begun.leads new leads
  exact ⟨holding, heldNow, descends.named calm heldNow, (descends.forward key id).trans asks, leadsNow,
    begun.lent leadsNow (deadline.alarm now)⟩

/-! ## Requests that arrive -/

variable (caller now key budget) in
/-- A request for a key counts itself, and then is a get. -/
theorem dispatch_retrieve (held : c.holding? member name = some holding) :
    dispatch (service caller member) now (.retrieve ⟨name, key, budget⟩) c =
      let (later, work) := (host caller member name).get now (.ofBudget now budget) key
        (c.modifyHolding member name (·.count .serverRequests))
      (later, ((Deadline.ofBudget now budget).bound now work).map (retrieveReply ⟨name, key, budget⟩)) := by
  simp only [dispatch, service, held]
  rfl

theorem dispatch_retrieve_of_get {work : Work (Except Failure Bytes)} (held : c.holding? member name = some holding)
    (got : (host caller member name).get now .never key (c.modifyHolding member name (·.count .serverRequests)) =
      (later, work)) :
    dispatch (service caller member) now (.retrieve ⟨name, key, none⟩) c =
      (later, work.map (retrieveReply ⟨name, key, none⟩)) := by
  rw [dispatch_retrieve key caller now none held, Deadline.ofBudget, got]
  rfl

/-- A member that lacks the group refuses. -/
theorem dispatch_retrieve_of_lacking (lacks : c.holding? member name = none) :
    (dispatch (service caller member) now (.retrieve ⟨name, key, budget⟩) c).1 = c := by
  simp only [dispatch, service, lacks]

theorem requestsAt_of_counted (held : c.holding? member name = some holding) (other : MemberId) :
    (c.modifyHolding member name (·.count .serverRequests)).requestsAt name other =
      c.requestsAt name other + if other = member then 1 else 0 := by
  rw [requestsAt, requestsAt, holding?_modifyHolding]
  split
  next here =>
    rw [here, held]
    rfl
  next => rfl

/-- A get without a deadline that would be forwarded over a link which is held already, by a
    call that never gives up, counts no request and waits forever. -/
theorem get_of_again (calm : start.Calm name key) (descends : start.Descends name used (depth + 1) c)
    (held : c.holding? id name = some holding) (asks : start.forward name key id = some peer) (again : peer.id ∈ used)
    (patient : c.Patient used) (other : MemberId) :
    ((host (callAt (depth + 1)) id name).get now .never key c).1.requestsAt name other = c.requestsAt name other ∧
      ((host (callAt (depth + 1)) id name).get now .never key c).2 = .never := by
  have asksNow := (descends.forward key id).trans asks
  have named := descends.named calm held
  obtain ⟨wiring, party, wired, holds, deeper⟩ := (descends.begun held).held peer.id again
  obtain ⟨members, waits⟩ := call_of_held wired holds (Nat.ne_of_gt deeper) (patient peer.id again)
  constructor
  · rw [requestsAt_get_of_forward held named asksNow, requestsAt_congr members, requestsAt_begun held]
  · exact get_of_silent_call held named asksNow waits

/-- The members that a get is forwarded to count one request each, and no others do, unless
    it comes back and has a deadline. -/
theorem Chain.requestsAt (chain : start.Chain name key used id asked circles) (calm : start.Calm name key)
    (descends : start.Descends name used depth c) (deep : asked.length < depth)
    (held : start.holding? id name = some own) (waits : circles = true → deadline = .never ∧ c.Patient used)
    {other : MemberId}
    (groups : ∃ holding, start.holding? other name = some holding) :
    ((host (callAt depth) id name).get now deadline key c).1.requestsAt name other =
      c.requestsAt name other + asked.count other := by
  -- The cluster is the one in which the get arrives at the member where the rest of the chain starts.
  induction chain generalizing c depth now deadline own with
  | @ends used id here =>
    obtain ⟨holding, heldNow, _⟩ := descends.exists_holding held
    exact requestsAt_get_of_here heldNow ((descends.forward key id).trans here) other
  | @closes used id peer asks again =>
    obtain ⟨depth, rfl⟩ := Nat.exists_eq_add_one_of_ne_zero (Nat.ne_zero_of_lt deep)
    obtain ⟨holding, heldNow, _⟩ := descends.exists_holding held
    obtain ⟨rfl, patient⟩ := waits rfl
    exact (get_of_again calm descends heldNow asks again patient other).1
  | @asks used id next asked circles peer requests replies asks new leads rest ih =>
    obtain ⟨depth, rfl⟩ := Nat.exists_eq_add_one_of_ne_zero (Nat.ne_zero_of_lt deep)
    obtain ⟨holding, heldNow, named, asksNow, leadsNow, arrives⟩ :=
      descends.exists_forwarded deadline now calm held asks new leads
    let arrived := (c.begun id name holding).lent peer.id (depth + 1) (deadline.alarm now)
    have framed := calm.asks id peer next requests replies (deadline.budget now) asks leads
    rw [requestsAt_get_of_forward heldNow named asksNow, requestsAt_congr (members_call leadsNow framed)]
    have before : arrived.requestsAt name other = c.requestsAt name other := requestsAt_begun heldNow other
    -- A member without the group refuses, and forwards nothing.
    cases heldNext : start.holding? next name with
    | none =>
      obtain ⟨rfl, _⟩ := rest.ends_of_lacking heldNext
      have apart : other ≠ next := by
        rintro rfl
        obtain ⟨_, present⟩ := groups
        rw [heldNext] at present
        cases present
      rw [dispatch_retrieve_of_lacking (arrives.holding?_eq_none heldNext), before]
      simp [Ne.symm apart]
    | some ownNext =>
      obtain ⟨holdingNext, heldThere, _⟩ := arrives.exists_holding heldNext
      rw [dispatch_retrieve _ _ _ _ heldThere]
      have waitsThere : circles = true → Deadline.ofBudget (now + (c.begun id name holding).latency)
          (deadline.budget now) = .never ∧ arrived.Patient (peer.id :: used) := by
        intro back
        obtain ⟨rfl, patient⟩ := waits back
        exact ⟨rfl, patient.lent peer.id (depth + 1)⟩
      refine (ih (arrives.counted next) (Nat.lt_of_succ_lt_succ deep) heldNext waitsThere).trans ?_
      rw [requestsAt_of_counted heldThere, before, List.count_cons, BEq.comm]
      simp only [beq_iff_eq]
      omega

/-- A get that comes back to a link which it holds waits forever without a deadline. -/
theorem Chain.waits (chain : start.Chain name key used id asked circles) (back : circles = true)
    (calm : start.Calm name key) (descends : start.Descends name used depth c) (deep : asked.length < depth)
    (held : start.holding? id name = some own) (patient : c.Patient used) :
    ((host (callAt depth) id name).get now .never key c).2 = .never := by
  induction chain generalizing c depth now own with
  | ends here => cases back
  | @closes used id peer asks again =>
    obtain ⟨depth, rfl⟩ := Nat.exists_eq_add_one_of_ne_zero (Nat.ne_zero_of_lt deep)
    obtain ⟨holding, heldNow, _⟩ := descends.exists_holding held
    exact (get_of_again calm descends heldNow asks again patient id).2
  | @asks used id next asked circles peer requests replies asks new leads rest ih =>
    obtain ⟨depth, rfl⟩ := Nat.exists_eq_add_one_of_ne_zero (Nat.ne_zero_of_lt deep)
    obtain ⟨holding, heldNow, named, asksNow, leadsNow, arrives⟩ :=
      descends.exists_forwarded .never now calm held asks new leads
    have framed := calm.asks id peer next requests replies none asks leads
    obtain ⟨ownNext, heldNext⟩ : ∃ ownNext, start.holding? next name = some ownNext := by
      apply Option.ne_none_iff_exists'.mp
      intro lacks
      obtain ⟨_, straight⟩ := rest.ends_of_lacking lacks
      rw [straight] at back
      cases back
    obtain ⟨holdingNext, heldThere, _⟩ := arrives.exists_holding heldNext
    let arrived := (c.begun id name holding).lent peer.id (depth + 1) (Deadline.never.alarm now)
    rcases got : (host (callAt depth) next name).get (now + (c.begun id name holding).latency) .never key
      (arrived.modifyHolding next name (·.count .serverRequests)) with ⟨served, work⟩
    obtain rfl : work = .never := by
      have patientThere : arrived.Patient (peer.id :: used) := patient.lent peer.id (depth + 1)
      rw [← ih back (arrives.counted next) (Nat.lt_of_succ_lt_succ deep) heldNext patientThere, got]
    apply get_of_silent_call heldNow named asksNow
    exact call_of_silent leadsNow framed (dispatch_retrieve_of_get heldThere got)

/-- A get that does not come back returns what the last member stores or loads. -/
theorem Chain.answers (chain : start.Chain name key used id asked circles) (straight : circles = false)
    (calm : start.Calm name key) (supplies : start.Supplies name key asked)
    (descends : start.Descends name used depth c) (deep : asked.length < depth)
    (held : start.holding? id name = some own) :
    ∃ later delay value last, (host (callAt depth) id name).get now .never key c = (later, .after delay (.ok value)) ∧
      c.Keeps later ∧ start.holding? (asked.getLastD id) name = some last ∧ last.Has key value := by
  induction chain generalizing c depth now own with
  | @ends used id here =>
    obtain ⟨holding, heldNow, same⟩ := descends.exists_holding held
    obtain ⟨loader, store⟩ := Holding.same_of_quiet same
    have gives : holding.loader.NeverFails key := by
      rw [loader]
      exact supplies.gives id own held
    obtain ⟨later, delay, value, got, keeps, has⟩ :=
      exists_get_of_here (callAt depth) now heldNow ((descends.forward key id).trans here) gives
    rw [Holding.Has, loader, store] at has
    exact ⟨later, delay, value, own, got, keeps, held, has⟩
  | closes asks again => cases straight
  | @asks used id next asked circles peer requests replies asks new leads rest ih =>
    obtain ⟨depth, rfl⟩ := Nat.exists_eq_add_one_of_ne_zero (Nat.ne_zero_of_lt deep)
    obtain ⟨holding, heldNow, named, asksNow, leadsNow, arrives⟩ :=
      descends.exists_forwarded .never now calm held asks new leads
    have framed := calm.asks id peer next requests replies none asks leads
    obtain ⟨ownNext, heldNext⟩ := supplies.grouped next List.mem_cons_self
    obtain ⟨holdingNext, heldThere, _⟩ := arrives.exists_holding heldNext
    obtain ⟨served, delay, value, last, got, keeps, heldLast, has⟩ := ih straight
      supplies.rest (arrives.counted next) (Nat.lt_of_succ_lt_succ deep) heldNext
    have replied := supplies.frames peer.id next requests replies (asked.getLastD next) last value leads heldLast has
    have serves := dispatch_retrieve_of_get heldThere got
    have becomes : ((c.begun id name holding).lent peer.id (depth + 1) none).Becomes name (served.holdings name)
      served := ⟨(keeps_modifyHolding _ next name _).trans keeps, rfl⟩
    obtain ⟨back, followed, becomesThen⟩ := exists_follow .never leadsNow framed replied serves becomes rfl
    obtain ⟨after, answered, keepsLast⟩ :=
      exists_get_of_answer heldNow named asksNow (callAt_of_follow followed rfl)
    refine ⟨after, _, value, last, answered, ?_, ?_, has⟩
    · exact (keeps_modifyHolding c id name _).trans (becomesThen.keeps.trans keepsLast)
    · rwa [List.getLastD_cons]

end Cluster

end RingCache
