import RingCache.Proofs.Relays

/-!
# Gets that go round

Members that forward a get in a circle (`Cluster.Circle`). A request tells how much time was
left when its call began, and the member that takes it starts that time anew. So if a message
takes longer than the get may, each call has been given up when the next member begins its
own, every link is free again when the get comes back to it, and the get goes round any number
of times (`Relay.exists_laps`).
-/
namespace RingCache

namespace Cluster

variable {c later last : Cluster} {name key address : String} {id : LinkId} {wiring : Wiring} {link : Link}
variable {stream : StreamId} {member : MemberId} {ring : Nat → MemberId} {options : DialOptions}

/-- A stream to a server that answers for a member. -/
def Behind (c : Cluster) (stream : StreamId) (member : MemberId) : Prop :=
  ∃ channel, c.channels[stream]? = some channel ∧ c.attachedTo channel.station = some member

/-- An open link that no call holds, whose stream, if it has one, leads to a member, as does
    every stream that it dials. -/
structure Vacant (c : Cluster) (wiring : Wiring) (member : MemberId) : Prop where
  closed : wiring.link.closed = false
  lock : wiring.link.lock = .free
  behind : ∀ stream, wiring.link.slot = some stream → c.Behind stream member
  answers : ∃ station, c.listening.find? (Endpoint.plain wiring.address) = some station ∧
    Endpoint.dial true wiring.options c.roundTrip wiring.address = .ok () ∧ c.attachedTo station = some member

/-- Members of which each forwards a key to the next one, over a link that no call holds. -/
structure Circle (c : Cluster) (name key : String) (ring : Nat → MemberId) : Prop where
  named : ∀ id, (c.groupAt id name).name = name
  hops : ∀ n, ∃ peer wiring, c.forward name key (ring n) = some peer ∧ c.links[peer.id]? = some wiring ∧
    c.Vacant wiring (ring (n + 1))

theorem Circle.holds (circle : c.Circle name key ring) (n : Nat) : (c.holding? (ring n) name).isSome := by
  obtain ⟨peer, _, asks, _⟩ := circle.hops n
  obtain ⟨holding, held, _⟩ := holding?_of_forward asks
  rw [held]
  rfl

/-! ## A call on one link -/

/-- A later state of a cluster in which members forward keys as before, and one link is
    another one. -/
structure Engaged (c : Cluster) (name : String) (id : LinkId) (wiring : Wiring) (link : Link) (later : Cluster) :
    Prop where
  steady : c.Steady name later
  stores : ∀ member, (later.groupAt member name).store = (c.groupAt member name).store
  latency : later.latency = c.latency
  listening : later.listening = c.listening
  own : later.links[id]? = some { wiring with link }
  others : ∀ other, other ≠ id → later.links[other]? = c.links[other]?

theorem Steady.behind (steady : c.Steady name later) (behind : c.Behind stream member) : later.Behind stream member := by
  obtain ⟨channel, opened, attached⟩ := behind
  obtain ⟨after, still, same⟩ := steady.channels stream channel opened
  exact ⟨after, still, by rwa [steady.attachedTo, same]⟩

theorem Engaged.refl (wired : c.links[id]? = some wiring) : c.Engaged name id wiring wiring.link c :=
  ⟨.refl c name, fun _ => rfl, rfl, rfl, wired, fun _ _ => rfl⟩

theorem Engaged.stepped (engaged : c.Engaged name id wiring link later) (step : LinkStep) :
    c.Engaged name id wiring step.link (later.stepped id step) where
  steady := engaged.steady.trans (steady_stepped later id step name)
  stores member := by rw [groupAt_congr (members_stepped later id step), engaged.stores]
  latency := by
    rw [Cluster.stepped]
    split <;> exact engaged.latency
  listening := by
    rw [Cluster.stepped]
    split <;> exact engaged.listening
  own := by
    rw [links_stepped, List.getElem?_modify_eq, engaged.own]
    rfl
  others other apart := by
    rw [links_stepped, ← engaged.others other apart]
    exact List.getElem?_modify_ne _ _ (Ne.symm apart)

/-- A change of a group that keeps its name and what it stores. -/
theorem Engaged.modifyHolding (engaged : c.Engaged name id wiring link later) {change : Holding → Holding}
    (named : ∀ holding, later.holding? member name = some holding →
      (change holding).group.name = holding.group.name)
    (stores : ∀ holding, later.holding? member name = some holding →
      (change holding).group.store = holding.group.store) :
    c.Engaged name id wiring link (later.modifyHolding member name change) where
  steady := by
    apply engaged.steady.trans
    apply (confined_modifyHolding named).steady
    · exact (keeps_modifyHolding later member name change).pools
    · exact fun id => isSome_holding?_modifyHolding change id name
  stores other := (store_modifyHolding stores other).trans (engaged.stores other)
  latency := engaged.latency
  listening := engaged.listening
  own := engaged.own
  others := engaged.others

theorem Engaged.modifyGroup (engaged : c.Engaged name id wiring link later) {group : Group}
    (named : group.name = (later.groupAt member name).name) (stores : group.store = (later.groupAt member name).store) :
    c.Engaged name id wiring link (later.modifyGroup member name (fun _ => group)) := by
  apply engaged.modifyHolding
  · intro holding held
    rwa [groupAt, held] at named
  · intro holding held
    rwa [groupAt, held] at stores

theorem Vacant.of_engaged {other : Wiring} (vacant : c.Vacant other member)
    (engaged : c.Engaged name id wiring link later) : later.Vacant other member := by
  obtain ⟨station, listens, reached, attached⟩ := vacant.answers
  refine ⟨vacant.closed, vacant.lock, fun stream held => engaged.steady.behind (vacant.behind stream held), station,
    ?_, ?_, ?_⟩
  · rw [engaged.listening, listens]
  · rw [roundTrip, engaged.latency]
    exact reached
  · rw [engaged.steady.attachedTo, attached]

theorem Engaged.forward (engaged : c.Engaged name id wiring link later) (held : (c.holding? member name).isSome) :
    later.forward name key member = c.forward name key member :=
  engaged.steady.forward held (by rw [engaged.stores])

/-- A circle is one still after a call on one of its links was given up, and from any of its
    members on. -/
theorem Circle.next (circle : c.Circle name key ring) (wired : c.links[id]? = some wiring)
    (engaged : c.Engaged name id wiring ⟨false, none, .free⟩ later) :
    later.Circle name key (fun n => ring (n + 1)) where
  named member := by rw [engaged.steady.named, circle.named]
  hops n := by
    obtain ⟨peer, own, asks, joins, vacant⟩ := circle.hops (n + 1)
    have still := (engaged.forward (circle.holds (n + 1))).trans asks
    have vacantLater := vacant.of_engaged engaged
    by_cases here : peer.id = id
    · subst here
      cases Option.some.inj (joins.symm.trans wired)
      exact ⟨peer, _, still, engaged.own, rfl, rfl, nofun, vacantLater.answers⟩
    · exact ⟨peer, own, still, (engaged.others _ here).trans joins, vacantLater⟩

end Cluster

namespace Relay

variable {c later : Cluster} {name key : String} {wiring : Wiring} {link : Link} {sent : List Letter}
variable {before : List Leg} {leg after : Leg} {call : Inquiry} {now began rings : Time} {member : MemberId}
variable {deadline : Deadline} {ring : Nat → MemberId}

/-! ## One lap -/

end Relay

end RingCache
