import RingCache.Proofs.Calls

/-!
# Gets and removals at a member

A get at a member that does not own the key asks the owner, and stores nothing
(`Cluster.exists_get_there`). A removal visits all peers, and drops the key at each
of them (`Cluster.exists_remove`).
-/
namespace RingCache
open Wire

/-! ## Gets that a peer answers -/

section
variable {σ : Type} {host : Host σ} {now delay finish : Time} {deadline : Deadline} {key : String}
variable {state next last : σ} {peer : Peer} {peers : List Peer} {value : Bytes}

/-- A get whose value is not stored here and that a peer answers. -/
theorem Host.get_eq_of_fetched (missing : (host.group state).store.find? key = none)
    (asks : host.owner (host.putGroup ((host.group state).count .gets) state) key = some peer)
    (fetched : host.fetch peer now deadline (host.group (host.putGroup ((host.group state).count .gets) state)).name key
      (host.putGroup ((host.group state).count .gets) state) = (next, .after delay (.ok value))) :
    host.get now deadline key state =
      (host.putGroup ((host.group next).count .peerLoads) next, .after delay (.ok value)) := by
  have begins : (Flight.startGet now deadline key).wake = some now := rfl
  have begun : (Flight.startGet now deadline key).advance host now state =
      (next, .get ⟨key, deadline, .asking (some (now + delay, .ok value))⟩) := by
    simp only [Flight.startGet, Flight.advance, Get.advance, Get.begin, Group.lookup_of_missing missing, asks,
      Get.askPeer, fetched, Work.due]
  rw [Host.get, Schedule.run_alone_of_wakes begins (Nat.le_refl now), begun,
    Schedule.run_alone_of_wakes rfl (Nat.le_add_right now delay), Schedule.run_alone_of_stays rfl]
  simp [Flight.advance, Get.advance, Get.takePeer, Group.peerAnswered, Schedule.getResult]

/-! ## Removals that all peers acknowledge -/

/-- Peers are visited one after another, and all acknowledge that a key is gone. -/
inductive Host.Visits (host : Host σ) (key : String) : List Peer → Time → σ → Time → σ → Prop where
  | done {now : Time} {state : σ} : Visits host key [] now state now state
  | visit {peer : Peer} {rest : List Peer} {now delay finish : Time} {state next last : σ}
      (forgets : host.forget peer now .never (host.group state).name key state = (next, .after delay (.ok ())))
      (others : Visits host key rest (now + delay) next finish last) :
      Visits host key (peer :: rest) now state finish last

theorem Host.Visits.run (visits : host.Visits key peers now state finish last) (stage : RemovalStage) :
    Schedule.run host now [.removal (Removal.visit host now peers ⟨key, .never, none, stage⟩ state).2]
        (Removal.visit host now peers ⟨key, .never, none, stage⟩ state).1 =
      (finish, [.removal ⟨key, .never, none, .finished (.ok ())⟩], last) := by
  induction visits generalizing stage with
  | done => exact Schedule.run_alone_of_stays rfl
  | @visit peer rest now delay finish state next last forgets others ih =>
    have waits : Removal.visit host now (peer :: rest) ⟨key, .never, none, stage⟩ state =
        (next, ⟨key, .never, none, .visiting rest (some (now + delay, .ok ()))⟩) := by
      simp only [Removal.visit, forgets, Work.due]
    rw [waits, Schedule.run_alone_of_wakes rfl (Nat.le_add_right now delay)]
    exact ih _

/-- A removal that all peers acknowledge. -/
theorem Host.remove_eq_of_visits
    (visits : host.Visits key (host.peers (host.putGroup ((host.group state).localRemove key) state)) now
      (host.putGroup ((host.group state).localRemove key) state) finish last) :
    host.remove now .never key state = (last, .after (finish - now) (.ok ())) := by
  have begins : (Flight.startRemoval now .never key).wake = some now := rfl
  have visited := visits.run (.fresh now)
  rw [Host.remove, Schedule.run_alone_of_wakes begins (Nat.le_refl now)]
  simp only [Flight.startRemoval, Flight.advance, Removal.advance]
  rw [visited]
  rfl

end

/-! ## Errands over a link -/

/-- A group but for what it has counted. -/
def Holding.quiet (holding : Holding) : Holding :=
  { holding with group := { holding.group with counters := .zero } }

theorem Holding.drop_drop (holding : Holding) (key : String) : (holding.drop key).drop key = holding.drop key := by
  have erased : (holding.group.store.entries.erase key).erase key = holding.group.store.entries.erase key := by
    refine Table.ext_find? ?_
    intro other
    rw [Table.find?_erase, Table.find?_erase]
    split <;> rfl
  simp only [drop, Group.localRemove, Store.invalidate, erased]

namespace Cluster

variable {c later : Cluster} {member owner : MemberId} {name key : String} {holding after own : Holding} {peer : Peer}
variable {now delay : Time} {value : Bytes} {depth requests replies : Nat} {request reply : Message}

theorem callAt_of_follow {due : Time} {deadline : Deadline} {conclusion : Conclusion} {result : Except Failure Message}
    (followed : c.follow (callAt depth) peer.id (depth + 1) deadline request .entering now =
      (later, some (due, conclusion))) (ends : conclusion.result? = some result) :
    callAt (depth + 1) now peer deadline request c = (later, .after (due - now) result) := by
  simp only [callAt, followed, ends]

theorem elapsed_roundTrip (c : Cluster) (now delay : Time) : now + c.roundTrip + delay - now = c.roundTrip + delay := by
  rw [Nat.add_assoc, Nat.add_sub_cancel_left]

variable (member depth) in
/-- The owner of a key is asked for it. -/
theorem exists_fetch (leads : c.Leads peer.id owner requests replies) (held : c.holding? owner name = some holding)
    (here : c.pick owner key = none)
    (answers : (holding.count .serverRequests).Answers (now + c.latency) key after delay value)
    (asks : Framed requests (.retrieve ⟨name, key, none⟩)) (replied : Framed replies (.retrieved value)) :
    ∃ later, (host (callAt (depth + 1)) member name).fetch peer now .never name key c =
        (later, .after (c.roundTrip + delay) (.ok value)) ∧
      c.Becomes name (Function.update (c.holdings name) owner (some after)) later := by
  let used := c.lent peer.id (depth + 1) none
  have heldThen : used.holding? owner name = some holding := held
  have hereThen : used.pick owner key = none := here
  obtain ⟨served, serves, becomes⟩ := exists_retrieved (callAt depth) heldThen hereThen answers
  obtain ⟨later, followed, afterwards⟩ := exists_follow .never leads asks replied serves becomes rfl
  refine ⟨later, ?_, afterwards⟩
  have called := callAt_of_follow followed rfl
  rw [elapsed_roundTrip] at called
  have asked : (Errand.fetch name key).request (Deadline.never.budget now) = .retrieve ⟨name, key, none⟩ := rfl
  simp only [host, asked, called]
  rfl

variable (member now depth) in
/-- A member is asked to drop a key. -/
theorem exists_forget (leads : c.Leads peer.id owner requests replies) (held : c.holding? owner name = some holding)
    (asks : Framed requests (.delete ⟨name, key, none⟩)) (replied : Framed replies .ack) :
    ∃ later, (host (callAt (depth + 1)) member name).forget peer now .never name key c =
        (later, .after (c.roundTrip + 0) (.ok ())) ∧
      c.Becomes name (Function.update (c.holdings name) owner (some ((holding.count .serverRequests).drop key)))
        later := by
  let used := c.lent peer.id (depth + 1) none
  have heldThen : used.holding? owner name = some holding := held
  obtain ⟨served, serves, becomes⟩ := exists_deleted (callAt depth) (now + c.latency) heldThen
  obtain ⟨later, followed, afterwards⟩ := exists_follow .never leads asks replied serves becomes rfl
  refine ⟨later, ?_, afterwards⟩
  have called := callAt_of_follow followed rfl
  rw [elapsed_roundTrip] at called
  have asked : (Errand.forget name key).request (Deadline.never.budget now) = .delete ⟨name, key, none⟩ := rfl
  simp only [host, asked, called]
  rfl

/-- A get at a member that does not own the key, and does not store it. -/
theorem exists_get_there (leads : c.Leads peer.id owner requests replies) (asking : c.holding? member name = some own)
    (named : own.group.name = name) (missing : own.group.store.find? key = none) (asks : c.pick member key = some peer)
    (apart : owner ≠ member) (held : c.holding? owner name = some holding) (here : c.pick owner key = none)
    (answers : (holding.count .serverRequests).Answers (now + c.latency) key after delay value)
    (request : Framed requests (.retrieve ⟨name, key, none⟩)) (replied : Framed replies (.retrieved value)) :
    ∃ later, (host (callAt (depth + 1)) member name).get now .never key c =
        (later, .after (c.roundTrip + delay) (.ok value)) ∧
      c.Becomes name (Function.update (Function.update (c.holdings name) owner (some after)) member
        (some ((own.count .gets).count .peerLoads))) later := by
  let place := host (callAt (depth + 1)) member name
  let begun := c.modifyHolding member name (fun h => { h with group := own.group.count .gets })
  have counted : c.Becomes name _ begun :=
    becomes_modifyHolding asking (fun h => { h with group := own.group.count .gets })
  have ownBegun : begun.holding? member name = some ⟨own.group.count .gets, own.loader⟩ := counted.holding?_self
  obtain ⟨next, fetched, becomes⟩ := exists_fetch member depth (leads.keeps counted.keeps)
    ((counted.holding?_of_ne apart).trans held) ((counted.keeps.pick owner key).trans here) answers request replied
  have ownNext : next.holding? member name = some ⟨own.group.count .gets, own.loader⟩ :=
    (becomes.holding?_of_ne apart.symm).trans ownBegun
  have ended := becomes_modifyHolding ownNext (fun h => { h with group := (own.group.count .gets).count .peerLoads })
  have group : place.group c = own.group := group_host asking
  have begins : place.putGroup ((place.group c).count .gets) c = begun := by rw [group]; rfl
  have name_eq : (place.group begun).name = name := by rw [group_host ownBegun]; exact named
  have got : place.get now .never key c = _ := Host.get_eq_of_fetched (by rw [group]; exact missing)
    (by rw [begins]; exact (counted.keeps.pick member key).trans asks) (by rw [begins, name_eq]; exact fetched)
  rw [group_host ownNext] at got
  refine ⟨_, got, (counted.keeps.trans becomes.keeps).trans ended.keeps, ?_⟩
  rw [putGroup_host, ended.holdings, becomes.holdings, counted.holdings, Function.update_comm apart.symm,
    Function.update_idem]
  rfl

/-! ## Removals -/

/-- The groups of a name but for what they have counted. -/
def quietly (c : Cluster) (name : String) : MemberId → Option Holding :=
  fun id => (c.holding? id name).map Holding.quiet

/-- A member has a group under a name, which is that of the group. -/
def Names (c : Cluster) (name : String) (id : MemberId) : Prop :=
  ∃ holding, c.holding? id name = some holding ∧ holding.group.name = name

theorem Becomes.names {id : MemberId}
    (becomes : c.Becomes name (Function.update (c.holdings name) owner (some after)) later)
    (named : after.group.name = name) (names : c.Names name id) : later.Names name id := by
  by_cases same : id = owner
  · rw [same]
    exact ⟨after, becomes.holding?_self, named⟩
  · obtain ⟨holding, held, named⟩ := names
    exact ⟨holding, (becomes.holding?_of_ne same).trans held, named⟩

theorem Becomes.quietly (becomes : c.Becomes name (Function.update (c.holdings name) owner (some after)) later) :
    later.quietly name = Function.update (c.quietly name) owner (some after.quiet) := by
  funext id
  by_cases same : id = owner
  · rw [same, Cluster.quietly, becomes.holding?_self, Function.update_self]
    rfl
  · rw [Cluster.quietly, becomes.holding?_of_ne same, Function.update_of_ne same]
    rfl

/-- A member that has only counted something is as quiet as before. -/
theorem Becomes.quietly_of_counted {counted : Holding} (apart : owner ≠ member)
    (becomes : c.Becomes name (Function.update (Function.update (c.holdings name) owner (some after)) member
      (some counted)) later) (held : c.holding? member name = some own) (same : counted.quiet = own.quiet) :
    later.quietly name = Function.update (c.quietly name) owner (some after.quiet) := by
  funext id
  by_cases here : id = member
  · rw [here, Function.update_of_ne apart.symm, Cluster.quietly, Cluster.quietly, becomes.holding?_self, held,
      Option.map_some, Option.map_some, same]
  · rw [Cluster.quietly, becomes.holding?_of_ne here]
    by_cases there : id = owner
    · rw [there, Function.update_self, Function.update_self, Option.map_some]
    · rw [Function.update_of_ne there, Function.update_of_ne there]
      rfl

/-- The groups after some members have dropped a key. -/
def shed (key : String) (ids : List MemberId) (groups : MemberId → Option Holding) : MemberId → Option Holding :=
  fun id => if id ∈ ids then (groups id).map (·.drop key) else groups id

theorem shed_update {groups : MemberId → Option Holding} (held : groups owner = some holding) (key : String)
    (ids : List MemberId) :
    shed key ids (Function.update groups owner (some (holding.drop key))) = shed key (owner :: ids) groups := by
  funext id
  rw [shed, shed]
  by_cases same : id = owner
  · subst same
    simp [held, Holding.drop_drop]
  · simp [same]

/-- A link that leads to a member with a group of a name, and takes removals there. -/
def Removes (c : Cluster) (name key : String) (id : LinkId) (member : MemberId) : Prop :=
  c.Names name member ∧ ∃ requests replies, c.Leads id member requests replies ∧
    Framed requests (.delete ⟨name, key, none⟩) ∧ Framed replies .ack

variable (now depth) in
/-- Peers are visited, and the member that each of them leads to drops the key. -/
theorem exists_visits (peers : List Peer) (who : Peer → MemberId) (named : c.Names name member)
    (removes : ∀ peer ∈ peers, c.Removes name key peer.id (who peer)) :
    ∃ finish last, (host (callAt (depth + 1)) member name).Visits key peers now c finish last ∧ c.Keeps last ∧
      last.quietly name = shed key (peers.map who) (c.quietly name) := by
  induction peers generalizing c now with
  | nil => exact ⟨now, c, .done, .refl c, by funext id; simp [shed]⟩
  | cons peer rest ih =>
    obtain ⟨⟨holding, held, own_name⟩, requests, replies, leads, asks, replied⟩ := removes peer List.mem_cons_self
    obtain ⟨next, forgotten, becomes⟩ := exists_forget member now depth leads held asks replied
    have still : ((holding.count .serverRequests).drop key).group.name = name := own_name
    have others : ∀ other ∈ rest, next.Removes name key other.id (who other) := by
      intro other listed
      obtain ⟨named, requests, replies, leads, framed⟩ := removes other (List.mem_cons_of_mem peer listed)
      exact ⟨becomes.names still named, requests, replies, leads.keeps becomes.keeps, framed⟩
    obtain ⟨finish, last, visits, keeps, left⟩ := ih (now + (c.roundTrip + 0)) (becomes.names still named) others
    obtain ⟨ownGroup, ownHeld, ownName⟩ := named
    have name_eq : ((host (callAt (depth + 1)) member name).group c).name = name := by rw [group_host ownHeld, ownName]
    refine ⟨finish, last, .visit (by rw [name_eq]; exact forgotten) visits, becomes.keeps.trans keeps, ?_⟩
    have quiet : c.quietly name (who peer) = some holding.quiet := congrArg (Option.map Holding.quiet) held
    rw [left, becomes.quietly, List.map_cons]
    exact shed_update quiet key _

variable (now depth) in
/-- A removal at a member drops the key everywhere. -/
theorem exists_remove (who : Peer → MemberId) (named : c.Names name member)
    (removes : ∀ peer ∈ c.peersOf member, c.Removes name key peer.id (who peer))
    (covers : ∀ id, c.holding? id name ≠ none → id ∈ (c.peersOf member).map who) :
    ∃ delay later, (host (callAt (depth + 1)) member name).remove now .never key c = (later, .after delay (.ok ())) ∧
      c.Keeps later ∧ later.quietly name = fun id => (c.quietly name id).map (·.drop key) := by
  obtain ⟨own, ownHeld, ownName⟩ := named
  let place := host (callAt (depth + 1)) member name
  let begun := c.modifyHolding member name (fun h => { h with group := own.group.localRemove key })
  have dropped : c.Becomes name (Function.update (c.holdings name) member (some (own.drop key))) begun :=
    becomes_modifyHolding ownHeld (fun h => { h with group := own.group.localRemove key })
  have still : (own.drop key).group.name = name := ownName
  have reached : ∀ peer ∈ c.peersOf member, begun.Removes name key peer.id (who peer) := by
    intro peer listed
    obtain ⟨named, requests, replies, leads, framed⟩ := removes peer listed
    exact ⟨dropped.names still named, requests, replies, leads.keeps dropped.keeps, framed⟩
  obtain ⟨finish, last, visits, keeps, left⟩ := exists_visits now depth (c.peersOf member) who
    (dropped.names still ⟨own, ownHeld, ownName⟩) reached
  have begins : place.putGroup ((place.group c).localRemove key) c = begun := by rw [group_host ownHeld]; rfl
  have visited : place.peers begun = c.peersOf member := dropped.keeps.peersOf member
  refine ⟨finish - now, last, Host.remove_eq_of_visits ?_, dropped.keeps.trans keeps, ?_⟩
  · rw [begins, visited]
    exact visits
  · have quiet : c.quietly name member = some own.quiet := congrArg (Option.map Holding.quiet) ownHeld
    rw [left, dropped.quietly]
    refine (shed_update quiet key _).trans ?_
    funext id
    rw [shed]
    split
    next => rfl
    next missed =>
      have nobody : c.holding? id name = none := by
        by_contra held
        exact missed (List.mem_cons_of_mem member (covers id held))
      rw [quietly, nobody]
      rfl

end Cluster

end RingCache
