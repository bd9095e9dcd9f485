import RingCache.Attendance
import RingCache.Proofs.Requests

/-!
# The requests that members send

What the steps of gets and removals ask other members for, as letters. The step of a
job asks one peer at most, and all that it does besides is the same whatever is answered
(`Cluster.proceeds`); it counts no request (`Cluster.uncounted_proceed`). A member that
takes a request counts it for the group that it names, if it has that group
(`Cluster.requestsAt_accept`).
-/
namespace RingCache

/-- A request that a member sends to a peer of it. -/
structure Letter where
  sender : MemberId
  peer : Peer
  message : Message
deriving DecidableEq

/-- The key that a message asks for, or asks to drop. -/
def Message.request? : Message → Option KeyRequest
  | .retrieve request => some request
  | .delete request => some request
  | _ => none

theorem Group.name_lookup (group : Group) (key : String) : (group.lookup key).1.name = group.name := by
  rw [lookup]
  split <;> rfl

namespace Cluster

variable {c later last : Cluster} {id member : MemberId} {name : String} {now : Time} {job : Job} {letter : Letter}
variable {caller : Caller}

/-! ## What a step of a job asks for -/

/-- The group of a name at a member, which is empty if there is none. -/
def groupAt (c : Cluster) (member : MemberId) (name : String) : Group :=
  ((c.holding? member name).map Holding.group).getD (.new name Group.ample)

/-- What the next step of a job asks a peer for, if it asks one: a get that does not find
    its key asks the owner, and a removal asks one peer after the other. -/
def letter? (c : Cluster) (now : Time) (job : Job) : Option Letter :=
  match job.flight with
  | .get get =>
    let fetch := letter get.deadline (.fetch (c.groupAt job.member job.name).name get.key)
    match get.stage, (c.groupAt job.member job.name).store.find? get.key with
    | .fresh _, none => (c.pick job.member get.key).map fetch
    | _, _ => none
  | .removal removal =>
    let forget := letter removal.deadline (.forget (c.groupAt job.member job.name).name removal.key)
    match removal.stage with
    | .fresh _ => (c.peersOf job.member).head?.map forget
    | .visiting rest (some _) => rest.head?.map forget
    | _ => none
where
  /-- The letter for an errand. -/
  letter (deadline : Deadline) (errand : Errand) (peer : Peer) : Letter :=
    ⟨job.member, peer, errand.request (deadline.budget now)⟩

theorem host_group (caller : Caller) (c : Cluster) : (host caller member name).group c = c.groupAt member name := rfl

theorem host_owner (caller : Caller) (c : Cluster) (key : String) :
    (host caller member name).owner c key = c.pick member key := rfl

theorem host_peers (caller : Caller) (c : Cluster) : (host caller member name).peers c = c.peersOf member := rfl

theorem host_putGroup (caller : Caller) (c : Cluster) (group : Group) :
    (host caller member name).putGroup group c = c.modifyGroup member name (fun _ => group) := rfl

theorem name_modifyGroup {group : Group} (named : group.name = (c.groupAt member name).name) :
    ((c.modifyGroup member name (fun _ => group)).groupAt member name).name = (c.groupAt member name).name := by
  simp only [groupAt, modifyGroup, holding?_modifyHolding, if_true] at named ⊢
  cases held : c.holding? member name with
  | none => rfl
  | some holding =>
    rw [held] at named
    exact named

/-! ## What counts no request -/

/-- A later state of a cluster with the same pools and groups, where no more requests were
    counted. -/
structure Uncounted (c later : Cluster) : Prop where
  pools : ∀ id, later.pool? id = c.pool? id
  holds : ∀ id name, (later.holding? id name).isSome = (c.holding? id name).isSome
  requests : ∀ id name, later.requestsAt name id = c.requestsAt name id

theorem Uncounted.refl (c : Cluster) : c.Uncounted c :=
  ⟨fun _ => rfl, fun _ _ => rfl, fun _ _ => rfl⟩

theorem Uncounted.trans (first : c.Uncounted later) (second : later.Uncounted last) : c.Uncounted last where
  pools id := (second.pools id).trans (first.pools id)
  holds id name := (second.holds id name).trans (first.holds id name)
  requests id name := (second.requests id name).trans (first.requests id name)

theorem holding?_modifyHolding_of_ne {other : String} (apart : other ≠ name) (change : Holding → Holding) :
    (c.modifyHolding member name change).holding? id other = c.holding? id other := by
  rw [holding?, registry_modifyHolding]
  split
  · rw [Registry.find?, Registry.update, Table.find?_modify, if_neg apart]
    rfl
  · rfl

theorem isSome_holding?_modifyHolding (change : Holding → Holding) (id : MemberId) (other : String) :
    ((c.modifyHolding member name change).holding? id other).isSome = (c.holding? id other).isSome := by
  by_cases same : other = name
  · subst same
    rw [holding?_modifyHolding]
    split <;> simp
  · rw [holding?_modifyHolding_of_ne same]

theorem uncounted_modifyHolding {change : Holding → Holding}
    (same : ∀ holding, c.holding? member name = some holding →
      (change holding).group.counters.serverRequests = holding.group.counters.serverRequests) :
    c.Uncounted (c.modifyHolding member name change) where
  pools := (keeps_modifyHolding c member name change).pools
  holds := isSome_holding?_modifyHolding change
  requests id other := by
    by_cases here : other = name
    · subst here
      exact requestsAt_modifyHolding same id
    · rw [requestsAt, requestsAt, holding?_modifyHolding_of_ne here]

theorem uncounted_modifyGroup {group : Group}
    (same : group.counters.serverRequests = (c.groupAt member name).counters.serverRequests) :
    c.Uncounted (c.modifyGroup member name (fun _ => group)) := by
  apply uncounted_modifyHolding
  intro holding held
  rwa [groupAt, held] at same

theorem uncounted_load (deadline : Deadline) (key : String) :
    c.Uncounted ((host caller member name).load now deadline key c).1 := by
  cases held : c.holding? member name with
  | none =>
    simp only [host, held]
    exact .refl c
  | some holding =>
    rw [load_host held]
    exact uncounted_modifyHolding (fun _ _ => rfl)

/-! ## The steps of a job -/

/-- What a step of a job does: it asks nobody and does the same whoever makes the calls,
    or it asks a peer once, and what comes of it depends on the answer alone. -/
inductive Proceeds (c : Cluster) (now : Time) (job : Job) : Option Letter → Prop where
  | alone (next : Cluster) (flight : Flight) (uncounted : c.Uncounted next)
      (same : ∀ caller, c.proceed caller now job = (next, { job with flight })) : Proceeds c now job none
  | asks (letter : Letter) (deadline : Deadline) (asking : Cluster) (resume : Work (Except Failure Message) → Flight)
      (uncounted : c.Uncounted asking)
      (same : ∀ caller, c.proceed caller now job =
        let (next, work) := caller now letter.peer deadline letter.message asking
        (next, { job with flight := resume work })) : Proceeds c now job (some letter)

/-- Nobody is called. -/
def uncalled : Caller := fun _ _ _ _ c => (c, .never)

variable (c now) in
theorem proceeds_alone (uncounted : c.Uncounted (c.proceed uncalled now job).1)
    (same : ∀ caller, c.proceed caller now job = c.proceed uncalled now job) : c.Proceeds now job none :=
  .alone _ (c.proceed uncalled now job).2.flight uncounted same

variable (caller) in
theorem uncounted_askLoader (get : Get) : c.Uncounted (get.askLoader (host caller member name) now c).1 :=
  @uncounted_load c member name now caller get.deadline get.key

theorem proceeds_begin (key : String) (deadline : Deadline) (start : Time) :
    c.Proceeds now ⟨member, name, .get ⟨key, deadline, .fresh start⟩⟩
      (c.letter? now ⟨member, name, .get ⟨key, deadline, .fresh start⟩⟩) := by
  let looked := c.modifyGroup member name (fun _ => ((c.groupAt member name).lookup key).1)
  have counted : c.Uncounted looked := uncounted_modifyGroup (Group.serverRequests_lookup _ key)
  have named : (looked.groupAt member name).name = (c.groupAt member name).name :=
    name_modifyGroup (Group.name_lookup _ key)
  have owner : looked.pick member key = c.pick member key := (keeps_modifyHolding c member name _).pick member key
  simp only [letter?, Group.find?_eq_lookup]
  cases found : ((c.groupAt member name).lookup key).2 with
  | some value =>
    have ends (caller : Caller) : c.proceed caller now ⟨member, name, .get ⟨key, deadline, .fresh start⟩⟩ =
        (looked, ⟨member, name, .get ⟨key, deadline, .finished (.ok value)⟩⟩) := by
      simp only [proceed, Flight.advance, Get.advance, Get.begin, host_group, host_putGroup, found, looked]
    exact .alone looked _ counted ends
  | none =>
    cases picked : c.pick member key with
    | none =>
      have loads (caller : Caller) : c.proceed caller now ⟨member, name, .get ⟨key, deadline, .fresh start⟩⟩ =
          let asked := Get.askLoader (host uncalled member name) now ⟨key, deadline, .fresh start⟩ looked
          (asked.1, ⟨member, name, .get asked.2⟩) := by
        simp only [proceed, Flight.advance, Get.advance, Get.begin, host_group, host_putGroup, found, host_owner]
        rw [show (c.modifyGroup member name _).pick member key = none from owner.trans picked]
        rfl
      exact .alone _ _ (counted.trans (uncounted_askLoader uncalled _)) loads
    | some peer =>
      refine .asks _ deadline looked (fun work => .get ⟨key, deadline, .asking ((work.map (Exchange.value peer.address key)).due now)⟩) counted (fun caller => ?_)
      simp only [proceed, Flight.advance, Get.advance, Get.begin, host_group, host_putGroup, found, host_owner]
      rw [show (c.modifyGroup member name _).pick member key = some peer from owner.trans picked]
      simp only [Get.askPeer, host_group]
      rw [show ((c.modifyGroup member name _).groupAt member name).name = _ from named]
      rfl

theorem proceeds_takePeer (key : String) (deadline : Deadline) (time : Time) (answer : Except Failure Bytes) :
    c.Proceeds now ⟨member, name, .get ⟨key, deadline, .asking (some (time, answer))⟩⟩ none := by
  let taken := c.modifyGroup member name (fun _ => ((c.groupAt member name).peerAnswered answer).1)
  have counted : c.Uncounted taken := uncounted_modifyGroup (Group.serverRequests_peerAnswered _ answer)
  cases verdict : ((c.groupAt member name).peerAnswered answer).2 with
  | settled result =>
    refine .alone taken (.get ⟨key, deadline, .finished result⟩) counted (fun caller => ?_)
    simp only [proceed, Flight.advance, Get.advance, Get.takePeer, host_group, host_putGroup, verdict, taken]
  | loadHere =>
    let asked := Get.askLoader (host uncalled member name) now ⟨key, deadline, .asking (some (time, answer))⟩ taken
    refine .alone asked.1 (.get asked.2) (counted.trans (uncounted_askLoader uncalled _)) (fun caller => ?_)
    simp only [proceed, Flight.advance, Get.advance, Get.takePeer, host_group, host_putGroup, verdict]
    rfl

/-- A step that goes on to the next of the peers of a removal. -/
theorem proceeds_visit {removal : Removal} {peers : List Peer} {state : Cluster} (noted : Removal)
    (sameKey : noted.key = removal.key) (sameDeadline : noted.deadline = removal.deadline)
    (uncounted : c.Uncounted state) (named : (state.groupAt member name).name = (c.groupAt member name).name)
    (visits : ∀ caller, c.proceed caller now ⟨member, name, .removal removal⟩ =
      let (next, removal) := noted.visit (host caller member name) now peers state
      (next, ⟨member, name, .removal removal⟩)) :
    c.Proceeds now ⟨member, name, .removal removal⟩ (peers.head?.map
      (letter?.letter now ⟨member, name, .removal removal⟩ removal.deadline
        (.forget (c.groupAt member name).name removal.key))) := by
  cases peers with
  | nil => exact .alone state _ uncounted visits
  | cons peer rest =>
    refine .asks _ removal.deadline state (fun work => .removal { noted with
      stage := .visiting rest ((work.map (Exchange.acknowledged peer.address removal.key)).due now) })
      uncounted (fun caller => ?_)
    rw [visits]
    simp only [Removal.visit, host_group, named, sameKey, sameDeadline]
    rfl

/-- What each step of a job does. -/
theorem proceeds (c : Cluster) (now : Time) (job : Job) : c.Proceeds now job (c.letter? now job) := by
  obtain ⟨member, name, flight⟩ := job
  cases flight with
  | get get =>
    obtain ⟨key, deadline, stage⟩ := get
    cases stage with
    | fresh start => exact proceeds_begin key deadline start
    | asking answer =>
      cases answer with
      | none => exact proceeds_alone c now (.refl c) (fun _ => rfl)
      | some answer => exact proceeds_takePeer key deadline answer.1 answer.2
    | loading answer =>
      cases answer with
      | none => exact proceeds_alone c now (.refl c) (fun _ => rfl)
      | some answer =>
        exact proceeds_alone c now (uncounted_modifyGroup (Group.serverRequests_loaded _ key answer.2)) (fun _ => rfl)
    | finished result => exact proceeds_alone c now (.refl c) (fun _ => rfl)
  | removal removal =>
    obtain ⟨key, deadline, firstFailure, stage⟩ := removal
    cases stage with
    | fresh start =>
      let dropped := c.modifyGroup member name (fun _ => (c.groupAt member name).localRemove key)
      have counted : c.Uncounted dropped := uncounted_modifyGroup rfl
      have named : (dropped.groupAt member name).name = (c.groupAt member name).name := name_modifyGroup rfl
      have peers : dropped.peersOf member = c.peersOf member := (keeps_modifyHolding c member name _).peersOf member
      simp only [letter?, ← peers]
      exact proceeds_visit _ rfl rfl counted named (fun _ => rfl)
    | visiting rest answer =>
      cases answer with
      | none => exact proceeds_alone c now (.refl c) (fun _ => rfl)
      | some answer =>
        let removal : Removal := ⟨key, deadline, firstFailure, .visiting rest (some answer)⟩
        exact proceeds_visit (removal.note answer.2) (by cases answer.2 <;> rfl) (by cases answer.2 <;> rfl) (.refl c) rfl
          (fun _ => rfl)
    | finished result => exact proceeds_alone c now (.refl c) (fun _ => rfl)

/-- A step whose call is answered, without anything else happening, counts no request. -/
theorem uncounted_proceed (answer : Work (Except Failure Message)) :
    c.Uncounted (c.proceed (fun _ _ _ _ c => (c, answer)) now job).1 := by
  have step := c.proceeds now job
  generalize c.letter? now job = asked at step
  cases step with
  | alone next flight uncounted same => rwa [same]
  | asks letter deadline asking resume uncounted same => rwa [same]

/-! ## What a member does with a request -/

/-- A request is answered by what a member makes of it at once, or by the get that it
    starts, alone and under the deadline of the request. -/
theorem dispatch_eq_accept (caller : Caller) (member : MemberId) (now : Time) (message : Message) (c : Cluster) :
    dispatch (service caller member) now message c =
      match c.accept caller member now message with
      | (next, .answered work) => (next, work)
      | (next, .started request job) =>
        let (finish, flights, last) := Schedule.run (host caller job.member job.name) now [job.flight] next
        (last, ((Deadline.ofBudget now request.budget).bound now
          (flights.head?.elim .never (Schedule.getResult now finish))).map (retrieveReply request)) := by
  cases message with
  | retrieve request =>
    cases held : c.holding? member request.group with
    | none => simp only [accept, held]; rfl
    | some holding => simp only [accept, dispatch, service, held]; rfl
  | _ => rfl

/-- A member that takes a request for a key counts it for the group that the request names,
    if it has that group, and otherwise leaves everything as it is. -/
theorem exists_accept {message : Message} {request : KeyRequest} (asks : message.request? = some request)
    (caller : Caller) (member : MemberId) (now : Time) : ∃ change : Group → Group,
    (∀ group, (change group).counters.serverRequests = group.counters.serverRequests + 1) ∧
      (c.accept caller member now message).1 =
        if (c.holding? member request.group).isSome then c.modifyGroup member request.group change else c := by
  cases message with
  | retrieve =>
    cases asks
    refine ⟨(·.count .serverRequests), fun _ => rfl, ?_⟩
    cases held : c.holding? member request.group with
    | none => simp only [accept, held, accept.atOnce, dispatch, service]; rfl
    | some holding => simp only [accept, held]; rfl
  | delete =>
    cases asks
    refine ⟨fun group => (group.count .serverRequests).localRemove request.key, fun _ => rfl, ?_⟩
    cases held : c.holding? member request.group with
    | none => simp only [accept, accept.atOnce, dispatch, service, held]; rfl
    | some holding => simp only [accept, accept.atOnce, dispatch, service, held]; rfl
  | _ => cases asks

/-- The get that a request starts has not begun. -/
theorem begins_of_accept {message : Message} {request : KeyRequest} {started : Cluster}
    (starts : c.accept caller member now message = (started, .started request job)) : job.flight.begins = 1 := by
  have atOnce : accept.atOnce caller member now message c ≠ (started, .started request job) := by
    rw [accept.atOnce]
    intro same
    cases same
  unfold accept at starts
  split at starts
  · split at starts
    · cases starts
      rfl
    · exact absurd starts atOnce
  · exact absurd starts atOnce

theorem pool?_accept {message : Message} {request : KeyRequest} (asks : message.request? = some request)
    (caller : Caller) (member : MemberId) (now : Time) (id : MemberId) :
    (c.accept caller member now message).1.pool? id = c.pool? id := by
  obtain ⟨change, -, after⟩ := @exists_accept c _ _ asks caller member now
  rw [after]
  split
  · exact (keeps_modifyHolding c member _ _).pools id
  · rfl

theorem isSome_holding?_accept {message : Message} {request : KeyRequest} (asks : message.request? = some request)
    (caller : Caller) (member : MemberId) (now : Time) (id : MemberId) (name : String) :
    ((c.accept caller member now message).1.holding? id name).isSome = (c.holding? id name).isSome := by
  obtain ⟨change, -, after⟩ := @exists_accept c _ _ asks caller member now
  rw [after]
  split
  · exact isSome_holding?_modifyHolding _ id name
  · rfl

/-- What a member counts when it takes a request for a key. -/
theorem requestsAt_accept {message : Message} {request : KeyRequest} (asks : message.request? = some request)
    (caller : Caller) (member : MemberId) (now : Time) (held : (c.holding? id name).isSome) :
    (c.accept caller member now message).1.requestsAt name id =
      c.requestsAt name id + if id = member ∧ name = request.group then 1 else 0 := by
  obtain ⟨change, counts, after⟩ := @exists_accept c _ _ asks caller member now
  obtain ⟨holding, held⟩ := Option.isSome_iff_exists.mp held
  rw [after]
  by_cases here : id = member ∧ name = request.group
  · obtain ⟨rfl, rfl⟩ := here
    simp only [held, Option.isSome_some, if_true, and_self]
    simp only [requestsAt, modifyGroup, holding?_modifyHolding, if_true, held, Option.map_some, Option.getD_some, counts]
  · rw [if_neg here, Nat.add_zero]
    split
    · by_cases same : name = request.group
      · subst same
        rw [requestsAt, requestsAt, modifyGroup, holding?_modifyHolding, if_neg (fun same => here ⟨same, rfl⟩)]
      · rw [requestsAt, requestsAt, modifyGroup, holding?_modifyHolding_of_ne same]
    · rfl

end Cluster

end RingCache
