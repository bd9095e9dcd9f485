import RingCache.Proofs.Letters
import RingCache.Proofs.Ownership

/-!
# The requests that members count

Gets and removals of all members that overlap, with the letters that are on their way to
where the links lead, and all that were ever sent. What a member has counted for a group
is what was sent to it for that group and has arrived (`Mail.Balanced.run`). A member also
writes to itself: a get never asks its own address, but a removal visits all peers, and
the own address is one of them if it is a member (`Mail.requests_are_letters`).
-/
namespace RingCache

/-- Whether a letter asks a member for a key of a group, where the links lead. -/
def Letter.isFor (leads : LinkId → MemberId) (name : String) (id : MemberId) (letter : Letter) : Bool :=
  id == leads letter.peer.id && letter.message.request?.any (fun request => name == request.group)

namespace Cluster

/-- Where a letter goes: a get asks the owner that its member picks, and a removal asks
    any peer. -/
inductive Routes (c : Cluster) (letter : Letter) : Prop where
  | retrieves (request : KeyRequest) (message : letter.message = .retrieve request)
      (picked : c.pick letter.sender request.key = some letter.peer)
  | deletes (request : KeyRequest) (message : letter.message = .delete request)
      (listed : letter.peer ∈ c.peersOf letter.sender)

/-- A removal in progress has only peers of its member before it. -/
def Visits (c : Cluster) (job : Job) : Prop :=
  ∀ removal rest answer, job.flight = .removal removal → removal.stage = .visiting rest answer →
    ∀ peer ∈ rest, peer ∈ c.peersOf job.member

variable {c later : Cluster} {now : Time} {job : Job} {letter : Letter} {caller : Caller}

theorem routes_congr (same : ∀ id, later.pool? id = c.pool? id) (routes : later.Routes letter) : c.Routes letter := by
  cases routes with
  | retrieves request message picked =>
    rw [pick, same] at picked
    exact .retrieves request message picked
  | deletes request message listed =>
    rw [peersOf, same] at listed
    exact .deletes request message listed

theorem visits_congr (same : ∀ id, later.pool? id = c.pool? id) (visits : later.Visits job) : c.Visits job := by
  intro removal rest answer isRemoval stage peer left
  have listed := visits removal rest answer isRemoval stage peer left
  rwa [peersOf, same] at listed

theorem visits_of_begins (begins : job.flight.begins = 1) : c.Visits job := by
  obtain ⟨member, name, flight⟩ := job
  intro removal rest answer isRemoval stage
  obtain ⟨key, deadline, firstFailure, _⟩ := removal
  subst isRemoval stage
  cases begins

theorem Routes.exists_request (routes : c.Routes letter) : ∃ request, letter.message.request? = some request := by
  cases routes with
  | retrieves request message => exact ⟨request, by rw [message]; rfl⟩
  | deletes request message => exact ⟨request, by rw [message]; rfl⟩

theorem routes_of_letter (visits : c.Visits job) (asks : c.letter? now job = some letter) : c.Routes letter := by
  obtain ⟨member, name, flight⟩ := job
  cases flight with
  | get get =>
    simp only [letter?] at asks
    split at asks
    · obtain ⟨peer, picked, rfl⟩ := Option.map_eq_some_iff.mp asks
      exact .retrieves _ rfl picked
    · cases asks
  | removal removal =>
    simp only [letter?] at asks
    split at asks
    · obtain ⟨peer, first, rfl⟩ := Option.map_eq_some_iff.mp asks
      exact .deletes _ rfl (List.mem_of_mem_head? first)
    · next rest answer stage =>
      obtain ⟨peer, first, rfl⟩ := Option.map_eq_some_iff.mp asks
      exact .deletes _ rfl (visits removal rest _ rfl stage peer (List.mem_of_mem_head? first))
    · cases asks

/-- The peers that are left to a removal are among those that it had before it. -/
theorem visits_visit {host : Host Cluster} {peers : List Peer} {removal : Removal} {state : Cluster} {member : MemberId}
    {name : String} (listed : ∀ peer ∈ peers, peer ∈ c.peersOf member) :
    c.Visits ⟨member, name, .removal (removal.visit host now peers state).2⟩ := by
  intro other rest answer same stage peer left
  cases same
  cases peers with
  | nil => cases stage
  | cons first others =>
    cases stage
    exact listed peer (List.mem_cons_of_mem first left)

theorem visits_proceed (visits : c.Visits job) : c.Visits (c.proceed caller now job).2 := by
  obtain ⟨member, name, flight⟩ := job
  cases flight with
  | get get => intro removal rest answer same; cases same
  | removal removal =>
    obtain ⟨key, deadline, firstFailure, stage⟩ := removal
    cases stage with
    | fresh start =>
      simp only [proceed, Flight.advance, Removal.advance, host_peers, host_putGroup]
      apply visits_visit
      intro peer listed
      rwa [modifyGroup, (keeps_modifyHolding c member name _).peersOf member] at listed
    | visiting rest answer =>
      cases answer with
      | none => exact visits
      | some answer =>
        simp only [proceed, Flight.advance, Removal.advance]
        exact visits_visit (visits _ rest _ rfl rfl)
    | finished result => exact visits

end Cluster

/-- A cluster, the jobs in progress there, the letters that are on their way, and all that
    were ever sent. -/
structure Mail where
  cluster : Cluster
  jobs : List Job
  underway : List Letter
  sent : List Letter

/-- The job that a member starts when it takes a request. -/
def Accepted.jobs : Accepted → List Job
  | .started _ job => [job]
  | .answered _ => []

theorem begins_of_mem_jobs {c : Cluster} {caller : Cluster.Caller} {member : MemberId} {now : Time} {message : Message}
    {job : Job} (among : job ∈ (c.accept caller member now message).2.jobs) : job.flight.begins = 1 := by
  rcases starts : c.accept caller member now message with ⟨next, ⟨request, started⟩ | reply⟩
  · rw [starts] at among
    rw [List.mem_singleton.mp among]
    exact Cluster.begins_of_accept starts
  · rw [starts] at among
    cases among

namespace Mail

variable {leads : LinkId → MemberId} {c c' : Cluster} {mail next : Mail}

/-- Calls are answered so. -/
def answering (answer : Work (Except Failure Message)) : Cluster.Caller :=
  fun _ _ _ _ c => (c, answer)

/-- A get or a removal begins; a job takes a step, and the letter of the step is sent, but
    not if the call is given up before; a letter arrives where its link leads; a job is
    given up; or something happens elsewhere that is no request. -/
inductive Step (leads : LinkId → MemberId) : Mail → Mail → Prop where
  | begins (mail : Mail) {job : Job} (fresh : job.flight.begins = 1) :
      Step leads mail { mail with jobs := mail.jobs ++ [job] }
  | moves (c : Cluster) (before rest : List Job) (underway sent : List Letter) {job : Job} {due now : Time}
      (wakes : job.flight.wake = some due) (comes : due ≤ now) (answer : Work (Except Failure Message))
      (written : Option Letter) (asks : ∀ letter ∈ written, c.letter? now job = some letter) :
      Step leads ⟨c, before ++ job :: rest, underway, sent⟩
        ⟨(c.proceed (answering answer) now job).1, before ++ (c.proceed (answering answer) now job).2 :: rest,
          underway ++ written.toList, sent ++ written.toList⟩
  | arrives (c : Cluster) (jobs : List Job) (before rest sent : List Letter) (letter : Letter) (now : Time) :
      Step leads ⟨c, jobs, before ++ letter :: rest, sent⟩
        ⟨(c.accept Cluster.uncalled (leads letter.peer.id) now letter.message).1,
          jobs ++ (c.accept Cluster.uncalled (leads letter.peer.id) now letter.message).2.jobs, before ++ rest, sent⟩
  | leaves (c : Cluster) (before rest : List Job) (job : Job) (underway sent : List Letter) :
      Step leads ⟨c, before ++ job :: rest, underway, sent⟩ ⟨c, before ++ rest, underway, sent⟩
  | elsewhere (mail : Mail) {later : Cluster} (uncounted : mail.cluster.Uncounted later) :
      Step leads mail { mail with cluster := later }

/-- Steps of all members, and of the letters between them. -/
def Run (leads : LinkId → MemberId) : Mail → Mail → Prop := Relation.ReflTransGen (Step leads)

/-- Nothing is in progress. -/
def idle (c : Cluster) : Mail := ⟨c, [], [], []⟩

/-- Members keep their pools and groups, letters go where pools say, and what was sent to a
    member for a group has been counted there, or is on its way. -/
structure Balanced (leads : LinkId → MemberId) (c : Cluster) (mail : Mail) : Prop where
  pools : ∀ id, mail.cluster.pool? id = c.pool? id
  holds : ∀ id name, (mail.cluster.holding? id name).isSome = (c.holding? id name).isSome
  visits : ∀ job ∈ mail.jobs, c.Visits job
  routed : ∀ letter ∈ mail.sent, c.Routes letter
  underway : ∀ letter ∈ mail.underway, letter ∈ mail.sent
  counted : ∀ id name, (c.holding? id name).isSome →
    mail.cluster.requestsAt name id + mail.underway.countP (Letter.isFor leads name id) =
      c.requestsAt name id + mail.sent.countP (Letter.isFor leads name id)

theorem balanced_idle (leads : LinkId → MemberId) (c : Cluster) : Balanced leads c (idle c) where
  pools _ := rfl
  holds _ _ := rfl
  visits := List.forall_mem_nil _
  routed := List.forall_mem_nil _
  underway := List.forall_mem_nil _
  counted _ _ _ := rfl

namespace Balanced

/-- A letter that arrives is counted, and is not on its way any more. -/
theorem arrives {jobs : List Job} {before rest sent : List Letter} {letter : Letter}
    (balanced : Balanced leads c ⟨c', jobs, before ++ letter :: rest, sent⟩) (now : Time) : Balanced leads c
      ⟨(c'.accept Cluster.uncalled (leads letter.peer.id) now letter.message).1,
        jobs ++ (c'.accept Cluster.uncalled (leads letter.peer.id) now letter.message).2.jobs, before ++ rest, sent⟩ := by
  obtain ⟨request, asks⟩ := (balanced.routed letter (balanced.underway letter (by simp))).exists_request
  have isFor (id : MemberId) (name : String) : letter.isFor leads name id =
      decide (id = leads letter.peer.id ∧ name = request.group) := by
    rw [Bool.eq_iff_iff]
    simp [Letter.isFor, asks]
  refine ⟨fun id => ?_, fun id name => ?_, fun job among => ?_, balanced.routed, fun other among => ?_,
    fun id name held => ?_⟩
  · exact (Cluster.pool?_accept asks _ _ _ id).trans (balanced.pools id)
  · exact (Cluster.isSome_holding?_accept asks _ _ _ id name).trans (balanced.holds id name)
  · rcases List.mem_append.mp among with among | among
    · exact balanced.visits job among
    · exact Cluster.visits_of_begins (begins_of_mem_jobs among)
  · refine balanced.underway other ?_
    rcases List.mem_append.mp among with among | among
    · exact List.mem_append_left _ among
    · exact List.mem_append_right _ (List.mem_cons_of_mem _ among)
  · have counted := balanced.counted id name held
    have taken := Cluster.requestsAt_accept asks Cluster.uncalled (leads letter.peer.id) now
      ((balanced.holds id name).trans held)
    simp only [List.countP_append, List.countP_cons, isFor, decide_eq_true_eq] at counted ⊢
    rw [taken]
    dsimp only at counted ⊢
    omega

/-- A letter that is sent is on its way; nothing is counted where it is sent. -/
theorem moves {before rest : List Job} {underway sent : List Letter} {job : Job}
    (balanced : Balanced leads c ⟨c', before ++ job :: rest, underway, sent⟩) (now : Time)
    (answer : Work (Except Failure Message)) {written : Option Letter}
    (asks : ∀ letter ∈ written, c'.letter? now job = some letter) : Balanced leads c
      ⟨(c'.proceed (answering answer) now job).1, before ++ (c'.proceed (answering answer) now job).2 :: rest,
        underway ++ written.toList, sent ++ written.toList⟩ := by
  have uncounted : c'.Uncounted (c'.proceed (answering answer) now job).1 := Cluster.uncounted_proceed answer
  -- The pools are those of the start, so the job has only peers of its member before it now.
  have back : ∀ id, c.pool? id = c'.pool? id := fun id => (balanced.pools id).symm
  have visits : c'.Visits job := Cluster.visits_congr back (balanced.visits job (by simp))
  refine ⟨fun id => ?_, fun id name => ?_, fun other among => ?_, fun letter among => ?_, fun letter among => ?_,
    fun id name held => ?_⟩
  · exact (uncounted.pools id).trans (balanced.pools id)
  · exact (uncounted.holds id name).trans (balanced.holds id name)
  · rcases List.mem_append.mp among with among | among
    · exact balanced.visits other (List.mem_append_left _ among)
    · rcases List.mem_cons.mp among with rfl | among
      · exact Cluster.visits_congr balanced.pools (Cluster.visits_proceed visits)
      · exact balanced.visits other (List.mem_append_right _ (List.mem_cons_of_mem _ among))
  · rcases List.mem_append.mp among with among | among
    · exact balanced.routed letter among
    · exact Cluster.routes_congr balanced.pools (Cluster.routes_of_letter visits (asks letter (Option.mem_toList.mp among)))
  · rcases List.mem_append.mp among with among | among
    · exact List.mem_append_left _ (balanced.underway letter among)
    · exact List.mem_append_right _ among
  · have counted := balanced.counted id name held
    simp only [List.countP_append] at counted ⊢
    rw [uncounted.requests]
    omega

/-- Each step keeps the balance. -/
theorem step (balanced : Balanced leads c mail) (step : Step leads mail next) : Balanced leads c next := by
  cases step with
  | begins _ fresh =>
    refine { balanced with visits := fun job among => ?_ }
    rcases List.mem_append.mp among with among | among
    · exact balanced.visits job among
    · rw [List.mem_singleton.mp among]
      exact Cluster.visits_of_begins fresh
  | moves _ before rest underway sent wakes comes answer written asks => exact balanced.moves _ answer asks
  | arrives _ jobs before rest sent letter now => exact balanced.arrives now
  | leaves _ before rest job underway sent =>
    refine { balanced with visits := fun other among => balanced.visits other ?_ }
    rcases List.mem_append.mp among with among | among
    · exact List.mem_append_left _ among
    · exact List.mem_append_right _ (List.mem_cons_of_mem _ among)
  | elsewhere _ uncounted =>
    exact { balanced with
      pools := fun id => (uncounted.pools id).trans (balanced.pools id)
      holds := fun id name => (uncounted.holds id name).trans (balanced.holds id name)
      counted := fun id name held => by rw [uncounted.requests]; exact balanced.counted id name held }

/-- What holds before anything is in progress holds all along. -/
theorem run (run : Run leads (idle c) mail) : Balanced leads c mail := by
  induction run with
  | refl => exact balanced_idle leads c
  | tail _ step ih => exact ih.step step

end Balanced

end Mail

/-! ## What is counted, and who sent it -/

theorem Membership.Sound.map_address_peers {settings : Settings} {membership : Membership}
    (sound : membership.Sound settings) : membership.peers.map Peer.address = membership.ring.members := by
  rw [← sound.keys_eq, Membership.peers, Table.values, Table.keys, List.map_map]
  refine List.map_congr_left (fun entry listed => ?_)
  exact sound.address_eq entry.1 entry.2 (Table.find?_eq_some_iff.mpr listed)

/-- A pool picks one of its peers, and never its own address. -/
theorem Membership.Sound.picked {settings : Settings} {membership : Membership} (sound : membership.Sound settings)
    {selfAddress key : String} {peer : Peer} (picked : membership.owner selfAddress key = some peer) :
    peer ∈ membership.peers ∧ peer.address ≠ selfAddress := by
  rw [Membership.owner] at picked
  split at picked
  · cases picked
  · next address owns =>
    split at picked
    · cases picked
    · next other =>
      refine ⟨Membership.mem_peers_iff.mpr ⟨address, picked⟩, ?_⟩
      rwa [sound.address_eq address peer picked]

/-- A letter goes to a peer of the pool of its sender. -/
theorem Cluster.Routes.exists_pool {c : Cluster} {letter : Letter} (routes : c.Routes letter)
    (picks : ∀ pool key peer, c.pool? letter.sender = some pool → pool.pick key = some peer → peer ∈ pool.peers) :
    ∃ pool, c.pool? letter.sender = some pool ∧ letter.peer ∈ pool.peers ∧
      ((∃ request, letter.message = .retrieve request ∧ pool.pick request.key = some letter.peer) ∨
        ∃ request, letter.message = .delete request) := by
  cases routes with
  | retrieves request message picked =>
    obtain ⟨pool, known, picked⟩ := Option.bind_eq_some_iff.mp picked
    exact ⟨pool, known, picks pool _ _ known picked, .inl ⟨request, message, picked⟩⟩
  | deletes request message listed =>
    rw [peersOf] at listed
    cases known : c.pool? letter.sender with
    | none =>
      rw [known] at listed
      cases listed
    | some pool =>
      rw [known] at listed
      exact ⟨pool, rfl, listed, .inr ⟨request, message⟩⟩

namespace Mail

variable {leads : LinkId → MemberId} {c : Cluster} {mail : Mail}

/-- What was sent to a member for a group was sent by others or by itself. -/
theorem Balanced.counted_by_sender (balanced : Balanced leads c mail) {id : MemberId} {name : String}
    (held : (c.holding? id name).isSome) :
    mail.cluster.requestsAt name id + mail.underway.countP (Letter.isFor leads name id) = c.requestsAt name id +
      mail.sent.countP (fun letter => letter.isFor leads name id && letter.sender != id) +
      mail.sent.countP (fun letter => letter.isFor leads name id && letter.sender == id) := by
  rw [balanced.counted id name held, Nat.add_assoc,
    List.countP_eq_countP_filter_add mail.sent (Letter.isFor leads name id) (fun letter => letter.sender != id),
    List.countP_filter, List.countP_filter]
  simp only [bne, Bool.not_not]

/-- For all members, whatever their memberships, and all gets and removals that overlap:
    what a member has counted for a group since the start is what was sent to it for the
    group, by others and by itself, without what is still on its way. Members send to peers
    of their pools. A get sends to a peer with another address than the own one, for the pool
    picks no other; a removal sends to all peers, which are one for each member of the
    pool, the own address included if it is a member. So if no other address leads back to
    a member, what it sends to itself are requests to drop keys, and it sends none if its
    own address is no member. -/
theorem requests_are_letters (pools : ∀ id pool, c.pool? id = some pool → ∃ history : History, pool = history.pool)
    (run : Run leads (idle c) mail) :
    (∀ id name, (c.holding? id name).isSome →
      mail.cluster.requestsAt name id + mail.underway.countP (Letter.isFor leads name id) = c.requestsAt name id +
        mail.sent.countP (fun letter => letter.isFor leads name id && letter.sender != id) +
        mail.sent.countP (fun letter => letter.isFor leads name id && letter.sender == id)) ∧
    (∀ letter ∈ mail.sent, ∃ pool, c.pool? letter.sender = some pool ∧ letter.peer ∈ pool.peers ∧
      ((∃ request, letter.message = .retrieve request ∧ pool.pick request.key = some letter.peer) ∨
        ∃ request, letter.message = .delete request)) ∧
    (∀ id pool, c.pool? id = some pool → pool.peers.map Peer.address = pool.members ∧
      (∀ key peer, pool.pick key = some peer → peer ∈ pool.peers ∧ peer.address ≠ pool.selfAddress) ∧
      ((∀ peer ∈ pool.peers, leads peer.id = id → peer.address = pool.selfAddress) →
        (∀ letter ∈ mail.sent, letter.sender = id → leads letter.peer.id = id →
          ∃ request, letter.message = .delete request) ∧
        (pool.selfAddress ∉ pool.members → ∀ name, (c.holding? id name).isSome →
          mail.cluster.requestsAt name id + mail.underway.countP (Letter.isFor leads name id) = c.requestsAt name id +
            mail.sent.countP (fun letter => letter.isFor leads name id && letter.sender != id)))) := by
  have balanced := Balanced.run run
  have sound : ∀ id pool, c.pool? id = some pool → ∃ settings, pool.membership.Sound settings := by
    intro id pool known
    obtain ⟨history, rfl⟩ := pools id pool known
    exact ⟨_, history.sound⟩
  have picked : ∀ id pool, c.pool? id = some pool → ∀ key peer, pool.pick key = some peer →
      peer ∈ pool.peers ∧ peer.address ≠ pool.selfAddress := by
    intro id pool known key peer picks
    obtain ⟨settings, sound⟩ := sound id pool known
    exact sound.picked picks
  have routed := fun letter among => (balanced.routed letter among).exists_pool
    (fun pool key peer known picks => (picked letter.sender pool known key peer picks).1)
  refine ⟨fun id name => balanced.counted_by_sender, routed, fun id pool known => ?_⟩
  obtain ⟨settings, sound⟩ := sound id pool known
  have listed : pool.peers.map Peer.address = pool.members := sound.map_address_peers
  refine ⟨listed, picked id pool known, fun home => ?_⟩
  -- What a member sends to itself goes to its own address, which no get does.
  have own : ∀ letter ∈ mail.sent, letter.sender = id → leads letter.peer.id = id →
      (∃ request, letter.message = .delete request) ∧ pool.selfAddress ∈ pool.members := by
    intro letter among own back
    obtain ⟨sender, also, toPeer, kind⟩ := routed letter among
    rw [own, known] at also
    cases also
    have address := home letter.peer toPeer back
    refine ⟨kind.resolve_left ?_, ?_⟩
    · rintro ⟨request, -, picks⟩
      exact (picked id pool known _ _ picks).2 address
    · rw [← listed, ← address]
      exact List.mem_map_of_mem toPeer
  refine ⟨fun letter among self back => (own letter among self back).1, fun unlisted name held => ?_⟩
  have none : mail.sent.countP (fun letter => letter.isFor leads name id && letter.sender == id) = 0 := by
    rw [List.countP_eq_zero]
    intro letter among
    simp only [Letter.isFor, Bool.and_eq_true, beq_iff_eq]
    rintro ⟨⟨back, -⟩, self⟩
    exact unlisted (own letter among self back.symm).2
  rw [balanced.counted_by_sender held, none, Nat.add_zero]

/-! ## Two members -/

/-- Where the links of two members lead that know each other and themselves. -/
def pairLeads (link : LinkId) : MemberId := link % 2

/-- A get at the member that does not own the key. -/
def pairGet : Job := ⟨1, "g", .startGet 0 .never "k"⟩

/-- What the get asks the owner. -/
def fetchLetter : Letter := ⟨1, ⟨"a", 2⟩, .retrieve ⟨"g", "k", none⟩⟩

/-- A removal at the owner. -/
def pairRemoval : Job := ⟨0, "g", .startRemoval 0 .never "k"⟩

/-- What the owner asks itself then. -/
def ownLetter : Letter := ⟨0, ⟨"a", 0⟩, .delete ⟨"g", "k", none⟩⟩

/-- The get has sent its letter. -/
def fetching : Cluster × Job := Cluster.pair.proceed (answering .never) 0 pairGet

/-- The removal has sent its letter, too. -/
def removing : Cluster × Job := fetching.1.proceed (answering .never) 0 pairRemoval

/-- The first letter has arrived. -/
def fetched : Cluster × Accepted := removing.1.accept Cluster.uncalled 0 0 fetchLetter.message

/-- Both letters have arrived. -/
def dropped : Cluster × Accepted := fetched.1.accept Cluster.uncalled 0 0 ownLetter.message

theorem run_dropped : Run pairLeads (idle Cluster.pair)
    ⟨dropped.1, [fetching.2, removing.2] ++ fetched.2.jobs ++ dropped.2.jobs, [], [fetchLetter, ownLetter]⟩ := by
  have gets : Run pairLeads (idle Cluster.pair) ⟨Cluster.pair, [pairGet], [], []⟩ := .single (.begins _ rfl)
  have asked : Cluster.pair.letter? 0 pairGet = some fetchLetter := by cbv
  have fetches : Run pairLeads (idle Cluster.pair) ⟨fetching.1, [fetching.2], [fetchLetter], [fetchLetter]⟩ :=
    gets.tail (.moves _ [] [] [] [] rfl (Nat.le_refl 0) .never (some fetchLetter) (fun _ same => same ▸ asked))
  have removes : Run pairLeads (idle Cluster.pair)
      ⟨fetching.1, [fetching.2, pairRemoval], [fetchLetter], [fetchLetter]⟩ := fetches.tail (.begins _ rfl)
  have visits : fetching.1.letter? 0 pairRemoval = some ownLetter := by cbv
  have both : Run pairLeads (idle Cluster.pair)
      ⟨removing.1, [fetching.2, removing.2], [fetchLetter, ownLetter], [fetchLetter, ownLetter]⟩ :=
    removes.tail (.moves _ [fetching.2] [] [fetchLetter] [fetchLetter] rfl (Nat.le_refl 0) .never (some ownLetter)
      (fun _ same => same ▸ visits))
  have arrives : Run pairLeads (idle Cluster.pair)
      ⟨fetched.1, [fetching.2, removing.2] ++ fetched.2.jobs, [ownLetter], [fetchLetter, ownLetter]⟩ :=
    both.tail (.arrives _ _ [] [ownLetter] _ fetchLetter 0)
  exact arrives.tail (.arrives _ _ [] [] _ ownLetter 0)

/-- One of the two requests that the owner has counted is its own. -/
theorem requests_are_letters_of_pair :
    (∀ id pool, Cluster.pair.pool? id = some pool → ∃ history : History, pool = history.pool) ∧
    Run pairLeads (idle Cluster.pair)
      ⟨dropped.1, [fetching.2, removing.2] ++ fetched.2.jobs ++ dropped.2.jobs, [], [fetchLetter, ownLetter]⟩ ∧
    dropped.1.requestsAt "g" 0 = 0 + 1 + 1 := by
  have pools : ∀ id pool, Cluster.pair.pool? id = some pool → ∃ history : History, pool = history.pool := by
    intro id pool known
    match id with
    | 0 | 1 => exact ⟨Cluster.pairHistory _, (Option.some.inj known).symm⟩
    | _ + 2 => cases known
  exact ⟨pools, run_dropped, (requests_are_letters pools run_dropped).1 0 "g" rfl⟩

end Mail

/-! ## A member that is its own peer -/

namespace Cluster
open Wire

variable {c : Cluster} {member : MemberId} {name key : String} {own : Holding} {peer : Peer} {requests replies : Nat}

/-- A member whose only peer leads back to itself counts a request for each removal. -/
theorem requestsAt_remove_of_own (now : Time) (held : c.holding? member name = some own) (named : own.group.name = name)
    (alone : c.peersOf member = [peer]) (leads : c.Leads peer.id member requests replies)
    (asks : Framed requests (.delete ⟨name, key, none⟩)) (replied : Framed replies .ack) :
    (c.remove member name now .never key).1.requestsAt name member = c.requestsAt name member + 1 := by
  let place := host (callAt c.depth) member name
  let begun := c.modifyHolding member name (fun h => { h with group := own.group.localRemove key })
  have dropped : c.Becomes name (Function.update (c.holdings name) member (some (own.drop key))) begun :=
    becomes_modifyHolding held (fun h => { h with group := own.group.localRemove key })
  have here : begun.holding? member name = some (own.drop key) := dropped.holding?_self
  obtain ⟨last, forgets, becomes⟩ :=
    exists_forget member now c.links.length (leads.keeps dropped.keeps) here asks replied
  have begins : place.putGroup ((place.group c).localRemove key) c = begun := by rw [group_host held]; rfl
  have visited : place.peers begun = [peer] := (dropped.keeps.peersOf member).trans alone
  have still : (place.group begun).name = name := by rw [group_host here]; exact named
  have visits : place.Visits key [peer] now begun (now + (begun.roundTrip + 0)) last :=
    .visit (by rw [still]; exact forgets) .done
  have removed : c.remove member name now .never key = (last, .after _ (.ok ())) :=
    Host.remove_eq_of_visits (by rw [begins, visited]; exact visits)
  rw [removed, requestsAt, requestsAt, becomes.holding?_self, held]
  rfl

/-- A member that has itself in its membership, and nobody else. -/
def loneHistory : History where
  selfAddress := "a"
  settings := (pairHistory 0).settings
  dialing _ _ := some 0
  changes := [.amend .replace ["a"]]

/-- The cluster of this member. -/
def lone : Cluster where
  latency := 3
  members := [⟨some loneHistory.pool, ⟨Table.empty.insert "g" ⟨.new "g" Group.ample, pairLoader 0⟩⟩⟩]
  stations := [⟨some 0, defaultMaxFrame, none⟩]
  listening := Table.empty.insert "a" 0
  channels := [⟨0, .waiting [], [], some 0⟩]
  links := [⟨"a", .standard, .around 0⟩]

/-- There is no other member, the pool hands out the own address as a peer, and the removal
    is counted as a request. -/
theorem requests_of_lone : lone.members.length = 1 ∧ lone.pool? 0 = some loneHistory.pool ∧
    lone.Leads 0 0 defaultMaxFrame defaultMaxFrame ∧ lone.peersOf 0 = [⟨loneHistory.pool.selfAddress, 0⟩] ∧
    lone.requestsAt "g" 0 = 0 ∧ (lone.remove 0 "g" 0 .never "k").1.requestsAt "g" 0 = 1 := by
  have leads : lone.Leads 0 0 defaultMaxFrame defaultMaxFrame :=
    .intro rfl rfl ⟨_, [], rfl, rfl, rfl, Source.drained_nil, Source.drained_nil⟩ rfl rfl rfl rfl
  have alone : lone.peersOf 0 = [⟨"a", 0⟩] := by cbv
  have own : loneHistory.pool.selfAddress = "a" := by cbv
  refine ⟨rfl, rfl, leads, by rw [alone, own], rfl, ?_⟩
  exact requestsAt_remove_of_own 0 rfl rfl alone leads ⟨by cbv, by cbv⟩ ⟨by cbv, by cbv⟩

end Cluster

end RingCache
