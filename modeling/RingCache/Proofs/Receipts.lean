import RingCache.Proofs.Households
import RingCache.Proofs.Ownership

/-!
# Requests that were received

A request for a key of a group is counted by this group once, and so is the get that it
starts, however both end and whatever else the member does; no other group changes
(`Household.requests_counted`). A request that names no group of the member changes nothing
at all, and a deletion does nothing but drop its key.
-/
namespace RingCache

/-! ## Deletions, and requests for unknown groups -/

namespace Picker
variable {picker : Picker} {member : MemberId} {c : Cluster} {request : KeyRequest} {holding : Holding}

/-- A deletion is counted and drops its key, and is acknowledged at once. It does not depend
    on any peer. -/
theorem dispatch_delete (picker : Picker) (now : Time) (held : c.holding? member request.group = some holding) :
    dispatch (picker.service member) now (.delete request) c =
      (c.modifyHolding member request.group (fun h => (h.count .serverRequests).drop request.key), .after 0 .ack) := by
  simp only [dispatch, service, Cluster.service, held, Work.ready, Deadline.bound_ready]
  rfl

/-- A request that names no group of the member is answered by a text that says so. -/
theorem dispatch_of_absent (picker : Picker) (now : Time) (absent : c.holding? member request.group = none) :
    dispatch (picker.service member) now (.retrieve request) c =
        (c, .after 0 (.error ("failed to retrieve [" ++ request.group ++ "/" ++ request.key ++ "]: " ++
          ("unable to find group [" ++ request.group ++ "]")))) ∧
      dispatch (picker.service member) now (.delete request) c =
        (c, .after 0 (.error ("unable to find group [" ++ request.group ++ "]"))) := by
  simp only [dispatch, service, Cluster.service, absent, Work.ready, Deadline.bound_ready]
  exact ⟨rfl, rfl⟩

end Picker

namespace Household
variable {picker : Picker} {member : MemberId} {name other : String} {start home last : Household}
variable {events more : List Event} {holding : Holding} {request : KeyRequest}

theorem Run.append (first : Run picker member start events home) (second : Run picker member home more last) :
    Run picker member start (events ++ more) last := by
  induction second with
  | start => rwa [List.append_nil]
  | step run step ih =>
    rw [← List.append_assoc]
    exact .step ih step

/-- A group counts the requests for it and its gets, and is as it was if nothing concerned it. -/
theorem Run.exists_holding (alone : picker.LeavesAlone member) (run : Run picker member start events home)
    {before : Holding} (held : start.cluster.holding? member name = some before) :
    ∃ holding, home.cluster.holding? member name = some holding ∧
      holding.group.counters.serverRequests =
        before.group.counters.serverRequests + events.countP (Event.requests name) ∧
      holding.group.counters.gets = before.group.counters.gets + events.countP (Event.looksUp name) ∧
      ((∀ event ∈ events, event.concerns name = false) → holding = before) := by
  obtain ⟨acts, undergoes⟩ := run.exists_undergoes alone (Cluster.isSome_groupsOf?_of_held held) name
  have had : (start.cluster.holding? member name).isSome := held ▸ rfl
  refine ⟨before.after acts, ?_, ?_, ?_, fun quiet => ?_⟩
  · rw [undergoes.holding, held]
    rfl
  · rw [Holding.serverRequests_after, undergoes.requests had]
  · rw [Holding.gets_after, undergoes.lookUps had]
  · rw [undergoes.quiet quiet]
    rfl

/-- A retrieval from a group is counted there, and one get with it. No other group changes. -/
theorem exists_dispatch_retrieve (alone : picker.LeavesAlone member) (now : Time)
    (held : home.cluster.holding? member request.group = some holding) :
    (∃ after,
      (dispatch (picker.service member) now (.retrieve request) home.cluster).1.holding? member request.group =
        some after ∧
      after.group.counters.serverRequests = holding.group.counters.serverRequests + 1 ∧
      after.group.counters.gets = holding.group.counters.gets + 1) ∧
    ∀ other, other ≠ request.group →
      (dispatch (picker.service member) now (.retrieve request) home.cluster).1.holding? member other =
        home.cluster.holding? member other := by
  obtain ⟨moves, jobs, only, run⟩ := exists_run_dispatch picker member now (.retrieve request) home
  have begun : ∀ event ∈ moves, ∃ flight, event = .moves request.group flight ∧ flight.looks = false := by
    intro event among
    obtain ⟨same, flight, retrieves, is, looks⟩ := only event among
    cases retrieves
    exact ⟨flight, is, looks⟩
  constructor
  · obtain ⟨after, found, requests, gets, -⟩ := run.exists_holding alone held
    refine ⟨after, found, ?_, ?_⟩
    · have none_later : moves.countP (Event.requests request.group) = 0 := by
        rw [List.countP_eq_zero]
        intro event among
        obtain ⟨flight, rfl, -⟩ := begun event among
        exact Bool.false_ne_true
      rw [requests, List.countP_cons, none_later]
      simp [Event.requests, Message.request?]
    · have none_later : moves.countP (Event.looksUp request.group) = 0 := by
        rw [List.countP_eq_zero]
        intro event among
        obtain ⟨flight, rfl, looks⟩ := begun event among
        simp [Event.looksUp, looks]
      rw [gets, List.countP_cons, none_later]
      simp [Event.looksUp]
  · intro other apart
    obtain ⟨acts, undergoes⟩ := run.exists_undergoes alone (Cluster.isSome_groupsOf?_of_held held) other
    have elsewhere : (request.group == other) = false := beq_false_of_ne (Ne.symm apart)
    refine undergoes.holding?_of_quiet (List.forall_mem_cons.mpr ⟨⟨elsewhere, rfl⟩, fun event among => ?_⟩)
    obtain ⟨flight, rfl, -⟩ := begun event among
    exact ⟨elsewhere, rfl⟩

/-- However a member works, a group has counted all requests that named it and all gets that
    began there since the start, and is as it was if nothing concerned it. Then comes a
    message, at any time and with any budget, and nothing else happens until it is done with.
    This makes a longer run, in which it begins one get at most. If it is a retrieval from a
    group, that group counts one request and one get more. If it is a deletion, that group counts one request more and lacks the
    key, and all else stays, whoever picks the peers. Other groups stay as they are. If the
    member has no such group, everything stays as it is, and the reply says why. -/
theorem requests_counted (alone : picker.LeavesAlone member) (run : Run picker member start events home) (now : Time) :
    (∀ name before, start.cluster.holding? member name = some before → ∃ holding,
      home.cluster.holding? member name = some holding ∧
      holding.group.counters.serverRequests =
        before.group.counters.serverRequests + events.countP (Event.requests name) ∧
      holding.group.counters.gets = before.group.counters.gets + events.countP (Event.looksUp name) ∧
      ((∀ event ∈ events, event.concerns name = false) → holding = before)) ∧
    (∀ message, ∃ moves jobs, (∀ event ∈ moves, ∃ name flight, event = .moves name flight ∧ flight.looks = false) ∧
      Run picker member start (events ++ .takes message :: moves)
        ⟨(dispatch (picker.service member) now message home.cluster).1, jobs⟩) ∧
    (∀ request holding, home.cluster.holding? member request.group = some holding →
      (∃ after,
        (dispatch (picker.service member) now (.retrieve request) home.cluster).1.holding? member request.group =
          some after ∧
        after.group.counters.serverRequests = holding.group.counters.serverRequests + 1 ∧
        after.group.counters.gets = holding.group.counters.gets + 1) ∧
      ∀ other, other ≠ request.group →
        (dispatch (picker.service member) now (.retrieve request) home.cluster).1.holding? member other =
          home.cluster.holding? member other) ∧
    (∀ request holding, home.cluster.holding? member request.group = some holding → ∃ next after,
      (∀ other : Picker, dispatch (other.service member) now (.delete request) home.cluster = (next, .after 0 .ack)) ∧
      next = home.cluster.modifyHolding member request.group (fun h => (h.count .serverRequests).drop request.key) ∧
      next.holding? member request.group = some after ∧
      after.group.counters = holding.group.counters.count .serverRequests ∧
      (∀ key, after.group.store.find? key = if key = request.key then none else holding.group.store.find? key) ∧
      ∀ other, other ≠ request.group → next.holding? member other = home.cluster.holding? member other) ∧
    ∀ request, home.cluster.holding? member request.group = none →
      dispatch (picker.service member) now (.retrieve request) home.cluster =
          (home.cluster, .after 0 (.error ("failed to retrieve [" ++ request.group ++ "/" ++ request.key ++ "]: " ++
            ("unable to find group [" ++ request.group ++ "]")))) ∧
        dispatch (picker.service member) now (.delete request) home.cluster =
          (home.cluster, .after 0 (.error ("unable to find group [" ++ request.group ++ "]"))) := by
  refine ⟨fun name before held => run.exists_holding alone held, fun message => ?_, fun request holding held => ?_,
    fun request holding held => ?_, fun request absent => picker.dispatch_of_absent now absent⟩
  · obtain ⟨moves, jobs, only, onward⟩ := exists_run_dispatch picker member now message home
    refine ⟨moves, jobs, fun event among => ?_, run.append onward⟩
    obtain ⟨request, flight, -, is, begun⟩ := only event among
    exact ⟨request.group, flight, is, begun⟩
  · exact exists_dispatch_retrieve alone now held
  · refine ⟨_, (holding.count .serverRequests).drop request.key, fun other => other.dispatch_delete now held, rfl, ?_, rfl,
      (holding.count .serverRequests).find?_drop request.key, fun other apart => ?_⟩
    · rw [Cluster.holding?_modifyHolding, if_pos rfl, held]
      rfl
    · exact Cluster.holding?_modifyHolding_of_ne apart _

/-! ## A silent peer -/

/-- A deletion, a retrieval without any time left, and a retrieval from a group that is not
    there. -/
def letters : List Message :=
  [.delete ⟨"g", "k", none⟩, .retrieve ⟨"g", "k", some 0⟩, .retrieve ⟨"h", "k", none⟩]

/-- A member has taken them, and the peer that owns the key never answers. -/
def burdened : Household :=
  letters.foldl (fun home message => home.take (.ofPool Cluster.uncalled 1) 1 0 message) ⟨Cluster.pair, []⟩

theorem run_burdened : Run (.ofPool Cluster.uncalled 1) 1 ⟨Cluster.pair, []⟩ (letters.map .takes) burdened :=
  .step (.step (.step .start (.takes 0 _)) (.takes 0 _)) (.takes 0 _)

/-- The deletion and the retrieval from the group are both counted, although the peer is
    silent and no time was left, and the group that is not there is never found. -/
theorem requests_counted_of_silence :
    (Picker.ofPool Cluster.uncalled 1).LeavesAlone 1 ∧
    Run (.ofPool Cluster.uncalled 1) 1 ⟨Cluster.pair, []⟩ (letters.map .takes) burdened ∧
    (∃ holding, burdened.cluster.holding? 1 "g" = some holding ∧
      holding.group.counters.serverRequests = 2 ∧ holding.group.counters.gets = 1) ∧
    dispatch (Cluster.service Cluster.uncalled 1) 5 (.retrieve ⟨"h", "k", some 0⟩) burdened.cluster =
      (burdened.cluster, .after 0 (.error "failed to retrieve [h/k]: unable to find group [h]")) := by
  have alone : (Picker.ofPool Cluster.uncalled 1).LeavesAlone 1 := Picker.leavesAlone_ofPool (fun _ _ _ _ _ => rfl)
  have absent : burdened.cluster.holding? 1 "h" = none := by
    obtain ⟨acts, undergoes⟩ := run_burdened.exists_undergoes alone rfl "h"
    exact undergoes.holding
  obtain ⟨counted, -, -, -, unknown⟩ := requests_counted alone run_burdened 5
  obtain ⟨holding, held, requests, gets, -⟩ := counted "g" _ rfl
  have told := (unknown ⟨"h", "k", some 0⟩ absent).1
  rw [Picker.service_ofPool] at told
  exact ⟨alone, run_burdened, ⟨holding, held, requests, gets⟩, told⟩

end Household

end RingCache
