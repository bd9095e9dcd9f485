import RingCache.Proofs.Batches

/-!
# What is ready at once

Work that is ready when it is asked for is taken under any deadline, even one that has passed
(`Deadline.bound_ready`). So a get or a removal among scripted surroundings that comes back at
once when it has no deadline comes back just so under every deadline
(`Scene.get_ready`, `Scene.remove_ready`).
-/
namespace RingCache

/-! ## Work -/

namespace Work
variable {α β : Type}

theorem later_eq_ready {span : Time} {work : Work α} {result : α} (ready : work.later span = .ready result) :
    span = 0 ∧ work = .ready result := by
  cases work with
  | never => cases ready
  | after delay found =>
    obtain ⟨none, rfl⟩ := Work.after.inj ready
    obtain ⟨rfl, rfl⟩ := Nat.add_eq_zero_iff.mp none
    exact ⟨rfl, rfl⟩

theorem map_eq_ready {f : α → β} {work : Work α} {result : β} (ready : work.map f = .ready result) :
    ∃ found, work = .ready found ∧ f found = result := by
  cases work with
  | never => cases ready
  | after delay found =>
    obtain ⟨rfl, rfl⟩ := Work.after.inj ready
    exact ⟨found, rfl, rfl⟩

end Work

/-! ## Gets -/

/-- What a loader that is asked alone comes to depends on its answer and the deadline only. -/
theorem Host.loadAlone_work {σ : Type} (host : Host σ) (now : Time) (deadline : Deadline) (key : String) (state : σ) :
    (host.loadAlone now deadline key state).2 =
      (deadline.bound now (host.load now deadline key state).2).map (Except.mapError (Failure.ofLoader key)) := by
  unfold loadAlone
  dsimp only
  cases deadline.bound now (host.load now deadline key state).2 with
  | never => rfl
  | after delay answer => simp only [Work.map, Group.loaded_result]

namespace Scene

variable {scene other : Scene} {now : Time} {key : String}

theorem loadAlone_ready (deadline : Deadline) {result : Except Failure Bytes}
    (ready : (host.loadAlone now .never key scene).2 = .ready result) (same : other.loader = scene.loader) :
    (host.loadAlone now deadline key other).2 = .ready result := by
  rw [Host.loadAlone_work, Deadline.bound_never] at ready
  obtain ⟨answer, asked, rfl⟩ := Work.map_eq_ready ready
  have again : (host.load now deadline key other).2 = .after 0 answer := by
    simp only [host, same]
    exact asked
  rw [Host.loadAlone_work, again, Deadline.bound_ready]
  rfl

theorem fetch_of_found {peer : Peer} {scripted : ScriptedPeer} (found : scene.peers[peer.id]? = some scripted)
    (deadline : Deadline) (name : String) :
    host.fetch peer now deadline name key scene =
      (scene.call peer false now deadline name key (fun p => { p with fetches := (scripted.fetches.ask now key).1 }),
        deadline.bound now (scripted.fetches.ask now key).2) := by
  simp only [host, found]

theorem forget_of_found {peer : Peer} {scripted : ScriptedPeer} (found : scene.peers[peer.id]? = some scripted)
    (deadline : Deadline) (name : String) :
    host.forget peer now deadline name key scene =
      (scene.call peer true now deadline name key (fun p => { p with removals := (scripted.removals.ask now key).1 }),
        deadline.bound now ((scripted.removals.ask now key).2.map (·.map (fun _ => ())))) := by
  simp only [host, found]

theorem fetchAlone_ready (deadline : Deadline) {peer : Peer} {result : Supplier × Except Failure Bytes}
    (ready : (host.fetchAlone now .never peer key scene).2 = .ready result) :
    (host.fetchAlone now deadline peer key scene).2 = .ready result := by
  have group (scene : Scene) : host.group scene = scene.group := rfl
  rw [Host.fetchAlone] at ready ⊢
  cases found : scene.peers[peer.id]? with
  | none =>
    simp only [host, found] at ready
    cases ready
  | some scripted =>
    rw [fetch_of_found found, Deadline.bound_never] at ready
    rw [fetch_of_found found]
    cases asked : (scripted.fetches.ask now key).2 with
    | never =>
      rw [asked] at ready
      cases ready
    | after delay answer =>
      simp only [asked, group, call] at ready ⊢
      rcases answered : scene.group.peerAnswered answer with ⟨after, settled | _⟩
      · simp only [answered] at ready
        obtain ⟨rfl, rfl⟩ := Work.after.inj ready
        simp only [deadline.bound_ready now answer, answered]
        rfl
      · simp only [answered] at ready
        obtain ⟨rfl, loads⟩ := Work.later_eq_ready ready
        obtain ⟨loaded, comes, rfl⟩ := Work.map_eq_ready loads
        simp only [deadline.bound_ready now answer, answered]
        have again (other : Scene) (same : other.loader = scene.loader) :
            (host.loadAlone (now + 0) deadline key other).2 = .ready loaded :=
          loadAlone_ready deadline comes same
        rw [again]
        · rfl
        · rfl

theorem getAlone_ready (deadline : Deadline) {result : Supplier × Except Failure Bytes}
    (ready : (host.getAlone now .never key scene).2 = .ready result) :
    (host.getAlone now deadline key scene).2 = .ready result := by
  rw [Host.getAlone] at ready ⊢
  rcases found : (host.group scene).lookup key with ⟨group, _ | value⟩
  · cases owned : host.owner (host.putGroup group scene) key with
    | some peer =>
      simp only [found, owned] at ready ⊢
      exact fetchAlone_ready deadline ready
    | none =>
      simp only [found, owned] at ready ⊢
      obtain ⟨loaded, comes, rfl⟩ := Work.map_eq_ready ready
      rw [loadAlone_ready deadline comes rfl]
      rfl
  · simp only [found] at ready ⊢
    exact ready

/-- A get that comes back at once without a deadline does so under any deadline. -/
theorem get_ready (deadline : Deadline) {result : Except Failure Bytes}
    (ready : (host.get now .never key scene).2 = .ready result) :
    (host.get now deadline key scene).2 = .ready result := by
  simp only [Host.get_eq_getAlone] at ready ⊢
  obtain ⟨settled, comes, rfl⟩ := Work.map_eq_ready ready
  rw [getAlone_ready deadline comes]
  rfl

end Scene

/-! ## Removals -/

/-- What comes of a removal from now on, for one who counts from an earlier time. -/
def Removal.comes {σ : Type} (host : Host σ) (start now : Time) (visit : σ × Removal) : Work (Except Failure Unit) :=
  let (finish, flights, _) := Schedule.run host now [.removal visit.2] visit.1
  flights.head?.elim .never (Schedule.removalResult start finish)

/-- What comes of a removal that goes on to visit peers. -/
def Removal.visited {σ : Type} (host : Host σ) (now : Time) (peers : List Peer) (removal : Removal) (state : σ) :
    Work (Except Failure Unit) :=
  comes host now now (removal.visit host now peers state)

theorem Schedule.le_run {σ : Type} (host : Host σ) (now : Time) (flights : List Flight) (state : σ) :
    now ≤ (run host now flights state).1 := by
  fun_induction run host now flights state with
  | case1 => exact Nat.le_refl _
  | case2 now flights state p picked moved ih => exact Nat.le_trans (Nat.le_max_left now p.time) ih

namespace Removal

variable {σ : Type} (host : Host σ) (now : Time) (removal : Removal) (state : σ)

theorem comes_later (delay : Time) (visit : σ × Removal) :
    comes host now (now + delay) visit = (comes host (now + delay) (now + delay) visit).later delay := by
  have later := Schedule.le_run host (now + delay) [.removal visit.2] visit.1
  unfold comes
  rcases ran : Schedule.run host (now + delay) [.removal visit.2] visit.1 with ⟨finish, _ | ⟨flight, others⟩, last⟩
  · rfl
  · obtain _ | ⟨key, deadline, failure, stage⟩ := flight
    · rfl
    · cases stage with
      | finished result =>
        simp only [ran, List.head?_cons, Option.elim_some, Schedule.removalResult, Work.later, Work.after.injEq, and_true,
          Time] at later ⊢
        omega
      | fresh | visiting => rfl

theorem visited_nil : removal.visited host now [] state = .ready removal.outcome := by
  simp only [visited, comes, visit]
  rw [Schedule.run_alone_of_stays rfl]
  simp [Schedule.removalResult, Work.ready]

theorem visited_cons (peer : Peer) (rest : List Peer) :
    removal.visited host now (peer :: rest) state =
      match host.forget peer now removal.deadline (host.group state).name removal.key state with
      | (_, .never) => .never
      | (next, .after delay answer) => ((removal.note answer).visited host (now + delay) rest next).later delay := by
  rcases asked : host.forget peer now removal.deadline (host.group state).name removal.key state with
    ⟨next, ⟨delay, answer⟩ | _⟩
  · simp only [visited, ← comes_later]
    simp only [comes, visit, asked, Work.due]
    rw [Schedule.run_alone_of_wakes rfl (Nat.le_add_right now delay)]
    cases answer <;> cases rest <;> rfl
  · simp only [visited, comes, visit, asked, Work.due]
    rw [Schedule.run_alone_of_stays rfl]
    rfl

end Removal

namespace Scene

variable {now : Time}

theorem visited_ready (deadline : Deadline) (peers : List Peer) (key : String) (failure : Option Failure)
    {result : Except Failure Unit} {scene other : Scene} {stage : RemovalStage} (same : other.peers = scene.peers)
    (ready : Removal.visited host now peers ⟨key, .never, failure, stage⟩ scene = .ready result) :
    Removal.visited host now peers ⟨key, deadline, failure, stage⟩ other = .ready result := by
  induction peers generalizing failure scene other with
  | nil =>
    rw [Removal.visited_nil] at ready ⊢
    exact ready
  | cons peer rest ih =>
    rw [Removal.visited_cons] at ready ⊢
    cases found : scene.peers[peer.id]? with
    | none =>
      simp only [host, found] at ready
      cases ready
    | some scripted =>
      rw [forget_of_found found, Deadline.bound_never] at ready
      rw [forget_of_found (same ▸ found)]
      cases asked : (scripted.removals.ask now key).2 with
      | never =>
        rw [asked] at ready
        cases ready
      | after delay answer =>
        simp only [asked, Work.map] at ready ⊢
        obtain ⟨rfl, visits⟩ := Work.later_eq_ready ready
        simp only [deadline.bound_ready]
        have again : (other.call peer true now deadline (host.group other).name key
              (fun p => { p with removals := (scripted.removals.ask now key).1 })).peers =
            (scene.call peer true now .never (host.group scene).name key
              (fun p => { p with removals := (scripted.removals.ask now key).1 })).peers := by
          simp only [call, same]
        cases answer with
        | ok value => exact congrArg (Work.later 0) (ih failure again visits)
        | error told => exact congrArg (Work.later 0) (ih (failure.or (some told)) again visits)

/-- A removal that comes back at once without a deadline does so under any deadline. -/
theorem remove_ready (deadline : Deadline) {scene : Scene} {key : String} {result : Except Failure Unit}
    (ready : (host.remove now .never key scene).2 = .ready result) :
    (host.remove now deadline key scene).2 = .ready result := by
  have begins (deadline : Deadline) : (host.remove now deadline key scene).2 = 
      Removal.visited host now (host.peers scene) ⟨key, deadline, none, .fresh now⟩ (host.putGroup ((host.group scene).localRemove key) scene) := by
    rw [Host.remove, Schedule.run_alone_of_wakes rfl (Nat.le_refl now)]
    rfl
  rw [begins] at ready ⊢
  exact visited_ready deadline _ key none rfl ready

end Scene

end RingCache
