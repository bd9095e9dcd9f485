import Mathlib
import RingCache.Proofs.LoneGets

/-!
# Gets side by side

The peers of a group and its loader always give the same answer for a key, but there is no
telling when (`Habits`, `Host.Follows`). Nothing keeps several gets of one key from missing
it together, and from asking its peer and then the loader for it once each. Still every way
that a get may go ends with one outcome (`Habits.Course`), because what is stored is what the
loader gives for a key that no peer settles (`Store.Sound`). So gets that overlap come to the
same results, and leave the same store, as gets that take turns (`Batch.agrees_with_turns`).
-/
namespace RingCache

/-- What the surroundings of a group always do: where a key is routed, what a peer answers
    for it, and what the loader does. -/
structure Habits where
  route : String → Option Peer
  fetched : Peer → String → Except Failure Bytes
  loaded : String → Except Failure Bytes

/-- The failure of a get whose loader failed. -/
def Failure.ofLoader (key : String) : Failure → Failure
  | .timeout => .timeout
  | .load other reason => .load other reason
  | failure => .load key failure.message

namespace Habits

/-- What the peer of a key settles a get of it with, if it has one and that one does. -/
def settledByPeer (habits : Habits) (key : String) : Option (Except Failure Bytes) :=
  match habits.route key with
  | none => none
  | some peer =>
    match habits.fetched peer key with
    | .ok value => some (.ok value)
    | .error .timeout => some (.error .timeout)
    | .error _ => none

/-- What a get of a key comes to. -/
def outcome (habits : Habits) (key : String) : Except Failure Bytes :=
  match habits.settledByPeer key with
  | some result => result
  | none => (habits.loaded key).mapError (Failure.ofLoader key)

/-- A get of a key that misses it stores a value. -/
def Stores (habits : Habits) (key : String) (value : Bytes) : Prop :=
  habits.settledByPeer key = none ∧ habits.loaded key = .ok value

/-- The stages that a get of a key passes through. -/
inductive Course (habits : Habits) (key : String) : GetStage → Prop where
  | fresh (start : Time) : Course habits key (.fresh start)
  | asking {peer : Peer} (time : Time) (owned : habits.route key = some peer) :
      Course habits key (.asking (some (time, habits.fetched peer key)))
  | loading (time : Time) (falls : habits.settledByPeer key = none) :
      Course habits key (.loading (some (time, habits.loaded key)))
  | finished : Course habits key (.finished (habits.outcome key))

end Habits

/-- The surroundings of a group follow habits as long as its state is a usual one, and it
    stays one. Their answers do come, and they leave the store alone. -/
structure Host.Follows {σ : Type} (host : Host σ) (habits : Habits) (usual : σ → Prop) : Prop where
  group_putGroup : ∀ group state, host.group (host.putGroup group state) = group
  putGroup : ∀ group state, usual state → usual (host.putGroup group state)
  owner : ∀ key state, usual state → host.owner state key = habits.route key
  fetch : ∀ peer now name key state, usual state → habits.route key = some peer → ∃ next delay,
    host.fetch peer now .never name key state = (next, .after delay (habits.fetched peer key)) ∧
      usual next ∧ (host.group next).store = (host.group state).store
  load : ∀ now key state, usual state → ∃ next delay,
    host.load now .never key state = (next, .after delay (habits.loaded key)) ∧
      usual next ∧ (host.group next).store = (host.group state).store

/-- The result that a verdict settles a get with. -/
def Verdict.settled? : Verdict → Option (Except Failure Bytes)
  | .settled result => some result
  | .loadHere => none

variable {σ : Type} {host : Host σ} {habits : Habits} {usual : σ → Prop} {state : σ} {now due : Time}
variable {key : String} {keys : List String} {value : Bytes}

theorem Habits.Stores.outcome (stores : habits.Stores key value) : habits.outcome key = .ok value := by
  rw [Habits.outcome, stores.1, stores.2]
  rfl

theorem Habits.Stores.unique {other : Bytes} (stores : habits.Stores key value) (also : habits.Stores key other) :
    other = value :=
  Except.ok.inj (also.2.symm.trans stores.2)

theorem Group.loaded_result (group : Group) (key : String) (answer : Except Failure Bytes) :
    (group.loaded key answer).2 = answer.mapError (Failure.ofLoader key) := by
  cases answer with
  | ok value => rfl
  | error failure => cases failure <;> rfl

theorem Group.store_loaded_error (group : Group) (key : String) (failure : Failure) :
    (group.loaded key (.error failure)).1.store = group.store := by
  cases failure <;> rfl

theorem Habits.settledByPeer_eq_of_route {peer : Peer} (habits : Habits) (owned : habits.route key = some peer)
    (group : Group) :
    habits.settledByPeer key = (group.peerAnswered (habits.fetched peer key)).2.settled? := by
  simp only [settledByPeer, owned]
  cases habits.fetched peer key with
  | ok value => rfl
  | error failure => cases failure <;> rfl

/-! ## Stores that only grow -/

namespace Store

/-- Every stored value is the one that a get of its key stores, and the key is one of some. -/
def Sound (habits : Habits) (keys : List String) (store : Store) : Prop :=
  ∀ key value, store.find? key = some value → key ∈ keys ∧ habits.Stores key value

/-- A store keeps its values and its capacity. -/
structure Grows (before after : Store) : Prop where
  capacity : after.capacity = before.capacity
  keeps : ∀ key value, before.find? key = some value → after.find? key = some value

theorem Grows.refl (store : Store) : store.Grows store := ⟨rfl, fun _ _ => id⟩

theorem Grows.trans {first second third : Store} (grows : first.Grows second) (more : second.Grows third) :
    first.Grows third where
  capacity := more.capacity.trans grows.capacity
  keeps key value found := more.keeps key value (grows.keeps key value found)

theorem find?_insert_of_fits {store : Store} (fits : store.fits key value = true) (other : String) :
    (store.insert key value).find? other = if other = key then some value else store.find? other := by
  simp only [find?, insert, fits, if_true, Table.find?_insert]

/-- A sound store that is given the value which a get stores is still sound, and it grows. -/
theorem Sound.insert {store : Store} (sound : store.Sound habits keys) (stores : habits.Stores key value)
    (listed : key ∈ keys) (fits : store.fits key value = true) :
    (store.insert key value).Sound habits keys ∧ store.Grows (store.insert key value) := by
  refine ⟨?_, rfl, ?_⟩
  · intro other given found
    rw [find?_insert_of_fits fits] at found
    by_cases same : other = key
    · rw [if_pos same] at found
      cases found
      exact same ▸ ⟨listed, stores⟩
    · rw [if_neg same] at found
      exact sound other given found
  · intro other given found
    rw [find?_insert_of_fits fits]
    by_cases same : other = key
    · subst same
      rw [if_pos rfl, stores.unique (sound other given found).2]
    · rwa [if_neg same]

theorem sound_of_unused {store : Store} (unused : store.entries = .empty) : store.Sound habits keys := by
  intro key value found
  rw [find?, unused, Table.find?_empty] at found
  cases found

/-- A store finds what a get of a key stores. -/
def Keeps (habits : Habits) (store : Store) (key : String) : Prop :=
  ∀ value, habits.Stores key value → store.find? key = some value

theorem Keeps.grows {before after : Store} (keeps : before.Keeps habits key) (grows : before.Grows after) :
    after.Keeps habits key :=
  fun value stores => grows.keeps key value (keeps value stores)

/-- Sound stores that find what gets of the same keys store are the same. -/
theorem Sound.eq {store other : Store} (sound : store.Sound habits keys) (otherSound : other.Sound habits keys)
    (kept : ∀ key ∈ keys, store.Keeps habits key) (otherKept : ∀ key ∈ keys, other.Keeps habits key)
    (capacity : store.capacity = other.capacity) : store = other := by
  have includes {first second : Store} (sound : first.Sound habits keys)
      (kept : ∀ key ∈ keys, second.Keeps habits key) (key : String) (value : Bytes)
      (found : first.find? key = some value) : second.find? key = some value := by
    obtain ⟨listed, stores⟩ := sound key value found
    exact kept key listed value stores
  have entries : store.entries = other.entries := by
    apply Table.ext_find?
    intro key
    apply Option.ext
    intro value
    exact ⟨includes sound otherKept key value, includes otherSound kept key value⟩
  cases store
  cases other
  simp only [mk.injEq]
  exact ⟨capacity, entries⟩

end Store

/-! ## One step of a get -/

/-- What a step of a get leads to, from a store: the get stays on its course, a value that is
    stored is the one that it stores, and once it has finished that value is found. -/
structure Get.Moves (host : Host σ) (habits : Habits) (usual : σ → Prop) (get : Get) (before : Store) (later : Get)
    (next : σ) : Prop where
  key : later.key = get.key
  deadline : later.deadline = .never
  course : habits.Course get.key later.stage
  usual : usual next
  store : (host.group next).store = before ∨
    ∃ value, habits.Stores get.key value ∧ (host.group next).store = before.insert get.key value
  kept : ∀ result, later.stage = .finished result → (host.group next).store.Keeps habits get.key

namespace Get

variable {get : Get} {before : Store}

theorem moves_askLoader (follows : host.Follows habits usual) (free : get.deadline = .never) (now : Time)
    (stays : usual state) (same : (host.group state).store = before) (falls : habits.settledByPeer get.key = none) :
    get.Moves host habits usual before (get.askLoader host now state).2 (get.askLoader host now state).1 := by
  obtain ⟨next, delay, asked, usualNext, leaves⟩ := follows.load now get.key state stays
  simp only [askLoader, free, asked]
  refine ⟨rfl, rfl, .loading (now + delay) falls, usualNext, .inl (leaves.trans same), ?_⟩
  intro result ended
  cases ended

theorem moves_askPeer (follows : host.Follows habits usual) (free : get.deadline = .never) (now : Time) {peer : Peer}
    (stays : usual state) (same : (host.group state).store = before) (owned : habits.route get.key = some peer) :
    get.Moves host habits usual before (get.askPeer host now peer state).2 (get.askPeer host now peer state).1 := by
  obtain ⟨next, delay, asked, usualNext, leaves⟩ :=
    follows.fetch peer now (host.group state).name get.key state stays owned
  simp only [askPeer, free, asked]
  refine ⟨rfl, rfl, .asking (now + delay) owned, usualNext, .inl (leaves.trans same), ?_⟩
  intro result ended
  cases ended

theorem moves_begin (follows : host.Follows habits usual) (free : get.deadline = .never) (now : Time)
    (stays : usual state) (sound : (host.group state).store.Sound habits keys) :
    get.Moves host habits usual (host.group state).store (get.begin host now state).2 (get.begin host now state).1 := by
  have still := Group.store_lookup (host.group state) get.key
  have looked := Group.find?_eq_lookup (host.group state) get.key
  rw [begin]
  rcases found : (host.group state).lookup get.key with ⟨group, _ | value⟩
  all_goals
    rw [found] at still looked
    have usualNext := follows.putGroup group state stays
    have same : (host.group (host.putGroup group state)).store = (host.group state).store := by
      rw [follows.group_putGroup]
      exact still
  case none =>
    simp only [follows.owner get.key _ usualNext]
    cases owned : habits.route get.key with
    | some peer => exact moves_askPeer follows free now usualNext same owned
    | none =>
      refine moves_askLoader follows free now usualNext same ?_
      rw [Habits.settledByPeer, owned]
  case some =>
    -- what is found was stored by a get of the same key, so it is the outcome of this one
    obtain ⟨_, stores⟩ := sound get.key value looked
    have course : habits.Course get.key (.finished (.ok value)) := stores.outcome ▸ .finished
    refine ⟨rfl, free, course, usualNext, .inl same, ?_⟩
    intro result _ other also
    rw [same, stores.unique also]
    exact looked

theorem moves_takePeer (follows : host.Follows habits usual) (free : get.deadline = .never) (now : Time)
    {peer : Peer} (stays : usual state) (owned : habits.route get.key = some peer) :
    get.Moves host habits usual (host.group state).store
      (get.takePeer host now (habits.fetched peer get.key) state).2
      (get.takePeer host now (habits.fetched peer get.key) state).1 := by
  have settled := habits.settledByPeer_eq_of_route owned (host.group state)
  have still := Group.store_peerAnswered (host.group state) (habits.fetched peer get.key)
  rw [takePeer]
  rcases answered : (host.group state).peerAnswered (habits.fetched peer get.key) with ⟨group, result | _⟩
  all_goals
    rw [answered] at still settled
    have usualNext := follows.putGroup group state stays
    have same : (host.group (host.putGroup group state)).store = (host.group state).store := by
      rw [follows.group_putGroup]
      exact still
  case settled =>
    have course : habits.Course get.key (.finished result) := by
      have ends : habits.outcome get.key = result := by
        rw [Habits.outcome, settled]
        rfl
      exact ends ▸ .finished
    refine ⟨rfl, free, course, usualNext, .inl same, ?_⟩
    intro _ _ value stores
    cases stores.1.symm.trans settled
  case loadHere => exact moves_askLoader follows free now usualNext same settled

theorem moves_takeLoader (follows : host.Follows habits usual) (free : get.deadline = .never) (stays : usual state)
    (falls : habits.settledByPeer get.key = none)
    (room : ∀ value, habits.Stores get.key value → (host.group state).store.fits get.key value = true) :
    get.Moves host habits usual (host.group state).store (get.takeLoader host (habits.loaded get.key) state).2
      (get.takeLoader host (habits.loaded get.key) state).1 := by
  have course : habits.Course get.key (.finished ((host.group state).loaded get.key (habits.loaded get.key)).2) := by
    have ends : habits.outcome get.key = ((host.group state).loaded get.key (habits.loaded get.key)).2 := by
      rw [Habits.outcome, falls, Group.loaded_result]
    exact ends ▸ .finished
  have stored : (host.group (get.takeLoader host (habits.loaded get.key) state).1).store =
      ((host.group state).loaded get.key (habits.loaded get.key)).1.store := by
    rw [takeLoader, follows.group_putGroup]
  refine ⟨rfl, free, course, follows.putGroup _ _ stays, ?_, ?_⟩
  · rw [stored]
    cases loads : habits.loaded get.key with
    | ok value => exact .inr ⟨value, ⟨falls, loads⟩, rfl⟩
    | error failure => exact .inl (Group.store_loaded_error _ _ _)
  · intro _ _ value stores
    have found : ((host.group state).store.insert get.key value).find? get.key = some value := by
      rw [Store.find?_insert_of_fits (room value stores), if_pos rfl]
    rw [stored, stores.2]
    exact found

/-- A get on its course takes its next step from a store that is sound. -/
theorem moves_advance (follows : host.Follows habits usual) (free : get.deadline = .never) (now : Time)
    (stays : usual state) (sound : (host.group state).store.Sound habits keys)
    (room : ∀ value, habits.Stores get.key value → (host.group state).store.fits get.key value = true)
    (course : habits.Course get.key get.stage) (wakes : (Flight.get get).wake = some due) :
    get.Moves host habits usual (host.group state).store (get.advance host now state).2
      (get.advance host now state).1 := by
  obtain ⟨key, deadline, stage⟩ := get
  dsimp only at course
  cases course with
  | fresh start => exact moves_begin follows free now stays sound
  | asking time owned => exact moves_takePeer follows free now stays owned
  | loading time falls => exact moves_takeLoader follows free stays falls room
  | finished => cases wakes

theorem key_advance (host : Host σ) (now : Time) (get : Get) (state : σ) :
    (get.advance host now state).2.key = get.key := by
  obtain ⟨key, deadline, stage⟩ := get
  cases stage with
  | fresh start =>
    simp only [advance, begin]
    split
    · rfl
    · split <;> rfl
  | asking answer =>
    cases answer with
    | none => rfl
    | some answer =>
      simp only [advance, takePeer]
      split <;> rfl
  | loading answer => cases answer <;> rfl
  | finished => rfl

/-- A get on its course that does not go on has finished. -/
theorem finished_of_course (course : habits.Course get.key get.stage) (stays : (Flight.get get).wake = none) :
    get.stage = .finished (habits.outcome get.key) := by
  obtain ⟨key, deadline, stage⟩ := get
  dsimp only at course
  cases course with
  | fresh | asking | loading => cases stays
  | finished => rfl

end Get

/-- Nothing is picked only if no flight goes on. -/
theorem Schedule.wake_of_pick_eq_none {flights : List Flight} (nothing : pick flights = none) :
    ∀ flight ∈ flights, flight.wake = none := by
  induction flights with
  | nil => exact List.forall_mem_nil _
  | cons flight rest ih =>
    unfold pick at nothing
    split at nothing
    next stays => exact List.forall_mem_cons.mpr ⟨stays, ih (Option.map_eq_none_iff.mp nothing)⟩
    next => cases nothing
    next => split at nothing <;> cases nothing

/-! ## Gets that overlap -/

/-- Some gets of a group, and the state that they share. -/
structure Batch (σ : Type) where
  gets : List Get
  state : σ

namespace Batch

/-- One of the gets takes a step when it goes on, or something happens elsewhere that leaves
    the store alone. -/
inductive Step (host : Host σ) (usual : σ → Prop) : Batch σ → Batch σ → Prop where
  | move (before rest : List Get) {get : Get} (state : σ) {due now : Time} (wakes : (Flight.get get).wake = some due)
      (comes : due ≤ now) :
      Step host usual ⟨before ++ get :: rest, state⟩
        ⟨before ++ (get.advance host now state).2 :: rest, (get.advance host now state).1⟩
  | elsewhere (gets : List Get) {state next : σ} (stays : usual next)
      (leaves : (host.group next).store = (host.group state).store) :
      Step host usual ⟨gets, state⟩ ⟨gets, next⟩

/-- Steps of a batch. -/
def Run (host : Host σ) (usual : σ → Prop) : Batch σ → Batch σ → Prop := Relation.ReflTransGen (Step host usual)

/-- The gets of a batch are on their courses, its store is sound and has grown from an earlier
    one, and the gets that have finished find what they store. -/
structure Steady (host : Host σ) (habits : Habits) (usual : σ → Prop) (keys : List String) (earlier : Store)
    (batch : Batch σ) : Prop where
  usual : usual batch.state
  course : ∀ get ∈ batch.gets, get.key ∈ keys ∧ get.deadline = .never ∧ habits.Course get.key get.stage
  sound : (host.group batch.state).store.Sound habits keys
  grows : earlier.Grows (host.group batch.state).store
  kept : ∀ get ∈ batch.gets, ∀ result, get.stage = .finished result →
    (host.group batch.state).store.Keeps habits get.key

variable {batch later : Batch σ} {earlier : Store}

theorem Steady.next (steady : Steady host habits usual keys earlier batch) (follows : host.Follows habits usual)
    (room : ∀ key ∈ keys, ∀ value, habits.Stores key value → earlier.fits key value = true)
    (step : Step host usual batch later) : Steady host habits usual keys earlier later := by
  obtain ⟨stays, course, sound, grows, kept⟩ := steady
  cases step with
  | @move before rest get state due now wakes comes =>
    obtain ⟨listed, free, own⟩ := course get (by simp)
    have fits (value : Bytes) (stores : habits.Stores get.key value) :
        (host.group state).store.fits get.key value = true := by
      have given := room get.key listed value stores
      rwa [Store.fits, ← grows.capacity] at given
    have moves := get.moves_advance follows free now stays sound fits own wakes
    have stored : (host.group (get.advance host now state).1).store.Sound habits keys ∧
        (host.group state).store.Grows (host.group (get.advance host now state).1).store := by
      rcases moves.store with same | ⟨value, stores, inserted⟩
      · rw [same]
        exact ⟨sound, .refl _⟩
      · rw [inserted]
        exact sound.insert stores listed (fits value stores)
    refine ⟨moves.usual, ?_, stored.1, grows.trans stored.2, ?_⟩
    · simp only [List.forall_mem_append, List.forall_mem_cons] at course ⊢
      refine ⟨course.1, ?_, course.2.2⟩
      rw [moves.key]
      exact ⟨listed, moves.deadline, moves.course⟩
    · simp only [List.forall_mem_append, List.forall_mem_cons] at kept ⊢
      refine ⟨?_, ?_, ?_⟩
      · intro other among result finished
        exact (kept.1 other among result finished).grows stored.2
      · rw [moves.key]
        exact moves.kept
      · intro other among result finished
        exact (kept.2.2 other among result finished).grows stored.2
  | elsewhere gets staysNext leaves =>
    rw [← leaves] at sound grows
    refine ⟨staysNext, course, sound, grows, ?_⟩
    rw [leaves]
    exact kept

theorem Steady.run (steady : Steady host habits usual keys earlier batch) (follows : host.Follows habits usual)
    (room : ∀ key ∈ keys, ∀ value, habits.Stores key value → earlier.fits key value = true)
    (run : Run host usual batch later) : Steady host habits usual keys earlier later := by
  induction run with
  | refl => exact steady
  | tail _ step ih => exact ih.next follows room step

/-- A batch of gets that have not begun is steady. -/
theorem steady_of_fresh {gets : List Get} (stays : usual state) (sound : (host.group state).store.Sound habits keys)
    (fresh : ∀ get ∈ gets, get.deadline = .never ∧ ∃ start, get.stage = .fresh start)
    (listed : ∀ get ∈ gets, get.key ∈ keys) :
    Steady host habits usual keys (host.group state).store ⟨gets, state⟩ := by
  refine ⟨stays, ?_, sound, .refl _, ?_⟩
  · intro get among
    obtain ⟨free, start, begins⟩ := fresh get among
    exact ⟨listed get among, free, begins ▸ .fresh start⟩
  · intro get among result finished
    obtain ⟨_, start, begins⟩ := fresh get among
    exact nomatch begins.symm.trans finished

/-- The gets of a batch stay gets of the same keys. -/
theorem keys_run (run : Run host usual batch later) : later.gets.map Get.key = batch.gets.map Get.key := by
  induction run with
  | refl => rfl
  | tail _ step ih =>
    rw [← ih]
    cases step with
    | move before rest state wakes comes => simp only [List.map_append, List.map_cons, Get.key_advance]
    | elsewhere => rfl

/-- What a schedule does with gets is a run of them, and it ends when none goes on. -/
theorem exists_run_schedule (host : Host σ) (usual : σ → Prop) (now : Time) (gets : List Get) (state : σ) :
    ∃ after, (Schedule.run host now (gets.map Flight.get) state).2.1 = after.map Flight.get ∧
      Run host usual ⟨gets, state⟩ ⟨after, (Schedule.run host now (gets.map Flight.get) state).2.2⟩ ∧
      ∀ get ∈ after, (Flight.get get).wake = none := by
  generalize same : gets.map Flight.get = flights
  fun_induction Schedule.run host now flights state generalizing gets with
  | case1 now flights state nothing =>
    refine ⟨gets, same.symm, .refl, ?_⟩
    intro get among
    exact Schedule.wake_of_pick_eq_none nothing _ (same ▸ List.mem_map_of_mem among)
  | case2 now flights state p picked moved ih =>
    obtain ⟨parts, wakes⟩ := Schedule.pick_eq_some picked
    rw [parts] at same
    obtain ⟨before, others, rfl, first, last⟩ := List.map_eq_append_iff.mp same
    obtain ⟨get, rest, rfl, own, final⟩ := List.map_eq_cons_iff.mp last
    rw [← own] at wakes
    have step := @Step.move _ host usual before rest get state _ _ wakes (Nat.le_max_right now p.time)
    have same_moved : moved = ((get.advance host (max now p.time) state).1,
        Flight.get (get.advance host (max now p.time) state).2) := by
      simp only [moved, ← own]
      rfl
    rw [same_moved] at ih ⊢
    obtain ⟨after, ends, run, rests⟩ := ih (before ++ (get.advance host (max now p.time) state).2 :: rest) (by
      simp only [List.map_append, List.map_cons, first, final])
    exact ⟨after, ends, .head step run, rests⟩

end Batch

/-! ## Gets that take turns -/

/-- A get alone, in a usual state with a sound store, comes back with its outcome. -/
theorem Host.Follows.exists_get (follows : host.Follows habits usual) (now : Time) (stays : usual state)
    (sound : (host.group state).store.Sound habits keys) (listed : key ∈ keys)
    (room : ∀ key ∈ keys, ∀ value, habits.Stores key value → (host.group state).store.fits key value = true) :
    ∃ next delay, host.get now .never key state = (next, .after delay (habits.outcome key)) ∧ usual next ∧
      (host.group next).store.Sound habits keys ∧ (host.group state).store.Grows (host.group next).store ∧
      (host.group next).store.Keeps habits key := by
  have begins : Batch.Steady host habits usual keys (host.group state).store ⟨[⟨key, .never, .fresh now⟩], state⟩ := by
    apply Batch.steady_of_fresh stays sound
    · exact List.forall_mem_singleton.mpr ⟨rfl, now, rfl⟩
    · exact List.forall_mem_singleton.mpr listed
  obtain ⟨after, ends, run, rests⟩ := Batch.exists_run_schedule host usual now [⟨key, .never, .fresh now⟩] state
  rcases ran : Schedule.run host now [.startGet now .never key] state with ⟨finish, flights, next⟩
  rw [show List.map Flight.get [⟨key, .never, .fresh now⟩] = [.startGet now .never key] from rfl, ran] at ends run
  have steady := begins.run follows room run
  obtain ⟨⟨other, deadline, stage⟩, rfl, same⟩ := List.map_eq_singleton_iff.mp (Batch.keys_run run)
  obtain ⟨_, _, course⟩ := steady.course _ List.mem_cons_self
  have finished := Get.finished_of_course course (rests _ List.mem_cons_self)
  have kept := steady.kept _ List.mem_cons_self _ finished
  dsimp only at same finished kept
  subst same finished
  refine ⟨next, finish - now, ?_, steady.usual, steady.sound, steady.grows, kept⟩
  obtain rfl : flights = [.get ⟨other, deadline, .finished (habits.outcome other)⟩] := ends
  rw [Host.get, ran]
  rfl

/-- Gets of keys at some times, each of which comes back before the next one begins, and what
    they come to. -/
def Host.getInTurn (host : Host σ) : List (Time × String) → σ → σ × List (String × Work (Except Failure Bytes))
  | [], state => (state, [])
  | (now, key) :: rest, state =>
    let (state, work) := host.get now .never key state
    let (state, works) := host.getInTurn rest state
    (state, (key, work) :: works)

/-- Gets that take turns come back with their outcomes, and leave a sound store that finds
    what they store. -/
theorem Host.Follows.getInTurn (follows : host.Follows habits usual) (order : List (Time × String))
    (stays : usual state) (sound : (host.group state).store.Sound habits keys)
    (listed : ∀ key ∈ order.map Prod.snd, key ∈ keys)
    (room : ∀ key ∈ keys, ∀ value, habits.Stores key value → (host.group state).store.fits key value = true) :
    let (next, works) := host.getInTurn order state
    works.map Prod.fst = order.map Prod.snd ∧ (∀ work ∈ works, ∃ delay, work.2 = .after delay (habits.outcome work.1)) ∧
      (host.group next).store.Sound habits keys ∧ (host.group state).store.Grows (host.group next).store ∧
      ∀ key ∈ order.map Prod.snd, (host.group next).store.Keeps habits key := by
  induction order generalizing state with
  | nil => exact ⟨rfl, List.forall_mem_nil _, sound, .refl _, List.forall_mem_nil _⟩
  | cons first rest ih =>
    obtain ⟨now, key⟩ := first
    simp only [List.map_cons, List.forall_mem_cons] at listed
    obtain ⟨next, delay, comes, staysNext, soundNext, grows, kept⟩ := follows.exists_get now stays sound listed.1 room
    have roomNext : ∀ key ∈ keys, ∀ value, habits.Stores key value → (host.group next).store.fits key value = true := by
      intro other among value stores
      have fits := room other among value stores
      rwa [Store.fits, ← grows.capacity] at fits
    have others := ih staysNext soundNext listed.2 roomNext
    simp only [Host.getInTurn, comes, List.map_cons, List.forall_mem_cons]
    obtain ⟨same, comeBack, soundLast, grown, keptLast⟩ := others
    exact ⟨congrArg (key :: ·) same, ⟨⟨delay, rfl⟩, comeBack⟩, soundLast, grows.trans grown, kept.grows grown, keptLast⟩

/-- A scripted scene follows habits: what its loader and its peers give for a key depends
    neither on the time nor on how often they were asked for it. -/
structure Scene.Habitual (habits : Habits) (scene : Scene) : Prop where
  route : ∀ key, (scene.route key).bind scene.peerAt = habits.route key
  loader : ∀ now key n, ∃ delay, scene.loader.work now key n = .after delay (habits.loaded key)
  fetches : ∀ peer key, habits.route key = some peer → ∃ scripted, scene.peers[peer.id]? = some scripted ∧
    ∀ now n, ∃ delay, scripted.fetches.work now key n = .after delay (habits.fetched peer key)

theorem Scene.follows (habits : Habits) : Scene.host.Follows habits (Scene.Habitual habits) where
  group_putGroup _ _ := rfl
  putGroup _ _ habitual := ⟨habitual.route, habitual.loader, habitual.fetches⟩
  owner key _ habitual := habitual.route key
  fetch peer now name key scene habitual owned := by
    obtain ⟨scripted, here, answers⟩ := habitual.fetches peer key owned
    obtain ⟨delay, given⟩ := answers now ((scripted.fetches.asked.find? key).getD 0)
    simp only [host, here, Loader.ask, given]
    refine ⟨_, delay, rfl, ⟨?_, habitual.loader, ?_⟩, rfl⟩
    · intro other
      rw [← habitual.route other]
      refine congrArg _ (funext fun i => ?_)
      simp only [peerAt, call, List.getElem?_modify]
      cases scene.peers[i]? with
      | none => rfl
      | some scripted => by_cases same : peer.id = i <;> simp [same]
    · intro other needed routed
      obtain ⟨found, there, answers⟩ := habitual.fetches other needed routed
      simp only [call, List.getElem?_modify, there]
      by_cases same : peer.id = other.id
      · -- the peer that was called answers as before, since only the record of its calls has changed
        rw [same, there] at here
        cases here
        exact ⟨{ scripted with fetches := (scripted.fetches.ask now key).1 }, by simp [same, Loader.ask], answers⟩
      · exact ⟨found, by simp [same], answers⟩
  load now key scene habitual := by
    obtain ⟨delay, given⟩ := habitual.loader now key ((scene.loader.asked.find? key).getD 0)
    simp only [host, Loader.ask, given]
    exact ⟨_, delay, rfl, ⟨habitual.route, habitual.loader, habitual.fetches⟩, rfl⟩

namespace Batch

/-- However gets without a deadline overlap in a group that was empty, whose peers and loader
    always give the same answers, and whose store has room for every value that they store:
    one that has come back has the outcome of its key, and one that has not goes on, so that
    all may come back. If they take turns instead, in any order and at any times, each of them
    comes back, with the outcome of its key too; and once all those that overlap have come
    back, the store is the same as after their turns. -/
theorem agrees_with_turns {gets : List Get} {start : σ} {batch : Batch σ} (follows : host.Follows habits usual)
    (stays : usual start) (unused : (host.group start).store.entries = .empty)
    (fresh : ∀ get ∈ gets, get.deadline = .never ∧ ∃ start, get.stage = .fresh start)
    (room : ∀ get ∈ gets, ∀ value, habits.Stores get.key value → (host.group start).store.fits get.key value = true)
    (run : Run host usual ⟨gets, start⟩ batch) :
    (∀ get ∈ batch.gets, get.stage = .finished (habits.outcome get.key) ∨ ∃ due, (Flight.get get).wake = some due) ∧
    (∃ later, Run host usual batch later ∧ ∀ get ∈ later.gets, get.stage = .finished (habits.outcome get.key)) ∧
    ∀ (order : List (Time × String)) (alone : σ), usual alone → (host.group alone).store = (host.group start).store →
      (order.map Prod.snd).Perm (gets.map Get.key) →
      let (last, works) := host.getInTurn order alone
      works.map Prod.fst = order.map Prod.snd ∧
      (∀ work ∈ works, ∃ delay, work.2 = .after delay (habits.outcome work.1)) ∧
      ((∀ get ∈ batch.gets, ∃ result, get.stage = .finished result) →
        (host.group batch.state).store = (host.group last).store) := by
  have roomByKey : ∀ key ∈ gets.map Get.key, ∀ value, habits.Stores key value →
      (host.group start).store.fits key value = true := List.forall_mem_map.mpr room
  have begins : Steady host habits usual (gets.map Get.key) (host.group start).store ⟨gets, start⟩ :=
    steady_of_fresh stays (Store.sound_of_unused unused) fresh (fun get among => List.mem_map_of_mem among)
  have steady := begins.run follows roomByKey run
  refine ⟨?_, ?_, ?_⟩
  · intro get among
    obtain ⟨_, _, course⟩ := steady.course get among
    cases wakes : (Flight.get get).wake with
    | none => exact .inl (Get.finished_of_course course wakes)
    | some due => exact .inr ⟨due, rfl⟩
  · obtain ⟨after, _, goesOn, rests⟩ := exists_run_schedule host usual 0 batch.gets batch.state
    refine ⟨_, goesOn, fun get among => ?_⟩
    obtain ⟨_, _, course⟩ := (steady.run follows roomByKey goesOn).course get among
    exact Get.finished_of_course course (rests get among)
  · intro order alone staysAlone same perm
    have soundAlone : (host.group alone).store.Sound habits (gets.map Get.key) :=
      same ▸ Store.sound_of_unused unused
    have turns := follows.getInTurn order staysAlone soundAlone (fun key among => perm.mem_iff.mp among)
      (same ▸ roomByKey)
    obtain ⟨returned, comeBack, sound, grows, kept⟩ := turns
    refine ⟨returned, comeBack, ?_⟩
    intro finished
    apply steady.sound.eq sound
    · rw [← keys_run run]
      intro key among
      obtain ⟨get, amongGets, rfl⟩ := List.mem_map.mp among
      obtain ⟨result, ended⟩ := finished get amongGets
      exact steady.kept get amongGets result ended
    · exact fun key among => kept key (perm.mem_iff.mpr among)
    · rw [steady.grows.capacity, grows.capacity, same]

/-- A peer that always fails, and a loader that always gives the same value. -/
def failingPeer : Habits where
  route _ := some ⟨"x:1", 0⟩
  fetched _ _ := .error (.internal "down")
  loaded _ := .ok [7]

/-- A scene with these habits. -/
def scene : Scene where
  group := .new "g" 100
  loader := .follow ⟨[⟨some 300, .value [7]⟩], .empty⟩
  peers := [⟨"x:1", .follow ⟨[⟨none, .fails (.internal "down")⟩], .empty⟩, .follow ⟨[], .empty⟩⟩]
  route _ := some 0
  loads := []
  calls := []

/-- A get that has not begun. -/
def fresh : Get := ⟨"k", .never, .fresh 0⟩

/-- The first of two gets has asked the peer. -/
def first : Scene × Get := fresh.advance Scene.host 0 scene

/-- The second one has missed the key and asked the peer, too. -/
def second : Scene × Get := fresh.advance Scene.host 0 first.1

/-- The first one has heard that the peer failed, and asked the loader. -/
def third : Scene × Get := first.2.advance Scene.host 0 second.1

/-- The second one has, too. -/
def fourth : Scene × Get := second.2.advance Scene.host 0 third.1

/-- The first one has come back, and its value is stored. -/
def fifth : Scene × Get := third.2.advance Scene.host 1000 fourth.1

/-- The second one has come back, and its value is stored, too. -/
def sixth : Scene × Get := fourth.2.advance Scene.host 1000 fifth.1

theorem habitual_scene : scene.Habitual failingPeer where
  route _ := rfl
  loader now key n := by
    refine ⟨now.alarm (now + min 300 longestSleep) - now, ?_⟩
    simp [scene, Loader.follow, Script.outcome, Outcome.work, Work.sleep, Table.find?_empty, failingPeer, Answer.result]
  fetches peer key owned := by
    cases owned
    refine ⟨_, rfl, fun now n => ⟨0, ?_⟩⟩
    simp [Loader.follow, Script.outcome, Outcome.work, Work.ready, Table.find?_empty, failingPeer, Answer.result]

theorem run_sixth :
    Run Scene.host (Scene.Habitual failingPeer) ⟨[fresh, fresh], scene⟩ ⟨[fifth.2, sixth.2], sixth.1⟩ := by
  let Overlaps := Run Scene.host (Scene.Habitual failingPeer)
  have asks : Overlaps ⟨[fresh, fresh], scene⟩ ⟨[first.2, fresh], first.1⟩ :=
    .single (@Step.move _ Scene.host _ [] [fresh] fresh scene 0 0 rfl (Nat.le_refl 0))
  have asksToo : Overlaps ⟨[fresh, fresh], scene⟩ ⟨[first.2, second.2], second.1⟩ :=
    asks.tail (@Step.move _ Scene.host _ [first.2] [] fresh first.1 0 0 rfl (Nat.le_refl 0))
  have failed : (Flight.get first.2).wake = some 0 := by decide +kernel
  have falls : Overlaps ⟨[fresh, fresh], scene⟩ ⟨[third.2, second.2], third.1⟩ :=
    asksToo.tail (@Step.move _ Scene.host _ [] [second.2] first.2 second.1 0 0 failed (Nat.le_refl 0))
  have failedToo : (Flight.get second.2).wake = some 0 := by decide +kernel
  have fallsToo : Overlaps ⟨[fresh, fresh], scene⟩ ⟨[third.2, fourth.2], fourth.1⟩ :=
    falls.tail (@Step.move _ Scene.host _ [third.2] [] second.2 third.1 0 0 failedToo (Nat.le_refl 0))
  have loads : (Flight.get third.2).wake = some 1000 := by decide +kernel
  have back : Overlaps ⟨[fresh, fresh], scene⟩ ⟨[fifth.2, fourth.2], fifth.1⟩ :=
    fallsToo.tail (@Step.move _ Scene.host _ [] [fourth.2] third.2 fourth.1 1000 1000 loads (Nat.le_refl 1000))
  have loadsToo : (Flight.get fourth.2).wake = some 1000 := by decide +kernel
  exact back.tail (@Step.move _ Scene.host _ [fifth.2] [] fourth.2 fifth.1 1000 1000 loadsToo (Nat.le_refl 1000))

/-- The loader was asked twice by gets that overlapped, and is asked once by gets that take
    turns, but the store is the same. -/
theorem agrees_with_turns_of_overlap :
    Scene.host.Follows failingPeer (Scene.Habitual failingPeer) ∧ scene.Habitual failingPeer ∧
    (Scene.host.group scene).store.entries = .empty ∧
    (∀ get ∈ [fresh, fresh], get.deadline = .never ∧ ∃ start, get.stage = .fresh start) ∧
    (∀ get ∈ [fresh, fresh], ∀ value, failingPeer.Stores get.key value →
      (Scene.host.group scene).store.fits get.key value = true) ∧
    Run Scene.host (Scene.Habitual failingPeer) ⟨[fresh, fresh], scene⟩ ⟨[fifth.2, sixth.2], sixth.1⟩ ∧
    sixth.1.loads = ["k", "k"] ∧ (Scene.host.getInTurn [(5, "k"), (9, "k")] scene).1.loads = ["k"] ∧
    (Scene.host.group sixth.1).store = (Scene.host.group (Scene.host.getInTurn [(5, "k"), (9, "k")] scene).1).store := by
  have begin : ∀ get ∈ [fresh, fresh], get.deadline = .never ∧ ∃ start, get.stage = .fresh start :=
    List.forall_mem_cons.mpr ⟨⟨rfl, 0, rfl⟩, List.forall_mem_singleton.mpr ⟨rfl, 0, rfl⟩⟩
  have room : ∀ get ∈ [fresh, fresh], ∀ value, failingPeer.Stores get.key value →
      (Scene.host.group scene).store.fits get.key value = true := by
    rintro get among value ⟨_, given⟩
    cases given
    obtain rfl : get = fresh := by simpa using among
    cbv
  obtain ⟨_, _, turns⟩ := agrees_with_turns (Scene.follows failingPeer) habitual_scene rfl begin room run_sixth
  obtain ⟨_, _, same⟩ := turns [(5, "k"), (9, "k")] scene habitual_scene rfl (.refl _)
  refine ⟨Scene.follows failingPeer, habitual_scene, rfl, begin, room, run_sixth, rfl, by cbv, same ?_⟩
  exact List.forall_mem_cons.mpr ⟨⟨.ok [7], rfl⟩, List.forall_mem_singleton.mpr ⟨.ok [7], rfl⟩⟩

end Batch

end RingCache
