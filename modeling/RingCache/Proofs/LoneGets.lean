import RingCache.Proofs.LocalGet
import RingCache.Scripted

/-!
# Gets and removals that nothing overlaps with

A get that nothing overlaps with looks its key up, asks the peer that owns the key
and then the loader, each of them only if the one before has not settled it
(`Host.getAlone`). The one that settles it is its supplier. Only what the loader
supplies is stored, and a removal drops its key whatever the peers answer
(`Host.KeepsStore.settles_getAlone`, `Host.KeepsStore.store_remove`).
-/
namespace RingCache

/-- What settles a get. -/
inductive Supplier where
  | store
  | peer
  | loader
deriving DecidableEq, Repr

/-- The same work, begun after a span. -/
def Work.later {α : Type} (span : Time) : Work α → Work α
  | .after delay result => .after (span + delay) result
  | .never => .never

theorem Work.map_snd_later {α β : Type} (span : Time) (mark : β) (work : Work α) :
    ((work.map (mark, ·)).later span).map Prod.snd = work.later span := by
  cases work <;> rfl

variable {σ : Type} {host : Host σ} {now : Time} {deadline : Deadline} {key : String} {state : σ}

/-! ## A get in one expression -/

/-- The loader is asked for a key, and its answer is taken if it comes. -/
def Host.loadAlone (host : Host σ) (now : Time) (deadline : Deadline) (key : String) (state : σ) :
    σ × Work (Except Failure Bytes) :=
  let (state, work) := host.load now deadline key state
  match deadline.bound now work with
  | .never => (state, .never)
  | .after delay answer =>
    let (group, result) := (host.group state).loaded key answer
    (host.putGroup group state, .after delay result)

/-- A peer is asked for a key, and the loader after it if the peer fails. -/
def Host.fetchAlone (host : Host σ) (now : Time) (deadline : Deadline) (peer : Peer) (key : String) (state : σ) :
    σ × Work (Supplier × Except Failure Bytes) :=
  match host.fetch peer now deadline (host.group state).name key state with
  | (state, .never) => (state, .never)
  | (state, .after delay answer) =>
    let (group, verdict) := (host.group state).peerAnswered answer
    let state := host.putGroup group state
    match verdict with
    | .settled result => (state, .after delay (.peer, result))
    | .loadHere =>
      let (state, work) := host.loadAlone (now + delay) deadline key state
      (state, (work.map (.loader, ·)).later delay)

/-- A get with its supplier. -/
def Host.getAlone (host : Host σ) (now : Time) (deadline : Deadline) (key : String) (state : σ) :
    σ × Work (Supplier × Except Failure Bytes) :=
  let (group, found) := (host.group state).lookup key
  let state := host.putGroup group state
  match found, host.owner state key with
  | some value, _ => (state, .ready (.store, .ok value))
  | none, some peer => host.fetchAlone now deadline peer key state
  | none, none =>
    let (state, work) := host.loadAlone now deadline key state
    (state, work.map (.loader, ·))

variable (host deadline key state) in
/-- What comes of a get that has just asked the loader, for one who counts from an earlier time. -/
theorem Schedule.run_askLoader {start : Time} (stage : GetStage) (earlier : start ≤ now) :
    let asked := Get.askLoader host now ⟨key, deadline, stage⟩ state
    let (finish, flights, last) := run host now [.get asked.2] asked.1
    (last, flights.head?.elim .never (getResult start finish)) =
      ((host.loadAlone now deadline key state).1, (host.loadAlone now deadline key state).2.later (now - start)) := by
  rcases asked : host.load now deadline key state with ⟨next, work⟩
  simp only [Get.askLoader, Host.loadAlone, asked, run_loading]
  cases deadline.bound now work with
  | never => rfl
  | after delay answer => simp [getResult, Work.later, Nat.sub_add_comm earlier]

/-- What comes of a get that has just asked a peer. -/
theorem Schedule.run_askPeer (peer : Peer) (stage : GetStage) :
    let asked := Get.askPeer host now peer ⟨key, deadline, stage⟩ state
    let (finish, flights, last) := run host now [.get asked.2] asked.1
    (last, flights.head?.elim .never (getResult now finish)) =
      ((host.fetchAlone now deadline peer key state).1, (host.fetchAlone now deadline peer key state).2.map Prod.snd) := by
  rcases asked : host.fetch peer now deadline (host.group state).name key state with ⟨next, ⟨delay, answer⟩ | _⟩
  · simp only [Get.askPeer, Host.fetchAlone, asked, Work.due]
    rw [run_alone_of_wakes rfl (Nat.le_add_right now delay)]
    simp only [Flight.advance, Get.advance, Get.takePeer]
    rcases answered : (host.group next).peerAnswered answer with ⟨after, result | _⟩
    · rw [run_alone_of_stays rfl]
      simp [getResult, Work.map]
    · have loads := run_askLoader host deadline key (host.putGroup after next) (.asking (some (now + delay, answer))) (Nat.le_add_right now delay)
      simp only at loads ⊢
      rw [loads, Nat.add_sub_cancel_left, Work.map_snd_later]
  · simp only [Get.askPeer, Host.fetchAlone, asked, Work.due]
    rw [run_alone_of_stays rfl]
    rfl

/-- A get that nothing overlaps with, in one expression. -/
theorem Host.get_eq_getAlone : host.get now deadline key state =
    ((host.getAlone now deadline key state).1, (host.getAlone now deadline key state).2.map Prod.snd) := by
  have begins : (Flight.startGet now deadline key).wake = some now := rfl
  rw [Host.get, Schedule.run_alone_of_wakes begins (Nat.le_refl now), Host.getAlone]
  simp only [Flight.startGet, Flight.advance, Get.advance, Get.begin]
  rcases (host.group state).lookup key with ⟨group, _ | value⟩
  case some =>
    rw [Schedule.run_alone_of_stays rfl]
    simp [Schedule.getResult, Work.ready, Work.map]
  case none =>
    cases host.owner (host.putGroup group state) key with
    | some peer => exact Schedule.run_askPeer peer (.fresh now)
    | none =>
      have loads := Schedule.run_askLoader host deadline key (host.putGroup group state) (.fresh now) (Nat.le_refl now)
      simp only at loads ⊢
      rw [loads]
      cases (host.loadAlone now deadline key (host.putGroup group state)).2 <;> simp [Work.later, Work.map]

/-- A get of a key that is not stored and that nobody else owns. -/
theorem Host.get_of_here (missing : (host.group state).store.find? key = none)
    (here : host.owner (host.putGroup ((host.group state).count .gets) state) key = none) :
    host.get now deadline key state =
      host.loadAlone now deadline key (host.putGroup ((host.group state).count .gets) state) := by
  rw [Host.get_eq_getAlone]
  simp only [getAlone, Group.lookup, Group.count] at missing here ⊢
  simp only [missing, here]
  rcases host.loadAlone now deadline key _ with ⟨next, ⟨delay, result⟩ | _⟩ <;> rfl

/-- A get of a key that is not stored and that a peer owns. -/
theorem Host.get_of_asked {peer : Peer} (missing : (host.group state).store.find? key = none)
    (asks : host.owner (host.putGroup ((host.group state).count .gets) state) key = some peer) :
    host.get now deadline key state =
      let (next, work) := host.fetchAlone now deadline peer key (host.putGroup ((host.group state).count .gets) state)
      (next, work.map Prod.snd) := by
  rw [Host.get_eq_getAlone]
  simp only [getAlone, Group.lookup, Group.count] at missing asks ⊢
  simp only [missing, asks]

/-! ## What becomes of the store -/

/-- What a group draws on leaves its store alone: nobody else gets from the group or
    removes from it meanwhile. -/
structure Host.KeepsStore (host : Host σ) : Prop where
  group_putGroup : ∀ group state, host.group (host.putGroup group state) = group
  fetch : ∀ peer now deadline name key state,
    (host.group (host.fetch peer now deadline name key state).1).store = (host.group state).store
  forget : ∀ peer now deadline name key state,
    (host.group (host.forget peer now deadline name key state).1).store = (host.group state).store
  load : ∀ now deadline key state,
    (host.group (host.load now deadline key state).1).store = (host.group state).store

theorem Scene.keepsStore : Scene.host.KeepsStore where
  group_putGroup _ _ := rfl
  fetch peer now deadline name key scene := by
    simp only [host]
    split <;> rfl
  forget peer now deadline name key scene := by
    simp only [host]
    split <;> rfl
  load _ _ _ _ := rfl

/-- The failures that a get comes back with. -/
def Failure.OfGet (failure : Failure) : Prop :=
  failure = .timeout ∨ ∃ key reason, failure = .load key reason

/-- What a get that came back has made of the store: its supplier, its result, and the store
    before and after. -/
inductive Supplier.Settles (key : String) (store : Store) : Supplier → Except Failure Bytes → Store → Prop where
  | found {value : Bytes} (stored : store.find? key = some value) : Settles key store .store (.ok value) store
  | fetched {value : Bytes} (missing : store.find? key = none) : Settles key store .peer (.ok value) store
  | fetchTimedOut (missing : store.find? key = none) : Settles key store .peer (.error .timeout) store
  | loaded {value : Bytes} (missing : store.find? key = none) :
      Settles key store .loader (.ok value) (store.insert key value)
  | loadFailed {failure : Failure} (missing : store.find? key = none) (ofGet : failure.OfGet) :
      Settles key store .loader (.error failure) store

theorem Group.store_lookup (group : Group) (key : String) : (group.lookup key).1.store = group.store := by
  rw [lookup]
  split <;> rfl

theorem Group.find?_eq_lookup (group : Group) (key : String) : group.store.find? key = (group.lookup key).2 := by
  rw [lookup]
  dsimp only [count]
  cases same : group.store.find? key <;> rfl

theorem Group.store_peerAnswered (group : Group) (answer : Except Failure Bytes) :
    (group.peerAnswered answer).1.store = group.store := by
  cases answer with
  | ok value => rfl
  | error failure => cases failure <;> rfl

/-- A peer settles a get with a value or with a timeout. -/
theorem Group.settled_of_peerAnswered {group : Group} {answer result : Except Failure Bytes}
    (verdict : (group.peerAnswered answer).2 = .settled result) :
    (∃ value, result = .ok value) ∨ result = .error .timeout := by
  cases answer with
  | ok value =>
    cases verdict
    exact .inl ⟨value, rfl⟩
  | error failure => cases failure <;> cases verdict; exact .inr rfl

namespace Host.KeepsStore

variable {delay : Time} {supplier : Supplier} {result : Except Failure Bytes}

theorem settles_loadAlone (keeps : host.KeepsStore) (missing : (host.group state).store.find? key = none)
    (ended : (host.loadAlone now deadline key state).2 = .after delay result) :
    Supplier.Settles key (host.group state).store .loader result
      (host.group (host.loadAlone now deadline key state).1).store := by
  have same := keeps.load now deadline key state
  rcases asked : host.load now deadline key state with ⟨next, work⟩
  rw [asked] at same
  simp only [loadAlone, asked] at ended ⊢
  cases answered : deadline.bound now work with
  | never =>
    rw [answered] at ended
    cases ended
  | after due answer =>
    rw [answered] at ended
    cases ended
    simp only [keeps.group_putGroup]
    cases answer with
    | ok value =>
      simp only [Group.loaded, Group.count, same]
      exact .loaded missing
    | error failure =>
      cases failure
      all_goals
        simp only [Group.loaded, Group.count, same]
        first
        | exact .loadFailed missing (.inl rfl)
        | exact .loadFailed missing (.inr ⟨_, _, rfl⟩)

theorem settles_fetchAlone (keeps : host.KeepsStore) {peer : Peer}
    (missing : (host.group state).store.find? key = none)
    (ended : (host.fetchAlone now deadline peer key state).2 = .after delay (supplier, result)) :
    supplier.Settles key (host.group state).store result
      (host.group (host.fetchAlone now deadline peer key state).1).store := by
  have same := keeps.fetch peer now deadline (host.group state).name key state
  rcases asked : host.fetch peer now deadline (host.group state).name key state with ⟨next, ⟨due, answer⟩ | _⟩
  case after =>
    rw [asked] at same
    simp only [fetchAlone, asked] at ended ⊢
    have still : (host.group (host.putGroup ((host.group next).peerAnswered answer).1 next)).store =
        (host.group state).store := by
      rw [keeps.group_putGroup, Group.store_peerAnswered, same]
    rcases answered : (host.group next).peerAnswered answer with ⟨after, told | _⟩
    · simp only [answered] at ended still ⊢
      cases ended
      rw [still]
      rcases Group.settled_of_peerAnswered (congrArg Prod.snd answered) with ⟨value, rfl⟩ | rfl
      · exact .fetched missing
      · exact .fetchTimedOut missing
    · simp only [answered] at ended still ⊢
      rw [← still] at missing ⊢
      cases loads : (host.loadAlone (now + due) deadline key (host.putGroup after next)).2 with
      | never =>
        rw [loads] at ended
        cases ended
      | after more told =>
        rw [loads] at ended
        cases ended
        exact keeps.settles_loadAlone missing loads
  case never =>
    simp only [fetchAlone, asked] at ended
    cases ended

/-- A get that comes back has made of the store what its supplier and its result say. -/
theorem settles_getAlone (keeps : host.KeepsStore)
    (ended : (host.getAlone now deadline key state).2 = .after delay (supplier, result)) :
    supplier.Settles key (host.group state).store result
      (host.group (host.getAlone now deadline key state).1).store := by
  have still : (host.group (host.putGroup ((host.group state).lookup key).1 state)).store =
      (host.group state).store := by
    rw [keeps.group_putGroup, Group.store_lookup]
  have looked := Group.find?_eq_lookup (host.group state) key
  rw [getAlone] at ended ⊢
  rcases found : (host.group state).lookup key with ⟨group, _ | value⟩
  · rw [found] at still looked
    rw [← still] at looked
    simp only [found] at ended ⊢
    cases owned : host.owner (host.putGroup group state) key with
    | some peer =>
      simp only [owned] at ended ⊢
      rw [← still]
      exact keeps.settles_fetchAlone looked ended
    | none =>
      simp only [owned] at ended ⊢
      rw [← still]
      cases loads : (host.loadAlone now deadline key (host.putGroup group state)).2 with
      | never =>
        rw [loads] at ended
        cases ended
      | after due told =>
        rw [loads] at ended
        cases ended
        exact keeps.settles_loadAlone looked loads
  · rw [found] at still looked
    simp only [found] at ended ⊢
    cases ended
    rw [still]
    exact .found looked

/-- A removal leaves the store alone while it visits peers. -/
theorem store_run_visit (keeps : host.KeepsStore) (peers : List Peer) (removal : Removal) (now : Time) (state : σ) :
    let visited := removal.visit host now peers state
    (host.group (Schedule.run host now [.removal visited.2] visited.1).2.2).store = (host.group state).store := by
  induction peers generalizing removal now state with
  | nil =>
    simp only [Removal.visit]
    rw [Schedule.run_alone_of_stays rfl]
  | cons peer rest ih =>
    have same := keeps.forget peer now removal.deadline (host.group state).name removal.key state
    rcases asked : host.forget peer now removal.deadline (host.group state).name removal.key state with
      ⟨next, ⟨delay, answer⟩ | _⟩
    · rw [asked] at same
      simp only [Removal.visit, asked, Work.due]
      rw [Schedule.run_alone_of_wakes rfl (Nat.le_add_right now delay), ← same]
      exact ih _ (now + delay) next
    · rw [asked] at same
      simp only [Removal.visit, asked, Work.due]
      rw [Schedule.run_alone_of_stays rfl]
      exact same

/-- A removal drops its key, whatever the peers answer, and leaves the rest. -/
theorem store_remove (keeps : host.KeepsStore) (now : Time) (deadline : Deadline) (key : String) (state : σ) :
    (host.group (host.remove now deadline key state).1).store = (host.group state).store.invalidate key := by
  have begins : (Flight.startRemoval now deadline key).wake = some now := rfl
  rw [Host.remove, Schedule.run_alone_of_wakes begins (Nat.le_refl now)]
  simp only [Flight.startRemoval, Flight.advance, Removal.advance]
  rw [keeps.store_run_visit, keeps.group_putGroup]
  rfl

end Host.KeepsStore

end RingCache
