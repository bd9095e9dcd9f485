import Mathlib.Logic.Function.Basic
import RingCache.Proofs.Batches

/-!
# Loads that overlap with removals

Gets and removals of a key that overlap, with a log of what they do to the store:
a get begins to load, takes the answer of its load, or finds the key stored, and a
removal drops the key. Nothing tells a load that the key was removed meanwhile, so
the value of a load that is in flight at a removal is stored after it and found by
the gets that come then (`Bustle.removed_value_found`). But nothing older comes
back: what a get finds was stored after the last removal, by a load that began
after it or was in flight at it (`Bustle.found_was_stored_since`).
-/
namespace RingCache

variable {σ : Type} {host : Host σ} {now : Time} {state : σ} {key : String}

/-! ## One step of a get or of a removal -/

/-- What a step makes of where a get stands and of the store. -/
inductive Get.Turn (key : String) (store : Store) : GetStage → GetStage → Store → Prop where
  | found {start : Time} {value : Bytes} (stored : store.find? key = some value) :
      Turn key store (.fresh start) (.finished (.ok value)) store
  | asksPeer {start : Time} (answer : Due (Except Failure Bytes)) : Turn key store (.fresh start) (.asking answer) store
  | loads {start : Time} (answer : Due (Except Failure Bytes)) : Turn key store (.fresh start) (.loading answer) store
  | fallsBack {asked : Due (Except Failure Bytes)} (answer : Due (Except Failure Bytes)) :
      Turn key store (.asking asked) (.loading answer) store
  | settled {asked : Due (Except Failure Bytes)} (result : Except Failure Bytes) :
      Turn key store (.asking asked) (.finished result) store
  | stores (time : Time) (value : Bytes) :
      Turn key store (.loading (some (time, .ok value))) (.finished (.ok value)) (store.insert key value)
  | fails (time : Time) (failure : Failure) (result : Except Failure Bytes) :
      Turn key store (.loading (some (time, .error failure))) (.finished result) store
  | waits : Turn key store (.asking none) (.asking none) store
  | waitsLonger : Turn key store (.loading none) (.loading none) store
  | stays (result : Except Failure Bytes) : Turn key store (.finished result) (.finished result) store

/-- A value that is found after an insertion is the one inserted, or was there before. -/
theorem Store.eq_or_find?_of_insert {store : Store} {other : String} {value found : Bytes}
    (stored : (store.insert key value).find? other = some found) :
    other = key ∧ found = value ∨ other ≠ key ∧ store.find? other = some found := by
  simp only [insert, find?] at stored ⊢
  split at stored
  · rw [Table.find?_insert] at stored
    split at stored
    next same => exact .inl ⟨same, (Option.some.inj stored).symm⟩
    next apart => exact .inr ⟨apart, stored⟩
  · split at stored
    · cases stored
    next unknown =>
      refine .inr ⟨fun same => unknown ?_, stored⟩
      subst same
      exact Table.contains_iff_exists.mpr ⟨found, stored⟩

/-- A step of a get of another key gives a key no value. -/
theorem Get.Turn.find?_of_ne {store later : Store} {other : String} {stage next : GetStage} {value : Bytes}
    (turn : Turn other store stage next later) (apart : key ≠ other) (stored : later.find? key = some value) :
    store.find? key = some value := by
  cases turn with
  | stores time added =>
    rcases Store.eq_or_find?_of_insert stored with ⟨same, -⟩ | ⟨-, before⟩
    · exact absurd same apart
    · exact before
  | _ => exact stored

theorem Store.find?_invalidate (store : Store) (key other : String) :
    (store.invalidate key).find? other = if other = key then none else store.find? other :=
  Table.find?_erase _ _ _

theorem Group.store_loaded_ok (group : Group) (key : String) (value : Bytes) :
    (group.loaded key (.ok value)).1.store = group.store.insert key value := rfl

namespace Host.KeepsStore

theorem store_askLoader (keeps : host.KeepsStore) (get : Get) :
    (host.group (get.askLoader host now state).1).store = (host.group state).store := by
  simp only [Get.askLoader]
  exact keeps.load now get.deadline get.key state

theorem store_askPeer (keeps : host.KeepsStore) (peer : Peer) (get : Get) :
    (host.group (get.askPeer host now peer state).1).store = (host.group state).store := by
  simp only [Get.askPeer]
  exact keeps.fetch peer now get.deadline (host.group state).name get.key state

theorem turn_begin (keeps : host.KeepsStore) (get : Get) (start : Time) :
    Get.Turn get.key (host.group state).store (.fresh start) (get.begin host now state).2.stage
      (host.group (get.begin host now state).1).store := by
  have same : (host.group (host.putGroup ((host.group state).lookup get.key).1 state)).store =
      (host.group state).store := by
    rw [keeps.group_putGroup, Group.store_lookup]
  simp only [Get.begin]
  split
  next value found =>
    rw [same]
    exact .found ((Group.find?_eq_lookup _ _).trans found)
  next missing =>
    split
    next peer owned =>
      rw [keeps.store_askPeer, same]
      exact .asksPeer _
    next =>
      rw [keeps.store_askLoader, same]
      exact .loads _

theorem turn_takePeer (keeps : host.KeepsStore) (get : Get) (asked : Due (Except Failure Bytes))
    (answer : Except Failure Bytes) :
    Get.Turn get.key (host.group state).store (.asking asked) (get.takePeer host now answer state).2.stage
      (host.group (get.takePeer host now answer state).1).store := by
  have same : (host.group (host.putGroup ((host.group state).peerAnswered answer).1 state)).store =
      (host.group state).store := by
    rw [keeps.group_putGroup, Group.store_peerAnswered]
  simp only [Get.takePeer]
  split
  · rw [same]
    exact .settled _
  · rw [keeps.store_askLoader, same]
    exact .fallsBack _

variable (now state) in
/-- Each step of a get is one of the turns. -/
theorem turn_advance (keeps : host.KeepsStore) (get : Get) :
    Get.Turn get.key (host.group state).store get.stage (get.advance host now state).2.stage
      (host.group (get.advance host now state).1).store := by
  obtain ⟨key, deadline, stage⟩ := get
  cases stage with
  | fresh start => exact keeps.turn_begin _ start
  | asking answer =>
    cases answer with
    | none => exact .waits
    | some answer => exact keeps.turn_takePeer _ _ answer.2
  | loading answer =>
    match answer with
    | none => exact .waitsLonger
    | some (time, .ok value) =>
      simp only [Get.advance, Get.takeLoader, keeps.group_putGroup, Group.store_loaded_ok]
      exact .stores time value
    | some (time, .error failure) =>
      simp only [Get.advance, Get.takeLoader, keeps.group_putGroup, Group.store_loaded_error]
      exact .fails time failure _
  | finished result => exact .stays result

theorem store_visit (keeps : host.KeepsStore) (peers : List Peer) (removal : Removal) :
    (host.group (removal.visit host now peers state).1).store = (host.group state).store := by
  cases peers with
  | nil => rfl
  | cons peer rest =>
    simp only [Removal.visit]
    exact keeps.forget peer now removal.deadline (host.group state).name removal.key state

variable (now state) in
/-- A removal drops its key with its first step, and does nothing to the store later. -/
theorem store_advance_removal (keeps : host.KeepsStore) (removal : Removal) :
    (host.group (removal.advance host now state).1).store =
      match removal.stage with
      | .fresh _ => (host.group state).store.invalidate removal.key
      | _ => (host.group state).store := by
  obtain ⟨key, deadline, firstFailure, stage⟩ := removal
  cases stage with
  | fresh start =>
    simp only [Removal.advance]
    rw [keeps.store_visit, keeps.group_putGroup]
    rfl
  | visiting rest answer =>
    cases answer with
    | none => rfl
    | some answer => exact keeps.store_visit rest _
  | finished result => rfl

end Host.KeepsStore

/-! ## Overlapping flights and their log -/

/-- Numbered flights of a group, and the state that they share. -/
structure Bustle (σ : Type) where
  flights : Nat → Flight
  state : σ

namespace Bustle

/-- What happens to a key of the store: the load of a get begins, it ends with an
    answer, the key is dropped, or a get finds its value. -/
inductive Event where
  | asks (number : Nat)
  | takes (number : Nat) (answer : Except Failure Bytes)
  | removes
  | finds (number : Nat) (value : Bytes)

/-- The get whose load an event is about. -/
def Event.number? : Event → Option Nat
  | .asks number => some number
  | .takes number _ => some number
  | .removes => none
  | .finds _ _ => none

/-- What a step of a get amounts to. -/
def notedGet (number : Nat) : GetStage → GetStage → Option Event
  | .fresh _, .finished (.ok value) => some (.finds number value)
  | .fresh _, .loading _ => some (.asks number)
  | .asking _, .loading _ => some (.asks number)
  | .loading (some (_, answer)), _ => some (.takes number answer)
  | _, _ => none

/-- What a step of a flight amounts to for a key. -/
def noted (key : String) (number : Nat) : Flight → Flight → Option Event
  | .get before, .get after => if before.key = key then notedGet number before.stage after.stage else none
  | .removal removal, _ =>
    match removal.stage with
    | .fresh _ => if removal.key = key then some .removes else none
    | _ => none
  | .get _, .removal _ => none

/-- The flight of a number takes a step. -/
def moved (host : Host σ) (number : Nat) (now : Time) (b : Bustle σ) : Bustle σ :=
  let step := (b.flights number).advance host now b.state
  ⟨Function.update b.flights number step.2, step.1⟩

/-- A flight takes a step when it goes on; the key is dropped by somebody here or at
    the request of a peer; or something happens elsewhere that gives the key no value. -/
inductive Step (host : Host σ) (key : String) (b : Bustle σ) : Option Event → Bustle σ → Prop where
  | moves (number : Nat) {due now : Time} (wakes : (b.flights number).wake = some due) (comes : due ≤ now) :
      Step host key b (noted key number (b.flights number) ((b.moved host number now).flights number))
        (b.moved host number now)
  | drops : Step host key b (some .removes)
      { b with state := host.putGroup ((host.group b.state).localRemove key) b.state }
  | dropsForPeer : Step host key b (some .removes)
      { b with state := host.putGroup (((host.group b.state).count .serverRequests).localRemove key) b.state }
  | elsewhere {next : σ} (gives : ∀ value, (host.group next).store.find? key = some value →
        (host.group b.state).store.find? key = some value) :
      Step host key b none { b with state := next }

/-- Steps, with what they amounted to. -/
inductive Run (host : Host σ) (key : String) (start : Bustle σ) : List Event → Bustle σ → Prop where
  | start : Run host key start [] start
  | step {log : List Event} {b next : Bustle σ} {event : Option Event} (run : Run host key start log b)
      (step : Step host key b event next) : Run host key start (log ++ event.toList) next

/-- The load of a get has begun and not ended. -/
def InFlight (log : List Event) (number : Nat) : Prop :=
  .asks number ∈ log ∧ ∀ answer, .takes number answer ∉ log

/-- The value was stored by the last load that ended well, and the key was not dropped
    since; or the key was never dropped, and it may be the value that it had at first. -/
def Current (log : List Event) (value : Bytes) : Prop :=
  .removes ∉ log ∨
    ∃ before number after, log = before ++ .takes number (.ok value) :: after ∧
      .removes ∉ after ∧ ∀ other newer, .takes other (.ok newer) ∉ after

/-- What has to go before an event. -/
def Justified (log : List Event) : Event → Prop
  | .asks number => .asks number ∉ log
  | .takes number _ => InFlight log number
  | .removes => True
  | .finds _ value => Current log value

/-- What the log has of a get of the key that stands somewhere. -/
def Stands (log : List Event) (number : Nat) : GetStage → Prop
  | .fresh _ => .asks number ∉ log
  | .asking _ => .asks number ∉ log
  | .loading _ => InFlight log number
  | .finished _ => True

/-- The log accounts for where the gets stand, for the value that is stored, and for
    each of its own events. -/
structure Sound (host : Host σ) (key : String) (log : List Event) (b : Bustle σ) : Prop where
  stands : ∀ number get, b.flights number = .get get → get.key = key → Stands log number get.stage
  held : ∀ value, (host.group b.state).store.find? key = some value → Current log value
  justified : ∀ earlier event later, log = earlier ++ event :: later → Justified earlier event

variable {log : List Event} {b after : Bustle σ} {event : Event}

theorem Current.append {value : Bytes} (current : Current log value) (keeps : event ≠ .removes)
    (idle : ∀ other newer, event ≠ .takes other (.ok newer)) : Current (log ++ [event]) value := by
  rcases current with never | ⟨before, number, after, rfl, kept, last⟩
  · exact .inl (by simp [never, keeps.symm])
  · refine .inr ⟨before, number, after ++ [event], by simp, by simp [kept, keeps.symm], fun other newer among => ?_⟩
    rcases List.mem_append.mp among with among | among
    · exact last other newer among
    · exact idle other newer (List.mem_singleton.mp among).symm

/-- What happens to the loads of others does not change what the log has of a get. -/
theorem Stands.append {number : Nat} {stage : GetStage} (stands : Stands log number stage)
    (other : event.number? ≠ some number) : Stands (log ++ [event]) number stage := by
  have asked : event ≠ .asks number := fun same => other (by rw [same]; rfl)
  have answered (answer : Except Failure Bytes) : event ≠ .takes number answer := fun same => other (by rw [same]; rfl)
  cases stage with
  | fresh | asking => simpa [Stands, asked.symm] using stands
  | loading => exact ⟨by simp [stands.1], fun answer => by simp [stands.2 answer, (answered answer).symm]⟩
  | finished => trivial

theorem justified_concat (justified : ∀ earlier event later, log = earlier ++ event :: later → Justified earlier event)
    (last : Justified log event) {earlier later : List Event} {among : Event}
    (split : log ++ [event] = earlier ++ among :: later) : Justified earlier among := by
  rcases List.eq_nil_or_concat later with rfl | ⟨later, newest, rfl⟩
  · obtain ⟨rfl, same⟩ := List.append_inj' split rfl
    cases same
    exact last
  · rw [List.concat_eq_append, ← List.cons_append, ← List.append_assoc] at split
    obtain ⟨same, -⟩ := List.append_inj' split rfl
    exact justified earlier among later same

namespace Sound

/-- Only a load that has begun ends. -/
theorem asked_of_taken (sound : Sound host key log b) {number : Nat} {answer : Except Failure Bytes}
    (taken : .takes number answer ∈ log) : .asks number ∈ log := by
  obtain ⟨earlier, later, split⟩ := List.append_of_mem taken
  rw [split]
  exact List.mem_append_left _ (sound.justified _ _ _ split).1

/-- A load begins. -/
theorem inFlight_asks (sound : Sound host key log b) {number : Nat} (fresh : .asks number ∉ log) :
    InFlight (log ++ [.asks number]) number := by
  refine ⟨by simp, fun answer taken => fresh ?_⟩
  rcases List.mem_append.mp taken with taken | taken
  · exact sound.asked_of_taken taken
  · cases List.mem_singleton.mp taken

/-- What happened is accounted for, and so is what comes of it. -/
theorem extend (sound : Sound host key log b) {event : Option Event} (justified : ∀ among ∈ event, Justified log among)
    (stands : ∀ number get, after.flights number = .get get → get.key = key →
      Stands (log ++ event.toList) number get.stage)
    (held : ∀ value, (host.group after.state).store.find? key = some value → Current (log ++ event.toList) value) :
    Sound host key (log ++ event.toList) after where
  stands := stands
  held := held
  justified earlier among later split := by
    cases event with
    | none => exact sound.justified earlier among later (by simpa using split)
    | some event => exact justified_concat sound.justified (justified event rfl) split

/-- One flight moved, and what there is to say about the others is as before. -/
theorem extend_update (sound : Sound host key log b) {number : Nat} {moved : Flight} {event : Option Event}
    (flights : after.flights = Function.update b.flights number moved)
    (justified : ∀ among ∈ event, Justified log among)
    (alone : ∀ among ∈ event, ∀ other, among.number? = some other → other = number)
    (stands : ∀ get, moved = .get get → get.key = key → Stands (log ++ event.toList) number get.stage)
    (held : ∀ value, (host.group after.state).store.find? key = some value → Current (log ++ event.toList) value) :
    Sound host key (log ++ event.toList) after := by
  refine sound.extend justified (fun other get isGet itsKey => ?_) held
  rw [flights, Function.update_apply] at isGet
  split at isGet
  next isSelf =>
    rw [isSelf]
    exact stands get isGet itsKey
  next apart =>
    have before := sound.stands other get isGet itsKey
    cases event with
    | none => simpa using before
    | some event => exact before.append (fun about => apart (alone event rfl other about))

/-- A get of the key takes a step. -/
theorem turn (sound : Sound host key log b) {number : Nat} {get moved : Get} (isGet : b.flights number = .get get)
    (about : get.key = key) (flights : after.flights = Function.update b.flights number (.get moved))
    (turn : Get.Turn key (host.group b.state).store get.stage moved.stage (host.group after.state).store) :
    Sound host key (log ++ (notedGet number get.stage moved.stage).toList) after := by
  have stood := sound.stands number get isGet about
  have held := sound.held
  have update {event : Option Event} (justified : ∀ among ∈ event, Justified log among)
      (alone : ∀ among ∈ event, ∀ other, among.number? = some other → other = number)
      (stands : Stands (log ++ event.toList) number moved.stage)
      (held : ∀ value, (host.group after.state).store.find? key = some value → Current (log ++ event.toList) value) :
      Sound host key (log ++ event.toList) after :=
    sound.extend_update flights justified alone (fun get same _ => by cases same; exact stands) held
  generalize (host.group b.state).store = store at turn held
  generalize (host.group after.state).store = stored at turn update
  generalize get.stage = stage at turn stood
  generalize moved.stage = next at turn update
  -- A load that begins, in a get that has not asked before.
  have asks (fresh : .asks number ∉ log) (same : stored = store) (loads : ∃ answer, next = .loading answer) :
      Sound host key (log ++ [.asks number]) after := by
    obtain ⟨answer, rfl⟩ := loads
    refine @update (some (.asks number)) ?_ ?_ (sound.inFlight_asks fresh) (fun value found => ?_)
    · rintro _ ⟨⟩
      exact fresh
    · rintro _ ⟨⟩ other ⟨⟩
      rfl
    · exact (held value (same ▸ found)).append nofun nofun
  cases turn with
  | @found start value known =>
    refine @update (some (.finds number value)) ?_ ?_ trivial (fun value found => ?_)
    · rintro _ ⟨⟩
      exact held value known
    · rintro _ ⟨⟩ other ⟨⟩
    · exact (held value found).append nofun nofun
  | asksPeer => exact @update none nofun nofun (by simpa [Stands] using stood) (by simpa using held)
  | loads answer => exact asks stood rfl ⟨answer, rfl⟩
  | fallsBack answer => exact asks stood rfl ⟨answer, rfl⟩
  | settled result => exact @update none nofun nofun trivial (by simpa using held)
  | stores time value =>
    refine @update (some (.takes number (.ok value))) ?_ ?_ trivial (fun newer found => ?_)
    · rintro _ ⟨⟩
      exact stood
    · rintro _ ⟨⟩ other ⟨⟩
      rfl
    · rcases Store.eq_or_find?_of_insert found with ⟨-, rfl⟩ | ⟨apart, -⟩
      · exact .inr ⟨log, number, [], rfl, by simp, by simp⟩
      · exact absurd rfl apart
  | fails time failure result =>
    refine @update (some (.takes number (.error failure))) ?_ ?_ trivial (fun value found => ?_)
    · rintro _ ⟨⟩
      exact stood
    · rintro _ ⟨⟩ other ⟨⟩
      rfl
    · exact (held value found).append nofun nofun
  | waits => exact @update none nofun nofun (by simpa using stood) (by simpa using held)
  | waitsLonger => exact @update none nofun nofun (by simpa using stood) (by simpa using held)
  | stays result => exact @update none nofun nofun trivial (by simpa using held)

/-- The key is dropped. -/
theorem removes (sound : Sound host key log b)
    (stands : ∀ number get, after.flights number = .get get → b.flights number = .get get)
    (dropped : (host.group after.state).store.find? key = none) : Sound host key (log ++ [.removes]) after := by
  refine @extend _ _ _ _ _ _ sound (some .removes) ?_ (fun number get isGet about => ?_) (fun value found => ?_)
  · rintro _ ⟨⟩
    trivial
  · exact (sound.stands number get (stands number get isGet) about).append nofun
  · rw [dropped] at found
    cases found

/-- Nothing happens to the key. -/
theorem quiet (sound : Sound host key log b)
    (stands : ∀ number get, after.flights number = .get get → get.key = key → b.flights number = .get get)
    (gives : ∀ value, (host.group after.state).store.find? key = some value →
      (host.group b.state).store.find? key = some value) : Sound host key log after where
  stands number get isGet about := sound.stands number get (stands number get isGet about) about
  held value found := sound.held value (gives value found)
  justified := sound.justified

/-- A flight takes a step. -/
theorem moved (sound : Sound host key log b) (keeps : host.KeepsStore) (number : Nat) (now : Time) :
    Sound host key
      (log ++ (noted key number (b.flights number) ((b.moved host number now).flights number)).toList)
      (b.moved host number now) := by
  have flights : (b.moved host number now).flights =
      Function.update b.flights number ((b.flights number).advance host now b.state).2 := rfl
  have self := congrFun flights number
  rw [Function.update_self] at self
  rw [self]
  have state : (b.moved host number now).state = ((b.flights number).advance host now b.state).1 := rfl
  cases isFlight : b.flights number with
  | get get =>
    rw [isFlight] at flights state
    have turn := keeps.turn_advance now b.state get
    rw [show (get.advance host now b.state).1 = (b.moved host number now).state from state.symm] at turn
    by_cases about : get.key = key
    · simp only [Flight.advance, noted, about, if_true]
      exact sound.turn isFlight about flights (about ▸ turn)
    · simp only [noted, Flight.advance, about, if_false, Option.toList_none, List.append_nil]
      refine sound.quiet (fun other found isFound itsKey => ?_) (fun value stored => turn.find?_of_ne (Ne.symm about) stored)
      rw [flights, Function.update_apply] at isFound
      split at isFound
      · cases isFound
        exact absurd ((Get.key_advance host now get b.state).symm.trans itsKey) about
      · exact isFound
  | removal removal =>
    rw [isFlight] at flights state
    have store := keeps.store_advance_removal now b.state removal
    rw [show (removal.advance host now b.state).1 = (b.moved host number now).state from state.symm] at store
    have others (other : Nat) (found : Get) (isFound : (b.moved host number now).flights other = .get found) :
        b.flights other = .get found := by
      rw [flights, Function.update_apply] at isFound
      split at isFound
      · cases isFound
      · exact isFound
    simp only [noted]
    split
    next start stage =>
      rw [stage] at store
      split
      next about =>
        exact sound.removes others (by rw [store, Store.find?_invalidate, if_pos about.symm])
      next apart =>
        rw [Option.toList_none, List.append_nil]
        refine sound.quiet (fun other found isFound _ => others other found isFound) (fun value stored => ?_)
        rwa [store, Store.find?_invalidate, if_neg (Ne.symm apart)] at stored
    next begun =>
      rw [Option.toList_none, List.append_nil]
      refine sound.quiet (fun other found isFound _ => others other found isFound) (fun value stored => ?_)
      rw [store] at stored
      split at stored
      next start stage => exact absurd stage (begun start)
      next => exact stored

/-- Each step keeps what the log accounts for. -/
theorem step (sound : Sound host key log b) (keeps : host.KeepsStore) {event : Option Event}
    (step : Step host key b event after) : Sound host key (log ++ event.toList) after := by
  cases step with
  | moves number => exact sound.moved keeps number _
  | drops =>
    refine sound.removes (fun _ _ => id) ?_
    rw [keeps.group_putGroup]
    exact (Store.find?_invalidate _ key key).trans (if_pos rfl)
  | dropsForPeer =>
    refine sound.removes (fun _ _ => id) ?_
    rw [keeps.group_putGroup]
    exact (Store.find?_invalidate _ key key).trans (if_pos rfl)
  | elsewhere gives =>
    rw [Option.toList_none, List.append_nil]
    exact sound.quiet (fun _ _ isGet _ => isGet) gives

end Sound

/-- What holds of flights that have not begun holds of every run of theirs. -/
theorem Run.sound {start : Bustle σ} (run : Run host key start log b) (keeps : host.KeepsStore)
    (begins : ∀ number, (start.flights number).begins = 1) : Sound host key log b := by
  induction run with
  | start =>
    refine ⟨fun number get isGet about => ?_, fun value stored => .inl (by simp), fun earlier event later split => ?_⟩
    · have fresh := begins number
      obtain ⟨_, deadline, stage⟩ := get
      rw [isGet] at fresh
      cases stage with
      | fresh => simp [Stands]
      | _ => cases fresh
    · simp at split
  | step run step ih => exact ih.step keeps step

/-- What nothing was removed after comes after a removal. -/
theorem exists_since {before since first rest : List Event} (same : before ++ .removes :: since = first ++ event :: rest)
    (kept : .removes ∉ rest) (other : event ≠ .removes) :
    ∃ earlier, since = earlier ++ event :: rest ∧ first = before ++ .removes :: earlier := by
  rcases List.append_eq_append_iff.mp same with ⟨between, rfl, parts⟩ | ⟨between, rfl, parts⟩
  · cases between with
    | nil => exact absurd (List.cons.inj parts).1.symm other
    | cons mark earlier =>
      obtain ⟨rfl, rfl⟩ := List.cons.inj parts
      exact ⟨earlier, rfl, rfl⟩
  · cases between with
    | nil => exact absurd (List.cons.inj parts).1 other
    | cons mark others =>
      obtain ⟨-, rfl⟩ := List.cons.inj parts
      exact absurd (List.mem_append_right others (List.mem_cons_self ..)) kept

/-- For gets and removals of a key that overlap in any way, where removals may also come
    from other callers and from peers: a get that finds the key stored, after a removal
    of it, finds the value of the last load that ended well, which ended after the
    removal; that load began after the removal, or was in flight at it. So if no load was
    in flight at the removal, what is found was loaded after it. -/
theorem found_was_stored_since {start : Bustle σ} (keeps : host.KeepsStore)
    (begins : ∀ number, (start.flights number).begins = 1) (run : Run host key start log b)
    {before since later : List Event} {number : Nat} {value : Bytes}
    (split : log = before ++ .removes :: since ++ .finds number value :: later) :
    ∃ earlier loader rest, since = earlier ++ .takes loader (.ok value) :: rest ∧
      .removes ∉ rest ∧ (∀ other newer, .takes other (.ok newer) ∉ rest) ∧
      (.asks loader ∈ earlier ∨ InFlight before loader) := by
  have sound := run.sound keeps begins
  have current : Current (before ++ .removes :: since) value := sound.justified _ _ _ split
  rcases current with never | ⟨first, loader, rest, same, kept, last⟩
  · simp at never
  obtain ⟨earlier, rfl, rfl⟩ := exists_since same kept nofun
  have justified : Justified (before ++ .removes :: earlier) (.takes loader (.ok value)) :=
    sound.justified _ _ (rest ++ .finds number value :: later) (by rw [split]; simp)
  refine ⟨earlier, loader, rest, rfl, kept, last, ?_⟩
  rcases List.mem_append.mp justified.1 with asked | asked
  · exact .inr ⟨asked, fun answer taken => justified.2 answer (List.mem_append_left _ taken)⟩
  · exact .inl ((List.mem_cons.mp asked).resolve_left nofun)

/-- A load that is in flight when its key is dropped stores its value all the same, and
    the gets that begin then find it. -/
theorem removed_value_found (keeps : host.KeepsStore) {writer reader : Nat} (apart : reader ≠ writer)
    {due start : Time} {value : Bytes} {bound limit : Deadline}
    (loads : b.flights writer = .get ⟨key, bound, .loading (some (due, .ok value))⟩)
    (begins : b.flights reader = .get ⟨key, limit, .fresh start⟩)
    (fits : (host.group b.state).store.fits key value = true) :
    ∃ last, Run host key b [.removes, .takes writer (.ok value), .finds reader value] last := by
  let dropped : Bustle σ := { b with state := host.putGroup ((host.group b.state).localRemove key) b.state }
  let stored : Bustle σ := dropped.moved host writer due
  have drops : Run host key b [.removes] dropped := Run.start.step .drops
  have wakes : (dropped.flights writer).wake = some due := by rw [show dropped.flights writer = _ from loads]; rfl
  have moved : (dropped.flights writer).advance host due dropped.state =
      (host.putGroup ((host.group dropped.state).loaded key (.ok value)).1 dropped.state,
        .get ⟨key, bound, .finished (.ok value)⟩) := by
    rw [show dropped.flights writer = _ from loads]
    rfl
  have takes : Run host key b [.removes, .takes writer (.ok value)] stored := by
    have step := drops.step (.moves writer wakes (Nat.le_refl due))
    have now : stored.flights writer = .get ⟨key, bound, .finished (.ok value)⟩ := by
      simp only [stored, Bustle.moved, Function.update_self, moved]
    rwa [now, show dropped.flights writer = _ from loads, noted, if_pos rfl] at step
  have found : (host.group stored.state).store.find? key = some value := by
    have store : (host.group stored.state).store = ((host.group b.state).store.invalidate key).insert key value := by
      simp only [stored, Bustle.moved, moved, keeps.group_putGroup, Group.store_loaded_ok, dropped]
      rfl
    have room : ((host.group b.state).store.invalidate key).fits key value = true := fits
    rw [store, Store.find?_insert_of_fits room, if_pos rfl]
  have waits : stored.flights reader = .get ⟨key, limit, .fresh start⟩ := by
    simp only [stored, Bustle.moved, Function.update_of_ne apart]
    exact begins
  have step := takes.step (.moves reader (by rw [waits]; rfl) (Nat.le_refl start))
  have now : (stored.moved host reader start).flights reader = .get ⟨key, limit, .finished (.ok value)⟩ := by
    have looked := (Group.find?_eq_lookup _ _).symm.trans found
    simp only [Bustle.moved, Function.update_self, waits, Flight.advance, Get.advance, Get.begin, looked]
  rw [now, waits, noted, if_pos rfl] at step
  exact ⟨_, step⟩

/-! ## A value that outlives its removal -/

/-- A group whose loader takes long for an old value of a key and gives a new one at once. -/
def scene : Scene where
  group := .new "g" 100
  loader := .follow ⟨[⟨some 600000, .value [1]⟩, ⟨none, .value [2]⟩], .empty⟩
  peers := []
  route _ := none
  loads := []
  calls := []

/-- A get of the key begins every second. -/
def begun : Bustle Scene := ⟨fun number => .startGet (number * 1000000) .never "k", scene⟩

/-- The key is dropped. -/
def dropped (b : Bustle Scene) : Bustle Scene :=
  { b with state := Scene.host.putGroup ((Scene.host.group b.state).localRemove "k") b.state }

/-- The first get loads the old value, and the key is dropped meanwhile. -/
def overtaken : Bustle Scene := (begun.moved Scene.host 0 0).dropped

/-- The first get stores the old value, and the second one finds it. -/
def stale : Bustle Scene := (overtaken.moved Scene.host 0 600000).moved Scene.host 1 1000000

/-- The key is dropped again, the third get loads the new value, and the fourth one finds it. -/
def renewed : Bustle Scene :=
  ((stale.dropped.moved Scene.host 2 2000000).moved Scene.host 2 2000000).moved Scene.host 3 3000000

theorem run_stale :
    Run Scene.host "k" begun [.asks 0, .removes, .takes 0 (.ok [1]), .finds 1 [1]] stale := by
  have asks : Run Scene.host "k" begun [.asks 0] (begun.moved Scene.host 0 0) :=
    Run.start.step (.moves 0 rfl (Nat.le_refl 0))
  have drops : Run Scene.host "k" begun [.asks 0, .removes] overtaken := asks.step .drops
  have due : (overtaken.flights 0).wake = some 600000 := by decide +kernel
  have takes : Run Scene.host "k" begun [.asks 0, .removes, .takes 0 (.ok [1])] (overtaken.moved Scene.host 0 600000) :=
    drops.step (.moves 0 due (Nat.le_refl 600000))
  exact takes.step (.moves 1 rfl (Nat.le_refl 1000000))

theorem run_renewed :
    Run Scene.host "k" begun
      ([.asks 0, .removes, .takes 0 (.ok [1]), .finds 1 [1], .removes, .asks 2, .takes 2 (.ok [2])] ++ [.finds 3 [2]])
      renewed := by
  have drops : Run Scene.host "k" begun _ stale.dropped := run_stale.step .drops
  have asks : Run Scene.host "k" begun _ (stale.dropped.moved Scene.host 2 2000000) :=
    drops.step (.moves 2 rfl (Nat.le_refl 2000000))
  have due : ((stale.dropped.moved Scene.host 2 2000000).flights 2).wake = some 2000000 := by decide +kernel
  have takes : Run Scene.host "k" begun _ ((stale.dropped.moved Scene.host 2 2000000).moved Scene.host 2 2000000) :=
    asks.step (.moves 2 due (Nat.le_refl 2000000))
  exact takes.step (.moves 3 rfl (Nat.le_refl 3000000))

/-- The only load of this run begins before the removal, and the get that begins after the
    removal finds its value, although the loader would give the new one by then. -/
theorem found_of_load_before_removal :
    (∀ number, (begun.flights number).begins = 1) ∧
    Run Scene.host "k" begun [.asks 0, .removes, .takes 0 (.ok [1]), .finds 1 [1]] stale ∧
    (Scene.host.load 1000000 .never "k" stale.state).2 = .ready (.ok [2]) :=
  ⟨fun _ => rfl, run_stale, by rfl⟩

theorem found_was_stored_since_renewal :
    Scene.host.KeepsStore ∧ (∀ number, (begun.flights number).begins = 1) ∧
    ∃ earlier loader rest, [Event.asks 2, .takes 2 (.ok [2])] = earlier ++ .takes loader (.ok [2]) :: rest ∧
      .removes ∉ rest ∧ (∀ other newer, .takes other (.ok newer) ∉ rest) ∧
      (.asks loader ∈ earlier ∨ InFlight [.asks 0, .removes, .takes 0 (.ok [1]), .finds 1 [1]] loader) :=
  ⟨Scene.keepsStore, fun _ => rfl, found_was_stored_since Scene.keepsStore (fun _ => rfl) run_renewed rfl⟩

end Bustle

end RingCache
