import Mathlib
import RingCache.Proofs.LoneGets
import RingCache.Sink

/-!
# What a group retains

A get into a sink writes to it a value that it finds, or one that it was supplied with
(`Host.getInto`). Gets and removals of a group come one after another, and meanwhile its
peers and its loader do what they like (`Host.Session`). A key is stored exactly if the
loader has served a get of it and no removal of it came later, whatever that removal came
to; and what is stored is what the loader gave then (`Host.Session.retains`).
-/
namespace RingCache

/-- A call on a group that has come back. A get has a sink, before and after. -/
inductive Deed where
  | got (key : String) (supplier : Supplier) (result : Except Failure Bytes) (sink filled : Sink)
  | removed (key : String) (result : Except Failure Unit)
  | droppedHere (key : String)

namespace Deed

/-- A get of a key that the loader served with a value. -/
def Loads (key : String) (value : Bytes) : Deed → Prop
  | .got other .loader (.ok given) _ _ => other = key ∧ given = value
  | _ => False

/-- A removal of a key. -/
def Sheds (key : String) : Deed → Prop
  | .got .. => False
  | .removed other _ | .droppedHere other => other = key

end Deed

variable {σ : Type} {host : Host σ} {start state next : σ} {deeds : List Deed} {deed : Deed} {key : String}
variable {value : Bytes}

/-! ## Gets into sinks -/

/-- What a get gives back: its supplier, its result, and its sink as it is then. -/
structure Delivery where
  supplier : Supplier
  result : Except Failure Bytes
  sink : Sink

/-- A key that is not stored is got from the peer that owns it, or is loaded here. -/
def Host.supplyAlone (host : Host σ) (now : Time) (deadline : Deadline) (key : String) (state : σ) :
    σ × Work (Supplier × Except Failure Bytes) :=
  match host.owner state key with
  | some peer => host.fetchAlone now deadline peer key state
  | none =>
    let (state, work) := host.loadAlone now deadline key state
    (state, work.map (.loader, ·))

/-- A get into a sink, which writes a value that is stored, and else one that was supplied. -/
def Host.getInto (host : Host σ) (now : Time) (deadline : Deadline) (key : String) (sink : Sink) (state : σ) :
    σ × Work Delivery :=
  let (group, found) := (host.group state).lookup key
  let state := host.putGroup group state
  match found with
  | some value => (state, .ready ⟨.store, .ok value, sink.write value⟩)
  | none =>
    let (state, work) := host.supplyAlone now deadline key state
    (state, work.map deliver)
where
  /-- The sink is written to once a value is there. -/
  deliver : Supplier × Except Failure Bytes → Delivery
    | (supplier, .ok value) => ⟨supplier, .ok value, sink.write value⟩
    | (supplier, .error failure) => ⟨supplier, .error failure, sink⟩

variable {now delay : Time} {deadline : Deadline} {supplier : Supplier} {result : Except Failure Bytes} {sink : Sink}

theorem Host.deliver_eq (sink : Sink) (told : Supplier × Except Failure Bytes) :
    getInto.deliver sink told = ⟨told.1, told.2, sink.receive told.2⟩ := by
  obtain ⟨supplier, value | failure⟩ := told <;> rfl

/-- A get into a sink is a get, and the sink receives its result. -/
theorem Host.getInto_eq_getAlone : host.getInto now deadline key sink state = ((host.getAlone now deadline key state).1,
    (host.getAlone now deadline key state).2.map (getInto.deliver sink)) := by
  rw [getInto, getAlone]
  rcases (host.group state).lookup key with ⟨group, _ | value⟩
  · simp only [supplyAlone]
    cases host.owner (host.putGroup group state) key <;> rfl
  · rfl

/-- A get is a get into any sink. -/
theorem Host.get_eq_getInto (sink : Sink) : host.get now deadline key state =
    ((host.getInto now deadline key sink state).1, (host.getInto now deadline key sink state).2.map Delivery.result) := by
  rw [get_eq_getAlone, getInto_eq_getAlone]
  cases (host.getAlone now deadline key state).2 with
  | never => rfl
  | after delay told => simp [Work.map, deliver_eq]

theorem Host.state_getInto : (host.getInto now deadline key sink state).1 = (host.get now deadline key state).1 := by
  rw [get_eq_getInto sink]

/-- A get into a sink has come back exactly if the get has, and the sink has received its result. -/
theorem Host.getInto_eq_iff {filled : Sink} :
    host.getInto now deadline key sink state = (next, .after delay ⟨supplier, result, filled⟩) ↔
      host.getAlone now deadline key state = (next, .after delay (supplier, result)) ∧ filled = sink.receive result := by
  rw [getInto_eq_getAlone]
  rcases host.getAlone now deadline key state with ⟨last, ⟨due, told⟩ | _⟩
  · simp only [Work.map, deliver_eq]
    grind
  · simp [Work.map]

/-! ## Calls one after another -/

/-- A call on a group that comes back before another begins. -/
inductive Host.Does (host : Host σ) : σ → Deed → σ → Prop where
  | get {state next : σ} {now delay : Time} {deadline : Deadline} {key : String} {supplier : Supplier}
      {result : Except Failure Bytes} {sink filled : Sink}
      (comes : host.getInto now deadline key sink state = (next, .after delay ⟨supplier, result, filled⟩)) :
      Does host state (.got key supplier result sink filled) next
  | remove {state next : σ} {now delay : Time} {deadline : Deadline} {key : String} {result : Except Failure Unit}
      (comes : host.remove now deadline key state = (next, .after delay result)) :
      Does host state (.removed key result) next
  | dropHere (state : σ) (key : String) :
      Does host state (.droppedHere key) (host.putGroup ((host.group state).localRemove key) state)

/-- Every get that comes back has a supplier, and fills a sink. -/
theorem Host.exists_does_get (sink : Sink) (comes : host.get now deadline key state = (next, .after delay result)) :
    ∃ supplier filled, host.Does state (.got key supplier result sink filled) next := by
  rw [get_eq_getInto sink] at comes
  rcases into : host.getInto now deadline key sink state with ⟨last, ⟨due, supplier, other, filled⟩ | _⟩
  · rw [into] at comes
    cases comes
    exact ⟨supplier, filled, .get into⟩
  · rw [into] at comes
    cases comes

/-- Calls on a group one after another. Between two of them anything may happen that leaves
    the store alone. -/
inductive Host.Session (host : Host σ) (start : σ) : List Deed → σ → Prop where
  | nothing : Session host start [] start
  | elsewhere {deeds : List Deed} {state next : σ} (session : Session host start deeds state)
      (leaves : (host.group next).store = (host.group state).store) : Session host start deeds next
  | next {deeds : List Deed} {deed : Deed} {state next : σ} (session : Session host start deeds state)
      (does : host.Does state deed next) : Session host start (deeds ++ [deed]) next

/-- The loader has served a get of a key with a value, and no removal of it came later. -/
def Retained (deeds : List Deed) (key : String) (value : Bytes) : Prop :=
  ∃ before deed after, deeds = before ++ deed :: after ∧ deed.Loads key value ∧ ∀ later ∈ after, ¬ later.Sheds key

theorem not_retained_nil : ¬ Retained [] key value := by
  rintro ⟨before, deed, after, same, _⟩
  cases before <;> cases same

theorem retained_append_iff :
    Retained (deeds ++ [deed]) key value ↔ deed.Loads key value ∨ Retained deeds key value ∧ ¬ deed.Sheds key := by
  constructor
  · rintro ⟨before, load, after, same, loads, stays⟩
    rcases List.eq_nil_or_concat after with rfl | ⟨after, last, rfl⟩
    · obtain ⟨rfl, last⟩ := List.append_inj' same rfl
      cases last
      exact .inl loads
    · rw [List.concat_eq_append, ← List.cons_append, ← List.append_assoc] at same
      obtain ⟨rfl, last⟩ := List.append_inj' same rfl
      cases last
      simp only [List.concat_eq_append, List.forall_mem_append, List.forall_mem_singleton] at stays
      exact .inr ⟨⟨before, load, after, rfl, loads, stays.1⟩, stays.2⟩
  · rintro (loads | ⟨⟨before, load, after, rfl, loads, stays⟩, kept⟩)
    · exact ⟨deeds, deed, [], rfl, loads, List.forall_mem_nil _⟩
    · refine ⟨before, load, after ++ [deed], by simp, loads, ?_⟩
      simp only [List.forall_mem_append, List.forall_mem_singleton]
      exact ⟨stays, kept⟩

/-- The store holds what is retained of the deeds. -/
def Store.Holds (store : Store) (deeds : List Deed) : Prop :=
  ∀ key value, store.find? key = some value ↔ Retained deeds key value

namespace Store.Holds

variable {store after : Store}

/-- A deed that neither loads nor sheds a key leaves the store as it is. -/
theorem idle (holds : store.Holds deeds) (loads : ∀ key value, ¬ deed.Loads key value)
    (sheds : ∀ key, ¬ deed.Sheds key) : store.Holds (deeds ++ [deed]) := by
  intro key value
  rw [retained_append_iff, holds key value]
  simp [loads, sheds]

theorem insert (holds : store.Holds deeds) {sink filled : Sink} (missing : store.find? key = none)
    (fits : store.fits key value = true) :
    (store.insert key value).Holds (deeds ++ [.got key .loader (.ok value) sink filled]) := by
  intro other given
  have before := holds other given
  rw [retained_append_iff]
  simp only [Store.find?, Store.insert, fits, if_true, Table.find?_insert, Deed.Loads, Deed.Sheds, not_false_eq_true,
    and_true]
  by_cases same : other = key
  · subst same
    rw [missing] at before
    simp [← before]
  · rw [if_neg same]
    simp only [Ne.symm same, false_and, false_or]
    exact before

theorem invalidate (holds : store.Holds deeds) (loads : ∀ key value, ¬ deed.Loads key value)
    (sheds : ∀ other, deed.Sheds other ↔ other = key) : (store.invalidate key).Holds (deeds ++ [deed]) := by
  intro other given
  rw [retained_append_iff, ← holds other given]
  simp only [Store.find?, Store.invalidate, Table.find?_erase, loads, false_or, sheds]
  by_cases same : other = key <;> simp [same]

end Store.Holds

namespace Host

/-- What a get has made of the store. -/
theorem KeepsStore.settles (keeps : host.KeepsStore) {filled : Sink} (does : host.Does state (.got key supplier result sink filled) next) :
    supplier.Settles key (host.group state).store result (host.group next).store ∧ filled = sink.receive result := by
  cases does with
  | get comes =>
    obtain ⟨alone, filled⟩ := getInto_eq_iff.mp comes
    have settles := keeps.settles_getAlone (congrArg Prod.snd alone)
    rw [alone] at settles
    exact ⟨settles, filled⟩

theorem KeepsStore.store_removed (keeps : host.KeepsStore) {result : Except Failure Unit}
    (does : host.Does state (.removed key result) next) :
    (host.group next).store = (host.group state).store.invalidate key := by
  cases does with
  | remove comes =>
    obtain rfl := congrArg Prod.fst comes
    exact keeps.store_remove _ _ key state

theorem KeepsStore.capacity (keeps : host.KeepsStore) (does : host.Does state deed next) :
    (host.group next).store.capacity = (host.group state).store.capacity := by
  cases deed with
  | got key supplier result sink filled =>
    obtain ⟨settles, _⟩ := keeps.settles does
    generalize (host.group next).store = after at settles
    cases settles <;> rfl
  | removed key result =>
    rw [keeps.store_removed does]
    rfl
  | droppedHere key =>
    cases does
    rw [keeps.group_putGroup]
    rfl

theorem KeepsStore.holds (keeps : host.KeepsStore) (does : host.Does state deed next)
    (holds : (host.group state).store.Holds deeds)
    (room : ∀ key value, deed.Loads key value → (host.group state).store.fits key value = true) :
    (host.group next).store.Holds (deeds ++ [deed]) := by
  cases deed with
  | got key supplier result sink filled =>
    obtain ⟨settles, _⟩ := keeps.settles does
    generalize (host.group next).store = after at settles
    cases settles with
    | loaded missing => exact holds.insert missing (room key _ ⟨rfl, rfl⟩)
    | found | fetched | fetchTimedOut | loadFailed => exact holds.idle (fun _ _ => id) (fun _ => id)
  | removed key result =>
    rw [keeps.store_removed does]
    exact holds.invalidate (fun _ _ => id) (fun _ => eq_comm)
  | droppedHere key =>
    cases does
    rw [keeps.group_putGroup]
    exact holds.invalidate (fun _ _ => id) (fun _ => eq_comm)

theorem Session.capacity (keeps : host.KeepsStore) (session : host.Session start deeds state) :
    (host.group state).store.capacity = (host.group start).store.capacity := by
  induction session with
  | nothing => rfl
  | elsewhere _ leaves ih => rw [leaves, ih]
  | next _ does ih => rw [keeps.capacity does, ih]

theorem Session.holds (keeps : host.KeepsStore) (unused : (host.group start).store.entries = .empty)
    (session : host.Session start deeds state)
    (room : ∀ deed ∈ deeds, ∀ key value, deed.Loads key value → (host.group start).store.fits key value = true) :
    (host.group state).store.Holds deeds := by
  induction session with
  | nothing =>
    intro key value
    simp [Store.find?, unused, Table.find?_empty, not_retained_nil]
  | elsewhere _ leaves ih =>
    rw [leaves]
    exact ih room
  | @next deeds deed state next session does ih =>
    simp only [List.forall_mem_append, List.forall_mem_singleton] at room
    refine keeps.holds does (ih room.1) ?_
    intro key value loads
    have fits := room.2 key value loads
    rwa [Store.fits, ← session.capacity keeps] at fits

/-- After calls on a group that was empty, one after another, a key is stored exactly if the
    loader has served a get of it and no removal of it came later, and with the value that
    the loader gave then; every value is supposed to have found room. A get that comes next
    is a hit with just that value, or leaves the store as it is unless the loader serves it.
    One that fails leaves the store and its sink as they are, and its failure is a timeout
    or a failure to load. -/
theorem Session.retains (keeps : host.KeepsStore) (unused : (host.group start).store.entries = .empty)
    (session : host.Session start deeds state)
    (room : ∀ deed ∈ deeds, ∀ key value, deed.Loads key value → (host.group start).store.fits key value = true) :
    (∀ key value, (host.group state).store.find? key = some value ↔ Retained deeds key value) ∧
    (∀ key, (host.group state).containsLocal key = true ↔ ∃ value, Retained deeds key value) ∧
    ∀ key supplier result sink filled next, host.Does state (.got key supplier result sink filled) next →
      (supplier = .store → ∃ value, result = .ok value ∧ Retained deeds key value) ∧
      (supplier ≠ .loader → (host.group next).store = (host.group state).store) ∧
      (∀ value, result = .ok value → filled = sink.write value) ∧
      ∀ failure, result = .error failure →
        (host.group next).store = (host.group state).store ∧ filled = sink ∧
          (failure = .timeout ∨ ∃ other reason, failure = .load other reason) := by
  have holds := session.holds keeps unused room
  refine ⟨holds, ?_, ?_⟩
  · intro key
    rw [Group.containsLocal, Store.contains, Table.contains_iff_exists]
    exact exists_congr (holds key)
  · intro key supplier result sink filled next does
    obtain ⟨settles, rfl⟩ := keeps.settles does
    generalize (host.group next).store = after at settles
    cases settles with
    | found stored =>
      refine ⟨fun _ => ⟨_, rfl, (holds key _).mp stored⟩, fun _ => rfl, ?_, nofun⟩
      rintro value ⟨⟩
      rfl
    | fetched missing =>
      refine ⟨nofun, fun _ => rfl, ?_, nofun⟩
      rintro value ⟨⟩
      rfl
    | fetchTimedOut missing =>
      refine ⟨nofun, fun _ => rfl, nofun, ?_⟩
      rintro failure ⟨⟩
      exact ⟨rfl, rfl, .inl rfl⟩
    | loaded missing =>
      refine ⟨nofun, fun other => absurd rfl other, ?_, nofun⟩
      rintro value ⟨⟩
      rfl
    | loadFailed missing ofGet =>
      refine ⟨nofun, fun other => absurd rfl other, nofun, ?_⟩
      rintro failure ⟨⟩
      exact ⟨rfl, rfl, ofGet⟩

/-- A group with one peer, which fails to give a value once and always fails to remove one. -/
def retainingScene : Scene where
  group := .new "g" 100
  loader := .follow ⟨[⟨none, .value [7]⟩], .empty⟩
  peers := [⟨"x:1", .follow ⟨[⟨none, .fails (.internal "down")⟩, ⟨none, .value [9]⟩], .empty⟩,
    .follow ⟨[⟨none, .fails (.internal "kept")⟩], .empty⟩⟩]
  route _ := some 0
  loads := []
  calls := []

/-- The key was got. -/
def gotScene : Scene := (Scene.host.get 0 .never "k" retainingScene).1

/-- The key was got again. -/
def hitScene : Scene := (Scene.host.get 5 .never "k" gotScene).1

/-- The key was removed. -/
def shedScene : Scene := (Scene.host.remove 6 .never "k" hitScene).1

/-- The deeds so far: a get that was loaded here after its peer had failed, a hit, and a removal
    that failed. -/
def retainingDeeds : List Deed :=
  [.got "k" .loader (.ok [7]) (.empty .bytes) ⟨.bytes, some (.bytes [7])⟩,
    .got "k" .store (.ok [7]) (.empty .text) ⟨.text, some (.text (Utf8.lossy [7]))⟩,
    .removed "k" (.error (.internal "kept"))]

theorem session_shedScene : Scene.host.Session retainingScene retainingDeeds shedScene := by
  have loads : (Scene.host.getInto 0 .never "k" (.empty .bytes) retainingScene).2 =
      .after 0 ⟨.loader, .ok [7], ⟨.bytes, some (.bytes [7])⟩⟩ := by rfl
  have loaded : (Scene.host.getInto 0 .never "k" (.empty .bytes) retainingScene).1 = gotScene := Host.state_getInto
  have hits : (Scene.host.getInto 5 .never "k" (.empty .text) gotScene).2 =
      .after 0 ⟨.store, .ok [7], ⟨.text, some (.text (Utf8.lossy [7]))⟩⟩ := by
    rw [← loaded]
    rfl
  have hit : (Scene.host.getInto 5 .never "k" (.empty .text) gotScene).1 = hitScene := Host.state_getInto
  have fails : (Scene.host.remove 6 .never "k" hitScene).2 = .after 0 (.error (.internal "kept")) := by cbv
  have first : Scene.host.Session retainingScene _ gotScene := .next .nothing (.get (Prod.ext loaded loads))
  have second : Scene.host.Session retainingScene _ hitScene := .next first (.get (Prod.ext hit hits))
  exact .next second (.remove (Prod.ext rfl fails))

/-- After the removal, which failed, the key is gone, and a get that the peer serves stores
    nothing. -/
theorem retains_of_failed_removal :
    Scene.host.KeepsStore ∧ (Scene.host.group retainingScene).store.entries = .empty ∧
    Scene.host.Session retainingScene retainingDeeds shedScene ∧
    (∀ deed ∈ retainingDeeds, ∀ key value, deed.Loads key value →
      (Scene.host.group retainingScene).store.fits key value = true) ∧
    (Scene.host.group shedScene).containsLocal "k" = false ∧
    (Scene.host.get 9 .never "k" shedScene).2 = .after 0 (.ok [9]) ∧
    (Scene.host.group (Scene.host.get 9 .never "k" shedScene).1).store = (Scene.host.group shedScene).store := by
  have unused : (Scene.host.group retainingScene).store.entries = .empty := rfl
  have room : ∀ deed ∈ retainingDeeds, ∀ key value, deed.Loads key value →
      (Scene.host.group retainingScene).store.fits key value = true := by
    simp only [retainingDeeds, List.forall_mem_cons]
    refine ⟨?_, fun _ _ => False.elim, fun _ _ => False.elim, List.forall_mem_nil _⟩
    rintro _ _ ⟨rfl, rfl⟩
    cbv
  obtain ⟨_, contained, gets⟩ := session_shedScene.retains Scene.keepsStore unused room
  have served : (Scene.host.get 9 .never "k" shedScene).2 = .after 0 (.ok [9]) := by
    have serves : (Scene.host.getAlone 9 .never "k" shedScene).2 = .after 0 (.peer, .ok [9]) := by cbv
    rw [Host.get_eq_getAlone, serves]
    rfl
  have into : (Scene.host.getInto 9 .never "k" (.empty .bytes) shedScene).2 =
      .after 0 ⟨.peer, .ok [9], ⟨.bytes, some (.bytes [9])⟩⟩ := by cbv
  obtain ⟨_, leaves, _⟩ := gets _ _ _ _ _ _ (.get (Prod.ext Host.state_getInto into))
  refine ⟨Scene.keepsStore, unused, session_shedScene, room, ?_, served, leaves (by decide)⟩
  rw [Bool.eq_false_iff]
  intro stored
  obtain ⟨value, retained⟩ := (contained "k").mp stored
  rw [show retainingDeeds = retainingDeeds.take 2 ++ [.removed "k" (.error (.internal "kept"))] from rfl,
    retained_append_iff] at retained
  rcases retained with loads | ⟨_, stays⟩
  · exact loads
  · exact stays rfl

end Host

end RingCache
