import RingCache.Schedule

/-!
# Gets that are served here

A get whose key nobody else owns looks the key up and, if it is not stored here,
asks the loader and waits for it under its deadline. It asks no peer
(`Host.get_eq_getHere`).
-/
namespace RingCache

variable {σ : Type} {host : Host σ} {now : Time} {flight : Flight} {state : σ}

/-! ## A flight alone -/

theorem Schedule.run_alone_of_stays (stays : flight.wake = none) :
    run host now [flight] state = (now, [flight], state) := by
  rw [run]
  split
  next => rfl
  next p picked =>
    simp only [pick, stays, Option.map_none] at picked
    cases picked

theorem Schedule.run_alone_of_wakes {time : Time} (wakes : flight.wake = some time) (comes : now ≤ time) :
    run host now [flight] state =
      run host time [(flight.advance host time state).2] (flight.advance host time state).1 := by
  rw [run]
  split
  next stays =>
    simp only [pick, wakes] at stays
    cases stays
  next p picked =>
    simp only [pick, wakes, Option.some.injEq] at picked
    subst picked
    simp only [Nat.max_eq_right comes, List.nil_append]

/-! ## The get -/

/-- A get that waits for the loader ends when the answer comes. -/
theorem Schedule.run_loading {key : String} {deadline : Deadline} (work : Work (Except Failure Bytes)) :
    run host now [.get ⟨key, deadline, .loading (work.due now)⟩] state =
      match work with
      | .never => (now, [.get ⟨key, deadline, .loading none⟩], state)
      | .after delay answer =>
        (now + delay, [.get ⟨key, deadline, .finished ((host.group state).loaded key answer).2⟩],
          host.putGroup ((host.group state).loaded key answer).1 state) := by
  cases work with
  | never => exact run_alone_of_stays rfl
  | after delay answer =>
    rw [run_alone_of_wakes rfl (Nat.le_add_right now delay)]
    exact run_alone_of_stays rfl

/-- A get of a key that is served here. -/
def Host.getHere (host : Host σ) (now : Time) (deadline : Deadline) (key : String) (state : σ) :
    σ × Work (Except Failure Bytes) :=
  let (group, found) := (host.group state).lookup key
  let state := host.putGroup group state
  match found with
  | some value => (state, .ready (.ok value))
  | none =>
    let (state, work) := host.load now deadline key state
    match deadline.bound now work with
    | .never => (state, .never)
    | .after delay answer =>
      let (group, result) := (host.group state).loaded key answer
      (host.putGroup group state, .after delay result)

/-- A get is served here if nobody else owns the key once it was looked up. -/
theorem Host.get_eq_getHere {deadline : Deadline} {key : String}
    (here : host.owner (host.putGroup ((host.group state).lookup key).1 state) key = none) :
    host.get now deadline key state = host.getHere now deadline key state := by
  have begins : (Flight.startGet now deadline key).wake = some now := rfl
  rw [Host.get, Schedule.run_alone_of_wakes begins (Nat.le_refl now), Host.getHere]
  simp only [Flight.startGet, Flight.advance, Get.advance, Get.begin]
  cases found : ((host.group state).lookup key).2 with
  | some value =>
    simp only
    rw [Schedule.run_alone_of_stays rfl]
    simp [Schedule.getResult, Work.ready]
  | none =>
    simp only [here, Get.askLoader, Schedule.run_loading]
    split
    next unanswered => simp [Schedule.getResult]
    next delay answer answered => simp [Schedule.getResult]

end RingCache
