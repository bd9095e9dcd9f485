import RingCache.Cluster
import RingCache.Proofs.PoolHistory

/-!
# Changes in a cluster

In a cluster a dial comes to what the servers make of it. Whatever that is, the
pool of a member goes through a history: some dialing makes the same of it
(`Cluster.pool_is_history`), so what holds of all histories holds in clusters.
-/
namespace RingCache

/-! ## Dials that a course depends on -/

namespace Course

variable {dialing first second : Dialing} {course : Course} {stage : ChangeStage} {step : ChangeStep}

theorem dialed_stepped (course : Course) (stage : ChangeStage) (step : ChangeStep) :
    course.dialed.length ≤ (course.stepped stage step).dialed.length := by
  cases stage <;> simp [stepped]

theorem dialed_carry (dialing : Dialing) (course : Course) (stage : ChangeStage) :
    course.dialed.length ≤ (course.carry dialing stage).1.dialed.length := by
  fun_induction Course.carry dialing course stage with
  | case1 => exact Nat.le_refl _
  | case2 course stage step advanced ih => exact Nat.le_trans (dialed_stepped course stage step) ih

/-- An event depends only on the dial that it is about. -/
theorem event_congr (step : ChangeStep) (agree : ∀ number, course.dialed.length ≤ number →
      number < (course.stepped stage step).dialed.length → first number = second number) :
    course.event first stage = course.event second stage := by
  cases stage with
  | dialing address draft =>
    have same := agree course.dialed.length (Nat.le_refl _) (by simp [stepped])
    simp only [event, same]
  | entering | waiting | drafting | closing | finished => rfl

theorem stuck_congr (stuck : course.pool.advance alone stage (course.event first stage) = none) :
    course.pool.advance alone stage (course.event second stage) = none := by
  cases stage with
  | dialing address draft =>
    simp only [event] at stuck
    split at stuck <;> cases stuck
  | entering | waiting | drafting | closing | finished => exact stuck

/-- A course depends only on the dials that it makes. -/
theorem carry_congr (agree : ∀ number, course.dialed.length ≤ number →
      number < (course.carry first stage).1.dialed.length → first number = second number) :
    course.carry second stage = course.carry first stage := by
  fun_induction Course.carry first course stage with
  | case1 course stage stuck => exact carry_of_stuck (stuck_congr stuck)
  | case2 course stage step advanced ih =>
    have later := dialed_stepped course stage step
    have sooner := dialed_carry first (course.stepped stage step) step.stage
    have same : course.event first stage = course.event second stage :=
      event_congr step (fun number after before => agree number after (Nat.lt_of_lt_of_le before sooner))
    rw [same] at advanced
    rw [carry_of_advanced advanced]
    exact ih (fun number after before => agree number (Nat.le_trans later after) before)

/-- The first dialing before a number, and the other one from there. -/
def splice (number : Nat) (first second : Dialing) : Dialing :=
  fun n => if n < number then first n else second n

theorem splice_of_lt {number n : Nat} (before : n < number) : splice number first second n = first n :=
  if_pos before

theorem splice_of_ge {number n : Nat} (after : number ≤ n) : splice number first second n = second n :=
  if_neg (Nat.not_lt.mpr after)

theorem carry_splice_of_le {number : Nat} (within : (course.carry first stage).1.dialed.length ≤ number) :
    course.carry (splice number first second) stage = course.carry first stage := by
  refine carry_congr ?_
  intro n _ before
  exact (splice_of_lt (Nat.lt_of_lt_of_le before within)).symm

theorem carry_splice_of_ge {number : Nat} (beyond : number ≤ course.dialed.length) :
    course.carry (splice number first second) stage = course.carry second stage := by
  refine carry_congr ?_
  intro n after _
  exact (splice_of_ge (Nat.le_trans beyond after)).symm

theorem changes_splice_of_ge {number : Nat} (beyond : number ≤ course.dialed.length) (changes : List Change) :
    changes.foldl (change (splice number first second)) course = changes.foldl (change second) course := by
  induction changes generalizing course with
  | nil => rfl
  | cons next rest ih =>
    have same : course.change (splice number first second) next = course.change second next :=
      congrArg Prod.fst (carry_splice_of_ge beyond)
    rw [List.foldl_cons, List.foldl_cons, same]
    exact ih (Nat.le_trans beyond (dialed_carry second course (.entering next)))

end Course

/-! ## Members -/

namespace Cluster

variable {c answered : Cluster} {id : MemberId} {pool : Pool} {stage : ChangeStage} {event : ChangeEvent}

theorem members_sweep (c : Cluster) (id : LinkId) (party : PartyId) (stage : Stage) :
    (c.sweep id party stage).members = c.members := by
  fun_induction Cluster.sweep c id party stage with
  | case1 | case2 => rfl
  | case3 c stage wiring found step advanced ih =>
    rw [ih, stepped]
    split <;> rfl

theorem pool?_putPool (held : c.pool? id = some pool) (next : Pool) :
    (c.putPool id next).pool? id = some next := by
  obtain ⟨member, found, _⟩ := Option.bind_eq_some_iff.mp held
  simp [pool?, putPool, modifyMember, found]

theorem pool?_changed (held : c.pool? id = some pool) (step : ChangeStep) :
    (c.changed id step).pool? id = some step.pool := by
  rw [← pool?_putPool held step.pool, changed]
  split
  next peer closes =>
    rw [pool?, close, members_sweep]
    rfl
  next => rfl

theorem members_changeEvent (c : Cluster) (pool : Pool) (stage : ChangeStage) :
    (c.changeEvent pool stage).2.members = c.members := by
  cases stage with
  | dialing address draft =>
    simp only [changeEvent, openLink, dial]
    cases Endpoint.dial _ _ _ _ with
    | error failure => rfl
    | ok done => cases c.listening.find? (Endpoint.plain address) <;> rfl
  | entering | waiting | drafting | closing | finished => rfl

theorem pool?_changeEvent (goes : c.changeEvent pool stage = (event, answered)) :
    answered.pool? id = c.pool? id := by
  have members := c.members_changeEvent pool stage
  rw [goes] at members
  rw [pool?, pool?, members]

theorem exists_dialing {course : Course} (goes : c.changeEvent course.pool stage = (event, answered)) :
    ∃ dialing, event = course.event dialing stage := by
  cases stage with
  | dialing address draft =>
    simp only [changeEvent] at goes
    split at goes
    next opened link _ =>
      cases goes
      exact ⟨fun _ _ => some link, rfl⟩
    next =>
      cases goes
      exact ⟨fun _ _ => none, rfl⟩
  | entering | waiting | drafting | closing | finished =>
    cases goes
    exact ⟨fun _ _ => none, rfl⟩

/-- A change in a cluster carries the change of the pool on. The dial of a step is
    made out of the step, and those after it are made out of the rest. -/
theorem pursue_is_carry (c : Cluster) (course : Course) (stage : ChangeStage)
    (held : c.pool? id = some course.pool) :
    ∃ dialing, (c.pursue id closer stage).pool? id = some (course.carry dialing stage).1.pool := by
  fun_induction Cluster.pursue c id closer stage generalizing course with
  | case1 c stage nobody =>
    rw [nobody] at held
    cases held
  | case2 c stage pool found event answered goes stuck =>
    rw [found] at held
    cases held
    obtain ⟨dialing, same⟩ := exists_dialing goes
    rw [same] at stuck
    refine ⟨dialing, ?_⟩
    rw [Course.carry_of_stuck stuck, ← found]
    exact pool?_changeEvent goes
  | case3 c stage pool found event answered goes step advanced ih =>
    rw [found] at held
    cases held
    obtain ⟨now, same⟩ := exists_dialing goes
    obtain ⟨later, rest⟩ := ih (course.stepped stage step) (pool?_changed ((pool?_changeEvent goes).trans found) step)
    let dialing := Course.splice (course.stepped stage step).dialed.length now later
    have spliced : event = course.event dialing stage := by
      refine same.trans (Course.event_congr step ?_)
      intro number _ before
      exact (Course.splice_of_lt before).symm
    rw [spliced] at advanced
    refine ⟨dialing, ?_⟩
    rw [Course.carry_of_advanced advanced, Course.carry_splice_of_ge (Nat.le_refl _)]
    exact rest

theorem changes_are_course (c : Cluster) (course : Course) (changes : List Change)
    (held : c.pool? id = some course.pool) :
    ∃ dialing, (changes.foldl (fun c change => c.change id change) c).pool? id =
      some (changes.foldl (Course.change dialing) course).pool := by
  induction changes generalizing c course with
  | nil => exact ⟨fun _ _ => none, held⟩
  | cons next rest ih =>
    obtain ⟨now, first⟩ := c.pursue_is_carry course (.entering next) held
    obtain ⟨later, others⟩ := ih (c.change id next) (course.change now next) first
    have same : course.change (Course.splice (course.change now next).dialed.length now later) next =
        course.change now next :=
      congrArg Prod.fst (Course.carry_splice_of_le (Nat.le_refl _))
    refine ⟨Course.splice (course.change now next).dialed.length now later, ?_⟩
    rw [List.foldl_cons, List.foldl_cons, same, Course.changes_splice_of_ge (Nat.le_refl _)]
    exact others

/-- The pool of a member goes through a history, whatever its dials come to. -/
theorem pool_is_history (c : Cluster) (selfAddress : String) (settings : Settings) (changes : List Change)
    (joins : c.pool? id = some (.new selfAddress settings)) :
    ∃ dialing, (changes.foldl (fun c change => c.change id change) c).pool? id =
      some (Course.after dialing selfAddress settings changes).pool :=
  c.changes_are_course (Course.start selfAddress settings) changes joins

end Cluster

end RingCache
