import RingCache.Clock
import RingCache.Failure

/-!
# Deadlines

A caller bounds a call by a point in time. Work that is not ready when the alarm
for that time goes off fails with a timeout at that very moment; work that is
ready at that moment still counts, and so does work that never waits, even when
the time has passed (`Deadline.bound`). Another member learns a deadline as a
budget of whole milliseconds and starts it anew (`Deadline.hop`).
-/
namespace RingCache

/-- The time by which a call has to be answered, if there is one. -/
structure Deadline where
  time : Option Time
deriving DecidableEq, Repr

namespace Deadline

/-- No deadline. -/
def never : Deadline := ⟨none⟩

/-- The deadline at a time. -/
def upTo (time : Time) : Deadline := ⟨some time⟩

/-- The deadline a span from now. -/
def within (now span : Time) : Deadline := .upTo (now + span)

/-- The deadline a span from now, if there is one. -/
def allowing (now : Time) : Option Time → Deadline
  | some span => .within now span
  | none => .never

/-- The deadline that a budget in milliseconds, received now, stands for. -/
def ofBudget (now : Time) : Option UInt64 → Deadline
  | some budget => .within now (budget.toNat * millisecond)
  | none => .never

/-- The time that is left. -/
def remaining (deadline : Deadline) (now : Time) : Option Time :=
  deadline.time.map (· - now)

/-- The time that is left in whole milliseconds, as it is sent to others. -/
def budget (deadline : Deadline) (now : Time) : Option UInt64 :=
  (deadline.remaining now).map (fun left => UInt64.ofNat (left / millisecond))

/-- Whether the deadline has been reached. -/
def expired (deadline : Deadline) (now : Time) : Bool :=
  deadline.time.any (· ≤ now)

/-- The deadline after it was sent to another member at a time. -/
def hop (deadline : Deadline) (now : Time) : Deadline :=
  .ofBudget now (deadline.budget now)

/-- The time at which the alarm of the deadline goes off that is set now. -/
def alarm (deadline : Deadline) (now : Time) : Option Time :=
  deadline.time.map now.alarm

/-- Whether the alarm of the deadline goes off at once. -/
def rings (deadline : Deadline) (now : Time) : Bool :=
  (deadline.alarm now).any (· ≤ now)

/-- Work started now under a deadline. -/
def bound {α : Type} (deadline : Deadline) (now : Time) (work : Work (Except Failure α)) :
    Work (Except Failure α) :=
  match deadline.alarm now, work with
  | none, work => work
  | some alarm, .never => .after (alarm - now) (.error .timeout)
  | some alarm, .after delay result =>
    if now + delay ≤ alarm then .after delay result else .after (alarm - now) (.error .timeout)

/-- Without a deadline, work is taken whenever it is ready. -/
theorem bound_never {α : Type} (now : Time) (work : Work (Except Failure α)) : never.bound now work = work :=
  rfl

/-- Work that is ready at once is taken under any deadline. -/
theorem bound_ready {α : Type} (deadline : Deadline) (now : Time) (result : Except Failure α) :
    deadline.bound now (.after 0 result) = .after 0 result := by
  unfold bound
  cases alarms : deadline.alarm now with
  | none => rfl
  | some alarm =>
    obtain ⟨time, _, rfl⟩ := Option.map_eq_some_iff.mp alarms
    exact if_pos (Time.now_le_alarm now time)

end Deadline

end RingCache
