/-!
# The clock

Time is counted in microseconds, but alarms go off in steps of whole
milliseconds: an alarm for a time between two of them waits for the later one,
and the clock only ever waits whole milliseconds, so that it keeps the fraction
that it has (`Time.alarm`). An alarm is never early, and one that is set in time
is late by less than two milliseconds. A sleep is an alarm too, and lasts thirty
years at most.
-/
namespace RingCache

/-- Microseconds, since a common start or as a span. -/
abbrev Time := Nat

/-- The microseconds of a millisecond. -/
def millisecond : Time := 1000

namespace Time

/-- The number of milliseconds after which a time has come. -/
def tick (time : Time) : Nat :=
  (time + (millisecond - 1)) / millisecond

/-- The time at which an alarm goes off that is set now for a time: after as many
    milliseconds as are missing from those that are over now. -/
def alarm (now time : Time) : Time :=
  now + (tick time - now / millisecond) * millisecond

/-- An alarm does not go off before it is set. -/
theorem now_le_alarm (now time : Time) : now ≤ alarm now time :=
  Nat.le_add_right _ _

/-- An alarm is never early. -/
theorem time_le_alarm (now time : Time) : time ≤ alarm now time := by
  simp only [alarm, tick, millisecond, Time]
  omega

/-- An alarm that does not go off at once is late by less than two milliseconds. -/
theorem alarm_lt (now time : Time) : alarm now time = now ∨ alarm now time < time + 2 * millisecond := by
  simp only [alarm, tick, millisecond, Time]
  omega

/-- Between whole milliseconds an alarm is exact. -/
theorem alarm_mul (now time : Nat) : alarm (now * millisecond) (time * millisecond) = max now time * millisecond := by
  simp only [alarm, tick, millisecond, Time]
  omega

end Time

/-- The longest sleep: thirty years of 365 days. -/
def longestSleep : Time := 30 * 365 * 24 * 60 * 60 * 1000 * millisecond

/-- Something that is ready after a delay, or never. -/
inductive Work (α : Type) where
  | after (delay : Time) (result : α)
  | never
deriving DecidableEq, Repr

namespace Work
variable {α β : Type}

/-- Something that is ready at once. -/
def ready (result : α) : Work α :=
  .after 0 result

/-- Something that is ready after a sleep that begins now. -/
def sleep (now span : Time) (result : α) : Work α :=
  .after (now.alarm (now + min span longestSleep) - now) result

/-- The same work with its result changed. -/
def map (f : α → β) : Work α → Work β
  | .after delay result => .after delay (f result)
  | .never => .never

end Work

end RingCache
