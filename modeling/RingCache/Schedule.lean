import RingCache.Flight

/-!
# Flights on a clock

A schedule moves the flight that goes on earliest, the first listed of several,
and the clock jumps to that time. It ends when no flight goes on any more; a
flight that waits for an answer that never comes is then left where it stands.
-/
namespace RingCache.Schedule
variable {σ : Type}

/-- A flight picked out of a list, with the flights around it and the time at
    which it goes on. -/
structure Pick where
  time : Time
  before : List Flight
  flight : Flight
  rest : List Flight

/-- The flight that goes on earliest, the first listed of several. -/
def pick : List Flight → Option Pick
  | [] => none
  | flight :: rest =>
    match flight.wake, pick rest with
    | none, later => later.map (fun p => { p with before := flight :: p.before })
    | some time, none => some ⟨time, [], flight, rest⟩
    | some time, some later =>
      if time ≤ later.time then some ⟨time, [], flight, rest⟩
      else some { later with before := flight :: later.before }

/-- What is picked comes from the list and goes on. -/
theorem pick_eq_some {flights : List Flight} {p : Pick} (picked : pick flights = some p) :
    flights = p.before ++ p.flight :: p.rest ∧ p.flight.wake = some p.time := by
  induction flights generalizing p with
  | nil => cases picked
  | cons flight rest ih =>
    unfold pick at picked
    split at picked
    next later _ =>
      obtain ⟨q, found, same⟩ := Option.map_eq_some_iff.mp picked
      obtain ⟨parts, wakes⟩ := ih found
      cases same
      exact ⟨by simp [parts], wakes⟩
    next time wakes _ =>
      cases picked
      exact ⟨rfl, wakes⟩
    next time later wakes found =>
      split at picked
      · cases picked
        exact ⟨rfl, wakes⟩
      · obtain ⟨parts, later⟩ := ih found
        cases picked
        exact ⟨by simp [parts], later⟩

/-- The total of a measure over flights. -/
def total (measure : Flight → Nat) : List Flight → Nat
  | [] => 0
  | flight :: rest => measure flight + total measure rest

theorem total_append (measure : Flight → Nat) (before rest : List Flight) :
    total measure (before ++ rest) = total measure before + total measure rest := by
  induction before with
  | nil => simp [total]
  | cons flight before ih => simp [total, ih, Nat.add_assoc]

/-- Moves flights until none goes on. The result is the time of the last move,
    the flights as they were left, and the state. -/
def run (host : Host σ) (now : Time) (flights : List Flight) (state : σ) : Time × List Flight × σ :=
  match _picked : pick flights with
  | none => (now, flights, state)
  | some p =>
    let moved := p.flight.advance host (max now p.time) state
    run host (max now p.time) (p.before ++ moved.2 :: p.rest) moved.1
termination_by (total Flight.begins flights, total Flight.steps flights)
decreasing_by
  obtain ⟨parts, wakes⟩ := pick_eq_some _picked
  have less := p.flight.advance_lt host (max now p.time) state (by rw [wakes]; exact Option.some_ne_none _)
  simp only [Prod.lex_def, parts, total_append, total]
  omega

/-- The result of a get, when it comes. -/
def getResult (start now : Time) : Flight → Work (Except Failure Bytes)
  | .get { stage := .finished result, .. } => .after (now - start) result
  | _ => .never

/-- The result of a removal, when it comes. -/
def removalResult (start now : Time) : Flight → Work (Except Failure Unit)
  | .removal { stage := .finished result, .. } => .after (now - start) result
  | _ => .never

end RingCache.Schedule

namespace RingCache.Host
variable {σ : Type}

/-- A get that nothing overlaps with. -/
def get (host : Host σ) (now : Time) (deadline : Deadline) (key : String) (state : σ) :
    σ × Work (Except Failure Bytes) :=
  let (finish, flights, state) := Schedule.run host now [.startGet now deadline key] state
  (state, flights.head?.elim .never (Schedule.getResult now finish))

/-- A removal that nothing overlaps with. -/
def remove (host : Host σ) (now : Time) (deadline : Deadline) (key : String) (state : σ) :
    σ × Work (Except Failure Unit) :=
  let (finish, flights, state) := Schedule.run host now [.startRemoval now deadline key] state
  (state, flights.head?.elim .never (Schedule.removalResult now finish))

end RingCache.Host
