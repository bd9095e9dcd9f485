import RingCache.Proofs.RemoteCalls

/-!
# Replies to requests

A request for a key is handed to its handler once, with the time that its budget leaves from
its arrival. The timer for that time goes off on a whole millisecond (`lapse`): a handler that
is ready by then is heard, and of any other the request hears at that moment that it timed out
(`Heard`). An amendment is acknowledged when its handler is ready, however long it takes, and
what is no request is refused at once (`dispatch_answers`).
-/
namespace RingCache

variable {α : Type}

/-! ## Budgets -/

/-- When the timer goes off for a budget that arrives now: as it is used up if it arrives at a
    whole millisecond, and a millisecond after that if it arrives between two of them. -/
def lapse (now : Time) (budget : UInt64) : Time :=
  if now % millisecond = 0 then now + budget.toNat * millisecond
  else now + budget.toNat * millisecond + millisecond

theorem Deadline.alarm_ofBudget (now : Time) (budget : UInt64) :
    (Deadline.ofBudget now (some budget)).alarm now = some (lapse now budget) := by
  have rings : now.alarm (now + budget.toNat * millisecond) = lapse now budget := by
    unfold lapse
    by_cases whole : now % millisecond = 0
    · rw [if_pos whole]
      simp only [Time.alarm, Time.tick, millisecond, Time] at whole ⊢
      omega
    · rw [if_neg whole]
      simp only [Time.alarm, Time.tick, millisecond, Time] at whole ⊢
      omega
  simpa [Deadline.ofBudget, Deadline.within, Deadline.upTo, Deadline.alarm] using rings

/-- A deadline carries the budget that it stands for. -/
theorem Deadline.budget_ofBudget (now : Time) (budget : Option UInt64) :
    (Deadline.ofBudget now budget).budget now = budget := by
  cases budget with
  | none => rfl
  | some budget =>
    have left : budget.toNat * millisecond / millisecond = budget.toNat := Nat.mul_div_cancel _ (by decide)
    simp [Deadline.ofBudget, Deadline.within, Deadline.upTo, Deadline.budget, Deadline.remaining, left]

theorem Deadline.ofBudget_eq (now : Time) (budget : Option UInt64) :
    Deadline.ofBudget now budget = ⟨budget.map (fun some_ms => now + some_ms.toNat * millisecond)⟩ := by
  cases budget <;> rfl

/-! ## What is heard of a handler -/

/-- What is heard of a handler, and when, if it begins now and has a budget. What it comes to
    is heard if it is ready at once or when the timer goes off at the latest, and always if there
    is no budget. If it is not, a timeout is heard as the timer goes off. -/
inductive Heard (now : Time) (budget : Option UInt64) :
    Work (Except Failure α) → Work (Except Failure α) → Prop where
  | inTime {delay : Time} {outcome : Except Failure α}
      (ready : delay = 0 ∨ ∀ limit, budget = some limit → now + delay ≤ lapse now limit) :
      Heard now budget (.after delay outcome) (.after delay outcome)
  | late {work : Work (Except Failure α)} {limit : UInt64} (limited : budget = some limit)
      (overruns : ∀ delay outcome, work = .after delay outcome → lapse now limit < now + delay) :
      Heard now budget work (.after (lapse now limit - now) (.error .timeout))
  | silent (unlimited : budget = none) : Heard now budget .never .never

theorem heard_bound (now : Time) (budget : Option UInt64) (work : Work (Except Failure α)) :
    Heard now budget work ((Deadline.ofBudget now budget).bound now work) := by
  cases budget with
  | none =>
    rw [Deadline.ofBudget, Deadline.bound_never]
    cases work with
    | after delay outcome =>
      apply Heard.inTime
      right
      intro limit given
      cases given
    | never => exact .silent rfl
  | some limit =>
    have rings := Deadline.alarm_ofBudget now limit
    cases work with
    | never =>
      simp only [Deadline.bound, rings]
      apply Heard.late rfl
      intro delay outcome ends
      cases ends
    | after delay outcome =>
      simp only [Deadline.bound, rings]
      split
      next soon =>
        apply Heard.inTime
        right
        rintro _ ⟨⟩
        exact soon
      next late =>
        apply Heard.late rfl
        rintro _ _ ⟨⟩
        exact Nat.lt_of_not_le late

/-! ## Replies -/

/-- A message that is handed to any service is one call of the handler for it, with what the
    message names, and the reply is what is heard of the handler. A request for a key brings its
    budget along, and its reply is the value, an acknowledgement or the text of the failure, a
    timeout included. An amendment has no budget, and its reply comes when the handler is ready.
    What is no request is no call of any handler, and is refused by its kind. -/
theorem dispatch_answers {σ : Type} (service : Service σ) (now : Time) (message : Message) (state : σ)
    (calls : List ServiceCall) :
    match message with
    | .retrieve ⟨group, key, budget⟩ =>
      let deadline : Deadline := ⟨budget.map (fun limit => now + limit.toNat * millisecond)⟩
      let (next, work) := service.retrieve now deadline group key state
      ∃ heard, Heard now budget work heard ∧
        dispatch service.recorded now message (state, calls) =
          ((next, calls ++ [.retrieve group key budget]), heard.map (fun outcome => match outcome with
            | .ok value => .retrieved value
            | .error failure =>
              .error ("failed to retrieve [" ++ group ++ "/" ++ key ++ "]: " ++ failure.message)))
    | .delete ⟨group, key, budget⟩ =>
      let deadline : Deadline := ⟨budget.map (fun limit => now + limit.toNat * millisecond)⟩
      let (next, work) := service.delete now deadline group key state
      ∃ heard, Heard now budget work heard ∧
        dispatch service.recorded now message (state, calls) =
          ((next, calls ++ [.delete group key budget]), heard.map (fun outcome => match outcome with
            | .ok () => .ack
            | .error failure => .error failure.message))
    | .amend how addresses =>
      let (next, work) := service.amend now how addresses state
      dispatch service.recorded now message (state, calls) =
        ((next, calls ++ [.amend how addresses]), match work with
          | .after delay () => .after delay .ack
          | .never => .never)
    | other =>
      dispatch service.recorded now message (state, calls) =
        ((state, calls), .after 0 (.error ("unexpected request: " ++ other.kind))) := by
  cases message with
  | retrieve request =>
    obtain ⟨group, key, budget⟩ := request
    simp only [← Deadline.ofBudget_eq]
    refine ⟨_, heard_bound now budget _, ?_⟩
    simp only [dispatch, Service.recorded, Deadline.budget_ofBudget]
    rfl
  | delete request =>
    obtain ⟨group, key, budget⟩ := request
    simp only [← Deadline.ofBudget_eq]
    refine ⟨_, heard_bound now budget _, ?_⟩
    simp only [dispatch, Service.recorded, Deadline.budget_ofBudget]
    rfl
  | amend how addresses =>
    simp only [dispatch, Service.recorded]
    cases (service.amend now how addresses state).2 <;> rfl
  | retrieved value => rfl
  | ack => rfl
  | error text => rfl

/-- A service whose handlers never come to an end. -/
def Service.idle : Service Unit where
  retrieve _ _ _ _ _ := ((), .never)
  delete _ _ _ _ _ := ((), .never)
  amend _ _ _ _ := ((), .never)

/-- A request with a budget of one millisecond that arrives half a millisecond after a whole one
    hears of the timeout two milliseconds later, and not when its budget is used up. -/
theorem dispatch_outlasts_budget :
    (dispatch Service.idle 500 (.retrieve ⟨"g", "k", some 1⟩) ()).2 =
      .after 2000 (.error "failed to retrieve [g/k]: operation timed out") ∧
    500 + 2000 ≠ 500 + (1 : UInt64).toNat * millisecond := by
  decide

end RingCache
