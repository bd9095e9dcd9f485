import RingCache.Deadline

/-!
# Deadlines that are handed on

A deadline that goes from member to member loses less than a millisecond with each hop, and
gains nothing while it has not passed; once it has passed, a hop moves it to the time of
the hop, where it has passed as well (`Deadline.hops_bounded`).
-/
namespace RingCache.Deadline

variable {deadline : Deadline} {start now : Time} {times : List Time}

/-- The deadline after it was sent to other members at some times, one after another. -/
def hops (deadline : Deadline) (times : List Time) : Deadline :=
  times.foldl hop deadline

/-- What is left of a deadline can be sent in whole milliseconds. -/
def Carried (deadline : Deadline) (now : Time) : Prop :=
  ∀ left, deadline.remaining now = some left → left < UInt64.size * millisecond

theorem hops_concat (deadline : Deadline) (times : List Time) (now : Time) :
    deadline.hops (times ++ [now]) = (deadline.hops times).hop now := by
  rw [hops, List.foldl_append]
  rfl

/-! ## One hop -/

/-- A hop takes the part of a millisecond away that is left besides the whole ones. -/
theorem hop_upTo (carried : (upTo start).Carried now) :
    (upTo start).hop now = upTo (now + (start - now) / millisecond * millisecond) := by
  have whole : (start - now) / millisecond < UInt64.size := by
    rw [Nat.div_lt_iff_lt_mul (by decide)]
    exact carried (start - now) rfl
  have sent : (UInt64.ofNat ((start - now) / millisecond)).toNat = (start - now) / millisecond :=
    UInt64.toNat_ofNat_of_lt' whole
  simp only [hop, budget, remaining, upTo, Option.map_some, ofBudget, within, sent]

/-- A hop loses less than a millisecond, and gains nothing but the time that has passed. -/
theorem exists_hop_upTo (carried : (upTo start).Carried now) :
    ∃ next, (upTo start).hop now = upTo next ∧ next ≤ max start now ∧ start < next + millisecond := by
  have less : (start - now) / millisecond * millisecond ≤ start - now := Nat.div_mul_le_self ..
  have near : start - now < (start - now) / millisecond * millisecond + millisecond := Nat.lt_div_mul_add (by decide)
  refine ⟨_, hop_upTo carried, ?_, ?_⟩
  · simp only [Time] at less ⊢
    omega
  · simp only [Time] at near ⊢
    omega

theorem isSome_time_hop (deadline : Deadline) (now : Time) :
    (deadline.hop now).time.isSome = deadline.time.isSome := by
  obtain ⟨_ | start⟩ := deadline <;> rfl

/-- A budget that was received now is sent on unchanged. -/
theorem hop_hop (deadline : Deadline) (now : Time) : (deadline.hop now).hop now = deadline.hop now := by
  obtain ⟨_ | start⟩ := deadline
  · rfl
  · generalize sent : UInt64.ofNat ((start - now) / millisecond) = budget
    have left : now + budget.toNat * millisecond - now = budget.toNat * millisecond := Nat.add_sub_cancel_left ..
    have again : budget.toNat * millisecond / millisecond = budget.toNat := Nat.mul_div_cancel _ (by decide)
    simp only [hop, Deadline.budget, remaining, Option.map_some, ofBudget, within, upTo, sent, left, again,
      UInt64.ofNat_toNat]

/-- A deadline that has passed is moved to the time of the hop. -/
theorem expired_hop (expired : deadline.expired now = true) : (deadline.hop now).expired now = true := by
  obtain ⟨_ | start⟩ := deadline
  · cases expired
  · have passed : start ≤ now := by simpa [Deadline.expired] using expired
    have nothing : start - now = 0 := Nat.sub_eq_zero_of_le passed
    simp [hop, Deadline.budget, remaining, ofBudget, within, upTo, nothing, Deadline.expired]

/-! ## Any number of hops -/

theorem isSome_time_hops (deadline : Deadline) (times : List Time) :
    (deadline.hops times).time.isSome = deadline.time.isSome := by
  induction times generalizing deadline with
  | nil => rfl
  | cons first rest ih => exact (ih (deadline.hop first)).trans (isSome_time_hop deadline first)

/-- What is left of a deadline becomes less from hop to hop, so what can be sent at the first
    of them can be sent at all. -/
theorem exists_hops_upTo (start first : Time) (times : List Time) (ordered : (first :: times).Pairwise (· ≤ ·))
    (carried : (upTo start).Carried first) :
    ∃ finish, (upTo start).hops (first :: times) = upTo finish ∧
      finish ≤ max start ((first :: times).getLastD start) ∧
      start < finish + (first :: times).length * millisecond := by
  obtain ⟨next, hopped, bounded, near⟩ := exists_hop_upTo carried
  have rests : (upTo start).hops (first :: times) = (upTo next).hops times := congrArg (hops · times) hopped
  rw [rests]
  obtain ⟨above, others⟩ := List.pairwise_cons.mp ordered
  cases times with
  | nil => exact ⟨next, rfl, bounded, by simpa using near⟩
  | cons second rest =>
    have carriedThen : (upTo next).Carried second := by
      intro left remains
      obtain rfl : next - second = left := Option.some.inj remains
      have before := carried (start - first) rfl
      have later := above second List.mem_cons_self
      simp only [Time] at bounded before later ⊢
      omega
    obtain ⟨finish, ends, boundedThen, nearThen⟩ := exists_hops_upTo next second rest others carriedThen
    have last_above : first ≤ (second :: rest).getLastD next := by
      rw [List.getLastD_cons]
      exact above _ List.getLastD_mem_cons
    have same_last : (first :: second :: rest).getLastD start = (second :: rest).getLastD next := rfl
    refine ⟨finish, ends, ?_, ?_⟩
    · rw [same_last]
      simp only [Time] at bounded boundedThen last_above ⊢
      omega
    · simp only [List.length_cons, Nat.add_mul, Time] at near nearThen ⊢
      omega

/-- A deadline that is handed on at some times is no later than it was, or than the last hop,
    and earlier by less than a millisecond for each hop. No hop makes a deadline or takes one
    away, and one that has passed stays passed. A second hop at the same time does nothing. -/
theorem hops_bounded (deadline : Deadline) (times : List Time) (ordered : times.Pairwise (· ≤ ·))
    (carried : ∀ first ∈ times.head?, deadline.Carried first) :
    (deadline.hops times).time.isSome = deadline.time.isSome ∧
    (∀ start, deadline = upTo start → ∃ finish, deadline.hops times = upTo finish ∧
      finish ≤ max start (times.getLastD start) ∧
      (times ≠ [] → start < finish + times.length * millisecond)) ∧
    ∀ now, deadline.hops (times ++ [now, now]) = deadline.hops (times ++ [now]) ∧
      ((deadline.hops times).expired now = true → (deadline.hops (times ++ [now])).expired now = true) := by
  refine ⟨?_, ?_, ?_⟩
  · exact isSome_time_hops deadline times
  · rintro start rfl
    cases times with
    | nil => exact ⟨start, rfl, Nat.le_max_left .., absurd rfl⟩
    | cons first rest =>
      obtain ⟨finish, ends, bounded, near⟩ := exists_hops_upTo start first rest ordered (carried first rfl)
      exact ⟨finish, ends, bounded, fun _ => near⟩
  · intro now
    rw [hops_concat]
    refine ⟨?_, expired_hop⟩
    rw [List.append_cons, hops_concat, hops_concat, hop_hop]

/-- A deadline goes over four hops, two of them at one time and the last one when it has
    passed. -/
theorem hops_bounded_of_four :
    [1000, 4500, 4500, 12000].Pairwise (· ≤ ·) ∧ (upTo 10300).Carried 1000 ∧
    ∃ finish, (upTo 10300).hops [1000, 4500, 4500, 12000] = upTo finish ∧ finish ≤ 12000 ∧ 10300 < finish + 4000 := by
  have ordered : [1000, 4500, 4500, 12000].Pairwise (· ≤ ·) := by decide
  have carried : (upTo 10300).Carried 1000 := by
    intro left remains
    obtain rfl : 9300 = left := Option.some.inj remains
    decide
  have first : ∀ now ∈ [1000, 4500, 4500, 12000].head?, (upTo 10300).Carried now := by
    rintro now ⟨rfl⟩
    exact carried
  obtain ⟨_, bounds, _⟩ := hops_bounded (upTo 10300) [1000, 4500, 4500, 12000] ordered first
  obtain ⟨finish, ends, bounded, near⟩ := bounds 10300 rfl
  exact ⟨ordered, carried, finish, ends, bounded, near (by decide)⟩

end RingCache.Deadline
