import Mathlib.Logic.Function.Basic
import Mathlib.Logic.Relation
import RingCache.Proofs.PoolHistory

/-!
# Changes side by side

A pool and all parties that change it, each with a change of its own. They take
their steps in any order, a dial comes to anything, and a change may be cancelled
wherever it waits (`Rota.Step`). The lock comes to one party after another, and
what needs the lock is done by its holder (`Rota.Orderly`). So the membership
that a draft began with is the published one for as long as the draft is open,
no link is closed that the membership has, and one that falls out of it is closed
by the party that published (`Rota.Sound`).
-/
namespace RingCache

/-- Whether a change still makes up its draft. -/
def ChangeStage.drafts : ChangeStage → Bool
  | .drafting _ | .dialing _ _ => true
  | _ => false

/-- Whether a change needs the lock to be its own. -/
def ChangeStage.holds : ChangeStage → Bool
  | .drafting _ | .dialing _ _ | .closing _ => true
  | _ => false

/-- The change of a party that the lock has not come to. -/
def ChangeStage.change? : ChangeStage → Option Change
  | .entering change | .waiting change => some change
  | _ => none

theorem ChangeStage.holds_of_drafts {stage : ChangeStage} (drafts : stage.drafts = true) : stage.holds = true := by
  cases stage <;> first | rfl | cases drafts

/-- A pool and the parties that change it. -/
structure Rota where
  pool : Pool
  stage : PartyId → ChangeStage
  /-- The parties that the lock came to, in order. -/
  turns : List PartyId
  /-- The addresses that a party dialed, in order, with the link that was opened. -/
  dials : PartyId → List (String × Option Nat)
  /-- The parties whose changes were cancelled. -/
  cancelled : List PartyId
  /-- The peers whose links were closed. -/
  closed : List Peer

namespace Rota

/-- A pool of nobody, and parties that are about to change it. -/
def start (selfAddress : String) (settings : Settings) (asks : PartyId → Change) : Rota where
  pool := .new selfAddress settings
  stage party := .entering (asks party)
  turns := []
  dials _ := []
  cancelled := []
  closed := []

/-- Some dial has opened the link of a peer. -/
def Opened (t : Rota) (peer : Peer) : Prop :=
  ∃ party, (peer.address, some peer.id) ∈ t.dials party

/-- Whether an event can come to a party. A dial opens a new link, to the address
    that was dialed. All else may happen at any time. -/
def Possible (t : Rota) (party : PartyId) (event : ChangeEvent) : Prop :=
  match t.stage party, event with
  | .dialing address _, .dialed peer => peer.address = address ∧ ¬ t.Opened peer
  | _, _ => True

/-- The dial that comes to its end when a party meets an event. -/
def dialed : ChangeStage → ChangeEvent → List (String × Option Nat)
  | .dialing address _, .dialed peer => [(address, some peer.id)]
  | .dialing address _, .refused => [(address, none)]
  | _, _ => []

/-- Whether the lock comes to a change that meets an event. -/
def takes : ChangeStage → ChangeEvent → Bool
  | .waiting _, .go => true
  | _, _ => false

/-- The rota after a party has met an event. -/
def acted (t : Rota) (party : PartyId) (event : ChangeEvent) (step : ChangeStep) : Rota where
  pool := step.pool
  stage := Function.update t.stage party step.stage
  turns := if takes (t.stage party) event then t.turns ++ [party] else t.turns
  dials := Function.update t.dials party (t.dials party ++ dialed (t.stage party) event)
  cancelled := match event with
    | .cancelled => party :: t.cancelled
    | .go | .dialed _ | .refused => t.cancelled
  closed := t.closed ++ step.closes.toList

/-- The rota after a party has changed its mind about the order in which it closes
    links. -/
def reordered (t : Rota) (party : PartyId) (order : List Peer) : Rota :=
  { t with stage := Function.update t.stage party (.closing order) }

/-- One step of one party. The links that fell out of the membership are closed in
    any order. -/
inductive Step (t : Rota) (party : PartyId) : Rota → Prop where
  | act {event : ChangeEvent} {step : ChangeStep} (possible : t.Possible party event)
      (advanced : t.pool.advance party (t.stage party) event = some step) : Step t party (t.acted party event step)
  | reorder {stale order : List Peer} (closes : t.stage party = .closing stale) (same : stale.Perm order) :
      Step t party (t.reordered party order)

/-- Any steps of any parties. -/
def Run : Rota → Rota → Prop :=
  Relation.ReflTransGen (fun t next => ∃ party, Step t party next)

variable {t later : Rota} {party other : PartyId} {event : ChangeEvent} {step : ChangeStep} {order : List Peer}
variable {selfAddress : String} {settings : Settings} {asks : PartyId → Change} {peer : Peer} {draft : Draft}

theorem stage_acted_self : (t.acted party event step).stage party = step.stage :=
  Function.update_self ..

theorem stage_acted_of_ne (apart : other ≠ party) : (t.acted party event step).stage other = t.stage other :=
  Function.update_of_ne apart ..

theorem dials_acted_self :
    (t.acted party event step).dials party = t.dials party ++ dialed (t.stage party) event :=
  Function.update_self ..

theorem dials_acted_of_ne (apart : other ≠ party) : (t.acted party event step).dials other = t.dials other :=
  Function.update_of_ne apart ..

theorem stage_reordered_self : (t.reordered party order).stage party = .closing order :=
  Function.update_self ..

theorem stage_reordered_of_ne (apart : other ≠ party) : (t.reordered party order).stage other = t.stage other :=
  Function.update_of_ne apart ..

/-! ## One after another -/

/-- What holds of a party that stands at a stage: it drafts, publishes and closes
    only with the lock, which comes to it once, and if it drafts came to it last. -/
structure Stands (settings : Settings) (asks : PartyId → Change) (t : Rota) (party : PartyId)
    (stage : ChangeStage) : Prop where
  drafted : stage.Sound settings.normalized
  locked : stage.holds = true → t.pool.lock.holder = some party
  asked : ∀ change, stage.change? = some change → change = asks party ∧ party ∉ t.turns ∧ t.dials party = []
  turned : stage.change? = none → party ∈ t.cancelled ∨ party ∈ t.turns
  last : stage.drafts = true → ∃ earlier, t.turns = earlier ++ [party]
  gone : party ∈ t.cancelled → stage = .finished

/-- The pool is that of a member with settings, and all its parties stand as they
    may. -/
structure Orderly (selfAddress : String) (settings : Settings) (asks : PartyId → Change) (t : Rota) : Prop where
  selfAddress_eq : t.pool.selfAddress = selfAddress
  settings_eq : t.pool.settings = settings.normalized
  published : t.pool.membership.Sound settings.normalized
  once : t.turns.Nodup
  stands : ∀ party, Stands settings asks t party (t.stage party)

theorem orderly_start : (start selfAddress settings asks).Orderly selfAddress settings asks where
  selfAddress_eq := rfl
  settings_eq := rfl
  published := Membership.sound_empty settings.normalized
  once := List.nodup_nil
  stands party := by
    refine ⟨trivial, nofun, ?_, nofun, nofun, nofun⟩
    intro change entered
    exact ⟨(Option.some.inj entered).symm, List.not_mem_nil, rfl⟩

theorem Orderly.eq_of_holds (orderly : t.Orderly selfAddress settings asks) (holds : (t.stage party).holds = true)
    (also : (t.stage other).holds = true) : other = party := by
  have held := (orderly.stands party).locked holds
  rw [(orderly.stands other).locked also] at held
  exact Option.some.inj held

theorem Orderly.free_of_ne (orderly : t.Orderly selfAddress settings asks) (holds : (t.stage party).holds = true)
    (apart : other ≠ party) : (t.stage other).holds = false := by
  rw [← Bool.not_eq_true]
  exact fun also => apart (orderly.eq_of_holds holds also)

end Rota

/-! ### Steps and the lock -/

namespace Pool
variable {pool : Pool} {party other : PartyId} {stage : ChangeStage} {event : ChangeEvent} {step : ChangeStep}

theorem Advances.holder_of_holds (advances : pool.Advances party stage event step)
    (locked : stage.holds = true → pool.lock.holder = some party) :
    step.stage.holds = true → step.pool.lock.holder = some party := by
  intro holds
  cases advances with
  | begin change held => exact beq_iff_eq.mp held
  | settle | dial | publish | enlist | skip | close => exact locked rfl
  | request | withdraw | abandon | leave => cases holds

/-- Nobody takes the lock away from another party. -/
theorem Advances.holder_of_other (advances : pool.Advances party stage event step)
    (locked : stage.holds = true → pool.lock.holder = some party) (apart : other ≠ party)
    (held : pool.lock.holder = some other) : step.pool.lock.holder = some other := by
  have free : ¬ stage.holds = true := by
    intro holds
    rw [locked holds] at held
    exact apart (Option.some.inj held).symm
  cases advances with
  | request => exact Lock.holder_request held party
  | withdraw => exact Lock.holder_withdraw held apart
  | begin | settle | dial | publish | enlist | skip | close => exact held
  | abandon | leave => exact absurd rfl free

theorem Advances.entering_of_change (advances : pool.Advances party stage event step) {change : Change}
    (entered : step.stage.change? = some change) : stage = .entering change ∧ event = .go := by
  cases advances with
  | request own =>
    cases entered
    exact ⟨rfl, rfl⟩
  | begin | withdraw | settle | dial | publish | enlist | skip | abandon | close | leave => cases entered

theorem Advances.drafts_cases (advances : pool.Advances party stage event step) (drafts : step.stage.drafts = true) :
    stage.drafts = true ∨ ∃ change, stage = .waiting change ∧ event = .go := by
  cases advances with
  | begin change => exact .inr ⟨change, rfl, rfl⟩
  | settle | dial | enlist | skip => exact .inl rfl
  | request | withdraw | publish | abandon | close | leave => cases drafts

theorem Advances.finished_of_cancelled (advances : pool.Advances party stage .cancelled step) :
    step.stage = .finished := by
  cases advances with
  | withdraw | abandon => rfl

end Pool

namespace Rota
variable {t later : Rota} {party other : PartyId} {event : ChangeEvent} {step : ChangeStep} {order : List Peer}
variable {selfAddress : String} {settings : Settings} {asks : PartyId → Change} {peer : Peer} {draft : Draft}

theorem mem_turns_acted (listed : other ∈ t.turns) : other ∈ (t.acted party event step).turns := by
  simp only [acted]
  split
  · exact List.mem_append_left _ listed
  · exact listed

theorem mem_turns_of_acted (apart : other ≠ party) (listed : other ∈ (t.acted party event step).turns) :
    other ∈ t.turns := by
  simp only [acted] at listed
  split at listed
  · rcases List.mem_append.mp listed with before | new
    · exact before
    · exact absurd (List.mem_singleton.mp new) apart
  · exact listed

theorem cancelled_acted_cases (listed : other ∈ (t.acted party event step).cancelled) :
    (event = .cancelled ∧ other = party) ∨ other ∈ t.cancelled := by
  cases event with
  | cancelled => exact (List.mem_cons.mp listed).imp_left (fun own => ⟨rfl, own⟩)
  | go | dialed | refused => exact .inr listed

theorem mem_cancelled_acted (listed : other ∈ t.cancelled) : other ∈ (t.acted party event step).cancelled := by
  cases event with
  | cancelled => exact List.mem_cons_of_mem party listed
  | go | dialed | refused => exact listed

theorem turns_acted (passes : takes (t.stage party) event = false) : (t.acted party event step).turns = t.turns := by
  simp [acted, passes]

theorem turns_acted_of_takes (taken : takes (t.stage party) event = true) :
    (t.acted party event step).turns = t.turns ++ [party] := by
  simp [acted, taken]

theorem takes_cases (stage : ChangeStage) (event : ChangeEvent) :
    takes stage event = false ∨ ∃ change, stage = .waiting change ∧ event = .go ∧ takes stage event = true := by
  cases stage with
  | waiting change =>
    cases event with
    | go => exact .inr ⟨change, rfl, rfl, rfl⟩
    | dialed | refused | cancelled => exact .inl rfl
  | entering | drafting | dialing | closing | finished => exact .inl rfl

/-- The lock comes to no party while another one uses it. -/
theorem Orderly.passes (orderly : t.Orderly selfAddress settings asks)
    (advances : t.pool.Advances party (t.stage party) event step) (apart : other ≠ party)
    (holds : (t.stage other).holds = true) : takes (t.stage party) event = false := by
  rcases takes_cases (t.stage party) event with passes | ⟨change, waits, rfl, _⟩
  · exact passes
  · rw [waits] at advances
    cases advances with
    | begin _ held =>
      have taken := beq_iff_eq.mp held
      rw [(orderly.stands other).locked holds] at taken
      exact absurd (Option.some.inj taken) apart

theorem Stands.turned_acted (stands : Stands settings asks t party (t.stage party))
    (advances : t.pool.Advances party (t.stage party) event step) (past : step.stage.change? = none) :
    party ∈ (t.acted party event step).cancelled ∨ party ∈ (t.acted party event step).turns := by
  have before := stands.turned
  generalize at_stage : t.stage party = stage at advances before
  cases advances with
  | request => cases past
  | begin =>
    right
    rw [turns_acted_of_takes (by rw [at_stage]; rfl)]
    exact List.mem_append_right _ (List.mem_singleton_self party)
  | withdraw | abandon => exact .inl List.mem_cons_self
  | settle | dial | publish | enlist | skip | close | leave =>
    exact (before rfl).imp mem_cancelled_acted mem_turns_acted

theorem Stands.last_acted (stands : Stands settings asks t party (t.stage party))
    (advances : t.pool.Advances party (t.stage party) event step) (drafts : step.stage.drafts = true) :
    ∃ earlier, (t.acted party event step).turns = earlier ++ [party] := by
  rcases takes_cases (t.stage party) event with passes | ⟨change, _, _, taken⟩
  · rw [turns_acted passes]
    rcases advances.drafts_cases drafts with before | ⟨change, waits, rfl⟩
    · exact stands.last before
    · rw [waits] at passes
      cases passes
  · exact ⟨t.turns, turns_acted_of_takes taken⟩

theorem Stands.gone_acted (stands : Stands settings asks t party (t.stage party))
    (advances : t.pool.Advances party (t.stage party) event step)
    (listed : party ∈ (t.acted party event step).cancelled) : step.stage = .finished := by
  rcases cancelled_acted_cases listed with ⟨rfl, _⟩ | before
  · exact advances.finished_of_cancelled
  · rw [stands.gone before] at advances
    cases advances

/-- The party that takes a step stands as it may then. -/
theorem Stands.acted (stands : Stands settings asks t party (t.stage party))
    (advances : t.pool.Advances party (t.stage party) event step) (drafted : step.stage.Sound settings.normalized) :
    Stands settings asks (t.acted party event step) party step.stage where
  drafted := drafted
  locked := advances.holder_of_holds stands.locked
  asked := by
    intro change entered
    obtain ⟨enters, rfl⟩ := advances.entering_of_change entered
    obtain ⟨own, absent, silent⟩ := stands.asked change (by rw [enters]; rfl)
    rw [turns_acted (by rw [enters]; rfl), dials_acted_self, enters, silent]
    exact ⟨own, absent, rfl⟩
  turned := stands.turned_acted advances
  last := stands.last_acted advances
  gone := stands.gone_acted advances

/-- And so do the others. -/
theorem Orderly.stands_acted (orderly : t.Orderly selfAddress settings asks)
    (advances : t.pool.Advances party (t.stage party) event step) (apart : other ≠ party) :
    Stands settings asks (t.acted party event step) other (t.stage other) where
  drafted := (orderly.stands other).drafted
  locked := by
    intro holds
    exact advances.holder_of_other (orderly.stands party).locked apart ((orderly.stands other).locked holds)
  asked := by
    intro change entered
    obtain ⟨own, absent, silent⟩ := (orderly.stands other).asked change entered
    rw [dials_acted_of_ne apart]
    exact ⟨own, fun listed => absent (mem_turns_of_acted apart listed), silent⟩
  turned := by
    intro past
    exact ((orderly.stands other).turned past).imp mem_cancelled_acted mem_turns_acted
  last := by
    intro drafts
    rw [turns_acted (orderly.passes advances apart (ChangeStage.holds_of_drafts drafts))]
    exact (orderly.stands other).last drafts
  gone := by
    intro listed
    rcases cancelled_acted_cases listed with ⟨_, own⟩ | before
    · exact absurd own apart
    · exact (orderly.stands other).gone before

theorem Orderly.once_acted (orderly : t.Orderly selfAddress settings asks) :
    (t.acted party event step).turns.Nodup := by
  rcases takes_cases (t.stage party) event with passes | ⟨change, waits, _, taken⟩
  · rw [turns_acted passes]
    exact orderly.once
  · obtain ⟨_, absent, _⟩ := (orderly.stands party).asked change (by rw [waits]; rfl)
    rw [turns_acted_of_takes taken]
    refine List.nodup_append.mpr ⟨orderly.once, List.pairwise_singleton .., ?_⟩
    rintro any listed own single rfl
    exact absent (List.mem_singleton.mp single ▸ listed)

theorem Orderly.acted (orderly : t.Orderly selfAddress settings asks)
    (advances : t.pool.Advances party (t.stage party) event step) :
    (t.acted party event step).Orderly selfAddress settings asks := by
  have set_up := orderly.settings_eq
  obtain ⟨sameAddress, sameSettings, published, drafted⟩ :=
    advances.sound (by rw [set_up]; exact orderly.published) (by rw [set_up]; exact (orderly.stands party).drafted)
  rw [set_up] at sameSettings published drafted
  refine ⟨sameAddress.trans orderly.selfAddress_eq, sameSettings, published, orderly.once_acted, ?_⟩
  intro other
  by_cases own : other = party
  · rw [own, stage_acted_self]
    exact (orderly.stands party).acted advances drafted
  · rw [stage_acted_of_ne own]
    exact orderly.stands_acted advances own

theorem Orderly.reordered (orderly : t.Orderly selfAddress settings asks) {stale : List Peer}
    (closes : t.stage party = .closing stale) : (t.reordered party order).Orderly selfAddress settings asks := by
  refine ⟨orderly.selfAddress_eq, orderly.settings_eq, orderly.published, orderly.once, ?_⟩
  intro other
  by_cases own : other = party
  · obtain ⟨_, locked, _, turned, _, gone⟩ := orderly.stands party
    rw [closes] at locked turned gone
    rw [own, stage_reordered_self]
    exact ⟨trivial, locked, nofun, turned, nofun, fun listed => nomatch gone listed⟩
  · obtain ⟨drafted, locked, asked, turned, last, gone⟩ := orderly.stands other
    rw [stage_reordered_of_ne own]
    exact ⟨drafted, locked, asked, turned, last, gone⟩

theorem Orderly.next (orderly : t.Orderly selfAddress settings asks) (happens : Step t party later) :
    later.Orderly selfAddress settings asks := by
  cases happens with
  | act possible advanced => exact orderly.acted (Pool.advances_of_advance advanced)
  | reorder closes same => exact orderly.reordered closes

end Rota

end RingCache
