import RingCache.Proofs.Closures

/-!
# Changes take turns

The changes of a pool that run side by side come to the same memberships as they
would one after another, in the order in which the lock comes to them and without
those that are cancelled. For the change that drafts began with the membership that
the ones before it have published, and goes on from there as it does alone
(`Rota.Serial`).
-/
namespace RingCache

/-- What dials came to: the addresses, in order, with the link that was opened. -/
abbrev Outcomes := List (String × Option Nat)

/-- The dialing that comes to what some dials came to. -/
def retold (told : Outcomes) : Dialing :=
  fun number _ => told[number]?.bind Prod.snd

/-- A dialing comes to what some dials came to. -/
def Retells (dialing : Dialing) (told : Outcomes) : Prop :=
  ∀ number address outcome, told[number]? = some (address, outcome) → dialing number address = outcome

theorem retells_retold (told : Outcomes) : Retells (retold told) told := by
  intro number address outcome at_number
  rw [retold, at_number, Option.bind_some]

variable {dialing : Dialing} {told more dials : Outcomes}

theorem Retells.before (retells : Retells dialing (told ++ more)) : Retells dialing told := by
  intro number address outcome at_number
  refine retells number address outcome ?_
  rw [List.getElem?_append_left (List.getElem?_eq_some_iff.mp at_number).1, at_number]

theorem Retells.last {address : String} {outcome : Option Nat}
    (retells : Retells dialing (told ++ [(address, outcome)])) : dialing told.length address = outcome :=
  retells told.length address outcome List.getElem?_concat_length

/-! ## A turn in a course -/

namespace Course
variable {course : Course} {stage : ChangeStage} {event : ChangeEvent} {step : ChangeStep} {pool : Pool}
variable {party : PartyId} {draft : Draft}

/-- A course in which a change has the lock and has dialed. -/
def underway (course : Course) (dials : Outcomes) : Course where
  pool := { course.pool with lock := lockAt (.closing []) }
  dialed := course.dialed ++ dials.map Prod.fst
  closed := course.closed

/-- A change comes to its turn. -/
theorem carry_entering (free : course.pool.lock = .free) (change : Change) :
    course.carry dialing (.entering change) =
      (course.underway []).carry dialing
        (.drafting (.begin course.pool.settings course.pool.membership change)) := by
  let locked := (course.underway []).pool
  have request : course.pool.advance alone (.entering change) .go = some ⟨locked, .waiting change, none⟩ := by
    rw [Pool.advance, free]
    rfl
  have waits : course.stepped (.entering change) ⟨locked, .waiting change, none⟩ = course.underway [] := by
    simp [stepped, underway, locked]
  have begins : (course.underway []).pool.advance alone (.waiting change) .go =
      some ⟨locked, .drafting (.begin course.pool.settings course.pool.membership change), none⟩ := rfl
  have drafts : ∀ stage,
      (course.underway []).stepped (.waiting change) ⟨locked, stage, none⟩ = course.underway [] := by
    simp [stepped, locked]
  rw [carry_of_advanced request, waits, carry_of_advanced begins, drafts]

theorem stepped_underway (draft : Draft) (stage : ChangeStage) :
    (course.underway dials).stepped (.drafting draft) ⟨(course.underway dials).pool, stage, none⟩ =
      course.underway dials := by
  simp [stepped]

theorem stepped_dialing (address : String) (outcome : Option Nat) (draft : Draft) (stage : ChangeStage) :
    (course.underway dials).stepped (.dialing address draft) ⟨(course.underway dials).pool, stage, none⟩ =
      course.underway (dials ++ [(address, outcome)]) := by
  simp [stepped, underway]

/-- The address of a peer that was dialed is the one that was. -/
def Meets : ChangeStage → ChangeEvent → Prop
  | .dialing address _, .dialed peer => peer.address = address
  | _, _ => True

/-- A step of a change that drafts is a step of it in a course whose dials come to
    the same. -/
theorem carry_underway (advances : pool.Advances party stage event step) (drafts : stage.drafts = true)
    (still : step.stage.drafts = true) (meets : Meets stage event)
    (level : (course.underway dials).dialed.length = told.length)
    (retells : Retells dialing (told ++ Rota.dialed stage event)) :
    (course.underway dials).carry dialing stage =
      (course.underway (dials ++ Rota.dialed stage event)).carry dialing step.stage := by
  have numbered : ∀ {address outcome draft}, Retells dialing (told ++ [(address, outcome)]) →
      (course.underway dials).event dialing (.dialing address draft) =
        match outcome with
        | some id => .dialed ⟨address, id⟩
        | none => .refused := by
    intro address outcome draft retells
    rw [Course.event, level, retells.last]
    cases outcome <;> rfl
  cases advances with
  | @settle draft settled address pending next found =>
    have settles : (course.underway dials).pool.advance alone (.drafting draft) .go =
        some ⟨(course.underway dials).pool, .drafting settled, none⟩ := by
      simp only [Pool.advance, Pool.draft, next, found]
    rw [carry_of_advanced settles, stepped_underway]
    simp only [Rota.dialed, List.append_nil]
  | @dial draft address pending next unknown =>
    have dialsNext : (course.underway dials).pool.advance alone (.drafting draft) .go =
        some ⟨(course.underway dials).pool, .dialing address { draft with pending }, none⟩ := by
      simp only [Pool.advance, Pool.draft, next, unknown]
    rw [carry_of_advanced dialsNext, stepped_underway]
    simp only [Rota.dialed, List.append_nil]
  | enlist address draft peer =>
    obtain rfl : peer.address = address := meets
    have enlists : (course.underway dials).pool.advance alone (.dialing peer.address draft)
        ((course.underway dials).event dialing (.dialing peer.address draft)) =
        some ⟨(course.underway dials).pool, .drafting (draft.enlist peer), none⟩ := by
      rw [numbered retells]
      rfl
    rw [carry_of_advanced enlists, stepped_dialing peer.address (some peer.id)]
    rfl
  | skip address draft =>
    have skips : (course.underway dials).pool.advance alone (.dialing address draft)
        ((course.underway dials).event dialing (.dialing address draft)) =
        some ⟨(course.underway dials).pool, .drafting draft, none⟩ := by
      rw [numbered retells]
      rfl
    rw [carry_of_advanced skips, stepped_dialing address none]
    rfl
  | request | begin | withdraw | close | leave => cases drafts
  | publish | abandon => cases still

/-- A change that has published its draft closes what the draft has dropped, and is over. -/
theorem carry_closing (course : Course) (stale : List Peer) :
    course.carry dialing (.closing stale) =
      (⟨course.pool.unlocked, course.dialed, course.closed ++ stale⟩, .finished) := by
  induction stale generalizing course with
  | nil =>
    have leaves : course.pool.advance alone (.closing []) .go = some ⟨course.pool.unlocked, .finished, none⟩ := rfl
    rw [carry_of_advanced leaves, carry_of_stuck rfl]
    simp [stepped]
  | cons peer rest ih =>
    have closes : course.pool.advance alone (.closing (peer :: rest)) .go =
        some ⟨course.pool, .closing rest, some peer⟩ := rfl
    rw [carry_of_advanced closes, ih]
    simp [stepped]

/-- A draft that has no address left is published. -/
theorem carry_published (course : Course) (next : Membership) (retained : Table String Peer) :
    (course.carry dialing (.drafting ⟨next, retained, []⟩)).1 =
      ⟨{ course.pool.unlocked with membership := next }, course.dialed,
        course.closed ++ course.pool.membership.stale next⟩ := by
  let published : ChangeStep :=
    ⟨{ course.pool with membership := next }, .closing (course.pool.membership.stale next), none⟩
  have publishes : course.pool.advance alone (.drafting ⟨next, retained, []⟩) .go = some published := rfl
  rw [carry_of_advanced publishes, carry_closing]
  simp [stepped, published, Pool.unlocked]

/-- A change that has its draft publishes it, and then only closes links. -/
theorem carry_publishing (dialing : Dialing) (course : Course) (dials : Outcomes) (done : draft.pending = []) :
    ((course.underway dials).carry dialing (.drafting draft)).1.pool.membership = draft.next ∧
      ((course.underway dials).carry dialing (.drafting draft)).1.dialed = course.dialed ++ dials.map Prod.fst := by
  obtain ⟨next, retained, pending⟩ := draft
  cases done
  rw [carry_published]
  exact ⟨rfl, rfl⟩

end Course

/-! ## Parties that have published -/

namespace Rota
variable {t later : Rota} {party other : PartyId} {event : ChangeEvent} {step : ChangeStep}
variable {selfAddress : String} {settings : Settings} {asks : PartyId → Change}

/-- Whether a party that the lock came to has published: its draft is not open any
    more, and it was not cancelled. -/
def served (t : Rota) (party : PartyId) : Bool :=
  !(t.stage party).drafts && !t.cancelled.contains party

/-- The parties that have published, in the order in which the lock came to them. -/
def publishers (t : Rota) : List PartyId :=
  t.turns.filter t.served

/-- What their dials came to. -/
def outcomes (t : Rota) : Outcomes :=
  t.publishers.flatMap t.dials

/-- Their changes, one after another. -/
def course (t : Rota) (selfAddress : String) (settings : Settings) (asks : PartyId → Change) (dialing : Dialing) :
    Course :=
  Course.after dialing selfAddress settings (t.publishers.map asks)

theorem served_acted_of_ne (apart : other ≠ party) : (t.acted party event step).served other = t.served other := by
  rw [served, served, stage_acted_of_ne apart]
  congr 2
  rw [Bool.eq_iff_iff, List.contains_iff_mem, List.contains_iff_mem]
  refine ⟨?_, mem_cancelled_acted⟩
  intro listed
  exact (cancelled_acted_cases listed).resolve_left (fun own => apart own.2)

theorem filter_served_acted {parties : List PartyId} (absent : party ∉ parties) :
    parties.filter (t.acted party event step).served = parties.filter t.served := by
  refine List.filter_congr ?_
  intro other listed
  exact served_acted_of_ne (fun own => absent (own ▸ listed))

theorem dialed_of_not_drafts {stage : ChangeStage} (free : stage.drafts = false) : dialed stage event = [] := by
  cases stage <;> first | rfl | cases free

theorem outcomes_acted (same : (t.acted party event step).publishers = t.publishers) :
    (t.acted party event step).outcomes = t.outcomes := by
  rw [outcomes, outcomes, same, List.flatMap_def, List.flatMap_def]
  refine congrArg List.flatten (List.map_congr_left ?_)
  intro other listed
  by_cases own : other = party
  · have served : t.served party = true := own ▸ (List.mem_filter.mp listed).2
    have free : (t.stage party).drafts = false := by
      rw [Rota.served, Bool.and_eq_true, Bool.not_eq_true'] at served
      exact served.1
    rw [own, dials_acted_self, dialed_of_not_drafts free, List.append_nil]
  · exact dials_acted_of_ne own

theorem Orderly.served_acted (orderly : t.Orderly selfAddress settings asks)
    (advances : t.pool.Advances party (t.stage party) event step) (listed : party ∈ t.turns)
    (still : (t.stage party).drafts = true → step.stage.drafts = true ∨ event = .cancelled) :
    (t.acted party event step).served party = t.served party := by
  have entered := (orderly.stands party).asked
  rw [served, served, stage_acted_self]
  generalize t.stage party = stage at advances still entered
  cases advances with
  | request change | begin change | withdraw change => exact absurd listed (entered change rfl).2.1
  | publish done => exact absurd (still rfl) (by simp [ChangeStage.drafts])
  | abandon address draft => simp [Rota.acted, ChangeStage.drafts]
  | settle | dial | enlist | skip | close | leave => rfl

/-- Unless it publishes, a step leaves who has. -/
theorem Orderly.publishers_acted (orderly : t.Orderly selfAddress settings asks)
    (advances : t.pool.Advances party (t.stage party) event step)
    (still : (t.stage party).drafts = true → step.stage.drafts = true ∨ event = .cancelled) :
    (t.acted party event step).publishers = t.publishers := by
  rcases takes_cases (t.stage party) event with passes | ⟨change, waits, rfl, taken⟩
  · rw [publishers, publishers, turns_acted passes]
    refine List.filter_congr ?_
    intro other listed
    by_cases own : other = party
    · rw [own]
      exact orderly.served_acted advances (own ▸ listed) still
    · exact served_acted_of_ne own
  · obtain ⟨_, absent, _⟩ := (orderly.stands party).asked change (by rw [waits]; rfl)
    have unserved : (t.acted party .go step).served party = false := by
      rw [waits] at advances
      cases advances
      rw [served, stage_acted_self]
      rfl
    rw [publishers, turns_acted_of_takes taken, List.filter_append, filter_served_acted absent]
    simp [publishers, unserved]

/-- A party that publishes is the last one that has. -/
theorem Orderly.publishers_publish (orderly : t.Orderly selfAddress settings asks) {draft : Draft} {stale : List Peer}
    (drafts : t.stage party = .drafting draft) (publishes : step.stage = .closing stale) :
    (t.acted party .go step).publishers = t.publishers ++ [party] := by
  obtain ⟨earlier, last⟩ := (orderly.stands party).last (by rw [drafts]; rfl)
  have absent : party ∉ earlier := by
    have once := orderly.once
    rw [last, List.nodup_append] at once
    exact fun listed => once.2.2 party listed party (List.mem_singleton_self party) rfl
  have before : t.served party = false := by
    rw [served, drafts]
    rfl
  have kept : party ∉ t.cancelled := by
    intro listed
    have finished := (orderly.stands party).gone listed
    rw [drafts] at finished
    cases finished
  have after : (t.acted party .go step).served party = true := by
    rw [served, stage_acted_self, publishes]
    simp [ChangeStage.drafts, Rota.acted, kept]
  rw [publishers, publishers, turns_acted (by rw [drafts]; rfl), last, List.filter_append, List.filter_append,
    filter_served_acted absent]
  simp [before, after]

/-! ## One change after another -/

/-- The membership is the one that the publishers' changes come to one after another,
    and the change that drafts has come as far as it would have after these. -/
structure Serial (selfAddress : String) (settings : Settings) (asks : PartyId → Change) (t : Rota) : Prop where
  ended : ∀ dialing, Retells dialing t.outcomes →
    (t.course selfAddress settings asks dialing).pool.membership = t.pool.membership ∧
      (t.course selfAddress settings asks dialing).dialed = t.outcomes.map Prod.fst
  underway : ∀ party, (t.stage party).drafts = true → ∀ dialing, Retells dialing (t.outcomes ++ t.dials party) →
    (t.course selfAddress settings asks dialing).carry dialing (.entering (asks party)) =
      ((t.course selfAddress settings asks dialing).underway (t.dials party)).carry dialing (t.stage party)

theorem serial_start : (start selfAddress settings asks).Serial selfAddress settings asks where
  ended dialing _ := ⟨rfl, rfl⟩
  underway party drafts := by cases drafts

theorem course_acted (same : (t.acted party event step).publishers = t.publishers) (dialing : Dialing) :
    (t.acted party event step).course selfAddress settings asks dialing =
      t.course selfAddress settings asks dialing := by
  rw [course, course, same]

theorem meets_of_possible (possible : t.Possible party event) : Course.Meets (t.stage party) event := by
  unfold Possible at possible
  generalize t.stage party = stage at possible
  cases stage with
  | dialing address draft =>
    cases event with
    | dialed peer => exact possible.1
    | go | refused | cancelled => trivial
  | entering | waiting | drafting | closing | finished => trivial

/-- A change that the lock came to stands where it would stand after the others. -/
theorem Serial.underway_begin (serial : t.Serial selfAddress settings asks)
    (orderly : t.Orderly selfAddress settings asks) {change : Change} (waits : t.stage party = .waiting change)
    (retells : Retells dialing t.outcomes) :
    (t.course selfAddress settings asks dialing).carry dialing (.entering (asks party)) =
      ((t.course selfAddress settings asks dialing).underway []).carry dialing
        (.drafting (.begin t.pool.settings t.pool.membership change)) := by
  obtain ⟨own, _, _⟩ := (orderly.stands party).asked change (by rw [waits]; rfl)
  have sound := Course.sound_after dialing selfAddress settings (t.publishers.map asks)
  have membership := (serial.ended dialing retells).1
  have set_up : (t.course selfAddress settings asks dialing).pool.settings = t.pool.settings :=
    sound.settings_eq.trans orderly.settings_eq.symm
  rw [← set_up, ← membership, own]
  exact Course.carry_entering sound.lock_eq (asks party)

/-- A step of a change that drafts brings it as far after the others. -/
theorem Serial.underway_acted (serial : t.Serial selfAddress settings asks)
    (possible : t.Possible party event) (advances : t.pool.Advances party (t.stage party) event step)
    (drafts : (t.stage party).drafts = true) (still : step.stage.drafts = true)
    (retells : Retells dialing (t.outcomes ++ (t.dials party ++ dialed (t.stage party) event))) :
    (t.course selfAddress settings asks dialing).carry dialing (.entering (asks party)) =
      ((t.course selfAddress settings asks dialing).underway (t.dials party ++ dialed (t.stage party) event)).carry
        dialing step.stage := by
  rw [← List.append_assoc] at retells
  have level : ((t.course selfAddress settings asks dialing).underway (t.dials party)).dialed.length =
      (t.outcomes ++ t.dials party).length := by
    rw [Course.underway, (serial.ended dialing retells.before.before).2]
    simp
  rw [serial.underway party drafts dialing retells.before]
  exact Course.carry_underway advances drafts still (meets_of_possible possible) level retells

theorem Serial.acted_of_other (serial : t.Serial selfAddress settings asks)
    (same : (t.acted party event step).publishers = t.publishers) (apart : other ≠ party)
    (drafts : (t.stage other).drafts = true) (retells : Retells dialing (t.outcomes ++ t.dials other)) :
    ((t.acted party event step).course selfAddress settings asks dialing).carry dialing (.entering (asks other)) =
      (((t.acted party event step).course selfAddress settings asks dialing).underway
        ((t.acted party event step).dials other)).carry dialing ((t.acted party event step).stage other) := by
  rw [course_acted same, stage_acted_of_ne apart, dials_acted_of_ne apart]
  exact serial.underway other drafts dialing retells

/-- A step that does not publish. -/
theorem Serial.acted_quietly (serial : t.Serial selfAddress settings asks)
    (orderly : t.Orderly selfAddress settings asks) (possible : t.Possible party event)
    (advances : t.pool.Advances party (t.stage party) event step)
    (still : (t.stage party).drafts = true → step.stage.drafts = true ∨ event = .cancelled)
    (quiet : step.pool.membership = t.pool.membership) :
    (t.acted party event step).Serial selfAddress settings asks := by
  have same := orderly.publishers_acted advances still
  constructor
  · intro dialing retells
    rw [outcomes_acted same] at retells ⊢
    rw [course_acted same]
    obtain ⟨membership, dialed⟩ := serial.ended dialing retells
    exact ⟨membership.trans quiet.symm, dialed⟩
  · intro other drafts dialing retells
    rw [outcomes_acted same] at retells
    by_cases own : other = party
    · subst own
      rw [stage_acted_self] at drafts
      rw [dials_acted_self] at retells
      rw [course_acted same, stage_acted_self, dials_acted_self]
      rcases advances.drafts_cases drafts with before | ⟨change, waits, rfl⟩
      · exact serial.underway_acted possible advances before drafts retells
      · have silent := ((orderly.stands other).asked change (by rw [waits]; rfl)).2.2
        rw [waits] at advances
        cases advances
        rw [silent, waits]
        exact serial.underway_begin orderly waits retells.before
    · rw [stage_acted_of_ne own] at drafts
      rw [dials_acted_of_ne own] at retells
      exact serial.acted_of_other same own drafts retells

/-- A step that publishes. -/
theorem Serial.acted_publishing (serial : t.Serial selfAddress settings asks)
    (orderly : t.Orderly selfAddress settings asks) {draft : Draft} {stale : List Peer}
    (drafts : t.stage party = .drafting draft) (done : draft.pending = []) (publishes : step.stage = .closing stale)
    (drafted : step.pool.membership = draft.next) :
    (t.acted party .go step).Serial selfAddress settings asks := by
  have more := orderly.publishers_publish drafts publishes
  have silent : (t.acted party .go step).dials = t.dials := by simp [Rota.acted, drafts, dialed]
  have dials : (t.acted party .go step).outcomes = t.outcomes ++ t.dials party := by
    rw [outcomes, more, silent, List.flatMap_append]
    simp [outcomes]
  constructor
  · intro dialing retells
    rw [dials] at retells ⊢
    have course : (t.acted party .go step).course selfAddress settings asks dialing =
        (t.course selfAddress settings asks dialing).change dialing (asks party) := by
      rw [Rota.course, more, List.map_append, Course.after, List.foldl_append]
      rfl
    obtain ⟨membership, dialed⟩ :=
      Course.carry_publishing dialing (t.course selfAddress settings asks dialing) (t.dials party) done
    rw [course, Course.change, serial.underway party (by rw [drafts]; rfl) dialing retells, drafts]
    refine ⟨membership.trans drafted.symm, dialed.trans ?_⟩
    rw [(serial.ended dialing retells.before).2, List.map_append]
  · intro other also
    by_cases own : other = party
    · rw [own, stage_acted_self, publishes] at also
      cases also
    · rw [stage_acted_of_ne own] at also
      have free : (t.stage other).holds = false := orderly.free_of_ne (by rw [drafts]; rfl) own
      rw [ChangeStage.holds_of_drafts also] at free
      cases free

theorem Serial.acted (serial : t.Serial selfAddress settings asks) (orderly : t.Orderly selfAddress settings asks)
    (possible : t.Possible party event) (advances : t.pool.Advances party (t.stage party) event step) :
    (t.acted party event step).Serial selfAddress settings asks := by
  have quietly := serial.acted_quietly orderly possible advances
  generalize at_stage : t.stage party = stage at advances quietly
  cases advances with
  | publish done => exact serial.acted_publishing orderly at_stage done rfl rfl
  | request | begin | withdraw | close | leave => exact quietly nofun rfl
  | settle | dial | enlist | skip => exact quietly (fun _ => .inl rfl) rfl
  | abandon => exact quietly (fun _ => .inr rfl) rfl

theorem served_reordered {stale order : List Peer} (closes : t.stage party = .closing stale) :
    (t.reordered party order).served = t.served := by
  funext other
  rw [served, served]
  by_cases own : other = party
  · rw [own, stage_reordered_self, closes]
    rfl
  · rw [stage_reordered_of_ne own]
    rfl

theorem Serial.reordered (serial : t.Serial selfAddress settings asks) {stale order : List Peer}
    (closes : t.stage party = .closing stale) : (t.reordered party order).Serial selfAddress settings asks := by
  have same : (t.reordered party order).publishers = t.publishers := by
    rw [publishers, publishers, served_reordered closes]
    rfl
  have outcomes : (t.reordered party order).outcomes = t.outcomes := by
    rw [Rota.outcomes, Rota.outcomes, same]
    rfl
  constructor
  · intro dialing
    rw [outcomes, course, same]
    exact serial.ended dialing
  · intro other drafts dialing
    rw [outcomes, course, same]
    by_cases own : other = party
    · rw [own, stage_reordered_self] at drafts
      cases drafts
    · rw [stage_reordered_of_ne own] at drafts ⊢
      exact serial.underway other drafts dialing

/-! ## All steps -/

/-- All of what holds at any time. -/
structure Sound (selfAddress : String) (settings : Settings) (asks : PartyId → Change) (t : Rota) : Prop where
  orderly : t.Orderly selfAddress settings asks
  tended : t.Tended
  serial : t.Serial selfAddress settings asks

theorem sound_start : (start selfAddress settings asks).Sound selfAddress settings asks :=
  ⟨orderly_start, tended_start, serial_start⟩

theorem Sound.next (sound : t.Sound selfAddress settings asks) (happens : Step t party later) :
    later.Sound selfAddress settings asks := by
  obtain ⟨orderly, tended, serial⟩ := sound
  refine ⟨orderly.next happens, tended.next orderly happens, ?_⟩
  cases happens with
  | act possible advanced => exact serial.acted orderly possible (Pool.advances_of_advance advanced)
  | reorder closes same => exact serial.reordered closes

theorem Sound.run (sound : t.Sound selfAddress settings asks) (run : Run t later) :
    later.Sound selfAddress settings asks := by
  induction run with
  | refl => exact sound
  | tail _ last ih =>
    obtain ⟨party, happens⟩ := last
    exact ih.next happens

theorem Accounted.run {peer : Peer} (accounted : t.Accounted peer) (sound : t.Sound selfAddress settings asks)
    (run : Run t later) : later.Accounted peer := by
  induction run with
  | refl => exact accounted
  | tail before last ih =>
    obtain ⟨party, happens⟩ := last
    exact ih.next (sound.run before).tended happens

theorem Committed.run (committed : t.Committed party) (run : Run t later) : later.Committed party := by
  induction run with
  | refl => exact committed
  | tail _ last ih =>
    obtain ⟨other, happens⟩ := last
    exact ih.next happens

/-- No change runs: each has not begun, or is over. -/
def Rests (t : Rota) : Prop :=
  ∀ party, (∃ change, t.stage party = .entering change) ∨ t.stage party = .finished

theorem Rests.closed_of_accounted {peer : Peer} (rests : t.Rests) (accounted : t.Accounted peer)
    (gone : peer ∉ t.pool.peers) : peer ∈ t.closed := by
  cases accounted with
  | listed listed => exact absurd listed gone
  | closed closed => exact closed
  | stale party stale closes =>
    rcases rests party with ⟨change, enters⟩ | finished
    · rw [closes] at enters
      cases enters
    · rw [closes] at finished
      cases finished

theorem Orderly.mem_publishers_iff (orderly : t.Orderly selfAddress settings asks)
    (finished : t.stage party = .finished) : party ∈ t.publishers ↔ party ∉ t.cancelled := by
  have turned := (orderly.stands party).turned (by rw [finished]; rfl)
  have drafts : (t.stage party).drafts = false := by rw [finished]; rfl
  rw [publishers, List.mem_filter, served, drafts]
  constructor
  · rintro ⟨_, kept⟩
    simpa using kept
  · intro kept
    exact ⟨turned.resolve_left kept, by simpa using kept⟩

/-- Changes of a new pool that run side by side, in whatever order they take their
    steps, whatever their dials come to and wherever they are cancelled. The
    membership is always the one that those that have published come to one after
    another, in the order in which the lock came to them, with the same dials. Those
    that are over have published, once, or were cancelled. No link of the membership
    is closed, and while no change runs, every link that was in the membership once
    is closed if it is not in it any more. No step of a change that is cancelled
    later publishes anything or closes a link. -/
theorem changes_take_turns (run : Run (start selfAddress settings asks) t) :
    let course := Course.after (retold t.outcomes) selfAddress settings (t.publishers.map asks)
    (t.pool.membership = course.pool.membership ∧ course.dialed = t.outcomes.map Prod.fst) ∧
    (t.publishers.Nodup ∧ ∀ party, t.stage party = .finished → (party ∈ t.publishers ↔ party ∉ t.cancelled)) ∧
    (∀ peer ∈ t.pool.peers, peer ∉ t.closed) ∧
    (t.Rests → ∀ earlier peer, Run (start selfAddress settings asks) earlier → Run earlier t →
      peer ∈ earlier.pool.peers → peer ∉ t.pool.peers → peer ∈ t.closed) ∧
    (∀ party ∈ t.cancelled, ∀ before after, Run (start selfAddress settings asks) before →
      Step before party after → Run after t →
        after.pool.membership = before.pool.membership ∧ after.closed = before.closed) := by
  intro course
  have sound : t.Sound selfAddress settings asks := sound_start.run run
  obtain ⟨membership, dialed⟩ := sound.serial.ended _ (retells_retold t.outcomes)
  refine ⟨⟨membership.symm, dialed⟩, ⟨?_, fun _ => sound.orderly.mem_publishers_iff⟩, ?_, ?_, ?_⟩
  · exact sound.orderly.once.filter _
  · exact fun peer listed => (sound.tended.live peer listed).2
  · intro rests earlier peer toEarlier onward listed gone
    exact rests.closed_of_accounted (Accounted.run (.listed listed) (sound_start.run toEarlier) onward) gone
  · intro party cancelled before after toBefore happens onward
    rcases (sound_start.run toBefore).orderly.untouched_or_committed happens with untouched | committed
    · exact untouched
    · exact absurd cancelled (committed.run onward).kept

/-! ## A member that joins and leaves -/

/-- The rota after a party has met an event that makes it take a step. -/
def obey (t : Rota) (party : PartyId) (event : ChangeEvent) : Rota :=
  (t.pool.advance party (t.stage party) event).elim t (t.acted party event)

variable (party event) in
theorem Run.obey {first : Rota} (run : Run first t) (possible : t.Possible party event)
    (goes : (t.pool.advance party (t.stage party) event).isSome = true) : Run first (t.obey party event) := by
  obtain ⟨step, advanced⟩ := Option.isSome_iff_exists.mp goes
  rw [Rota.obey, advanced]
  exact run.tail ⟨party, .act possible advanced⟩

/-- One party adds a member, one removes all, and one would add another. -/
def threeChanges : PartyId → Change
  | 0 => .amend .add ["a"]
  | 1 => .clear
  | _ => .amend .add ["b"]

def threeBegun : Rota :=
  start "self" .standard threeChanges

/-- All three have come to the lock, and the first has it. -/
def threeWaiting : Rota :=
  (((threeBegun.obey 0 .go).obey 1 .go).obey 2 .go).obey 0 .go

/-- The first is done. -/
def joined : Rota :=
  ((((threeWaiting.obey 0 .go).obey 0 (.dialed ⟨"a", 7⟩)).obey 0 .go).obey 0 .go)

/-- The third is cancelled while it waits, and the second is done. -/
def departed : Rota :=
  ((((joined.obey 2 .cancelled).obey 1 .go).obey 1 .go).obey 1 .go).obey 1 .go

theorem run_threeWaiting : Run threeBegun threeWaiting := by
  have first := Run.obey 0 .go (.refl : Run threeBegun threeBegun) trivial rfl
  have second := Run.obey 1 .go first trivial rfl
  have third := Run.obey 2 .go second trivial rfl
  exact Run.obey 0 .go third trivial rfl

theorem run_joined : Run threeWaiting joined := by
  have dials := Run.obey 0 .go (.refl : Run threeWaiting threeWaiting) trivial rfl
  have fresh : (threeWaiting.obey 0 .go).Possible 0 (.dialed ⟨"a", 7⟩) := by
    refine ⟨rfl, ?_⟩
    rintro ⟨_ | _ | _ | party, dialed⟩ <;> cases dialed
  have drafts := Run.obey 0 (.dialed ⟨"a", 7⟩) dials fresh rfl
  have closes := Run.obey 0 .go drafts trivial rfl
  exact Run.obey 0 .go closes trivial rfl

theorem step_cancelled : Step joined 2 (joined.obey 2 .cancelled) :=
  .act trivial rfl

theorem run_departed : Run (joined.obey 2 .cancelled) departed := by
  have drafts := Run.obey 1 .go (.refl : Run (joined.obey 2 .cancelled) _) trivial rfl
  have closing := Run.obey 1 .go drafts trivial rfl
  have closed := Run.obey 1 .go closing trivial rfl
  exact Run.obey 1 .go closed trivial rfl

theorem rests_departed : departed.Rests
  | 0 | 1 | 2 => .inr rfl
  | n + 3 => .inl ⟨threeChanges (n + 3), rfl⟩

/-- The membership is that of the first change and then the second, and the link that
    the first one opened is closed. The third has done nothing. -/
theorem changes_take_turns_of_three :
    Run threeBegun departed ∧ departed.Rests ∧ departed.publishers = [0, 1] ∧
    departed.pool.membership =
      (Course.after (retold [("a", some 7)]) "self" .standard [.amend .add ["a"], .clear]).pool.membership ∧
    ⟨"a", 7⟩ ∈ joined.pool.peers ∧ ⟨"a", 7⟩ ∉ joined.closed ∧ ⟨"a", 7⟩ ∈ departed.closed ∧
    (joined.obey 2 .cancelled).pool.membership = joined.pool.membership := by
  have toJoined : Run threeBegun joined := run_threeWaiting.trans run_joined
  have onward : Run joined departed := run_departed.head ⟨2, step_cancelled⟩
  have whole : Run threeBegun departed := toJoined.trans onward
  obtain ⟨⟨membership, _⟩, _, _, retired, untouched⟩ := changes_take_turns whole
  obtain ⟨_, _, alive, _, _⟩ := changes_take_turns toJoined
  have listed : ⟨"a", 7⟩ ∈ joined.pool.peers := .head _
  exact ⟨whole, rests_departed, rfl, membership, listed, alive _ listed,
    retired rests_departed joined _ toJoined onward listed List.not_mem_nil,
    (untouched 2 (.head _) joined _ toJoined step_cancelled run_departed).1⟩

end Rota

end RingCache
