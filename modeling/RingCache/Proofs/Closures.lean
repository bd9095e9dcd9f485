import RingCache.Proofs.Rota

/-!
# Links that are closed

A draft has at each address the link that the membership has there, if it has one
(`Draft.Follows`). So what a published draft drops, it drops with the address, and
these are the links that are closed then. No link of the membership is ever closed
(`Rota.Tended`), and a link that was in it once is in it, or closed, or about to be
(`Rota.Accounted`). A change that may still be cancelled has done nothing to them.
-/
namespace RingCache

variable {membership : Membership} {settings : Settings} {peer : Peer} {draft settled : Draft} {address : String}
variable {change : Change}

/-! ## Peers of memberships -/

theorem Membership.mem_stale_iff {after : Membership} : peer ∈ membership.stale after ↔
    ∃ address, membership.links.find? address = some peer ∧ after.links.find? address = none := by
  have absent : ∀ address, (!after.links.contains address) = true ↔ after.links.find? address = none := by
    intro address
    rw [Bool.not_eq_true', Table.contains, Option.isSome_eq_false_iff, Option.isNone_iff_eq_none]
  constructor
  · intro stale
    obtain ⟨⟨address, _⟩, kept, rfl⟩ := List.mem_map.mp stale
    obtain ⟨entry, dropped⟩ := List.mem_filter.mp kept
    exact ⟨address, Table.find?_eq_some_iff.mpr entry, (absent address).mp dropped⟩
  · rintro ⟨address, found, dropped⟩
    refine List.mem_map.mpr ⟨(address, peer), List.mem_filter.mpr ⟨Table.find?_eq_some_iff.mp found, ?_⟩, rfl⟩
    exact (absent address).mpr dropped

theorem Membership.find?_enlist {other : Peer} (found : (membership.enlist other).links.find? address = some peer) :
    (peer = other ∧ address = other.address) ∨ membership.links.find? address = some peer := by
  rw [Membership.enlist, Table.find?_insert] at found
  split at found
  next same => exact .inl ⟨(Option.some.inj found).symm, same⟩
  next => exact .inr found

theorem Membership.find?_dismiss {gone : String} (found : (membership.dismiss gone).links.find? address = some peer) :
    membership.links.find? address = some peer := by
  unfold Membership.dismiss at found
  split at found
  · rw [Table.find?_erase] at found
    split at found
    · cases found
    · exact found
  · exact found

theorem Membership.find?_dismissAll {gone : List String}
    (found : (gone.foldl Membership.dismiss membership).links.find? address = some peer) :
    membership.links.find? address = some peer := by
  induction gone generalizing membership with
  | nil => exact found
  | cons first rest ih => exact Membership.find?_dismiss (ih found)

theorem Membership.Sound.find?_of_not_contains (sound : membership.Sound settings)
    (absent : membership.ring.contains address = false) : membership.links.find? address = none := by
  rw [← Option.isNone_iff_eq_none, ← Option.isSome_eq_false_iff]
  change membership.links.contains address = false
  rw [← Bool.not_eq_true, ← sound.contains_iff address, Bool.not_eq_true]
  exact absent

/-! ## Drafts and the membership that they began with -/

/-- A draft has at an address the link that the current membership has there. It
    takes links over from there only, and has to dial only addresses that are not
    there. -/
structure Draft.Follows (current : Membership) (draft : Draft) : Prop where
  kept : ∀ address peer, draft.next.links.find? address = some peer →
    current.links.find? address = none ∨ current.links.find? address = some peer
  retained : ∀ address peer, draft.retained.find? address = some peer → current.links.find? address = some peer
  missed : ∀ address ∈ draft.pending, draft.next.ring.contains address = false →
    draft.retained.find? address = none → current.links.find? address = none

theorem Draft.find?_begin (found : (Draft.begin settings membership change).next.links.find? address = some peer) :
    membership.links.find? address = some peer := by
  match change with
  | .clear => cases found
  | .amend .replace addresses => cases found
  | .amend .add addresses => exact found
  | .amend .remove addresses => exact Membership.find?_dismissAll found

theorem Draft.follows_begin (sound : membership.Sound settings) (change : Change) :
    (Draft.begin settings membership change).Follows membership where
  kept address peer found := .inr (Draft.find?_begin found)
  retained := by
    intro address peer found
    match change with
    | .amend .replace addresses => exact found
    | .clear | .amend .add addresses | .amend .remove addresses => cases found
  missed := by
    intro address pending absent unknown
    match change with
    | .amend .replace addresses => exact unknown
    | .amend .add addresses => exact sound.find?_of_not_contains absent
    | .clear | .amend .remove addresses => cases pending

variable {pending : List String}

theorem Draft.Follows.postpone (follows : draft.Follows membership) (next : draft.pending = address :: pending) :
    { draft with pending }.Follows membership where
  kept := follows.kept
  retained := follows.retained
  missed other listed := follows.missed other (by rw [next]; exact List.mem_cons_of_mem address listed)

theorem Draft.Follows.enlist (follows : draft.Follows membership) (sound : draft.Sound settings)
    (here : membership.links.find? peer.address = none ∨ membership.links.find? peer.address = some peer) :
    (draft.enlist peer).Follows membership where
  kept := by
    intro other linked found
    rcases Membership.find?_enlist found with ⟨rfl, rfl⟩ | before
    · exact here
    · exact follows.kept other linked before
  retained := follows.retained
  missed := by
    intro other listed absent unknown
    refine follows.missed other listed ?_ unknown
    rw [← Bool.not_eq_true] at absent ⊢
    intro present
    refine absent (((sound.next.enlist peer).contains_iff other).mpr ?_)
    rw [Membership.enlist, Table.contains_insert]
    exact .inr ((sound.next.contains_iff other).mp present)

theorem Draft.consider_cases (found : draft.consider address = .settled settled) :
    settled = draft ∨ ∃ peer, draft.retained.find? address = some peer ∧ settled = draft.enlist peer := by
  unfold Draft.consider at found
  split at found
  · cases found
    exact .inl rfl
  · split at found <;> cases found
    next peer retained => exact .inr ⟨peer, retained, rfl⟩

theorem Draft.absent_of_unknown (unknown : draft.consider address = .unknown) :
    draft.next.ring.contains address = false ∧ draft.retained.find? address = none := by
  unfold Draft.consider at unknown
  split at unknown
  · cases unknown
  next absent =>
    split at unknown <;> cases unknown
    next missing => exact ⟨Bool.not_eq_true _ ▸ absent, missing⟩

theorem Draft.Follows.consider (follows : draft.Follows membership) (sound : draft.Sound settings)
    (found : draft.consider address = .settled settled) : settled.Follows membership := by
  rcases Draft.consider_cases found with rfl | ⟨peer, retained, rfl⟩
  · exact follows
  · refine follows.enlist sound (.inr ?_)
    rw [sound.address_eq address peer retained]
    exact follows.retained address peer retained

/-- A link of the membership is in the draft, or is dropped with its address. -/
theorem Draft.Follows.accounted (follows : draft.Follows membership) (listed : peer ∈ membership.peers) :
    peer ∈ draft.next.peers ∨ peer ∈ membership.stale draft.next := by
  obtain ⟨address, found⟩ := Membership.mem_peers_iff.mp listed
  cases kept : draft.next.links.find? address with
  | none => exact .inr (Membership.mem_stale_iff.mpr ⟨address, found, kept⟩)
  | some other =>
    rcases follows.kept address other kept with absent | same
    · rw [found] at absent
      cases absent
    · rw [found] at same
      cases same
      exact .inl (Membership.mem_peers_iff.mpr ⟨address, kept⟩)

theorem Pool.Advances.past {pool : Pool} {party : PartyId} {stage : ChangeStage} {event : ChangeEvent}
    {step : ChangeStep} (advances : pool.Advances party stage event step)
    (past : (∃ stale, stage = .closing stale) ∨ stage = .finished) :
    event = .go ∧ ((∃ stale, step.stage = .closing stale) ∨ step.stage = .finished) := by
  rcases past with ⟨stale, rfl⟩ | rfl
  · cases advances with
    | close peer rest => exact ⟨rfl, .inl ⟨rest, rfl⟩⟩
    | leave => exact ⟨rfl, .inr rfl⟩
  · cases advances

/-! ## Links at any time -/

namespace Rota
variable {t later : Rota} {party other : PartyId} {event : ChangeEvent} {step : ChangeStep} {stage : ChangeStage}
variable {selfAddress : String} {asks : PartyId → Change}

/-- The link of a peer was opened and was not closed. -/
def Live (t : Rota) (peer : Peer) : Prop :=
  t.Opened peer ∧ peer ∉ t.closed

/-- What a stage has to do with the membership. -/
def Fits (t : Rota) : ChangeStage → Prop
  | .drafting draft => draft.Follows t.pool.membership ∧ ∀ peer ∈ draft.next.peers, t.Live peer
  | .dialing address draft => (draft.Follows t.pool.membership ∧ ∀ peer ∈ draft.next.peers, t.Live peer) ∧
      t.pool.membership.links.find? address = none
  | .closing stale => ∀ peer ∈ stale, peer ∉ t.pool.peers ∧ t.Opened peer
  | .entering _ | .waiting _ | .finished => True

/-- No link of the membership is closed, and what parties do fits it. -/
structure Tended (t : Rota) : Prop where
  live : ∀ peer ∈ t.pool.peers, t.Live peer
  opened : ∀ peer ∈ t.closed, t.Opened peer
  fits : ∀ party, t.Fits (t.stage party)

theorem tended_start : (start selfAddress settings asks).Tended where
  live peer listed := by cases listed
  opened peer closed := by cases closed
  fits party := trivial

theorem fits_of_free (free : stage.holds = false) : t.Fits stage := by
  cases stage <;> trivial

theorem Opened.acted (opened : t.Opened peer) : (t.acted party event step).Opened peer := by
  obtain ⟨other, dialed⟩ := opened
  refine ⟨other, ?_⟩
  by_cases own : other = party
  · rw [own, dials_acted_self]
    exact List.mem_append_left _ (own ▸ dialed)
  · rwa [dials_acted_of_ne own]

theorem closed_acted (quiet : step.closes = none) : (t.acted party event step).closed = t.closed := by
  simp [Rota.acted, quiet]

theorem Live.acted (live : t.Live peer) (quiet : step.closes = none) : (t.acted party event step).Live peer :=
  ⟨live.1.acted, by rw [closed_acted quiet]; exact live.2⟩

/-- A step that neither publishes nor closes leaves what fits. -/
theorem Fits.acted (fits : t.Fits stage) (same : step.pool.membership = t.pool.membership)
    (quiet : step.closes = none) : (t.acted party event step).Fits stage := by
  cases stage with
  | drafting draft =>
    obtain ⟨follows, live⟩ := fits
    exact ⟨same ▸ follows, fun peer listed => (live peer listed).acted quiet⟩
  | dialing address draft =>
    obtain ⟨⟨follows, live⟩, absent⟩ := fits
    exact ⟨⟨same ▸ follows, fun peer listed => (live peer listed).acted quiet⟩, same ▸ absent⟩
  | closing stale =>
    intro peer listed
    obtain ⟨dropped, opened⟩ := fits peer listed
    refine ⟨?_, opened.acted⟩
    change peer ∉ step.pool.membership.peers
    rwa [same]
  | entering | waiting | finished => trivial

theorem mem_peers_enlist {new : Peer} (listed : peer ∈ (draft.enlist new).next.peers) :
    peer = new ∨ peer ∈ draft.next.peers := by
  obtain ⟨address, found⟩ := Membership.mem_peers_iff.mp listed
  rcases Membership.find?_enlist found with ⟨same, _⟩ | before
  · exact .inl same
  · exact .inr (Membership.mem_peers_iff.mpr ⟨address, before⟩)

theorem Tended.live_consider (tended : t.Tended) (follows : draft.Follows t.pool.membership)
    (live : ∀ peer ∈ draft.next.peers, t.Live peer) (found : draft.consider address = .settled settled) :
    ∀ peer ∈ settled.next.peers, t.Live peer := by
  intro peer listed
  rcases Draft.consider_cases found with rfl | ⟨kept, retained, rfl⟩
  · exact live peer listed
  · rcases mem_peers_enlist listed with rfl | before
    · exact tended.live peer (Membership.mem_peers_iff.mpr ⟨address, follows.retained address peer retained⟩)
    · exact live peer before

/-- What a published draft drops is not in it, at any address. -/
theorem Tended.dropped (tended : t.Tended) (sound : t.pool.membership.Sound settings)
    (drafted : draft.Sound settings) (stale : peer ∈ t.pool.membership.stale draft.next) :
    peer ∉ draft.next.peers ∧ t.Opened peer := by
  obtain ⟨address, found, absent⟩ := Membership.mem_stale_iff.mp stale
  refine ⟨?_, (tended.live peer (Membership.mem_peers_iff.mpr ⟨address, found⟩)).1⟩
  intro listed
  obtain ⟨other, kept⟩ := Membership.mem_peers_iff.mp listed
  rw [← sound.address_eq address peer found, drafted.next.address_eq other peer kept, kept] at absent
  cases absent

/-- The stage that a step leads to fits the membership after it. -/
theorem Tended.fits_acted (tended : t.Tended) (orderly : t.Orderly selfAddress settings asks)
    (possible : t.Possible party event) (advances : t.pool.Advances party (t.stage party) event step) :
    (t.acted party event step).Fits step.stage := by
  have fits := tended.fits party
  have drafted := (orderly.stands party).drafted
  have published := orderly.published
  generalize at_stage : t.stage party = stage at advances fits drafted
  cases advances with
  | request | withdraw | abandon | leave => trivial
  | begin change held =>
    have set_up := orderly.settings_eq
    refine ⟨set_up ▸ Draft.follows_begin (set_up ▸ published) change, ?_⟩
    intro peer listed
    obtain ⟨address, found⟩ := Membership.mem_peers_iff.mp listed
    exact (tended.live peer (Membership.mem_peers_iff.mpr ⟨address, Draft.find?_begin found⟩)).acted rfl
  | settle next found =>
    obtain ⟨follows, live⟩ := fits
    have postponed := follows.postpone next
    refine ⟨postponed.consider (drafted.postpone _) found, ?_⟩
    intro peer listed
    exact (tended.live_consider postponed live found peer listed).acted rfl
  | @dial draft address pending next unknown =>
    obtain ⟨follows, live⟩ := fits
    obtain ⟨absent, missing⟩ := Draft.absent_of_unknown unknown
    refine ⟨⟨follows.postpone next, fun peer listed => (live peer listed).acted rfl⟩, ?_⟩
    exact follows.missed address (by rw [next]; exact List.mem_cons_self) absent missing
  | publish done =>
    intro peer stale
    obtain ⟨dropped, opened⟩ := tended.dropped published drafted stale
    exact ⟨dropped, opened.acted⟩
  | enlist address draft new =>
    obtain ⟨⟨follows, live⟩, absent⟩ := fits
    simp only [Possible, at_stage] at possible
    obtain ⟨rfl, fresh⟩ := possible
    refine ⟨follows.enlist drafted (.inl absent), ?_⟩
    intro peer listed
    rcases mem_peers_enlist listed with rfl | before
    · refine ⟨⟨party, ?_⟩, ?_⟩
      · rw [dials_acted_self, at_stage]
        exact List.mem_append_right _ (List.mem_singleton_self _)
      · rw [closed_acted rfl]
        exact fun closed => fresh (tended.opened peer closed)
    · exact (live peer before).acted rfl
  | skip address draft =>
    obtain ⟨⟨follows, live⟩, _⟩ := fits
    exact ⟨follows, fun peer listed => (live peer listed).acted rfl⟩
  | close gone rest =>
    intro peer listed
    obtain ⟨dropped, opened⟩ := fits peer (List.mem_cons_of_mem gone listed)
    exact ⟨dropped, opened.acted⟩

theorem Tended.live_acted (tended : t.Tended) (advances : t.pool.Advances party (t.stage party) event step) :
    ∀ peer ∈ step.pool.peers, (t.acted party event step).Live peer := by
  have fits := tended.fits party
  generalize t.stage party = stage at advances fits
  cases advances with
  | publish done => exact fun peer listed => (fits.2 peer listed).acted rfl
  | close gone rest =>
    intro peer listed
    obtain ⟨opened, alive⟩ := tended.live peer listed
    refine ⟨opened.acted, ?_⟩
    intro closed
    rcases List.mem_append.mp closed with before | now
    · exact alive before
    · rw [List.mem_singleton.mp now] at listed
      exact (fits gone List.mem_cons_self).1 listed
  | request | begin | withdraw | settle | dial | enlist | skip | abandon | leave =>
    exact fun peer listed => (tended.live peer listed).acted rfl

theorem Tended.opened_acted (tended : t.Tended) (advances : t.pool.Advances party (t.stage party) event step) :
    ∀ peer ∈ (t.acted party event step).closed, (t.acted party event step).Opened peer := by
  have fits := tended.fits party
  generalize t.stage party = stage at advances fits
  intro peer closed
  rcases List.mem_append.mp closed with before | now
  · exact (tended.opened peer before).acted
  · cases advances with
    | close gone rest =>
      rw [List.mem_singleton.mp now]
      exact (fits gone List.mem_cons_self).2.acted
    | request | begin | withdraw | settle | dial | publish | enlist | skip | abandon | leave => cases now

/-- A step that publishes or closes is one of the holder, and to nobody else's stage
    does the membership matter then. -/
theorem Tended.fits_other (tended : t.Tended) (orderly : t.Orderly selfAddress settings asks)
    (advances : t.pool.Advances party (t.stage party) event step) (apart : other ≠ party) :
    (t.acted party event step).Fits (t.stage other) := by
  have alone : (t.stage party).holds = true → other ≠ party → (t.stage other).holds = false := orderly.free_of_ne
  generalize t.stage party = stage at advances alone
  cases advances with
  | publish | close => exact fits_of_free (alone rfl apart)
  | request | begin | withdraw | settle | dial | enlist | skip | abandon | leave =>
    exact (tended.fits other).acted rfl rfl

theorem Tended.reordered (tended : t.Tended) {stale order : List Peer} (closes : t.stage party = .closing stale)
    (same : stale.Perm order) : (t.reordered party order).Tended := by
  refine ⟨tended.live, tended.opened, ?_⟩
  intro other
  by_cases own : other = party
  · have fits := tended.fits party
    rw [closes] at fits
    rw [own, stage_reordered_self]
    exact fun peer listed => fits peer (same.mem_iff.mpr listed)
  · rw [stage_reordered_of_ne own]
    have fits := tended.fits other
    generalize t.stage other = stage at fits
    cases stage <;> exact fits

theorem Tended.next (tended : t.Tended) (orderly : t.Orderly selfAddress settings asks)
    (happens : Step t party later) : later.Tended := by
  cases happens with
  | reorder closes same => exact tended.reordered closes same
  | act possible advanced =>
    have advances := Pool.advances_of_advance advanced
    refine ⟨tended.live_acted advances, tended.opened_acted advances, ?_⟩
    intro other
    by_cases own : other = party
    · rw [own, stage_acted_self]
      exact tended.fits_acted orderly possible advances
    · rw [stage_acted_of_ne own]
      exact tended.fits_other orderly advances own

/-! ## Links that were in the membership once -/

/-- The link of a peer is in the membership, or closed, or a party is about to close
    it. -/
inductive Accounted (peer : Peer) (t : Rota) : Prop where
  | listed (listed : peer ∈ t.pool.peers)
  | closed (closed : peer ∈ t.closed)
  | stale (party : PartyId) (stale : List Peer) (closes : t.stage party = .closing stale) (among : peer ∈ stale)

theorem Accounted.next (accounted : t.Accounted peer) (tended : t.Tended)
    (happens : Step t party later) : later.Accounted peer := by
  cases happens with
  | @reorder stale order closes same =>
    cases accounted with
    | listed listed => exact .listed listed
    | closed closed => exact .closed closed
    | stale other peers also among =>
      by_cases own : other = party
      · rw [own, closes] at also
        cases also
        exact .stale party order stage_reordered_self (same.mem_iff.mp among)
      · exact .stale other peers (by rw [stage_reordered_of_ne own, also]) among
  | @act event step possible advanced =>
    have advances := Pool.advances_of_advance advanced
    have fits := tended.fits party
    cases accounted with
    | closed closed => exact .closed (List.mem_append_left _ closed)
    | listed listed =>
      generalize t.stage party = stage at advances fits
      cases advances with
      | publish done =>
        rcases fits.1.accounted listed with kept | dropped
        · exact .listed kept
        · exact .stale party _ stage_acted_self dropped
      | request | begin | withdraw | settle | dial | enlist | skip | abandon | close | leave => exact .listed listed
    | stale other peers closes among =>
      by_cases own : other = party
      · rw [← own, closes] at advances
        cases advances with
        | leave => cases among
        | close gone rest =>
          rcases List.mem_cons.mp among with rfl | later
          · exact .closed (List.mem_append_right _ (List.mem_singleton_self peer))
          · exact .stale party rest stage_acted_self later
      · exact .stale other peers (by rw [stage_acted_of_ne own, closes]) among

/-! ## Changes that may still be cancelled -/

/-- A party that has published its draft, and was not cancelled. -/
structure Committed (t : Rota) (party : PartyId) : Prop where
  past : (∃ stale, t.stage party = .closing stale) ∨ t.stage party = .finished
  kept : party ∉ t.cancelled

/-- A step that publishes or closes is one after which the party is not cancelled any
    more. -/
theorem Orderly.untouched_or_committed (orderly : t.Orderly selfAddress settings asks)
    (happens : Step t party later) :
    (later.pool.membership = t.pool.membership ∧ later.closed = t.closed) ∨ later.Committed party := by
  cases happens with
  | reorder closes same => exact .inl ⟨rfl, rfl⟩
  | @act event step possible advanced =>
    have advances := Pool.advances_of_advance advanced
    have gone := (orderly.stands party).gone
    generalize at_stage : t.stage party = stage at advances gone
    cases advances with
    | publish done => exact .inr ⟨.inl ⟨_, stage_acted_self⟩, fun listed => nomatch gone listed⟩
    | close peer rest => exact .inr ⟨.inl ⟨_, stage_acted_self⟩, fun listed => nomatch gone listed⟩
    | request | begin | withdraw | settle | dial | enlist | skip | abandon | leave =>
      exact .inl ⟨rfl, closed_acted rfl⟩

theorem Committed.next (committed : t.Committed party) (happens : Step t other later) : later.Committed party := by
  obtain ⟨past, kept⟩ := committed
  cases happens with
  | @reorder stale order closes same =>
    by_cases own : party = other
    · exact ⟨.inl ⟨order, by rw [own, stage_reordered_self]⟩, kept⟩
    · exact ⟨by rwa [stage_reordered_of_ne own], kept⟩
  | @act event step possible advanced =>
    by_cases own : party = other
    · subst own
      obtain ⟨rfl, after⟩ := (Pool.advances_of_advance advanced).past past
      exact ⟨by rwa [stage_acted_self], kept⟩
    · refine ⟨by rwa [stage_acted_of_ne own], ?_⟩
      intro listed
      rcases cancelled_acted_cases listed with ⟨_, same⟩ | before
      · exact own same
      · exact kept before

end Rota

end RingCache
