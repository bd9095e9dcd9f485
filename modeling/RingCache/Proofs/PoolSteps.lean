import RingCache.Pool
import RingCache.Proofs.Owner

/-!
# Steps of a change

What one step of a change can do is listed once (`Pool.Advances`). In a sound
membership the links are stored under the addresses of their peers, and the ring
is the ring of those addresses. All drafts of a change are sound if the
membership is that it begins with, so whatever step publishes, publishes a sound
membership (`Pool.Advances.sound`).
-/
namespace RingCache

/-- What one step of a change of a pool does, by where the change stands and what
    makes it go on. -/
inductive Pool.Advances (pool : Pool) (party : PartyId) : ChangeStage → ChangeEvent → ChangeStep → Prop where
  | request (change : Change) :
      Advances pool party (.entering change) .go
        ⟨{ pool with lock := pool.lock.request party }, .waiting change, none⟩
  | begin (change : Change) (held : pool.lock.heldBy party = true) :
      Advances pool party (.waiting change) .go
        ⟨pool, .drafting (.begin pool.settings pool.membership change), none⟩
  | withdraw (change : Change) :
      Advances pool party (.waiting change) .cancelled
        ⟨{ pool with lock := pool.lock.withdraw party }, .finished, none⟩
  | settle {draft settled : Draft} {address : String} {pending : List String}
      (next : draft.pending = address :: pending)
      (found : { draft with pending }.consider address = .settled settled) :
      Advances pool party (.drafting draft) .go ⟨pool, .drafting settled, none⟩
  | dial {draft : Draft} {address : String} {pending : List String}
      (next : draft.pending = address :: pending)
      (unknown : { draft with pending }.consider address = .unknown) :
      Advances pool party (.drafting draft) .go ⟨pool, .dialing address { draft with pending }, none⟩
  | publish {draft : Draft} (done : draft.pending = []) :
      Advances pool party (.drafting draft) .go
        ⟨{ pool with membership := draft.next }, .closing (pool.membership.stale draft.next), none⟩
  | enlist (address : String) (draft : Draft) (peer : Peer) :
      Advances pool party (.dialing address draft) (.dialed peer) ⟨pool, .drafting (draft.enlist peer), none⟩
  | skip (address : String) (draft : Draft) :
      Advances pool party (.dialing address draft) .refused ⟨pool, .drafting draft, none⟩
  | abandon (address : String) (draft : Draft) :
      Advances pool party (.dialing address draft) .cancelled ⟨pool.unlocked, .finished, none⟩
  | close (peer : Peer) (rest : List Peer) :
      Advances pool party (.closing (peer :: rest)) .go ⟨pool, .closing rest, some peer⟩
  | leave :
      Advances pool party (.closing []) .go ⟨pool.unlocked, .finished, none⟩

variable {pool : Pool} {party : PartyId} {stage : ChangeStage} {event : ChangeEvent} {step : ChangeStep}
variable {settings : Settings} {membership : Membership} {draft settled : Draft} {address : String}

theorem Pool.advances_draft (pool : Pool) (party : PartyId) (draft : Draft) :
    pool.Advances party (.drafting draft) .go (pool.draft draft) := by
  unfold Pool.draft
  split
  next done => exact .publish done
  next address pending next =>
    dsimp only
    split
    next settled found => exact .settle next found
    next unknown => exact .dial next unknown

theorem Pool.advances_of_advance (advanced : pool.advance party stage event = some step) :
    pool.Advances party stage event step := by
  unfold Pool.advance at advanced
  split at advanced
  case h_2 change =>
    split at advanced
    next held =>
      cases advanced
      exact .begin change held
    next => cases advanced
  all_goals cases advanced
  · exact .request _
  · exact .withdraw _
  · exact pool.advances_draft party _
  · exact .enlist _ _ _
  · exact .skip _ _
  · exact .abandon _ _
  · exact .close _ _
  · exact .leave

/-! ## Sound memberships -/

/-- Links are stored under the addresses of their peers, and the ring is the ring
    of those addresses. -/
structure Membership.Sound (settings : Settings) (membership : Membership) : Prop where
  placed : Ring.Placed settings.hash (max settings.replicas 1) {a | membership.links.contains a = true}
    membership.ring
  address_eq : ∀ address peer, membership.links.find? address = some peer → peer.address = address

theorem Membership.mem_peers_iff {peer : Peer} : peer ∈ membership.peers ↔
    ∃ address, membership.links.find? address = some peer := by
  constructor
  · intro listed
    obtain ⟨⟨address, _⟩, entry, rfl⟩ := List.mem_map.mp listed
    exact ⟨address, Table.find?_eq_some_iff.mpr entry⟩
  · rintro ⟨address, found⟩
    exact List.mem_map.mpr ⟨(address, peer), Table.find?_eq_some_iff.mp found, rfl⟩

theorem Membership.sound_empty (settings : Settings) : (Membership.empty settings).Sound settings where
  placed := by
    have nobody : {a | (Membership.empty settings).links.contains a = true} = ∅ :=
      Set.eq_empty_of_forall_notMem (fun a listed => Bool.false_ne_true listed)
    rw [nobody]
    exact Ring.placed_empty settings.hash settings.replicas
  address_eq address peer found := by cases found

theorem Membership.Sound.enlist (sound : membership.Sound settings) (peer : Peer) :
    (membership.enlist peer).Sound settings where
  placed := by
    have joined : {a | (membership.enlist peer).links.contains a = true} =
        insert peer.address {a | membership.links.contains a = true} :=
      Set.ext (fun a => Table.contains_insert membership.links peer.address a peer)
    rw [joined]
    exact sound.placed.add peer.address
  address_eq address other found := by
    rw [Membership.enlist, Table.find?_insert] at found
    split at found
    next same =>
      cases found
      exact same.symm
    next => exact sound.address_eq address other found

theorem Membership.Sound.dismiss (sound : membership.Sound settings) (address : String) :
    (membership.dismiss address).Sound settings := by
  unfold Membership.dismiss
  split
  next =>
    constructor
    · have left : {a | (membership.links.erase address).contains a = true} =
          {a | membership.links.contains a = true} \ {address} := by
        ext a
        rw [Set.mem_sdiff, Set.mem_singleton_iff, and_comm]
        exact Table.contains_erase membership.links address a
      dsimp only
      rw [left]
      exact sound.placed.remove address
    · intro other peer found
      rw [Table.find?_erase] at found
      split at found
      · cases found
      · exact sound.address_eq other peer found
  next => exact sound

theorem Membership.Sound.dismissAll (sound : membership.Sound settings) (addresses : List String) :
    (addresses.foldl Membership.dismiss membership).Sound settings := by
  induction addresses generalizing membership with
  | nil => exact sound
  | cons address rest ih => exact ih (sound.dismiss address)

theorem Membership.Sound.contains_iff (sound : membership.Sound settings) (address : String) :
    membership.ring.contains address = true ↔ membership.links.contains address = true :=
  sound.placed.contains_iff address

/-! ## Sound drafts -/

/-- A draft is sound if its membership is, and if the peers that it may take over
    are listed under their addresses. -/
structure Draft.Sound (settings : Settings) (draft : Draft) : Prop where
  next : draft.next.Sound settings
  address_eq : ∀ address peer, draft.retained.find? address = some peer → peer.address = address

theorem Draft.sound_begin (sound : membership.Sound settings) (change : Change) :
    (Draft.begin settings membership change).Sound settings := by
  have nobody : ∀ (address : String) (peer : Peer), (Table.empty : Table String Peer).find? address = some peer →
      peer.address = address := by
    intro address peer found
    cases found
  match change with
  | .clear => exact ⟨Membership.sound_empty settings, nobody⟩
  | .amend .replace addresses => exact ⟨Membership.sound_empty settings, sound.address_eq⟩
  | .amend .add addresses => exact ⟨sound, nobody⟩
  | .amend .remove addresses => exact ⟨sound.dismissAll addresses, nobody⟩

theorem Draft.Sound.enlist (sound : draft.Sound settings) (peer : Peer) : (draft.enlist peer).Sound settings :=
  ⟨sound.next.enlist peer, sound.address_eq⟩

theorem Draft.Sound.postpone (sound : draft.Sound settings) (pending : List String) :
    { draft with pending }.Sound settings :=
  ⟨sound.next, sound.address_eq⟩

theorem Draft.Sound.consider (sound : draft.Sound settings) (found : draft.consider address = .settled settled) :
    settled.Sound settings := by
  unfold Draft.consider at found
  split at found
  · cases found
    exact sound
  · split at found <;> cases found
    next peer _ => exact sound.enlist peer

/-! ## Sound stages -/

/-- The draft of a change is sound, if there is one. -/
def ChangeStage.Sound (settings : Settings) : ChangeStage → Prop
  | .drafting draft => draft.Sound settings
  | .dialing _ draft => draft.Sound settings
  | _ => True

/-- A step leaves who the pool is of and how it is set up, and keeps the
    membership and the draft sound. -/
theorem Pool.Advances.sound (advances : pool.Advances party stage event step)
    (published : pool.membership.Sound pool.settings) (drafted : stage.Sound pool.settings) :
    step.pool.selfAddress = pool.selfAddress ∧ step.pool.settings = pool.settings ∧
      step.pool.membership.Sound pool.settings ∧ step.stage.Sound pool.settings := by
  cases advances with
  | request change => exact ⟨rfl, rfl, published, trivial⟩
  | begin change held => exact ⟨rfl, rfl, published, Draft.sound_begin published change⟩
  | withdraw change => exact ⟨rfl, rfl, published, trivial⟩
  | settle next found => exact ⟨rfl, rfl, published, (drafted.postpone _).consider found⟩
  | dial next unknown => exact ⟨rfl, rfl, published, drafted.postpone _⟩
  | publish done => exact ⟨rfl, rfl, drafted.next, trivial⟩
  | enlist address draft peer => exact ⟨rfl, rfl, published, drafted.enlist peer⟩
  | skip address draft => exact ⟨rfl, rfl, published, drafted⟩
  | abandon address draft => exact ⟨rfl, rfl, published, trivial⟩
  | close peer rest => exact ⟨rfl, rfl, published, trivial⟩
  | leave => exact ⟨rfl, rfl, published, trivial⟩

end RingCache
