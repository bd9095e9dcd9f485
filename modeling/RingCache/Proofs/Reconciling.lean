import RingCache.Proofs.Turns

/-!
# What a change of membership comes to

A change that nothing overlaps with goes through its addresses one by one and
comes to one expression (`Course.change_eq`): its draft has each address that it met
and that was a member or could be dialed (`Gathered`). So a membership that is
replaced keeps the links of the members that are listed, gets one new link for every
other listed address that can be dialed, and loses the rest; and adding or removing
members is replacing the membership by the right list (`Rota.change_reconciles`).
-/
namespace RingCache

variable {settings : Settings} {membership before next : Membership} {address : String} {peer : Peer}

/-! ## Memberships by their links -/

theorem Ring.contains_add (ring : Ring) (address other : String) :
    (ring.add address).contains other = true ↔ other = address ∨ ring.contains other = true := by
  unfold Ring.add
  split
  next already =>
    constructor
    · exact .inr
    · rintro (rfl | listed)
      · exact already
      · exact listed
  next => exact Roster.add_contains ring.nodes address other

theorem Membership.contains_enlist (membership : Membership) (peer : Peer) (address : String) :
    (membership.enlist peer).ring.contains address = true ↔
      address = peer.address ∨ membership.ring.contains address = true :=
  Ring.contains_add membership.ring peer.address address

theorem Membership.links_enlist (membership : Membership) (peer : Peer) (address : String) :
    (membership.enlist peer).links.find? address =
      if address = peer.address then some peer else membership.links.find? address :=
  Table.find?_insert membership.links peer.address address peer

/-- The links determine a sound membership. -/
theorem Membership.Sound.ext (sound : membership.Sound settings) (also : next.Sound settings)
    (same : ∀ address, membership.links.find? address = next.links.find? address) : membership = next := by
  obtain ⟨ring, links⟩ := membership
  obtain ⟨ring', links'⟩ := next
  obtain rfl : links = links' := Table.ext_find? same
  obtain rfl : ring = ring' := sound.placed.eq also.placed
  rfl

theorem Membership.Sound.find?_eq_none_iff (sound : membership.Sound settings) :
    membership.links.find? address = none ↔ ¬ membership.ring.contains address = true := by
  rw [sound.contains_iff, Table.contains, Option.not_isSome_iff_eq_none]

theorem Membership.Sound.contains_of_find? (sound : membership.Sound settings)
    (found : membership.links.find? address = some peer) : membership.ring.contains address = true := by
  rw [sound.contains_iff, Table.contains, found]
  rfl

theorem Membership.Sound.contains_address (sound : membership.Sound settings) (listed : peer ∈ membership.peers) :
    membership.ring.contains peer.address = true := by
  obtain ⟨address, found⟩ := Membership.mem_peers_iff.mp listed
  rw [sound.address_eq address peer found]
  exact sound.contains_of_find? found

theorem Membership.Sound.find?_dismissAll (sound : membership.Sound settings) (gone : List String)
    (address : String) : (gone.foldl Membership.dismiss membership).links.find? address =
      if address ∈ gone then none else membership.links.find? address := by
  induction gone generalizing membership with
  | nil => simp
  | cons first rest ih =>
    have one : (membership.dismiss first).links.find? address =
        if address = first then none else membership.links.find? address := by
      unfold Membership.dismiss
      split
      · exact Table.find?_erase membership.links first address
      next absent =>
        split
        next same => rw [same, sound.find?_eq_none_iff.mpr absent]
        next => rfl
    rw [List.foldl_cons, ih (sound.dismiss first), one]
    by_cases here : address = first
    · simp [here]
    · simp [here]

theorem Pool.mem_members_iff {pool : Pool} :
    address ∈ pool.members ↔ pool.membership.ring.contains address = true :=
  Roster.mem_names

/-! ## Going through a list of addresses -/

/-- The addresses in `D`, and no others, can be dialed at any time. -/
def Reaches (dialing : Dialing) (D : Set String) : Prop :=
  ∀ number address, (dialing number address).isSome = true ↔ address ∈ D

/-- What an address brings to a draft and to the addresses that were dialed. If the
    draft does not have it, it brings the link that is retained for it or, if there is
    none, the one that a dial opens. -/
def recruit (dialing : Dialing) (retained : Table String Peer) (state : Membership × List String)
    (address : String) : Membership × List String :=
  if state.1.ring.contains address then state
  else match retained.find? address with
    | some peer => (state.1.enlist peer, state.2)
    | none =>
      ((dialing state.2.length address).elim state.1 (fun id => state.1.enlist ⟨address, id⟩), state.2 ++ [address])

variable {dialing : Dialing} {retained : Table String Peer} {state : Membership × List String}

theorem contains_recruit (present : state.1.ring.contains address = true) (other : String) :
    (recruit dialing retained state other).1.ring.contains address = true := by
  unfold recruit
  split
  · exact present
  · split
    · exact (Membership.contains_enlist _ _ _).mpr (.inr present)
    · cases dialing state.2.length other with
      | none => exact present
      | some id => exact (Membership.contains_enlist _ _ _).mpr (.inr present)

/-- Addresses that a draft has are not looked up among the retained links. -/
theorem foldl_recruit_congr {other : Table String Peer}
    (agree : ∀ address, ¬ state.1.ring.contains address = true → retained.find? address = other.find? address)
    (addresses : List String) :
    addresses.foldl (recruit dialing retained) state = addresses.foldl (recruit dialing other) state := by
  induction addresses generalizing state with
  | nil => rfl
  | cons first rest ih =>
    have same : recruit dialing retained state first = recruit dialing other state first := by
      unfold recruit
      split
      next => rfl
      next absent => rw [agree first absent]
    rw [List.foldl_cons, List.foldl_cons, same]
    -- The draft only grows, so there are ever fewer addresses on which to agree.
    refine ih ?_
    intro address absent
    exact agree address (fun present => absent (contains_recruit present first))

/-! ## What was gathered -/

/-- What a draft has after it met the addresses in `seen`, if it takes over the links of
    `before` and may dial the addresses in `D`; `earlier` dials were made before those
    in `dials`. -/
structure Gathered (settings : Settings) (dialing : Dialing) (D : Set String) (before : Membership) (earlier : Nat)
    (seen : List String) (next : Membership) (dials : List String) : Prop where
  sound : next.Sound settings
  listed : ∀ address, next.ring.contains address = true ↔
    address ∈ seen ∧ (before.ring.contains address = true ∨ address ∈ D)
  kept : ∀ address ∈ seen, before.ring.contains address = true →
    next.links.find? address = before.links.find? address
  dialed : ∀ address ∈ dials, address ∈ seen ∧ ¬ before.ring.contains address = true
  opened : ∀ address, next.ring.contains address = true → ¬ before.ring.contains address = true →
    dials.count address = 1 ∧ ∃ id, dialing (earlier + dials.idxOf address) address = some id ∧
      next.links.find? address = some ⟨address, id⟩

variable {D : Set String} {earlier : Nat} {seen dials : List String}

theorem gathered_empty (settings : Settings) (dialing : Dialing) (D : Set String) (before : Membership)
    (earlier : Nat) : Gathered settings dialing D before earlier [] (.empty settings) [] where
  sound := Membership.sound_empty settings
  listed _ := iff_of_false Bool.false_ne_true (fun both => List.not_mem_nil both.1)
  kept _ met := absurd met List.not_mem_nil
  dialed _ met := absurd met List.not_mem_nil
  opened _ present := absurd present Bool.false_ne_true

/-- An address that the draft has already changes nothing. -/
theorem Gathered.again (gathered : Gathered settings dialing D before earlier seen next dials)
    (present : next.ring.contains address = true) :
    Gathered settings dialing D before earlier (seen ++ [address]) next dials := by
  obtain ⟨met, _⟩ := (gathered.listed address).mp present
  have same : ∀ other, other ∈ seen ++ [address] ↔ other ∈ seen := by
    intro other
    rw [List.mem_append, List.mem_singleton]
    constructor
    · rintro (listed | rfl)
      · exact listed
      · exact met
    · exact .inl
  exact {
    sound := gathered.sound
    listed := fun other => by rw [same, gathered.listed]
    kept := fun other listed => gathered.kept other ((same other).mp listed)
    dialed := fun other listed => (gathered.dialed other listed).imp_left (same other).mpr
    opened := gathered.opened }

/-- A link is taken over. -/
theorem Gathered.take (gathered : Gathered settings dialing D before earlier seen next dials)
    (found : before.links.find? address = some peer) (sound : before.Sound settings) :
    Gathered settings dialing D before earlier (seen ++ [address]) (next.enlist peer) dials := by
  obtain rfl : peer.address = address := sound.address_eq address peer found
  have member := sound.contains_of_find? found
  refine ⟨gathered.sound.enlist peer, ?_, ?_, ?_, ?_⟩
  · intro other
    rw [Membership.contains_enlist, gathered.listed, List.mem_append, List.mem_singleton]
    by_cases here : other = peer.address
    · simp [here, member]
    · simp [here]
  · intro other met among
    rw [Membership.links_enlist]
    split
    next here => rw [here, found]
    next apart =>
      rw [List.mem_append, List.mem_singleton] at met
      exact gathered.kept other (met.resolve_right apart) among
  · intro other met
    exact (gathered.dialed other met).imp_left (List.mem_append_left _)
  · intro other present strange
    have apart : other ≠ peer.address := by
      rintro rfl
      exact strange member
    rw [Membership.links_enlist, if_neg apart]
    exact gathered.opened other (((Membership.contains_enlist _ _ _).mp present).resolve_left apart) strange

theorem Gathered.dialed_append (gathered : Gathered settings dialing D before earlier seen next dials)
    (strange : ¬ before.ring.contains address = true) :
    ∀ other ∈ dials ++ [address], other ∈ seen ++ [address] ∧ ¬ before.ring.contains other = true := by
  intro other met
  rcases List.mem_append.mp met with sooner | now
  · exact (gathered.dialed other sooner).imp_left (List.mem_append_left _)
  · cases List.mem_singleton.mp now
    exact ⟨List.mem_append_right _ now, strange⟩

/-- A later dial leaves the numbers of the others. -/
theorem Gathered.opened_append (gathered : Gathered settings dialing D before earlier seen next dials)
    {other : String} (apart : other ≠ address) (present : next.ring.contains other = true)
    (new : ¬ before.ring.contains other = true) :
    (dials ++ [address]).count other = 1 ∧
      ∃ id, dialing (earlier + (dials ++ [address]).idxOf other) other = some id ∧
        next.links.find? other = some ⟨other, id⟩ := by
  obtain ⟨once, link⟩ := gathered.opened other present new
  have met : other ∈ dials := List.count_pos_iff.mp (by omega)
  rw [List.count_append, List.count_singleton, List.idxOf_append, if_pos met]
  refine ⟨?_, link⟩
  simp [once, Ne.symm apart]

/-- A dial fails. -/
theorem Gathered.refuse (gathered : Gathered settings dialing D before earlier seen next dials)
    (absent : ¬ next.ring.contains address = true) (strange : ¬ before.ring.contains address = true)
    (unreachable : address ∉ D) :
    Gathered settings dialing D before earlier (seen ++ [address]) next (dials ++ [address]) := by
  refine ⟨gathered.sound, ?_, ?_, gathered.dialed_append strange, ?_⟩
  · intro other
    rw [gathered.listed, List.mem_append, List.mem_singleton]
    by_cases here : other = address
    · simp [here, strange, unreachable]
    · simp [here]
  · intro other met among
    rcases List.mem_append.mp met with sooner | now
    · exact gathered.kept other sooner among
    · cases List.mem_singleton.mp now
      exact absurd among strange
  · intro other present new
    exact gathered.opened_append (fun here => absent (here ▸ present)) present new

/-- A dial opens a link. -/
theorem Gathered.link (gathered : Gathered settings dialing D before earlier seen next dials)
    (absent : ¬ next.ring.contains address = true) (strange : ¬ before.ring.contains address = true)
    (reachable : address ∈ D) {id : Nat} (comes : dialing (earlier + dials.length) address = some id) :
    Gathered settings dialing D before earlier (seen ++ [address]) (next.enlist ⟨address, id⟩)
      (dials ++ [address]) := by
  -- If it had been dialed before, the draft would have it.
  have first : address ∉ dials := by
    intro met
    exact absent ((gathered.listed address).mpr ⟨(gathered.dialed address met).1, .inr reachable⟩)
  refine ⟨gathered.sound.enlist ⟨address, id⟩, ?_, ?_, gathered.dialed_append strange, ?_⟩
  · intro other
    rw [Membership.contains_enlist, gathered.listed, List.mem_append, List.mem_singleton]
    by_cases here : other = address
    · simp [here, reachable]
    · simp [here]
  · intro other met among
    have apart : other ≠ address := by
      rintro rfl
      exact strange among
    rw [List.mem_append, List.mem_singleton] at met
    rw [Membership.links_enlist, if_neg apart]
    exact gathered.kept other (met.resolve_right apart) among
  · intro other present new
    rw [Membership.links_enlist]
    by_cases here : other = address
    · subst here
      rw [if_pos rfl, List.count_append, List.count_eq_zero_of_not_mem first, List.count_singleton_self,
        List.idxOf_append, if_neg first, List.idxOf_cons_self, Nat.zero_add, Nat.zero_add]
      exact ⟨rfl, id, comes, rfl⟩
    · rw [if_neg here]
      exact gathered.opened_append here (((Membership.contains_enlist _ _ _).mp present).resolve_left here) new

/-- One address. -/
theorem Gathered.recruit (gathered : Gathered settings dialing D before earlier seen next dials)
    (sound : before.Sound settings) (fixed : Reaches dialing D)
    {sooner : List String} (level : sooner.length = earlier) (address : String) :
    ∃ next' dials', recruit dialing before.links (next, sooner ++ dials) address = (next', sooner ++ dials') ∧
      Gathered settings dialing D before earlier (seen ++ [address]) next' dials' := by
  by_cases present : next.ring.contains address = true
  · exact ⟨next, dials, by simp only [RingCache.recruit, present, if_true], gathered.again present⟩
  · cases found : before.links.find? address with
    | some peer =>
      refine ⟨next.enlist peer, dials, ?_, gathered.take found sound⟩
      simp [RingCache.recruit, present, found]
    | none =>
      have strange := sound.find?_eq_none_iff.mp found
      have reach := fixed (earlier + dials.length) address
      cases comes : dialing (earlier + dials.length) address with
      | none =>
        refine ⟨next, dials ++ [address], ?_, gathered.refuse present strange (by simpa [comes] using reach)⟩
        simp [RingCache.recruit, present, found, level, comes]
      | some id =>
        refine ⟨next.enlist ⟨address, id⟩, dials ++ [address], ?_,
          gathered.link present strange (by simpa [comes] using reach) comes⟩
        simp [RingCache.recruit, present, found, level, comes]

/-- All addresses of a list. -/
theorem Gathered.recruitAll (gathered : Gathered settings dialing D before earlier seen next dials)
    (sound : before.Sound settings) (fixed : Reaches dialing D)
    {sooner : List String} (level : sooner.length = earlier) (addresses : List String) :
    ∃ next' dials', addresses.foldl (RingCache.recruit dialing before.links) (next, sooner ++ dials) =
        (next', sooner ++ dials') ∧
      Gathered settings dialing D before earlier (seen ++ addresses) next' dials' := by
  induction addresses generalizing seen next dials with
  | nil => exact ⟨next, dials, rfl, by rwa [List.append_nil]⟩
  | cons first rest ih =>
    obtain ⟨middle, more, one, met⟩ := gathered.recruit sound fixed level first
    obtain ⟨last, all, others, every⟩ := ih met
    refine ⟨last, all, by rw [List.foldl_cons, one, others], ?_⟩
    rwa [List.append_assoc, List.singleton_append] at every

/-- The links that are dropped are those of the members that were not met. -/
theorem Gathered.stale_eq (gathered : Gathered settings dialing D before earlier seen next dials)
    (sound : before.Sound settings) :
    before.stale next = before.peers.filter (fun peer => peer.address ∉ seen) := by
  rw [Membership.stale, Membership.peers, Table.values, List.filter_map]
  refine congrArg (List.map Prod.snd) (List.filter_congr ?_)
  rintro ⟨address, peer⟩ entry
  have found : before.links.find? address = some peer := Table.find?_eq_some_iff.mpr entry
  have member := sound.contains_of_find? found
  have stays : next.links.contains address = true ↔ address ∈ seen := by
    rw [← gathered.sound.contains_iff, gathered.listed]
    exact and_iff_left (.inl member)
  rw [Function.comp_apply, sound.address_eq address peer found]
  by_cases met : address ∈ seen
  · simp [stays.mpr met, met]
  · simp [mt stays.mp met, met]

/-- Addresses of members bring their links, and nobody is dialed. -/
theorem Membership.Sound.recruit_members (sound : before.Sound settings)
    (fixed : Reaches dialing D)
    {addresses : List String} (within : ∀ address ∈ addresses, before.ring.contains address = true)
    (also : next.Sound settings)
    (brings : ∀ address, next.links.find? address = if address ∈ addresses then before.links.find? address else none)
    (sooner : List String) :
    addresses.foldl (recruit dialing before.links) (.empty settings, sooner) = (next, sooner) := by
  obtain ⟨last, dials, all, gathered⟩ :=
    (gathered_empty settings dialing D before sooner.length).recruitAll sound fixed rfl addresses
  rw [List.nil_append] at gathered
  have silent : dials = [] := by
    rw [List.eq_nil_iff_forall_not_mem]
    intro address dialed
    obtain ⟨met, strange⟩ := gathered.dialed address dialed
    exact strange (within address met)
  have same : last = next := by
    refine gathered.sound.ext also ?_
    intro address
    rw [brings]
    split
    next met => exact gathered.kept address met (within address met)
    next unmet =>
      rw [gathered.sound.find?_eq_none_iff, gathered.listed]
      exact fun both => unmet both.1
  rw [List.append_nil, silent, List.append_nil, same] at all
  exact all

/-! ## A change in one expression -/

namespace Course
variable {course : Course}

theorem carry_dialing (course : Course) (address : String) (draft : Draft) :
    course.carry dialing (.dialing address draft) =
      ({ course with dialed := course.dialed ++ [address] } : Course).carry dialing
        (.drafting ((dialing course.dialed.length address).elim draft (fun id => draft.enlist ⟨address, id⟩))) := by
  cases comes : dialing course.dialed.length address with
  | none =>
    have skips : course.pool.advance alone (.dialing address draft)
        (course.event dialing (.dialing address draft)) = some ⟨course.pool, .drafting draft, none⟩ := by
      rw [event, comes]
      rfl
    rw [carry_of_advanced skips]
    simp [stepped]
  | some id =>
    have enlists : course.pool.advance alone (.dialing address draft)
        (course.event dialing (.dialing address draft)) =
        some ⟨course.pool, .drafting (draft.enlist ⟨address, id⟩), none⟩ := by
      rw [event, comes]
      rfl
    rw [carry_of_advanced enlists]
    simp [stepped]

/-- A change goes through the addresses of its draft. -/
theorem carry_drafting (course : Course) (next : Membership) (retained : Table String Peer) (pending : List String) :
    course.carry dialing (.drafting ⟨next, retained, pending⟩) =
      ({ course with dialed := (pending.foldl (recruit dialing retained) (next, course.dialed)).2 } : Course).carry
        dialing (.drafting ⟨(pending.foldl (recruit dialing retained) (next, course.dialed)).1, retained, []⟩) := by
  induction pending generalizing course next with
  | nil => rfl
  | cons first rest ih =>
    have considers : ∀ stage, course.pool.draft ⟨next, retained, first :: rest⟩ = ⟨course.pool, stage, none⟩ →
        course.carry dialing (.drafting ⟨next, retained, first :: rest⟩) = course.carry dialing stage := by
      intro stage same
      have steps : course.pool.advance alone (.drafting ⟨next, retained, first :: rest⟩) .go =
          some ⟨course.pool, stage, none⟩ := congrArg some same
      rw [carry_of_advanced steps]
      simp [stepped]
    rw [List.foldl_cons]
    by_cases present : next.ring.contains first = true
    · rw [considers (.drafting ⟨next, retained, rest⟩) (by simp [Pool.draft, Draft.consider, present]), ih]
      simp only [recruit, present, if_true]
    · cases found : retained.find? first with
      | some peer =>
        rw [considers (.drafting ⟨next.enlist peer, retained, rest⟩)
          (by simp [Pool.draft, Draft.consider, Draft.enlist, present, found]), ih]
        simp [recruit, present, found]
      | none =>
        rw [considers (.dialing first ⟨next, retained, rest⟩)
          (by simp [Pool.draft, Draft.consider, present, found]), carry_dialing]
        cases comes : dialing course.dialed.length first with
        | none => simp [recruit, present, found, comes, ih]
        | some id => simp [recruit, present, found, comes, ih, Draft.enlist]

/-- What the draft of a change comes to, and all addresses that are dialed by then. -/
def drafted (dialing : Dialing) (course : Course) (change : Change) : Membership × List String :=
  let draft := Draft.begin course.pool.settings course.pool.membership change
  draft.pending.foldl (recruit dialing draft.retained) (draft.next, course.dialed)

/-- A change publishes its draft and closes what that has dropped. -/
theorem change_eq (free : course.pool.lock = .free) (change : Change) :
    course.change dialing change =
      ⟨{ course.pool with membership := (course.drafted dialing change).1 }, (course.drafted dialing change).2,
        course.closed ++ course.pool.membership.stale (course.drafted dialing change).1⟩ := by
  let draft := Draft.begin course.pool.settings course.pool.membership change
  have drafts : (course.underway []).carry dialing (.drafting draft) = _ :=
    carry_drafting _ draft.next draft.retained draft.pending
  rw [Course.change, carry_entering free, drafts, carry_published]
  obtain ⟨⟨selfAddress, settings, membership, lock⟩, dialed, closed⟩ := course
  cases free
  simp [underway, Course.drafted, draft, Pool.unlocked, lockAt, Lock.release, Lock.free]

/-! ## Replacing, adding and removing -/

variable {selfAddress : String} {addresses : List String}

theorem Sound.free (sound : Sound selfAddress settings course .finished) : course.pool.lock = .free :=
  sound.lock_eq

theorem Sound.changed (sound : Sound selfAddress settings course .finished) (dialing : Dialing) (change : Change) :
    Sound selfAddress settings (course.change dialing change) .finished :=
  (sound.entering change).carry.2

/-- A membership that is replaced gathers the listed addresses, and closes the links of
    the members that are not listed. -/
theorem Sound.replace (sound : Sound selfAddress settings course .finished) (fixed : Reaches dialing D)
    (addresses : List String) :
    ∃ next dials, Gathered settings dialing D course.pool.membership course.dialed.length addresses next dials ∧
      course.change dialing (.amend .replace addresses) =
        ⟨{ course.pool with membership := next }, course.dialed ++ dials,
          course.closed ++ course.pool.peers.filter (fun peer => peer.address ∉ addresses)⟩ := by
  obtain ⟨next, dials, all, gathered⟩ :=
    (gathered_empty settings dialing D course.pool.membership course.dialed.length).recruitAll sound.published fixed
      rfl addresses
  have drafted : course.drafted dialing (.amend .replace addresses) = (next, course.dialed ++ dials) := by
    rw [← all, List.append_nil, ← sound.settings_eq]
    rfl
  refine ⟨next, dials, gathered, ?_⟩
  rw [change_eq sound.free, drafted, gathered.stale_eq sound.published]
  rfl

/-- Replacing a membership a second time keeps all links. -/
theorem Sound.replace_again (sound : Sound selfAddress settings course .finished) (fixed : Reaches dialing D)
    (addresses : List String) :
    let replaced := course.change dialing (.amend .replace addresses)
    let again := replaced.change dialing (.amend .replace addresses)
    again.pool = replaced.pool ∧ again.closed = replaced.closed := by
  intro replaced again
  have later : Sound selfAddress settings replaced .finished := sound.changed dialing _
  obtain ⟨next, dials, gathered, once⟩ := sound.replace fixed addresses
  obtain ⟨next', dials', gathered', twice⟩ := later.replace fixed addresses
  have before : replaced.pool.membership = next := congrArg (fun course => course.pool.membership) once
  rw [before] at gathered'
  have lists : ∀ address, next'.ring.contains address = true ↔ next.ring.contains address = true := by
    intro address
    rw [gathered'.listed, gathered.listed]
    tauto
  have same : next' = next := by
    refine gathered'.sound.ext gathered.sound ?_
    intro address
    by_cases present : next.ring.contains address = true
    · exact gathered'.kept address ((gathered.listed address).mp present).1 present
    · rw [gathered.sound.find?_eq_none_iff.mpr present, gathered'.sound.find?_eq_none_iff, lists]
      exact present
  have nobody : replaced.pool.peers.filter (fun peer => peer.address ∉ addresses) = [] := by
    rw [List.filter_eq_nil_iff]
    intro peer listed
    have member : next.ring.contains peer.address = true := before ▸ later.published.contains_address listed
    simpa using ((gathered.listed peer.address).mp member).1
  constructor
  · change (replaced.change dialing _).pool = _
    rw [twice, same, ← before]
  · change (replaced.change dialing _).closed = _
    rw [twice, nobody, List.append_nil]

/-- Adding members is replacing the membership by its members, in any order, and then
    the others. -/
theorem Sound.add_eq_replace (sound : Sound selfAddress settings course .finished) (fixed : Reaches dialing D)
    {current : List String} (listed : ∀ address, address ∈ current ↔ address ∈ course.pool.members)
    (addresses : List String) :
    course.change dialing (.amend .add addresses) = course.change dialing (.amend .replace (current ++ addresses)) := by
  have published := sound.published
  have members : ∀ address, address ∈ current ↔ course.pool.membership.ring.contains address = true := by
    intro address
    rw [listed, Pool.mem_members_iff]
  have stay := published.recruit_members fixed (fun address => (members address).mp) published
    (by
      intro address
      split
      next => rfl
      next strange => rwa [published.find?_eq_none_iff, ← members])
    course.dialed
  have agree : ∀ address, ¬ course.pool.membership.ring.contains address = true →
      course.pool.membership.links.find? address = Table.empty.find? address := by
    intro address absent
    exact published.find?_eq_none_iff.mpr absent
  -- The members come first and bring back the membership that adding begins with.
  have same : course.drafted dialing (.amend .replace (current ++ addresses)) =
      course.drafted dialing (.amend .add addresses) := by
    change (current ++ addresses).foldl _ (Membership.empty course.pool.settings, course.dialed) = _
    rw [sound.settings_eq, List.foldl_append]
    refine (congrArg (addresses.foldl _) stay).trans ?_
    exact foldl_recruit_congr agree addresses
  rw [change_eq sound.free, change_eq sound.free, same]

/-- Removing members is replacing the membership by those that are left, in any order. -/
theorem Sound.remove_eq_replace (sound : Sound selfAddress settings course .finished) (fixed : Reaches dialing D)
    {left : List String} (listed : ∀ address, address ∈ left ↔ address ∈ course.pool.members ∧ address ∉ addresses) :
    course.change dialing (.amend .remove addresses) = course.change dialing (.amend .replace left) := by
  have published := sound.published
  have members : ∀ address, address ∈ left ↔
      course.pool.membership.ring.contains address = true ∧ address ∉ addresses := by
    intro address
    rw [listed, Pool.mem_members_iff]
  have stay := published.recruit_members fixed (fun address met => ((members address).mp met).1)
    (published.dismissAll addresses)
    (by
      intro address
      rw [published.find?_dismissAll]
      by_cases member : course.pool.membership.ring.contains address = true
      · simp [members, member]
      · simp [members, member, published.find?_eq_none_iff])
    course.dialed
  have same : course.drafted dialing (.amend .replace left) = course.drafted dialing (.amend .remove addresses) := by
    rw [← sound.settings_eq] at stay
    exact stay
  rw [change_eq sound.free, change_eq sound.free, same]

/-- What replacing a membership by the addresses of a list comes to, if those in `D` can
    be dialed. The links of listed members are kept and those of the others closed; a
    listed address that was no member is dialed, once if it can be, and has the link
    that was opened then. -/
structure Replaces (dialing : Dialing) (D : Set String) (addresses : List String) (course later : Course) : Prop where
  members : ∀ address, address ∈ later.pool.members ↔
    address ∈ addresses ∧ (address ∈ course.pool.members ∨ address ∈ D)
  kept : ∀ address ∈ addresses, address ∈ course.pool.members →
    later.pool.membership.links.find? address = course.pool.membership.links.find? address
  closed : later.closed = course.closed ++ course.pool.peers.filter (fun peer => peer.address ∉ addresses)
  opened : ∃ dials, later.dialed = course.dialed ++ dials ∧
    (∀ address ∈ dials, address ∈ addresses ∧ address ∉ course.pool.members) ∧
    ∀ address ∈ later.pool.members, address ∉ course.pool.members →
      dials.count address = 1 ∧
      ∃ id, dialing (course.dialed.length + dials.idxOf address) address = some id ∧
        later.pool.membership.links.find? address = some ⟨address, id⟩

theorem Sound.replaces (sound : Sound selfAddress settings course .finished) (fixed : Reaches dialing D)
    (addresses : List String) :
    Replaces dialing D addresses course (course.change dialing (.amend .replace addresses)) := by
  obtain ⟨next, dials, gathered, same⟩ := sound.replace fixed addresses
  rw [same]
  constructor
  · intro address
    rw [Pool.mem_members_iff, Pool.mem_members_iff]
    exact gathered.listed address
  · intro address met member
    exact gathered.kept address met (Pool.mem_members_iff.mp member)
  · rfl
  · refine ⟨dials, rfl, ?_, ?_⟩
    · intro address dialed
      rw [Pool.mem_members_iff]
      exact gathered.dialed address dialed
    · intro address member strange
      rw [Pool.mem_members_iff] at member strange
      exact gathered.opened address member strange

/-- Only which addresses are listed matters, not their order or how often each is. -/
theorem Sound.replace_congr (sound : Sound selfAddress settings course .finished) (fixed : Reaches dialing D)
    {others : List String} (same : ∀ address, address ∈ others ↔ address ∈ addresses) :
    let replaced := course.change dialing (.amend .replace addresses)
    let also := course.change dialing (.amend .replace others)
    also.pool.membership.ring = replaced.pool.membership.ring ∧ also.closed = replaced.closed ∧
    ∀ address ∈ course.pool.members,
      also.pool.membership.links.find? address = replaced.pool.membership.links.find? address := by
  intro replaced also
  have first : Replaces dialing D addresses course replaced := sound.replaces fixed addresses
  have second : Replaces dialing D others course also := sound.replaces fixed others
  have members : ∀ address, address ∈ also.pool.members ↔ address ∈ replaced.pool.members := by
    intro address
    rw [first.members, second.members, same]
  have names : also.pool.members = replaced.pool.members :=
    Roster.names_eq_iff.mpr ⟨Roster.names_sorted _, fun address => (members address).symm.trans Pool.mem_members_iff⟩
  have reached : Sound selfAddress settings replaced .finished := sound.changed dialing _
  have alike : Sound selfAddress settings also .finished := sound.changed dialing _
  refine ⟨?_, ?_, ?_⟩
  · rw [alike.published.ring_eq, reached.published.ring_eq]
    exact congrArg _ names
  · rw [first.closed, second.closed]
    simp only [same]
  · intro address member
    by_cases listed : address ∈ addresses
    · rw [first.kept address listed member, second.kept address ((same address).mpr listed) member]
    · have gone : address ∉ replaced.pool.members := fun stays => listed ((first.members address).mp stays).1
      have lost : address ∉ also.pool.members := mt (members address).mp gone
      rw [reached.published.find?_eq_none_iff.mpr (mt Pool.mem_members_iff.mpr gone),
        alike.published.find?_eq_none_iff.mpr (mt Pool.mem_members_iff.mpr lost)]

end Course

/-! ## Pools that any changes have left -/

namespace Rota
variable {t : Rota} {selfAddress : String} {asks : PartyId → Change}

/-- The course of a pool from now on: no dial of it counts so far. -/
def onward (t : Rota) : Course :=
  ⟨t.pool, [], t.closed⟩

/-- Let any changes have run side by side, none of which is under way, and let the
    addresses in `D` be those that can be dialed. Replacing the membership keeps the links
    of the members that are listed, opens one for each other listed address in `D`, and
    closes the rest. Only which addresses are listed matters, and doing it again keeps every link
    and closes none. Adding members is replacing the membership by its members and the
    addresses, and removing members is replacing it by those that are left. -/
theorem change_reconciles (run : Run (start selfAddress settings asks) t) (idle : t.pool.lock = .free)
    (fixed : Reaches dialing D) (addresses : List String) :
    let replaced := t.onward.change dialing (.amend .replace addresses)
    let again := replaced.change dialing (.amend .replace addresses)
    Course.Replaces dialing D addresses t.onward replaced ∧
    (∀ others : List String, (∀ address, address ∈ others ↔ address ∈ addresses) →
      let also := t.onward.change dialing (.amend .replace others)
      also.pool.membership.ring = replaced.pool.membership.ring ∧ also.closed = replaced.closed ∧
      ∀ address ∈ t.pool.members,
        also.pool.membership.links.find? address = replaced.pool.membership.links.find? address) ∧
    (again.pool = replaced.pool ∧ again.closed = replaced.closed) ∧
    (∀ current : List String, (∀ address, address ∈ current ↔ address ∈ t.pool.members) →
      t.onward.change dialing (.amend .add addresses) =
        t.onward.change dialing (.amend .replace (current ++ addresses))) ∧
    (∀ left : List String, (∀ address, address ∈ left ↔ address ∈ t.pool.members ∧ address ∉ addresses) →
      t.onward.change dialing (.amend .remove addresses) = t.onward.change dialing (.amend .replace left)) := by
  intro replaced again
  have orderly : t.Orderly selfAddress settings asks := (sound_start.run run).orderly
  have sound : Course.Sound selfAddress settings.normalized t.onward .finished :=
    ⟨orderly.selfAddress_eq, orderly.settings_eq, idle, orderly.published, trivial⟩
  refine ⟨sound.replaces fixed addresses, ?_, sound.replace_again fixed addresses, ?_, ?_⟩
  · intro others same
    exact sound.replace_congr fixed same
  · intro current listed
    exact sound.add_eq_replace fixed listed addresses
  · intro left listed
    exact sound.remove_eq_replace fixed listed

/-- Somebody adds two members. -/
def twoWanted : Rota :=
  start "self" ⟨1, fun _ => 7, .standard⟩ (fun _ => .amend .add ["a", "b"])

/-- The first of them is linked to, and the second is dialed. -/
def oneLinked : Rota :=
  ((((twoWanted.obey 0 .go).obey 0 .go).obey 0 .go).obey 0 (.dialed ⟨"a", 0⟩)).obey 0 .go

/-- Both are members. -/
def twoLinked : Rota :=
  ((oneLinked.obey 0 (.dialed ⟨"b", 1⟩)).obey 0 .go).obey 0 .go

theorem run_oneLinked : Run twoWanted oneLinked := by
  have waits := Run.obey 0 .go (.refl : Run twoWanted twoWanted) trivial rfl
  have drafts := Run.obey 0 .go waits trivial rfl
  have dials := Run.obey 0 .go drafts trivial rfl
  have fresh : (((twoWanted.obey 0 .go).obey 0 .go).obey 0 .go).Possible 0 (.dialed ⟨"a", 0⟩) := by
    refine ⟨rfl, ?_⟩
    rintro ⟨_ | party, dialed⟩ <;> cases dialed
  have linked := Run.obey 0 (.dialed ⟨"a", 0⟩) dials fresh rfl
  exact Run.obey 0 .go linked trivial rfl

theorem run_twoLinked : Run twoWanted twoLinked := by
  have fresh : oneLinked.Possible 0 (.dialed ⟨"b", 1⟩) := by
    refine ⟨rfl, ?_⟩
    rintro ⟨_ | party, dialed⟩
    · have once : oneLinked.dials 0 = [("a", some 0)] := rfl
      rw [once] at dialed
      simp at dialed
    · cases dialed
  have drafts := Run.obey 0 (.dialed ⟨"b", 1⟩) run_oneLinked fresh rfl
  have closes := Run.obey 0 .go drafts trivial rfl
  exact Run.obey 0 .go closes trivial rfl

/-- Dials that reach nobody but `"c"`. -/
def lonely : Dialing :=
  fun number address => if address = "c" then some (number + 10) else none

/-- One of two members is listed, after an address that can be dialed and one that
    cannot. -/
theorem change_reconciles_of_two :
    let listed := ["c", "x", "b", "c"]
    let replaced := twoLinked.onward.change lonely (.amend .replace listed)
    Run twoWanted twoLinked ∧ twoLinked.pool.lock = .free ∧ Reaches lonely {"c"} ∧
    ("c" ∈ replaced.pool.members ∧ "x" ∉ replaced.pool.members ∧
      replaced.pool.membership.links.find? "b" = some ⟨"b", 1⟩ ∧ replaced.closed = [⟨"a", 0⟩]) ∧
    (twoLinked.onward.change lonely (.amend .replace ["b", "x", "c"])).closed = replaced.closed ∧
    (replaced.change lonely (.amend .replace listed)).pool = replaced.pool ∧
    twoLinked.onward.change lonely (.amend .add listed) =
      twoLinked.onward.change lonely (.amend .replace (["b", "a"] ++ listed)) ∧
    twoLinked.onward.change lonely (.amend .remove listed) =
      twoLinked.onward.change lonely (.amend .replace ["a"]) := by
  intro listed replaced
  have fixed : Reaches lonely {"c"} := by
    intro number address
    simp [lonely]
  have members : twoLinked.pool.members = ["a", "b"] := rfl
  have onward : twoLinked.onward.pool.members = ["a", "b"] := members
  have linked : twoLinked.pool.membership.links.find? "b" = some ⟨"b", 1⟩ := rfl
  have closes : twoLinked.onward.closed ++
      twoLinked.onward.pool.peers.filter (fun peer => peer.address ∉ listed) = [⟨"a", 0⟩] := rfl
  obtain ⟨outcome, alike, ⟨same, _⟩, adds, removes⟩ := change_reconciles run_twoLinked rfl fixed listed
  refine ⟨run_twoLinked, rfl, fixed, ⟨?_, ?_, ?_, ?_⟩, ?_, same, adds ["b", "a"] ?_, removes ["a"] ?_⟩
  · exact (outcome.members "c").mpr ⟨by simp [listed], .inr rfl⟩
  · rw [outcome.members "x", onward]
    simp
  · rw [outcome.kept "b" (by simp [listed]) (by simp [onward])]
    exact linked
  · rw [outcome.closed, closes]
  · refine (alike ["b", "x", "c"] ?_).2.1
    intro address
    simp only [listed, List.mem_cons, List.not_mem_nil, or_false]
    tauto
  · intro address
    simp [members, or_comm]
  · intro address
    rw [members]
    simp only [listed, List.mem_cons, List.not_mem_nil, or_false]
    constructor
    · rintro rfl
      decide
    · rintro ⟨rfl | rfl, strange⟩
      · rfl
      · exact absurd (by decide) strange

end Rota

end RingCache
