import RingCache.Proofs.Demands

/-!
# Keys in custody

Among members in concord keys are stored at their owners only, with values that the
loaders there may give (`Cluster.Kept`). A get or a removal keeps that, and what it
does to a key it does at the owner (`Cluster.Affects`).
-/
namespace RingCache
open Wire

namespace Cluster

variable {start c later : Cluster} {name key : String} {S : Set String} {histories : MemberId → History}
variable {id member owner other : MemberId} {now time : Time} {value : Bytes} {demand : Demand}

/-- Nothing goes wrong with a key: the loaders give values for it, the stores are
    large enough for these, and the links of the pools carry the messages about it. -/
structure Carries (c : Cluster) (name key : String) : Prop where
  gives : ∀ id holding, c.holding? id name = some holding → holding.loader.NeverFails key
  fits : ∀ id holding value, c.holding? id name = some holding → holding.loader.MayGive key value →
    holding.group.store.fits key value = true
  frames : ∀ id peer member requests replies, peer ∈ c.peersOf id → c.Leads peer.id member requests replies →
    Framed requests (.retrieve ⟨name, key, none⟩) ∧ Framed requests (.delete ⟨name, key, none⟩) ∧
      Framed replies .ack ∧ ∀ holding value, c.holding? member name = some holding →
        holding.loader.MayGive key value → Framed replies (.retrieved value)

/-- A demand at a member, for a key with which nothing goes wrong. -/
def Allows (c : Cluster) (name : String) (demand : Demand) : Prop :=
  demand.member < c.members.length ∧ c.Carries name demand.key

/-! ## What is kept -/

theorem Owns.unique (concord : c.Concord name S histories) (owns : c.Owns histories owner key)
    (also : c.Owns histories other key) : other = owner :=
  concord.distinct other also.1 owner owns.1
    (Option.some.inj ((also.2 owner owns.1).symm.trans (owns.2 owner owns.1)))

theorem holding?_eq_none (unknown : c.members.length ≤ id) (name : String) : c.holding? id name = none := by
  rw [holding?, registry, List.getElem?_eq_none unknown]
  exact Table.find?_empty ..

/-- A later state of a cluster, in which keys are stored at their owners only, with
    values that the loaders there may give. -/
structure Kept (start : Cluster) (histories : MemberId → History) (name : String) (c : Cluster) : Prop where
  keeps : start.Keeps c
  evolve : start.Evolve c name
  own : ∀ id key value, c.stored name id key = some value → start.Owns histories id key ∧
    ∃ holding, start.holding? id name = some holding ∧ holding.loader.MayGive key value

theorem Concord.stored_eq_none (concord : c.Concord name S histories) (id : MemberId) (key : String) :
    c.stored name id key = none := by
  rcases Nat.lt_or_ge id c.members.length with known | unknown
  · obtain ⟨holding, held, _, nothing⟩ := concord.groups id known
    rw [stored_of_holding held, Store.find?, nothing, Table.find?_empty]
  · rw [stored, holding?_eq_none unknown]
    rfl

theorem Concord.kept (concord : c.Concord name S histories) : c.Kept histories name c := by
  refine ⟨.refl c, .refl c name, ?_⟩
  intro id key value found
  rw [concord.stored_eq_none] at found
  cases found

/-- A member has the group that it had at the start, only later. -/
theorem Kept.exists_holding (kept : start.Kept histories name c) (concord : start.Concord name S histories)
    (known : id < start.members.length) :
    ∃ first holding, start.holding? id name = some first ∧ c.holding? id name = some holding ∧
      first.Evolves holding ∧ holding.group.name = name := by
  obtain ⟨first, held, named, _⟩ := concord.groups id known
  obtain ⟨holding, heldThen, evolves⟩ := kept.evolve id first held
  exact ⟨first, holding, held, heldThen, evolves, evolves.name.trans named⟩

theorem Kept.stored_eq_none (kept : start.Kept histories name c) (concord : start.Concord name S histories)
    (owns : start.Owns histories owner key) (apart : other ≠ owner) : c.stored name other key = none := by
  rw [Option.eq_none_iff_forall_ne_some]
  intro value found
  exact apart (owns.unique concord (kept.own other key value found).1)

/-! ## One demand -/

/-- A value that is there for a key, or that a loader gives now, is one that the loader
    may give. -/
theorem Kept.mayGive (kept : start.Kept histories name c) {first holding counted after : Holding} {delay : Time}
    (atStart : start.holding? id name = some first) (held : c.holding? id name = some holding)
    (evolves : first.Evolves holding) (answers : counted.Answers now key after delay value)
    (same : counted.quiet = holding.quiet) : first.loader.MayGive key value := by
  obtain ⟨loader, store⟩ := Holding.same_of_quiet same
  obtain found | ⟨_, gives⟩ := answers.given
  · obtain ⟨_, before, heldBefore, gives⟩ := kept.own id key value (by rw [stored_of_holding held, ← store, found])
    obtain rfl : first = before := Option.some.inj (atStart.symm.trans heldBefore)
    exact gives
  · exact evolves.mayGive ⟨_, _, _, by rw [← loader, gives]⟩

theorem Kept.exists_get (kept : start.Kept histories name c) (concord : start.Concord name S histories)
    (carries : start.Carries name key) (owns : start.Owns histories owner key) (known : member < start.members.length)
    (now : Time) :
    ∃ later delay value, c.get member name now .never key = (later, .after delay (.ok value)) ∧
      c.Serves later name key owner ((Demand.get member now key).comes c.latency owner) value := by
  obtain ⟨first, holding, atStart, held, evolves, _⟩ := kept.exists_holding concord owns.1
  have gives : holding.loader.NeverFails key := evolves.neverFails (carries.gives owner first atStart)
  have here : c.pick owner key = none := (kept.keeps.pick owner key).trans (concord.pick_owner owns)
  have fits : ∀ value, first.loader.MayGive key value → holding.group.store.fits key value = true :=
    fun value may => evolves.fits (carries.fits owner first value atStart may)
  -- The owner finds or loads the value; anybody else cannot have it stored, and asks the owner.
  by_cases own : member = owner
  · subst own
    obtain ⟨after, delay, value, answers⟩ := Holding.exists_answers gives now
    obtain ⟨later, got, becomes⟩ := exists_get_here (callAt c.depth) held here answers
    refine ⟨later, delay, value, got, ?_⟩
    rw [Demand.comes, if_pos rfl]
    exact serves_of_answers held answers rfl becomes.quietly becomes.keeps
      (fun _ => fits value (kept.mayGive atStart held evolves answers rfl))
  · obtain ⟨peer, requests, replies, asks, listed, leads⟩ := concord.exists_pick owns known own
    obtain ⟨retrieves, _, _, retrieved⟩ := carries.frames _ _ _ _ _ listed leads
    obtain ⟨_, asking, _, ownHeld, _, named⟩ := kept.exists_holding concord known
    have missing := kept.stored_eq_none concord owns own
    rw [stored_of_holding ownHeld] at missing
    have counts : (holding.count .serverRequests).loader.NeverFails key := gives
    obtain ⟨after, delay, value, answers⟩ := Holding.exists_answers counts (now + c.latency)
    have may := kept.mayGive atStart held evolves answers rfl
    obtain ⟨later, got, becomes⟩ := exists_get_there (leads.keeps kept.keeps) ownHeld named missing
      ((kept.keeps.pick member key).trans asks) (Ne.symm own) held here answers retrieves
      (retrieved first value atStart may)
    refine ⟨later, c.roundTrip + delay, value, got, ?_⟩
    rw [Demand.comes, if_neg own]
    exact serves_of_answers held answers rfl (becomes.quietly_of_counted (Ne.symm own) ownHeld rfl) becomes.keeps
      (fun _ => fits value may)

theorem Kept.exists_remove (kept : start.Kept histories name c) (concord : start.Concord name S histories)
    (carries : start.Carries name key) (known : member < start.members.length) (now : Time) :
    ∃ later delay, c.remove member name now .never key = (later, .after delay (.ok ())) ∧ c.Sheds later name key := by
  obtain ⟨who, leads, everyone⟩ := concord.exists_who known
  have names : ∀ id < start.members.length, c.Names name id := by
    intro id also
    obtain ⟨_, holding, _, held, _, named⟩ := kept.exists_holding concord also
    exact ⟨holding, held, named⟩
  have peers : c.peersOf member = start.peersOf member := kept.keeps.peersOf member
  have removes : ∀ peer ∈ c.peersOf member, c.Removes name key peer.id (who peer) := by
    rw [peers]
    intro peer listed
    obtain ⟨also, requests, replies, leads⟩ := leads peer listed
    obtain ⟨_, deletes, acknowledged, _⟩ := carries.frames _ _ _ _ _ listed leads
    exact ⟨names _ also, requests, replies, leads.keeps kept.keeps, deletes, acknowledged⟩
  -- Nobody but members has a group, and the peers of a member lead to all of them.
  have covers : ∀ id, c.holding? id name ≠ none → id ∈ (c.peersOf member).map who := by
    rw [peers]
    intro id held
    refine everyone id (Nat.lt_of_not_le fun unknown => held (holding?_eq_none ?_ name))
    rwa [kept.keeps.size]
  obtain ⟨delay, later, removed, keeps, left⟩ := Cluster.exists_remove now c.links.length who
    (names member known) removes covers
  exact ⟨later, delay, removed, sheds_of_quietly keeps (congrFun left)⟩

theorem Kept.serves (kept : start.Kept histories name c) (concord : start.Concord name S histories)
    (owns : start.Owns histories owner key) (serves : c.Serves later name key owner time value) :
    start.Kept histories name later := by
  refine ⟨kept.keeps.trans serves.keeps, kept.evolve.trans serves.evolve, ?_⟩
  intro id any other found
  rw [serves.stored] at found
  split at found
  next same =>
    obtain ⟨rfl, rfl⟩ := same
    obtain rfl := Option.some.inj found
    obtain before | ⟨_, gives⟩ := serves.given
    · exact kept.own id any value before
    · obtain ⟨holding, held, may⟩ := exists_of_gives gives
      obtain ⟨first, _, atStart, heldThen, evolves, _⟩ := kept.exists_holding concord owns.1
      obtain rfl := Option.some.inj (held.symm.trans heldThen)
      exact ⟨owns, first, atStart, evolves.mayGive may⟩
  next => exact kept.own id any other found

theorem Kept.sheds (kept : start.Kept histories name c) (sheds : c.Sheds later name key) :
    start.Kept histories name later := by
  refine ⟨kept.keeps.trans sheds.keeps, kept.evolve.trans sheds.evolve, ?_⟩
  intro id any value found
  rw [sheds.stored] at found
  split at found
  next => cases found
  next => exact kept.own id any value found

/-! ## What a demand does to a key -/

/-- The cluster after a demand was met. -/
def meet (name : String) (c : Cluster) : Demand → Cluster
  | .get member now key => (c.get member name now .never key).1
  | .remove member now key => (c.remove member name now .never key).1

/-- How a demand is met in a later state of a cluster. -/
inductive Meets (start : Cluster) (histories : MemberId → History) (name : String) (c : Cluster) :
    Demand → Cluster → Prop where
  | get {member owner : MemberId} {now : Time} {key : String} {value : Bytes} {later : Cluster}
      (owns : start.Owns histories owner key)
      (serves : c.Serves later name key owner ((Demand.get member now key).comes c.latency owner) value) :
      Meets start histories name c (.get member now key) later
  | remove {member : MemberId} {now : Time} {key : String} {later : Cluster} (sheds : c.Sheds later name key) :
      Meets start histories name c (.remove member now key) later

theorem Kept.meets (kept : start.Kept histories name c) (concord : start.Concord name S histories)
    (allowed : start.Allows name demand) : start.Meets histories name c demand (c.meet name demand) := by
  cases demand with
  | get member now key =>
    obtain ⟨known, carries⟩ : member < start.members.length ∧ start.Carries name key := allowed
    obtain ⟨owner, owns⟩ := concord.exists_owns (Nat.zero_lt_of_lt known) key
    obtain ⟨later, _, _, got, serves⟩ := kept.exists_get concord carries owns known now
    rw [meet, got]
    exact .get owns serves
  | remove member now key =>
    obtain ⟨known, carries⟩ : member < start.members.length ∧ start.Carries name key := allowed
    obtain ⟨later, _, removed, sheds⟩ := kept.exists_remove concord carries known now
    rw [meet, removed]
    exact .remove sheds

theorem Meets.kept (meets : start.Meets histories name c demand later) (concord : start.Concord name S histories)
    (kept : start.Kept histories name c) : start.Kept histories name later := by
  cases meets with
  | get owns serves => exact kept.serves concord owns serves
  | remove sheds => exact kept.sheds sheds

theorem Meets.asked_of_ne (meets : start.Meets histories name c demand later) (concord : start.Concord name S histories)
    (owns : start.Owns histories owner key) (apart : other ≠ owner) :
    later.asked name other key = c.asked name other key := by
  cases meets with
  | get owned serves =>
    rw [serves.asked, if_neg]
    rintro ⟨rfl, rfl, _⟩
    exact apart (owns.unique concord owned)
  | remove sheds => exact sheds.asked other key

/-- What a demand does to a key at its owner. -/
inductive Affects (c later : Cluster) (name key : String) (owner : MemberId) : Demand → Prop where
  | spared {demand : Demand} (apart : demand.key ≠ key) (stored : later.stored name owner key = c.stored name owner key)
      (asked : later.asked name owner key = c.asked name owner key) : Affects c later name key owner demand
  | found {member : MemberId} {now : Time} {value : Bytes} (stored : c.stored name owner key = some value)
      (still : later.stored name owner key = some value) (asked : later.asked name owner key = c.asked name owner key) :
      Affects c later name key owner (.get member now key)
  | loaded {member : MemberId} {now : Time} {value : Bytes} (missing : c.stored name owner key = none)
      (gives : c.gives name owner ((Demand.get member now key).comes c.latency owner) key = some value)
      (stored : later.stored name owner key = some value)
      (asked : later.asked name owner key = c.asked name owner key + 1) :
      Affects c later name key owner (.get member now key)
  | removed {member : MemberId} {now : Time} (gone : later.stored name owner key = none)
      (asked : later.asked name owner key = c.asked name owner key) :
      Affects c later name key owner (.remove member now key)

theorem Meets.affects (meets : start.Meets histories name c demand later) (concord : start.Concord name S histories)
    (owns : start.Owns histories owner key) : c.Affects later name key owner demand := by
  cases meets with
  | @get member _ now any value _ owned serves =>
    have stored := serves.stored owner key
    have asked := serves.asked owner key
    by_cases same : any = key
    · subst same
      obtain rfl := owns.unique concord owned
      rw [if_pos ⟨rfl, rfl⟩] at stored
      obtain before | ⟨missing, gives⟩ := serves.given
      · rw [if_neg (by simp [before])] at asked
        exact .found before stored asked
      · rw [if_pos ⟨rfl, rfl, missing⟩] at asked
        exact .loaded missing gives stored asked
    · rw [if_neg (fun both => same both.2.symm)] at stored
      rw [if_neg (fun all => same all.2.1.symm)] at asked
      exact .spared same stored asked
  | @remove member now any _ sheds =>
    by_cases same : any = key
    · subst same
      exact .removed ((sheds.stored owner any).trans (if_pos rfl)) (sheds.asked owner any)
    · exact .spared same ((sheds.stored owner key).trans (if_neg (Ne.symm same))) (sheds.asked owner key)

end Cluster

end RingCache
