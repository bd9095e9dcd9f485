import RingCache.Proofs.Custody

/-!
# Keys stay with their owners

Among members in concord gets and removals are made, each after the one before was
met (`Cluster.meetAll`). Only the loader of the owner of a key is asked for it, once
between removals, and all gets return what it gave (`Cluster.keys_stay_with_owners`).
-/
namespace RingCache
open Wire

namespace Cluster

variable {start c : Cluster} {name key : String} {S : Set String} {histories : MemberId → History}
variable {owner other : MemberId} {demand : Demand} {demands : List Demand}

/-! ## Runs -/

/-- The cluster after demands were met, each before the next was made. -/
def meetAll (name : String) (c : Cluster) (demands : List Demand) : Cluster :=
  demands.foldl (meet name) c

/-- A demand is met, and the value is noted that the owner of a key loads to meet it,
    if it is asked to. -/
def record (name : String) (owner : MemberId) (key : String) (state : Cluster × Option Bytes) (demand : Demand) :
    Cluster × Option Bytes :=
  let next := state.1.meet name demand
  (next, if next.asked name owner key = state.1.asked name owner key then state.2
    else state.1.gives name owner (demand.comes state.1.latency owner) key)

/-- The value that the owner of a key has loaded last when demands were met. -/
def lastLoad (c : Cluster) (name : String) (owner : MemberId) (key : String) (demands : List Demand) : Option Bytes :=
  (demands.foldl (record name owner key) (c, none)).2

/-! ## Whole runs -/

theorem Kept.meetAll (kept : start.Kept histories name c) (concord : start.Concord name S histories)
    (allowed : ∀ demand ∈ demands, start.Allows name demand) : start.Kept histories name (c.meetAll name demands) := by
  induction demands generalizing c with
  | nil => exact kept
  | cons demand rest ih =>
    obtain ⟨first, others⟩ := List.forall_mem_cons.mp allowed
    exact ih ((kept.meets concord first).kept concord kept) others

theorem Kept.asked_meetAll_of_ne (kept : start.Kept histories name c) (concord : start.Concord name S histories)
    (allowed : ∀ demand ∈ demands, start.Allows name demand) (owns : start.Owns histories owner key)
    (apart : other ≠ owner) : (c.meetAll name demands).asked name other key = c.asked name other key := by
  induction demands generalizing c with
  | nil => rfl
  | cons demand rest ih =>
    obtain ⟨first, others⟩ := List.forall_mem_cons.mp allowed
    have meets := kept.meets concord first
    exact (ih (meets.kept concord kept) others).trans (meets.asked_of_ne concord owns apart)

/-- While a key is not removed, its owner loads it once if it is not stored, and else
    not at all. -/
theorem Kept.asked_meetAll_le (kept : start.Kept histories name c) (concord : start.Concord name S histories)
    (allowed : ∀ demand ∈ demands, start.Allows name demand) (owns : start.Owns histories owner key)
    (stays : ∀ member now, .remove member now key ∉ demands) :
    (c.meetAll name demands).asked name owner key ≤
      c.asked name owner key + if c.stored name owner key = none then 1 else 0 := by
  induction demands generalizing c with
  | nil => exact Nat.le_add_right _ _
  | cons demand rest ih =>
    obtain ⟨first, others⟩ := List.forall_mem_cons.mp allowed
    have meets := kept.meets concord first
    have bound := ih (meets.kept concord kept) others
      (fun member now listed => stays member now (List.mem_cons_of_mem demand listed))
    refine bound.trans ?_
    -- A get that finds the key missing uses up the one load that the bound still allows.
    cases meets.affects concord owns with
    | spared _ stored asked => rw [stored, asked]
    | found stored still asked => rw [asked, still, if_neg (by simp)]; exact Nat.le_add_right _ _
    | loaded missing _ stored asked => rw [asked, missing, stored, if_neg (by simp), if_pos rfl]
    | removed => exact absurd List.mem_cons_self (stays _ _)

/-- What is stored of a key is what its owner has loaded last. -/
theorem Kept.record (kept : start.Kept histories name c) (concord : start.Concord name S histories)
    (allowed : start.Allows name demand) (owns : start.Owns histories owner key) {last : Option Bytes}
    (noted : ∀ value, c.stored name owner key = some value → last = some value) (value : Bytes)
    (found : (c.meet name demand).stored name owner key = some value) :
    (Cluster.record name owner key (c, last) demand).2 = some value := by
  rw [Cluster.record]
  cases (kept.meets concord allowed).affects concord owns with
  | spared _ stored asked =>
    rw [if_pos asked]
    exact noted value (stored.symm.trans found)
  | found stored still asked =>
    rw [if_pos asked]
    exact noted value (stored.trans (still.symm.trans found))
  | loaded _ gives stored asked =>
    rw [if_neg (by rw [asked]; exact Nat.succ_ne_self _), gives]
    exact stored.symm.trans found
  | removed gone =>
    rw [gone] at found
    cases found

theorem Kept.recordAll (kept : start.Kept histories name c) (concord : start.Concord name S histories)
    {last : Option Bytes} (allowed : ∀ demand ∈ demands, start.Allows name demand)
    (owns : start.Owns histories owner key)
    (noted : ∀ value, c.stored name owner key = some value → last = some value) :
    ∃ after, demands.foldl (Cluster.record name owner key) (c, last) = (c.meetAll name demands, after) ∧
      ∀ value, (c.meetAll name demands).stored name owner key = some value → after = some value := by
  induction demands generalizing c last with
  | nil => exact ⟨last, rfl, noted⟩
  | cons demand rest ih =>
    obtain ⟨first, others⟩ := List.forall_mem_cons.mp allowed
    exact ih ((kept.meets concord first).kept concord kept) others (kept.record concord first owns noted)

/-- In a cluster of members in concord every key has one owner. After any gets and
    removals, of any keys at any members, the key is stored nowhere else and no other
    loader was asked for it. While it is not removed, the loader of the owner is asked
    for it once at most. A get of it anywhere returns what that loader gave last, and a
    removal leaves it stored nowhere. -/
theorem keys_stay_with_owners (concord : c.Concord name S histories) (inhabited : 0 < c.members.length) (key : String) :
    ∃ owner, c.Owns histories owner key ∧ ∀ demands, (∀ demand ∈ demands, c.Allows name demand) →
      (∀ other, other ≠ owner → (c.meetAll name demands).stored name other key = none ∧
        (c.meetAll name demands).asked name other key = c.asked name other key) ∧
      (∀ segment, (∀ demand ∈ segment, c.Allows name demand) → (∀ member now, .remove member now key ∉ segment) →
        (c.meetAll name (demands ++ segment)).asked name owner key ≤
          (c.meetAll name demands).asked name owner key + 1) ∧
      (∀ member now, c.Allows name (.get member now key) → ∃ later delay value,
        (c.meetAll name demands).get member name now .never key = (later, .after delay (.ok value)) ∧
        c.lastLoad name owner key (demands ++ [.get member now key]) = some value) ∧
      ∀ member now, c.Allows name (.remove member now key) → ∃ later delay,
        (c.meetAll name demands).remove member name now .never key = (later, .after delay (.ok ())) ∧
        ∀ id, later.stored name id key = none := by
  obtain ⟨owner, owns⟩ := concord.exists_owns inhabited key
  refine ⟨owner, owns, ?_⟩
  intro demands allowed
  have kept := concord.kept.meetAll concord allowed
  refine ⟨?_, ?_, ?_, ?_⟩
  · intro other apart
    exact ⟨kept.stored_eq_none concord owns apart, concord.kept.asked_meetAll_of_ne concord allowed owns apart⟩
  · intro segment allowedThen stays
    have bound := kept.asked_meetAll_le concord allowedThen owns stays
    rw [Cluster.meetAll, List.foldl_append]
    refine bound.trans (Nat.add_le_add_left ?_ _)
    split <;> decide
  · intro member now allowedThen
    have ⟨known, carries⟩ : member < c.members.length ∧ c.Carries name key := allowedThen
    obtain ⟨later, delay, value, got, serves⟩ := kept.exists_get concord carries owns known now
    refine ⟨later, delay, value, got, ?_⟩
    have nothing : ∀ value, c.stored name owner key = some value → none = some value :=
      fun _ found => (concord.stored_eq_none owner key).symm.trans found
    obtain ⟨last, recorded, noted⟩ := concord.kept.recordAll concord allowed owns nothing
    have met : (c.meetAll name demands).meet name (.get member now key) = later := congrArg Prod.fst got
    rw [lastLoad, List.foldl_append, recorded]
    refine kept.record concord allowedThen owns noted value ?_
    rw [met, serves.stored, if_pos ⟨rfl, rfl⟩]
  · intro member now allowedThen
    obtain ⟨known, carries⟩ : member < c.members.length ∧ c.Carries name key := allowedThen
    obtain ⟨later, delay, removed, sheds⟩ := kept.exists_remove concord carries known now
    refine ⟨later, delay, removed, ?_⟩
    intro id
    rw [sheds.stored, if_pos rfl]

/-- Two members with the same membership, on a ring where each stands at the first
    letter of its address. -/
def pairHistory (id : MemberId) : History where
  selfAddress := if id = 0 then "a" else "b"
  settings := ⟨1, fun bytes => (bytes.headD 0).toUInt64, .standard⟩
  dialing number _ := some (2 * id + number)
  changes := [.amend .replace ["a", "b"]]

/-- The loader of one of the two puts the address of the member in front of the key. -/
def pairLoader (id : MemberId) : Loader :=
  .follow ⟨[⟨none, .echo (pairHistory id).selfAddress⟩], .empty⟩

/-- The cluster of the two. -/
def pair : Cluster where
  latency := 3
  members := [0, 1].map (fun id =>
    ⟨some (pairHistory id).pool, ⟨Table.empty.insert "g" ⟨.new "g" Group.ample, pairLoader id⟩⟩⟩)
  stations := [⟨some 0, defaultMaxFrame, none⟩, ⟨some 1, defaultMaxFrame, none⟩]
  listening := (Table.empty.insert "a" 0).insert "b" 1
  channels := [0, 1, 0, 1].map (⟨·, .waiting [], [], some 0⟩)
  links := [("a", 0), ("b", 1), ("a", 2), ("b", 3)].map (fun link => ⟨link.1, .standard, .around link.2⟩)

theorem members_pair (id : MemberId) : (pairHistory id).pool.members = ["a", "b"] := by
  cbv

theorem links_pair (id : MemberId) : (pairHistory id).pool.membership.links.entries =
    [("a", ⟨"a", 2 * id⟩), ("b", ⟨"b", 2 * id + 1⟩)] := by
  cbv

theorem leads_pair (link : Nat) (listed : link < 4) : pair.Leads link (link % 2) defaultMaxFrame defaultMaxFrame := by
  interval_cases link
  all_goals exact .intro rfl rfl ⟨_, [], rfl, rfl, rfl, Source.drained_nil, Source.drained_nil⟩ rfl rfl rfl rfl

theorem holding_pair {id : MemberId} {holding : Holding} (held : pair.holding? id "g" = some holding) :
    holding = ⟨.new "g" Group.ample, pairLoader id⟩ := by
  match id with
  | 0 | 1 => exact (Option.some.inj held).symm
  | _ + 2 => cases held

theorem work_pairLoader (id : MemberId) (now : Time) (key : String) (n : Nat) :
    (pairLoader id).work now key n = .after 0 (.ok (Bytes.ofText ((pairHistory id).selfAddress ++ key))) := by
  have first : min n 0 = 0 := Nat.min_eq_right (Nat.zero_le n)
  simp only [pairLoader, Loader.follow, Script.outcome, Table.find?_empty, Option.getD_none, List.length_singleton,
    Nat.sub_self, first]
  rfl

theorem concord_pair : pair.Concord "g" {"a", "b"} pairHistory where
  pools id known := by
    have two : id < 2 := known
    interval_cases id <;> rfl
  alike _ _ _ _ := ⟨rfl, rfl⟩
  same id _ := by
    ext address
    simp [members_pair id]
  among id known := by
    have two : id < 2 := known
    interval_cases id
    · exact .inl rfl
    · exact .inr rfl
  distinct id known other also := by
    have two : id < 2 := known
    have twoAlso : other < 2 := also
    interval_cases id <;> interval_cases other <;> decide
  linked id known address peer found := by
    have two : id < 2 := known
    rw [Table.find?_eq_some_iff, links_pair, List.mem_pair] at found
    have first := leads_pair (2 * id) (by omega)
    have second := leads_pair (2 * id + 1) (by omega)
    rw [Nat.mul_mod_right] at first
    rw [Nat.mul_add_mod] at second
    rcases found with same | same
    · cases same
      exact ⟨0, _, _, Nat.two_pos, rfl, first⟩
    · cases same
      exact ⟨1, _, _, Nat.one_lt_two, rfl, second⟩
  groups id known := by
    have two : id < 2 := known
    interval_cases id
    all_goals exact ⟨_, rfl, rfl, rfl⟩


theorem mayGive_pair {id : MemberId} {key : String} {value : Bytes} (may : (pairLoader id).MayGive key value) :
    value = Bytes.ofText ((pairHistory id).selfAddress ++ key) := by
  obtain ⟨now, n, delay, work⟩ := may
  rw [work_pairLoader] at work
  cases work
  rfl

theorem limits_pair {link : LinkId} {member : MemberId} {requests replies : Nat}
    (leads : pair.Leads link member requests replies) : requests = defaultMaxFrame ∧ replies = defaultMaxFrame := by
  obtain ⟨wired, _, _, stands, _, rfl, rfl⟩ := leads
  constructor
  · have listed := List.mem_of_getElem? stands
    simp only [pair, List.mem_pair] at listed
    rcases listed with rfl | rfl <;> rfl
  · have listed := List.mem_of_getElem? wired
    simp only [pair, List.mem_map] at listed
    obtain ⟨_, _, rfl⟩ := listed
    rfl

theorem carries_pair {key : String} (listed : key ∈ ["b", "k"]) : pair.Carries "g" key where
  gives id holding held := by
    rw [holding_pair held]
    exact fun now n => ⟨_, _, work_pairLoader id now key n⟩
  fits id holding value held may := by
    rw [holding_pair held] at may ⊢
    rw [mayGive_pair may, pairHistory]
    simp only [List.mem_pair] at listed
    split <;> rcases listed with rfl | rfl <;> cbv
  frames id peer member requests replies _ leads := by
    obtain ⟨rfl, rfl⟩ := limits_pair leads
    simp only [List.mem_pair] at listed
    refine ⟨?_, ?_, ?_, ?_⟩
    · rcases listed with rfl | rfl <;> exact ⟨by cbv, by cbv⟩
    · rcases listed with rfl | rfl <;> exact ⟨by cbv, by cbv⟩
    · exact ⟨by cbv, by cbv⟩
    · intro holding value held may
      rw [holding_pair held] at may
      rw [mayGive_pair may, pairHistory]
      simp only
      split <;> rcases listed with rfl | rfl <;> exact ⟨by cbv, by cbv⟩

theorem owns_pair : pair.Owns pairHistory 0 "k" := by
  refine ⟨Nat.two_pos, ?_⟩
  intro id _
  cbv

/-- Both members are asked for keys of both, and one key is removed in between. -/
def pairDemands : List Demand :=
  [.get 1 0 "k", .get 0 20 "b", .remove 0 40 "b", .get 1 60 "b", .get 0 80 "k"]

theorem allows_pairDemands : ∀ demand ∈ pairDemands, pair.Allows "g" demand := by
  simp only [pairDemands, List.forall_mem_cons, Allows, Demand.member, Demand.key]
  have b : pair.Carries "g" "b" := carries_pair (by simp)
  have k : pair.Carries "g" "k" := carries_pair (by simp)
  exact ⟨⟨by decide, k⟩, ⟨by decide, b⟩, ⟨by decide, b⟩, ⟨by decide, b⟩, ⟨by decide, k⟩, nofun⟩

theorem keys_stay_with_owners_of_pair :
    (pair.meetAll "g" pairDemands).stored "g" 1 "k" = none ∧ (pair.meetAll "g" pairDemands).asked "g" 1 "k" = 0 ∧
    (pair.meetAll "g" pairDemands).asked "g" 0 "k" ≤ 1 ∧
    (∃ later delay value, (pair.meetAll "g" pairDemands).get 1 "g" 100 .never "k" = (later, .after delay (.ok value)) ∧
      pair.lastLoad "g" 0 "k" (pairDemands ++ [.get 1 100 "k"]) = some value) ∧
    ∃ later delay, (pair.meetAll "g" pairDemands).remove 1 "g" 100 .never "k" = (later, .after delay (.ok ())) ∧
      ∀ id, later.stored "g" id "k" = none := by
  obtain ⟨owner, owns, kept⟩ := keys_stay_with_owners concord_pair Nat.two_pos "k"
  obtain rfl := owns_pair.unique concord_pair owns
  have k : pair.Carries "g" "k" := carries_pair (by simp)
  obtain ⟨elsewhere, _, gets, removals⟩ := kept pairDemands allows_pairDemands
  obtain ⟨_, once, _, _⟩ := kept [] nofun
  refine ⟨(elsewhere 1 Nat.one_ne_zero).1, (elsewhere 1 Nat.one_ne_zero).2, ?_, gets 1 100 ⟨by decide, k⟩,
    removals 1 100 ⟨by decide, k⟩⟩
  exact once pairDemands allows_pairDemands (by simp [pairDemands])

end Cluster

end RingCache
