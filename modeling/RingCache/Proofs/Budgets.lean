import RingCache.Proofs.Ownership
import RingCache.Proofs.Requests

/-!
# Budgets that run out

A deadline goes to the owner of a key as a budget of whole milliseconds, which starts
anew there. An owner that overruns it says so in a text, and to the caller that is a
failure of the peer like any other, after which it loads the key itself. Only if its own
alarm has gone off by then it is a timeout at once. So two alarms race
(`Cluster.AlarmFirst`), and the caller asks its own loader unless its alarm comes first
(`Cluster.get_of_overrun`).
-/
namespace RingCache
open Wire

/-! ## Work that takes too long -/

/-- Work that starts now is not ready when an alarm goes off. -/
def Work.Overruns {α : Type} (now alarm : Time) : Work α → Prop
  | .never => True
  | .after delay _ => alarm < now + delay

theorem Deadline.bound_of_overruns {α : Type} {deadline : Deadline} {now alarm : Time}
    {work : Work (Except Failure α)} (rings : deadline.alarm now = some alarm) (overruns : work.Overruns now alarm) :
    deadline.bound now work = .after (alarm - now) (.error .timeout) := by
  cases work with
  | never => simp only [bound, rings]
  | after delay result => simp only [bound, rings, if_neg (Nat.not_le.mpr overruns)]

theorem Deadline.bound_alarm {α : Type} {deadline : Deadline} {now alarm : Time} {result : Except Failure α}
    (rings : deadline.alarm now = some alarm) (soon : now ≤ alarm) :
    deadline.bound now (.after (alarm - now) result) = .after (alarm - now) result := by
  have ends : now + (alarm - now) ≤ alarm := by rw [Nat.add_sub_cancel' soon]
  simp only [bound, rings, if_pos ends]

/-- What a group makes of its loader's work under a deadline, and what comes of a get that
    waits for it. -/
def Holding.load (holding : Holding) (now : Time) (deadline : Deadline) (key : String) :
    Holding × Work (Except Failure Bytes) :=
  let (loader, work) := holding.loader.ask now key
  match deadline.bound now work with
  | .never => (⟨holding.group, loader⟩, .never)
  | .after delay answer =>
    let (group, result) := holding.group.loaded key answer
    (⟨group, loader⟩, .after delay result)

theorem Holding.load_of_overruns {holding : Holding} {now alarm : Time} {deadline : Deadline} {key : String}
    (rings : deadline.alarm now = some alarm) (overruns : (holding.loader.ask now key).2.Overruns now alarm) :
    (holding.load now deadline key).2 = .after (alarm - now) (.error .timeout) := by
  simp only [load, Deadline.bound_of_overruns rings overruns]
  rfl

namespace Cluster

variable {c served : Cluster} {id : LinkId} {member owner : MemberId} {name key : String} {own holding : Holding}
variable {caller : Caller} {party : PartyId} {deadline : Deadline} {request reply : Message} {peer : Peer}
variable {now time delay alarm : Time} {requests replies depth : Nat}

variable (key caller deadline now) in
theorem exists_loadAlone (held : c.holding? member name = some holding) :
    ∃ later, (host caller member name).loadAlone now deadline key c = (later, (holding.load now deadline key).2) ∧
      c.Becomes name (Function.update (c.holdings name) member (some (holding.load now deadline key).1)) later := by
  have asked := becomes_modifyHolding held (fun h => { h with loader := (holding.loader.ask now key).1 })
  simp only [Host.loadAlone, load_host held, Holding.load]
  cases bounded : deadline.bound now (holding.loader.ask now key).2 with
  | never => exact ⟨_, rfl, asked⟩
  | after delay answer =>
    simp only [group_host asked.holding?_self, putGroup_host]
    exact ⟨_, rfl, asked.modifyHolding (fun h => { h with group := (holding.group.loaded key answer).1 })⟩

theorem exists_get_loaded (held : c.holding? member name = some holding) (here : c.pick member key = none)
    (missing : holding.group.store.find? key = none) :
    ∃ later, (host caller member name).get now deadline key c = (later, ((holding.count .gets).load now deadline key).2) ∧
      c.Becomes name (Function.update (c.holdings name) member (some ((holding.count .gets).load now deadline key).1))
        later := by
  have counted := becomes_begun held
  obtain ⟨later, loads, becomes⟩ := exists_loadAlone key caller deadline now counted.holding?_self
  refine ⟨later, (get_of_here key caller deadline now held missing here).trans loads,
    counted.keeps.trans becomes.keeps, ?_⟩
  rw [becomes.holdings, counted.holdings, Function.update_idem]

variable (caller now) in
theorem exists_retrieved_loaded (budget : Option UInt64) (held : c.holding? member name = some holding)
    (here : c.pick member key = none) (missing : holding.group.store.find? key = none) :
    let deadline := Deadline.ofBudget now budget
    let loads := ((holding.count .serverRequests).count .gets).load now deadline key
    ∃ later, dispatch (service caller member) now (.retrieve ⟨name, key, budget⟩) c =
        (later, (deadline.bound now loads.2).map (retrieveReply ⟨name, key, budget⟩)) ∧
      c.Becomes name (Function.update (c.holdings name) member (some loads.1)) later := by
  intro deadline loads
  have counted := becomes_modifyHolding held (fun h => h.count .serverRequests)
  obtain ⟨later, got, becomes⟩ := exists_get_loaded counted.holding?_self
    ((counted.keeps.pick member key).trans here) missing
  refine ⟨later, ?_, counted.keeps.trans becomes.keeps, ?_⟩
  · have retrieves : (service caller member).retrieve now (Deadline.ofBudget now budget) name key c =
        (later, loads.2) := by
      simp only [service, held]
      exact got
    simp only [dispatch, retrieves]
    rfl
  · rw [becomes.holdings, counted.holdings, Function.update_idem]

/-! ## Replies that come too late -/

/-- A reply that comes after the alarm is not waited for. -/
theorem exists_follow_late (leads : c.Leads id member requests replies) (asks : Framed requests request)
    (serves : dispatch (service caller member) (now + c.latency) request
      (c.lent id party (deadline.alarm now)) = (served, .after delay reply))
    (keeps : (c.lent id party (deadline.alarm now)).Keeps served) (rings : deadline.alarm now = some alarm)
    (late : occasion.tooLate deadline now (now + c.roundTrip + delay) = true) :
    ∃ later, c.follow caller id party deadline request .entering now = (later, some (alarm, .failed .timeout)) ∧
      later.members = served.members := by
  obtain @⟨wiring, stream, station, post, wired, idle, rests, stands, attached, rfl, rfl⟩ := leads
  have using_it := getElem?_withLink wired (inUse party)
  obtain ⟨replied, channel, written, links, members, arrives, ready, _⟩ :=
    exists_written deadline using_it rfl rests stands attached asks serves ((keeps_setAlarm _ id _).trans keeps)
  have linked : replied.links[id]? = some { wiring with link := inUse party } := by
    rw [links]
    exact using_it
  have cancelled : replied.occasion caller id { wiring with link := inUse party } party deadline request now
      (.reading stream) = some (.cancelled, alarm, replied) := by
    rw [occasion, arrives]
    have outlasts : occasion.tooLate deadline now (now + (c.withLink id (inUse party)).roundTrip + delay) = true := late
    simp only [ready, outlasts, if_true, occasion.timeout, rings, Option.map_some]
  have drops : (inUse party).advance party (.reading stream) .cancelled =
      some ((inUse party).giveUp .timeout (some stream)) := rfl
  refine ⟨replied.stepped id ((inUse party).giveUp .timeout (some stream)), ?_, members⟩
  rw [follow_entering wired idle, written, follow_of_step rfl linked cancelled linked drops]
  exact follow_finished _

/-! ## Budgets -/

/-- When the owner of a key gives up, of which a get was made at a time and under a deadline
    at another: the budget is what is left of the deadline in whole milliseconds, and starts
    when it arrives. -/
def givesUp (c : Cluster) (now time : Time) : Time :=
  let arrives := now + c.latency
  arrives.alarm (arrives + (UInt64.ofNat ((time - now) / millisecond)).toNat * millisecond)

/-- The alarm of a caller goes off at once, or before it hears that the owner has given up. -/
def AlarmFirst (c : Cluster) (now time : Time) : Prop :=
  now.alarm time ≤ now ∨ now.alarm time < c.givesUp now time + c.latency

/-- The text of an owner whose budget has run out. -/
def overrunText (name key : String) : String :=
  "failed to retrieve [" ++ name ++ "/" ++ key ++ "]: " ++ Failure.timeout.message

/-- A member has a group in which a key is not stored, and asks the owner of the key, where
    it is not stored either and whose loader overruns the budget. -/
structure Strains (c : Cluster) (name key : String) (member owner : MemberId) (peer : Peer) (now time : Time)
    (own : Holding) : Prop where
  apart : owner ≠ member
  asking : c.holding? member name = some own
  named : own.group.name = name
  missing : own.group.store.find? key = none
  asks : c.pick member key = some peer
  leads : ∃ requests replies, c.Leads peer.id owner requests replies ∧
    Framed requests (.retrieve ⟨name, key, (Deadline.upTo time).budget now⟩) ∧
    Framed replies (.error (overrunText name key))
  here : c.pick owner key = none
  overruns : ∃ holding, c.holding? owner name = some holding ∧ holding.group.store.find? key = none ∧
    (holding.loader.ask (now + c.latency) key).2.Overruns (now + c.latency) (c.givesUp now time)

theorem arrives_le_givesUp (c : Cluster) (now time : Time) : now + c.latency ≤ c.givesUp now time :=
  Time.now_le_alarm _ _

theorem tooLate_iff {back : Time} :
    occasion.tooLate (.upTo time) now back = true ↔ now.alarm time ≤ now ∨ now.alarm time < back := by
  simp [occasion.tooLate, Deadline.rings, Deadline.alarm, Deadline.upTo]

/-- If the network takes three milliseconds the alarm of the caller comes first. -/
theorem alarmFirst_of_roundTrip (slow : 3 * millisecond ≤ c.roundTrip) (short : (time - now) / millisecond < 2 ^ 64) :
    c.AlarmFirst now time := by
  have budget : (UInt64.ofNat ((time - now) / millisecond)).toNat = (time - now) / millisecond := by
    rw [UInt64.toNat_ofNat']
    exact Nat.mod_eq_of_lt short
  have rings := Time.time_le_alarm (now + c.latency) (now + c.latency + (time - now) / millisecond * millisecond)
  rw [AlarmFirst, givesUp, budget]
  rcases now.alarm_lt time with atOnce | soon
  · exact .inl (Nat.le_of_eq atOnce)
  · right
    simp only [roundTrip, millisecond, Time] at slow soon rings ⊢
    omega

/-- When the owner gives up, and when the caller hears of it. -/
theorem hears_givesUp (c : Cluster) (now time : Time) :
    now + c.roundTrip + (c.givesUp now time - (now + c.latency)) = c.givesUp now time + c.latency := by
  have soon := c.arrives_le_givesUp now time
  simp only [roundTrip, Time] at soon ⊢
  omega

variable (caller) in
/-- An owner that overruns the budget says so when it is used up. -/
theorem exists_dispatch_overrun (here : c.pick owner key = none) (held : c.holding? owner name = some holding)
    (missing : holding.group.store.find? key = none)
    (overruns : (holding.loader.ask (now + c.latency) key).2.Overruns (now + c.latency) (c.givesUp now time)) :
    ∃ served after, dispatch (service caller owner) (now + c.latency)
        (.retrieve ⟨name, key, (Deadline.upTo time).budget now⟩) c =
        (served, .after (c.givesUp now time - (now + c.latency)) (.error (overrunText name key))) ∧
      c.Becomes name (Function.update (c.holdings name) owner (some after)) served := by
  let budget := (Deadline.upTo time).budget now
  have rings : (Deadline.ofBudget (now + c.latency) budget).alarm (now + c.latency) = some (c.givesUp now time) := rfl
  obtain ⟨served, serves, becomes⟩ := exists_retrieved_loaded caller (now + c.latency) budget held here missing
  have late : (((holding.count .serverRequests).count .gets).load (now + c.latency)
      (.ofBudget (now + c.latency) budget) key).2 =
        .after (c.givesUp now time - (now + c.latency)) (.error .timeout) :=
    Holding.load_of_overruns rings overruns
  rw [late, Deadline.bound_alarm rings (c.arrives_le_givesUp now time)] at serves
  exact ⟨served, _, serves, becomes⟩

variable (member depth) in
/-- What a get hears from the owner: the alarm goes off, or the owner says that it gave up. -/
theorem exists_fetch_overrun (leads : c.Leads peer.id owner requests replies)
    (asks : Framed requests (.retrieve ⟨name, key, (Deadline.upTo time).budget now⟩))
    (answers : Framed replies (.error (overrunText name key))) (here : c.pick owner key = none)
    (held : c.holding? owner name = some holding) (missing : holding.group.store.find? key = none)
    (overruns : (holding.loader.ask (now + c.latency) key).2.Overruns (now + c.latency) (c.givesUp now time)) :
    ∃ later after work, (host (callAt (depth + 1)) member name).fetch peer now (.upTo time) name key c = (later, work) ∧
      later.holdings name = Function.update (c.holdings name) owner (some after) ∧
      (c.AlarmFirst now time → work = .after (now.alarm time - now) (.error .timeout)) ∧
      (¬ c.AlarmFirst now time → work = .after (c.givesUp now time + c.latency - now)
        (.error (.remote peer.address key (overrunText name key)))) := by
  let used := c.lent peer.id (depth + 1) ((Deadline.upTo time).alarm now)
  have hereThen : used.pick owner key = none := here
  have heldThen : used.holding? owner name = some holding := held
  obtain ⟨served, after, told, becomes⟩ := exists_dispatch_overrun (callAt depth) hereThen heldThen missing overruns
  have asked : (Errand.fetch name key).request ((Deadline.upTo time).budget now) =
      .retrieve ⟨name, key, (Deadline.upTo time).budget now⟩ := rfl
  have late_iff : occasion.tooLate (.upTo time) now
      (now + c.roundTrip + (c.givesUp now time - (now + c.latency))) = true ↔ c.AlarmFirst now time := by
    rw [hears_givesUp]
    exact tooLate_iff
  by_cases first : c.AlarmFirst now time
  · obtain ⟨later, followed, members⟩ := exists_follow_late leads asks told becomes.keeps rfl (late_iff.mpr first)
    have called := callAt_of_follow followed rfl
    refine ⟨later, after, .after (now.alarm time - now) (.error .timeout), ?_, ?_, fun _ => rfl,
      fun second => absurd first second⟩
    · simp only [host, asked, called]
      rfl
    · exact (holdings_congr members name).trans becomes.holdings
  · obtain ⟨later, followed, becomesLast⟩ := exists_follow (Deadline.upTo time) leads asks answers told becomes
      (Bool.eq_false_iff.mpr (fun tooLate => first (late_iff.mp tooLate)))
    have called := callAt_of_follow followed rfl
    refine ⟨later, after, .after (c.givesUp now time + c.latency - now)
      (.error (.remote peer.address key (overrunText name key))), ?_, becomesLast.holdings,
      fun second => absurd second first, fun _ => rfl⟩
    rw [← hears_givesUp]
    simp only [host, asked, called]
    rfl

/-! ## Gets whose call fails -/

section
variable {next : Cluster} (held : c.holding? member name = some own) (named : own.group.name = name)
  (missing : own.group.store.find? key = none) (asks : c.pick member key = some peer)
  (still : next.holding? member name = some (own.count .gets))
include held named missing asks still

/-- A get whose call times out does so too, and its own loader is not asked. -/
theorem exists_get_of_timeout
    (fetched : (host caller member name).fetch peer now deadline name key (c.begun member name own) =
      (next, .after delay (.error .timeout))) :
    ∃ later, (host caller member name).get now deadline key c = (later, .after delay (.error .timeout)) ∧
      later.holding? member name = some ((own.count .gets).count .peerErrors) := by
  have told := becomes_modifyHolding still
    (fun h => { h with group := ((own.count .gets).count .peerErrors).group })
  rw [get_of_picked caller deadline now held missing asks, Host.fetchAlone, name_begun held named, fetched]
  simp only [Group.peerAnswered, group_host still]
  exact ⟨_, rfl, told.holding?_self⟩

/-- A get whose call brings an error of the peer asks its own loader then. -/
theorem exists_get_of_remote {address reason : String} {heard : Time} (hears : now + delay = heard)
    (fetched : (host caller member name).fetch peer now deadline name key (c.begun member name own) =
      (next, .after delay (.error (.remote address key reason)))) :
    let loads := ((own.count .gets).count .peerErrors).load heard deadline key
    ∃ later, (host caller member name).get now deadline key c = (later, loads.2.later delay) ∧
      later.holding? member name = some loads.1 := by
  have told := becomes_modifyHolding still
    (fun h => { h with group := ((own.count .gets).count .peerErrors).group })
  obtain ⟨later, loaded, becomes⟩ := exists_loadAlone key caller deadline heard told.holding?_self
  have ends : (host caller member name).putGroup (((host caller member name).group next).count .peerErrors) next =
      next.modifyHolding member name (fun h => { h with group := ((own.count .gets).count .peerErrors).group }) := by
    rw [group_host still]
    rfl
  rw [get_of_picked caller deadline now held missing asks, Host.fetchAlone, name_begun held named, fetched]
  simp only [Group.peerAnswered, ends, hears]
  rw [loaded]
  exact ⟨later, Prod.ext rfl (Work.map_snd_later delay _ _), becomes.holding?_self⟩

end

/-- A get whose owner overruns the budget times out if the alarm of the caller comes first,
    and then its own loader is not asked and nothing is stored here. If the alarm does not
    come first, it takes what the owner says for a failure of the peer, and asks its own
    loader when it has heard of it. -/
theorem get_of_overrun (strains : c.Strains name key member owner peer now time own) :
    let failed := (own.count .gets).count .peerErrors
    let heard := c.givesUp now time + c.latency
    ∃ later work, c.get member name now (.upTo time) key = (later, work) ∧
      (c.AlarmFirst now time →
        work = .after (now.alarm time - now) (.error .timeout) ∧ later.holding? member name = some failed) ∧
      (¬ c.AlarmFirst now time → work = (failed.load heard (.upTo time) key).2.later (heard - now) ∧
        later.holding? member name = some (failed.load heard (.upTo time) key).1) := by
  intro failed heard
  obtain ⟨apart, asking, named, missing, asks, ⟨requests, replies, leads, asked, answers⟩, here,
    ⟨holding, held, missingThere, overruns⟩⟩ := strains
  have counted := becomes_begun asking
  have ownBegun : (c.begun member name own).holding? member name = some (own.count .gets) := counted.holding?_self
  obtain ⟨next, after, work, fetched, holdings, timesOut, fails⟩ := exists_fetch_overrun member c.links.length
    (leads.keeps counted.keeps) asked answers ((counted.keeps.pick owner key).trans here)
    ((counted.holding?_of_ne apart).trans held) missingThere overruns
  have still : next.holding? member name = some (own.count .gets) := by
    rw [show next.holding? member name = next.holdings name member from rfl, holdings,
      Function.update_of_ne apart.symm]
    exact ownBegun
  by_cases first : c.AlarmFirst now time
  · rw [timesOut first] at fetched
    obtain ⟨later, got, failedOnly⟩ := exists_get_of_timeout asking named missing asks still fetched
    exact ⟨later, _, got, fun _ => ⟨rfl, failedOnly⟩, fun second => absurd first second⟩
  · rw [fails first] at fetched
    have soon : now ≤ heard := by
      have arrives : now + c.latency ≤ c.givesUp now time := c.arrives_le_givesUp now time
      exact Nat.le_trans (Nat.le_add_right now c.latency) (Nat.le_trans arrives (Nat.le_add_right _ _))
    have hears : now + (heard - now) = heard := Nat.add_sub_cancel' soon
    obtain ⟨later, got, loaded⟩ := exists_get_of_remote asking named missing asks still hears fetched
    exact ⟨later, _, got, fun second => absurd second first, fun _ => ⟨rfl, loaded⟩⟩

/-- The loaders of two members: one gives a value at once, the other one sleeps for twenty
    seconds. -/
def unevenLoader (id : MemberId) : Loader :=
  .follow ⟨[if id = 0 then ⟨none, .value [7]⟩ else ⟨some (20000 * millisecond), .value [9]⟩], .empty⟩

/-- Two members with the same membership and these loaders, a tenth of a millisecond apart. -/
def unevenPair : Cluster :=
  { pair with
    latency := 100
    members := [0, 1].map (fun id =>
      ⟨some (pairHistory id).pool, ⟨Table.empty.insert "g" ⟨.new "g" Group.ample, unevenLoader id⟩⟩⟩) }

theorem strains_unevenPair :
    unevenPair.Strains "g" "b" 0 1 ⟨"b", 1⟩ 950 2940 ⟨.new "g" Group.ample, unevenLoader 0⟩ where
  apart := Nat.one_ne_zero
  asking := rfl
  named := rfl
  missing := rfl
  asks := by cbv
  leads := by
    refine ⟨defaultMaxFrame, defaultMaxFrame, ?_, ⟨by cbv, by cbv⟩, ⟨by decide +kernel, by decide +kernel⟩⟩
    exact .intro rfl rfl ⟨_, [], rfl, rfl, rfl, Source.drained_nil, Source.drained_nil⟩ rfl rfl rfl rfl
  here := by cbv
  overruns := ⟨⟨.new "g" Group.ample, unevenLoader 1⟩, rfl, rfl, by cbv⟩

/-- Of a deadline that is 1.99 milliseconds away one millisecond is sent along. The owner gives
    up before the caller does, which then loads and stores the value itself. -/
theorem get_of_overrun_heard_in_time :
    unevenPair.Strains "g" "b" 0 1 ⟨"b", 1⟩ 950 2940 ⟨.new "g" Group.ample, unevenLoader 0⟩ ∧
    ¬ unevenPair.AlarmFirst 950 2940 ∧
    ∃ later, unevenPair.get 0 "g" 950 (.upTo 2940) "b" = (later, .after 2200 (.ok [7])) ∧
      later.stored "g" 0 "b" = some [7] ∧ later.asked "g" 0 "b" = 1 := by
  have second : ¬ unevenPair.AlarmFirst 950 2940 := by
    rw [AlarmFirst]
    decide
  obtain ⟨later, work, got, _, loads⟩ := get_of_overrun strains_unevenPair
  obtain ⟨rfl, held⟩ := loads second
  refine ⟨strains_unevenPair, second, later, ?_, ?_, ?_⟩
  · rw [got]
    rfl
  · rw [stored_of_holding held]
    cbv
  · rw [asked_of_holding held]
    cbv

end Cluster

end RingCache
