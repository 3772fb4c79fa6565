import Mathlib.Dynamics.PeriodicPts.Lemmas
import ChainSync.Proofs.Schedule.Admission
import ChainSync.Proofs.Schedule.Ranges
import ChainSync.Proofs.Schedule.RateLimit

/-!
# How the sizes of requests follow one another

A visit sets the size of its peer to the next one as soon as the range is formed, and only then
decides whether the range is asked for. So the size goes on with visits that are withheld as well,
and what lies between the sizes of two requests to a peer is the number of visits between them. Nine
sizes recur in turn: two requests one after the other differ in size unless the number of withheld
visits between them is eight, or more by a multiple of nine.
-/

namespace ChainSync

/-! ### The cycle of sizes -/

namespace PeerRequests

/-- The sizes that requests have, from the least on. -/
def sizeAt (i : Fin 9) : UInt32 := .ofNat (24 + 2 * i)

/-- Nine steps, and not three, lead from a size back to it. -/
theorem iterate_sizeAfter_sizeAt : ∀ i : Fin 9,
    sizeAfter^[9] (sizeAt i) = sizeAt i ∧ sizeAfter^[3] (sizeAt i) ≠ sizeAt i := by
  decide

end PeerRequests

namespace AdmissibleSize

open PeerRequests (sizeAfter sizeAt)

variable {size : UInt32}

theorem exists_sizeAt (h : AdmissibleSize size) : ∃ i, size = sizeAt i := by
  obtain ⟨least, greatest, even⟩ := h
  refine ⟨⟨(size.toNat - 24) / 2, by omega⟩, ?_⟩
  have hvalue : 24 + 2 * ((size.toNat - 24) / 2) = size.toNat := by omega
  rw [sizeAt, hvalue, UInt32.ofNat_toNat]

theorem minimalPeriod_eq (h : AdmissibleSize size) : Function.minimalPeriod sizeAfter size = 9 := by
  obtain ⟨i, rfl⟩ := h.exists_sizeAt
  obtain ⟨hnine, hthree⟩ := PeerRequests.iterate_sizeAfter_sizeAt i
  have : Fact (Nat.Prime 3) := ⟨Nat.prime_three⟩
  exact Function.minimalPeriod_eq_prime_pow (p := 3) (k := 1) hthree hnine

/-- The sizes recur after nine steps and not before. -/
theorem iterate_eq_self_iff (h : AdmissibleSize size) (n : Nat) :
    sizeAfter^[n] size = size ↔ 9 ∣ n := by
  rw [← h.minimalPeriod_eq]
  exact Function.isPeriodicPt_iff_minimalPeriod_dvd

end AdmissibleSize

/-! ### Visits -/

namespace Visited

/-- The visit sets the size of its peer: its range starts at a height, and in the normal mode it
also ends at one. -/
def isSized (v : Visited) : Bool := (if v.mode = .normal then v.beyond else v.first) < UInt64.size

/-- How many of some visits set the size of a peer. -/
def sizings (peer : PeerId) (vs : List Visited) : Nat :=
  vs.countP fun v ↦ v.peer = peer && v.isSized

variable {v : Visited}

theorem isSized_of_normal (h : v.mode = .normal) : v.isSized = decide (v.beyond < UInt64.size) := by
  rw [isSized, if_pos h]

theorem isSized_of_ne (h : v.mode ≠ .normal) : v.isSized = decide (v.first < UInt64.size) := by
  rw [isSized, if_neg h]

theorem Fits.isSized (fits : v.Fits) : v.isSized = true := by
  by_cases normal : v.mode = .normal
  · rw [isSized_of_normal normal]
    exact decide_eq_true (fits.beyond_lt (.inr normal))
  · rw [isSized_of_ne normal]
    exact decide_eq_true fits.first_lt

theorem sizings_append (peer : PeerId) (vs ws : List Visited) :
    sizings peer (vs ++ ws) = sizings peer vs + sizings peer ws := List.countP_append

end Visited

namespace RequestSchedule

open PeerRequests (sizeAfter)

variable {s t : RequestSchedule} {p : PeerRequests} {peer other : PeerId} {mode : SyncMode}
  {modes : ModeTable} {now : Millis} {l : List PeerId} {nextFirst : UInt64} {vs : List Visited}

def size? (s : RequestSchedule) (peer : PeerId) : Option UInt32 :=
  s.peers[peer]?.map PeerRequests.size

theorem size?_withPeer (s : RequestSchedule) (peer : PeerId) (p : PeerRequests) :
    (s.withPeer peer p).size? peer = some p.size := by
  rw [size?, getElem?_withPeer, if_pos rfl]
  rfl

theorem size?_withPeer_of_ne (hne : other ≠ peer) (s : RequestSchedule) (p : PeerRequests) :
    (s.withPeer other p).size? peer = s.size? peer := by
  rw [size?, getElem?_withPeer, if_neg hne, size?]

/-- Once its start is known, a visit sets the size, whether or not it asks or faults. -/
theorem size?_settle (mode : SyncMode) (now : Millis) (peer : PeerId) (p : PeerRequests)
    (first next : UInt64) (s : RequestSchedule) :
    ((settle mode now peer p first next).leaves s).size? peer = some p.nextSize := by
  unfold settle
  rw [Step.leaves_bind, exec_setPeer]
  dsimp only
  split
  · rw [Step.leaves_checkedAdd_bind]
    split
    · exact size?_withPeer _ peer _
    · exact size?_withPeer s peer _
  · rw [Step.leaves_bind, exec_setPeer]
    exact size?_withPeer _ peer _

/-- In the normal mode a visit sets the size when the end of its range is a height. -/
private theorem size?_normal {first : UInt64} {v : Visited}
    (plan : v = p.planned peer .normal nextFirst) (start : first.toNat = v.first)
    (s : RequestSchedule) :
    let run : Step RequestSchedule (Option HeaderRequest × UInt64) := do
      setPeer peer ⟨p.name, .normal, first, p.size, p.lastBest, p.times⟩
      let after ← checkedAdd first p.nextSize.toUInt64
      settle .normal now peer p first (max (← get).requestHeight after)
    (run.leaves s).size? peer = some (if v.isSized then p.nextSize else p.size) := by
  have hsized : v.isSized = decide (first.toNat + p.nextSize.toUInt64.toNat < UInt64.size) := by
    rw [start, UInt32.toNat_toUInt64, plan, Visited.isSized_of_normal rfl]
    rfl
  dsimp only
  rw [Step.leaves_bind, exec_setPeer, hsized]
  simp only [Step.leaves_checkedAdd_bind, decide_eq_true_eq]
  split
  · exact size?_settle ..
  · exact size?_withPeer s peer _

/-- A visit of a tracked peer sets its size, whether it is asked or withheld. One that faults sets
the size when its range was formed before. -/
theorem size?_visit (known : s.peers[peer]? = some p) (mode : SyncMode) (now : Millis)
    (nextFirst : UInt64) :
    ((visit mode now peer nextFirst).leaves s).size? peer =
      some (if (p.planned peer mode nextFirst).isSized then p.nextSize else p.size) := by
  have hother (hmode : mode ≠ .normal) : (p.planned peer mode nextFirst).isSized =
      decide (p.nextStart nextFirst mode < UInt64.size) := Visited.isSized_of_ne hmode
  unfold visit
  rw [Step.leaves, Step.exec_bind_of_ok (Step.exec_get s), known]
  dsimp only
  rw [← Step.leaves, Step.leaves_bind, exec_setPeer]
  cases mode with
  | backward =>
    have hfirst : p.nextStart nextFirst .backward = (max (monus p.first backwardStep) 1).toNat := by
      rw [toNat_max, toNat_monus]
      rfl
    rw [hother (by decide), hfirst, if_pos (decide_eq_true (UInt64.toNat_lt _))]
    exact size?_settle ..
  | forward =>
    have hfirst : p.nextStart nextFirst .forward = p.first.toNat + p.size.toUInt64.toNat := by
      rw [UInt32.toNat_toUInt64]
      rfl
    rw [hother (by decide), hfirst]
    simp only [Step.leaves_checkedAdd_bind, decide_eq_true_eq]
    split
    · exact size?_settle ..
    · exact size?_withPeer s peer _
  | normal =>
    dsimp only
    by_cases hsame : p.first = nextFirst
    · have hfirst : (p.planned peer .normal nextFirst).first =
          nextFirst.toNat + p.size.toUInt64.toNat := by
        rw [UInt32.toNat_toUInt64]
        exact if_pos hsame
      rw [if_pos hsame, Step.leaves_checkedAdd_bind]
      split
      · next fits =>
        refine size?_normal rfl ?_ _
        rw [hfirst, UInt64.toNat_add, Nat.mod_eq_of_lt fits]
      · next full =>
        have hsized : ¬ (p.planned peer .normal nextFirst).isSized = true := by
          rw [Visited.isSized_of_normal rfl, decide_eq_true_eq, Visited.beyond, hfirst]
          omega
        rw [if_neg hsized]
        exact size?_withPeer s peer _
    · have hfirst : nextFirst.toNat = (p.planned peer .normal nextFirst).first :=
        (if_neg hsame).symm
      rw [if_neg hsame]
      exact size?_normal rfl hfirst _

/-- A visit of another peer leaves the size of this one. -/
theorem size?_visit_of_ne (hne : other ≠ peer) (mode : SyncMode) (now : Millis)
    (nextFirst : UInt64) (s : RequestSchedule) :
    ((visit mode now other nextFirst).leaves s).size? peer = s.size? peer := by
  have hvisits := visits_visit mode now other nextFirst s
  rw [Step.leaves]
  cases hrun : (visit mode now other nextFirst).exec s with
  | mk r t =>
    rw [hrun] at hvisits
    cases hvisits with
    | untracked _ => rfl
    | faulted _ noted =>
      obtain ⟨q, rfl, -⟩ := noted
      exact size?_withPeer_of_ne hne s q
    | withheld _ noted =>
      obtain ⟨q, rfl, -⟩ := noted
      exact size?_withPeer_of_ne hne s q
    | asked _ _ _ => exact size?_withPeer_of_ne hne s _

/-- A visit moves the size of a peer on if it is of the peer and sets the size. -/
theorem size?_leaves_visit (peer other : PeerId) (mode : SyncMode) (now : Millis)
    (nextFirst : UInt64) (s : RequestSchedule) :
    ((visit mode now other nextFirst).leaves s).size? peer =
      (s.size? peer).map sizeAfter^[Visited.sizings peer
        (s.peers[other]?.map fun p ↦ p.planned other mode nextFirst).toList] := by
  cases hknown : s.peers[other]? with
  | none =>
    rw [Step.leaves, exec_visit_of_unknown hknown]
    exact (congrFun Option.map_id _).symm
  | some p =>
    have hpeer : (p.planned other mode nextFirst).peer = other := rfl
    rw [Option.map_some, Option.toList_some, Visited.sizings, List.countP_singleton, hpeer]
    by_cases he : other = peer
    · subst he
      rw [size?_visit hknown, size?, hknown, Option.map_some, Option.map_some]
      cases (p.planned other mode nextFirst).isSized with
      | true => simp [PeerRequests.nextSize]
      | false => simp
    · rw [size?_visit_of_ne he]
      simp [he]

/-- Visits in order move the size of a peer on as often as they set it. -/
theorem size?_visitAll (peer : PeerId) (modes : ModeTable) (now : Millis) (l : List PeerId) :
    ∀ (nextFirst : UInt64) (s : RequestSchedule),
      ((visitAll modes now l nextFirst).leaves s).size? peer =
        (s.size? peer).map sizeAfter^[Visited.sizings peer (visits modes now l nextFirst s)] := by
  induction l with
  | nil => exact fun _ _ ↦ (congrFun Option.map_id _).symm
  | cons other rest ih =>
    intro nextFirst s
    have hfirst := size?_leaves_visit peer other (modes.mode other) now nextFirst s
    rw [Step.leaves] at hfirst ⊢
    rw [exec_visitAll_cons, visits]
    cases hrun : (visit (modes.mode other) now other nextFirst).exec s with
    | mk r t =>
      rw [hrun] at hfirst
      cases r with
      | error e => exact hfirst
      | ok answer =>
        dsimp only at hfirst ⊢
        rw [ih, hfirst, Option.map_map, ← Function.iterate_add, Visited.sizings_append,
          Nat.add_comm]

/-- Issuing the requests of a pass moves the size of a peer on as often as its visits set it. -/
theorem size?_issue (peer : PeerId) (registry : Registry) (modes : ModeTable) (now : Millis)
    (localBest : UInt64) (localTotal : Difficulty) (s : RequestSchedule) :
    ((issue registry modes now localBest localTotal).leaves s).size? peer =
      (s.size? peer).map sizeAfter^[Visited.sizings peer
        (s.issueVisits registry modes now localBest localTotal)] := by
  rw [Step.leaves, exec_issue]
  cases hsum : checkedAdd localBest overlapSwitch with
  | error e =>
    have hfull := (checkedAdd_eq_error_iff.mp hsum).1
    have hless : overlapSwitch.toNat ≤ maxAhead.toNat := by decide
    rw [issueVisits_of_full (by omega)]
    exact (congrFun Option.map_id _).symm
  | ok switch =>
    obtain ⟨r, random, hpick, -⟩ := s.exists_exec_pick registry localBest localTotal
    unfold issueVisits
    simp only [Step.exec_bind, hpick]
    cases r with
    | error e => exact (congrFun Option.map_id _).symm
    | ok chosen => exact size?_visitAll peer modes now chosen _ (s.raised localBest random)

/-- A tour sets the size of each peer that it visits once. -/
theorem Tour.sizings_eq_one (tour : Tour modes now l nextFirst s vs t) (distinct : l.Nodup)
    {v : Visited} (h : v ∈ vs) : Visited.sizings v.peer vs = 1 := by
  have hsizings : Visited.sizings v.peer vs = (vs.map Visited.peer).count v.peer := by
    rw [Visited.sizings, List.count_eq_countP, List.countP_map]
    refine List.countP_congr fun w hw ↦ ?_
    obtain ⟨_, _, -, -, fits⟩ := tour.exists_planned distinct hw
    simp [fits.isSized]
  rw [hsizings]
  exact List.count_eq_one_of_mem (distinct.sublist tour.sublist) (List.mem_map_of_mem h)

end RequestSchedule

/-! ### Events -/

open PeerRequests (sizeAfter minSize)

theorem Place.size_release (place : Place) (now : Millis) (quota : Nat) :
    (place.release now quota).known.map PeerRequests.size = place.known.map PeerRequests.size := by
  cases place with
  | away => rfl
  | free p => rfl
  | busy p =>
    have alike := p.alike_tryRelease now quota
    rw [release]
    split <;> simp [alike.size]

/-- Meeting a connected peer leaves its size, and a peer that joins has the least one. -/
theorem Place.size_refresh (place : Place) (info : PeerInfo) (now : Millis) (quota : Nat) :
    (place.refresh (some info) now quota).known.map PeerRequests.size =
      some ((place.known.map PeerRequests.size).getD minSize) := by
  rw [refresh, size_release]
  cases place <;> rfl

/-- Meeting the connected peers leaves the size of each that was tracked. -/
theorem Engine.Stands.size?_meetPeers {e : Engine} {quota : Nat} {peer : PeerId} {place : Place}
    (h : e.Stands quota peer place) {registry : Registry} (connected : peer ∈ registry.peers)
    (now : Millis) :
    (e.meetPeers registry now).requests.size? peer =
      some ((e.requests.size? peer).getD minSize) := by
  obtain ⟨info, hinfo⟩ := Option.isSome_iff_exists.mp
    (Std.ExtTreeMap.mem_iff_isSome_getElem?.mp connected)
  have hmet := (h.meetPeers registry now).schedule.known
  rw [hinfo] at hmet
  rw [RequestSchedule.size?, RequestSchedule.size?, hmet, h.schedule.known, Place.size_refresh]

/-- A pass moves the size of a peer on as often as its visits set it. -/
theorem Seat.size?_headerPass (s : Seat) (peer : PeerId) (now : Millis) (localBest : UInt64)
    (localTotal : Difficulty) :
    ((headerPass now localBest localTotal).leaves s).engine.requests.size? peer =
      ((s.engine.meetPeers s.node.registry now).requests.size? peer).map
        sizeAfter^[Visited.sizings peer (s.visits now localBest localTotal)] := by
  obtain ⟨-, hrequests, -⟩ := s.exec_headerPass_at now localBest localTotal
  rw [hrequests]
  exact RequestSchedule.size?_issue ..

/-- A pass asks a peer for as many headers as come after the size known of it, and leaves that size
known. -/
theorem Seat.size?_of_headerPass {s : Seat} {quota : Nat} {place : Place} {r : HeaderRequest}
    (h : s.engine.Stands quota r.peer place) {now : Millis} {localBest : UInt64}
    {localTotal : Difficulty} {requests : List HeaderRequest}
    (answers : ((headerPass now localBest localTotal).exec s).1 = .ok requests)
    (issued : r ∈ requests) :
    r.count = sizeAfter ((s.engine.requests.size? r.peer).getD minSize) ∧
      ((headerPass now localBest localTotal).leaves s).engine.requests.size? r.peer =
        some r.count := by
  obtain ⟨chosen, random, hchosen, -, tour, hrequests⟩ := exists_tour_of_headerPass answers
  have distinct := (RequestSchedule.nodup_candidates _ _ _).sublist hchosen
  rw [hrequests] at issued
  obtain ⟨v, hv, -, rfl⟩ := Visited.exists_of_mem_answers issued
  have hpeer : v.request.peer = v.peer := rfl
  rw [hpeer] at h ⊢
  obtain ⟨p, n, hp, plan, -⟩ := tour.exists_planned distinct hv
  obtain ⟨-, info, hinfo, -⟩ :=
    RequestSchedule.mem_candidates_iff.mp (hchosen.subset (tour.mem_of_mem hv))
  have connected : v.peer ∈ s.node.registry.peers := by
    rw [Std.ExtTreeMap.mem_iff_isSome_getElem?, hinfo]
    rfl
  -- Meeting the peers leaves the size that the visit starts from.
  have hknown : (s.engine.meetPeers s.node.registry now).requests.size? v.peer = some p.size :=
    congrArg (Option.map PeerRequests.size) hp
  have hsize : (s.engine.requests.size? v.peer).getD minSize = p.size :=
    Option.some.inj ((h.size?_meetPeers connected now).symm.trans hknown)
  have hcount : v.request.count = sizeAfter p.size := congrArg Visited.size plan
  rw [size?_headerPass, hknown, hsize, tour.sizings_eq_one distinct hv, hcount]
  exact ⟨rfl, rfl⟩

namespace ScheduleEvent

/-- The peer is connected if this is a pass. -/
def Connects (peer : PeerId) : ScheduleEvent → Prop
  | pass registry _ _ _ => peer ∈ registry.peers
  | store .. | take .. | move .. => True

/-- How many visits of an event set the size of a peer. -/
def sizings (peer : PeerId) (s : Seat) : ScheduleEvent → Nat
  | pass registry now localBest localTotal =>
    Visited.sizings peer ((s.withRegistry registry).visits now localBest localTotal)
  | store .. | take .. | move .. => 0

def sizingsAll (peer : PeerId) : List ScheduleEvent → Seat → Nat
  | [], _ => 0
  | event :: rest, s => event.sizings peer s + sizingsAll peer rest (event.act.leaves s)

variable {s : Seat} {quota : Nat} {peer : PeerId} {place : Place} {size : UInt32}

/-- An event moves the size of a tracked peer that stays connected on as often as its visits set
it. -/
theorem size?_act (h : s.engine.Stands quota peer place)
    (known : s.engine.requests.size? peer = some size) (event : ScheduleEvent)
    (connects : event.Connects peer) :
    (event.act.leaves s).engine.requests.size? peer =
      some (sizeAfter^[event.sizings peer s] size) := by
  cases event with
  | pass registry now localBest localTotal =>
    have hregistry : (s.withRegistry registry).engine.Stands quota peer place := h
    have hmet : ((s.withRegistry registry).engine.meetPeers registry now).requests.size? peer =
        some size := by
      rw [hregistry.size?_meetPeers connects]
      exact congrArg (fun known ↦ some (known.getD minSize)) known
    rw [s.leaves_act_pass, Seat.size?_headerPass]
    exact congrArg (Option.map _) hmet
  | store batch now =>
    obtain ⟨reached, hmoved, hreached⟩ := h.act (.store batch now)
    rw [RequestSchedule.size?, h.schedule.known] at known
    rw [RequestSchedule.size?, hreached.schedule.known]
    cases hmoved with
    | stored =>
      split
      · rw [Place.size_release]
        exact known
      · exact known
  | take other size =>
    rw [act, Step.leaves, Step.exec_discard]
    exact known
  | move other event =>
    rw [act, Step.leaves, Step.exec_discard]
    exact known

/-- Events move the size of a tracked peer that stays connected on as often as their visits set
it. -/
theorem size?_afterAll (events : List ScheduleEvent) : ∀ {s : Seat} {place : Place} {size : UInt32},
    s.engine.Stands quota peer place → s.engine.requests.size? peer = some size →
    (∀ event ∈ events, event.Connects peer) →
    (afterAll events s).engine.requests.size? peer =
      some (sizeAfter^[sizingsAll peer events s] size) := by
  induction events with
  | nil => exact fun _ known _ ↦ known
  | cons event rest ih =>
    intro s place size h known connects
    obtain ⟨reached, -, hreached⟩ := h.act event
    have hrest := ih hreached (size?_act h known event (connects event List.mem_cons_self))
      fun later hlater ↦ connects later (List.mem_cons_of_mem _ hlater)
    rw [← Function.iterate_add_apply, Nat.add_comm] at hrest
    exact hrest

/-- A request has the size that comes after the one known of its peer, and that is known then. -/
theorem size?_of_issued {r : HeaderRequest} (h : s.engine.Stands quota r.peer place)
    {event : ScheduleEvent} (issued : r ∈ event.issued s) :
    r.count = sizeAfter ((s.engine.requests.size? r.peer).getD minSize) ∧
      (event.act.leaves s).engine.requests.size? r.peer = some r.count := by
  cases event with
  | pass registry now localBest localTotal =>
    have hregistry : (s.withRegistry registry).engine.Stands quota r.peer place := h
    obtain ⟨requests, answers, issued⟩ := mem_issued_pass issued
    rw [s.leaves_act_pass]
    exact Seat.size?_of_headerPass hregistry answers issued
  | store batch now => cases issued
  | take peer size => cases issued
  | move peer event => cases issued

/-- The sizes of two requests to a peer that stays connected are one step further apart than visits
between them set its size, so they are the same exactly when the number of those visits is one less
than a multiple of nine. No request comes of these visits when the two come one after the other. -/
theorem count_eq_iff_afterAll (s : Seat) (maxPerSecond : Nat) (expiry : Millis) (seed : UInt64)
    (before between : List ScheduleEvent) {first last : ScheduleEvent} {r r' : HeaderRequest}
    (tracked : ∀ event ∈ between, event.Connects r.peer) (same : r'.peer = r.peer) :
    let start := afterAll before (s.beforeMeeting maxPerSecond expiry seed)
    let asked := first.act.leaves start
    let visits := sizingsAll r.peer between asked
    r ∈ first.issued start → r' ∈ last.issued (afterAll between asked) →
      r'.count = sizeAfter^[visits + 1] r.count ∧ (r'.count = r.count ↔ 9 ∣ visits + 1) := by
  intro start asked visits issued issued'
  have hnew : (s.beforeMeeting maxPerSecond expiry seed).engine.requests.Regular :=
    .new maxPerSecond expiry seed
  obtain ⟨place, hplace⟩ :=
    (s.stands_beforeMeeting maxPerSecond expiry seed r.peer).afterAll before
  obtain ⟨reached, -, hreached⟩ := hplace.act first
  obtain ⟨place', hplace'⟩ := hreached.afterAll between
  obtain ⟨-, hknown⟩ := size?_of_issued hplace issued
  have hsize := size?_afterAll between hreached hknown tracked
  obtain ⟨hcount, -⟩ := size?_of_issued (same ▸ hplace') issued'
  rw [same, hsize, Option.getD_some, ← Function.iterate_succ_apply' sizeAfter] at hcount
  have hadmissible : AdmissibleSize r.count := by
    obtain ⟨p, hp, hcount⟩ := Option.map_eq_some_iff.mp hknown
    exact hcount ▸ (hnew.afterAll before).act first r.peer p hp
  refine ⟨hcount, ?_⟩
  rw [hcount]
  exact hadmissible.iterate_eq_self_iff (visits + 1)

/-- Passes that visit a peer in vain, as the local chain is beyond what it advertises. -/
def vain (n : Nat) : List ScheduleEvent :=
  (List.range n).map fun i ↦ .pass single (1000 * (i + 1)) 200 1

def grown : Registry := Registry.empty.upsert (.ofNat 1) ⟨300, 7, "peer-1"⟩

theorem connects_vain (n : Nat) : ∀ event ∈ vain n, event.Connects (.ofNat 1) := by
  intro event h
  obtain ⟨i, -, rfl⟩ := List.mem_map.mp h
  exact Registry.mem_upsert ..

/-- After one visit in vain the next request is two steps smaller. -/
theorem count_eq_iff_afterAll_vain :
    let start := (Seat.genesisSeat Seat.exists_genesis.choose).beforeMeeting 1 60000 0
    let asked := (pass single 0 90 1).act.leaves start
    (pass single 0 90 1).issued start = [⟨.ofNat 1, 75, 40⟩] ∧
      (pass grown 2000 200 1).issued (afterAll (vain 1) asked) = [⟨.ofNat 1, 185, 36⟩] ∧
      sizingsAll (.ofNat 1) (vain 1) asked = 1 ∧ ((36 : UInt32) = 40 ↔ 9 ∣ 1 + 1) := by
  intro start asked
  have issued : (pass single 0 90 1).issued start = [⟨.ofNat 1, 75, 40⟩] := by decide +kernel
  have issued' : (pass grown 2000 200 1).issued (afterAll (vain 1) asked) =
      [⟨.ofNat 1, 185, 36⟩] := by decide +kernel
  have visits : sizingsAll (.ofNat 1) (vain 1) asked = 1 := by decide +kernel
  have first : ⟨.ofNat 1, 75, 40⟩ ∈ (pass single 0 90 1).issued start := by
    rw [issued]
    exact List.mem_singleton_self _
  have last : ⟨.ofNat 1, 185, 36⟩ ∈ (pass grown 2000 200 1).issued (afterAll (vain 1) asked) := by
    rw [issued']
    exact List.mem_singleton_self _
  obtain ⟨-, hcount⟩ := count_eq_iff_afterAll (Seat.genesisSeat Seat.exists_genesis.choose) 1 60000
    0 [] (vain 1) (by exact connects_vain 1) (by rfl) first last
  change (36 : UInt32) = 40 ↔ 9 ∣ sizingsAll (.ofNat 1) (vain 1) asked + 1 at hcount
  rw [visits] at hcount
  exact ⟨issued, issued', visits, hcount⟩

/-- Eight visits in vain, and the next request has the size of the one before them. -/
theorem issued_after_eight_vain :
    let start := (Seat.genesisSeat Seat.exists_genesis.choose).beforeMeeting 1 60000 0
    let asked := (pass single 0 90 1).act.leaves start
    (pass single 0 90 1).issued start = [⟨.ofNat 1, 75, 40⟩] ∧
      (∀ event ∈ vain 8, event.Connects (.ofNat 1)) ∧ issuedAll (vain 8) asked = [] ∧
      (pass grown 9000 200 1).issued (afterAll (vain 8) asked) = [⟨.ofNat 1, 185, 40⟩] :=
  ⟨by decide +kernel, connects_vain 8, by decide +kernel, by decide +kernel⟩

end ScheduleEvent
end ChainSync
