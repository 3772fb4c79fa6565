import ChainSync.Engine.Exchange
import ChainSync.Proofs.Import.Frame
import ChainSync.Proofs.Schedule.Places

/-!
# What an engine keeps for each peer

Passes of header requests, headers that arrive, bodies that take them and modes that the import of
blocks moves all change what an engine keeps for a peer. Through every run of them the parts stay in
step: a tracked peer is available or booked and not both, only headers of tracked peers wait, and
the modes are those of the tracked peers. After a pass the tracked peers are the connected ones.
-/

namespace ChainSync

/-! ### The tracked modes -/

namespace ModeTable

theorem mem_forget {t : ModeTable} {peer other : PeerId} :
    peer ∈ (t.forget other).modes ↔ other ≠ peer ∧ peer ∈ t.modes := by
  simp [forget]

theorem mem_foldl_forget (l : List PeerId) : ∀ {t : ModeTable} {peer : PeerId},
    peer ∈ (l.foldl forget t).modes ↔ peer ∈ t.modes ∧ peer ∉ l := by
  induction l with
  | nil => simp
  | cons other rest ih =>
    intro t peer
    rw [List.foldl_cons, ih, mem_forget, List.mem_cons, not_or]
    constructor
    · rintro ⟨⟨hne, hmem⟩, hrest⟩
      exact ⟨hmem, hne.symm, hrest⟩
    · rintro ⟨hmem, hne, hrest⟩
      exact ⟨⟨Ne.symm hne, hmem⟩, hrest⟩

theorem mem_foldl_track (l : List (PeerId × PeerInfo)) : ∀ {t : ModeTable} {peer : PeerId},
    peer ∈ (l.foldl (fun t entry ↦ t.track entry.1) t).modes ↔
      peer ∈ t.modes ∨ ∃ entry ∈ l, entry.1 = peer := by
  induction l with
  | nil => simp
  | cons entry rest ih =>
    intro t peer
    have hany : (∃ e ∈ entry :: rest, e.1 = peer) ↔
        entry.1 = peer ∨ ∃ e ∈ rest, e.1 = peer := by simp
    rw [List.foldl_cons, ih, track, Std.ExtTreeMap.mem_insertIfNew,
      Std.LawfulEqOrd.compare_eq_iff_eq, hany, or_assoc, or_left_comm]

theorem mem_apply_iff {t : ModeTable} {peer other : PeerId} {event : ImportEvent} :
    peer ∈ (t.apply other event).2.modes ↔ peer ∈ t.modes := by
  refine ⟨?_, fun h ↦ mem_apply h other event⟩
  unfold apply
  split
  · exact id
  · next mode hmode =>
    intro h
    rcases Std.ExtTreeMap.mem_insert.mp h with he | h
    · rw [← Std.LawfulEqOrd.eq_of_compare he, Std.ExtTreeMap.mem_iff_isSome_getElem?, hmode]
      rfl
    · exact h

end ModeTable

/-! ### The steps -/

namespace Place.Issued

variable {now : Millis} {place reached : Place} {n : Nat}

/-- Issuing requests neither tracks a peer nor loses one. -/
theorem away_iff (issued : Issued now place n reached) : reached = away ↔ place = away := by
  cases issued <;> simp

/-- A pass asks a peer at most once. -/
theorem le_one (issued : Issued now place n reached) : n ≤ 1 := by
  cases issued <;> decide

/-- A peer was asked when it was free and is busy. -/
theorem asked_iff (issued : Issued now place n reached) :
    ((∃ p, place = free p) ∧ ∃ q, reached = busy q) ↔ n = 1 := by
  cases issued with
  | kept => cases place <;> simp
  | noted times => simp
  | asked times => simp

end Place.Issued

/-- A peer stands at a place of the schedule, and has a mode unless it is away. -/
structure Engine.Stands (e : Engine) (quota : Nat) (peer : PeerId) (place : Place) : Prop where
  /-- The peer stands there. -/
  schedule : e.requests.Stands quota peer place
  /-- It has a mode exactly when it is tracked. -/
  moded : peer ∈ e.modes.modes ↔ place ≠ .away

/-- Meeting the connected peers moves every peer by what it advertises now. -/
theorem Engine.Stands.meetPeers {e : Engine} {quota : Nat} {peer : PeerId} {place : Place}
    (h : e.Stands quota peer place) (registry : Registry) (now : Millis) :
    (e.meetPeers registry now).Stands quota peer
      (place.refresh registry.peers[peer]? now quota) := by
  refine ⟨(h.schedule.refresh registry now).pruneHeaders now, ?_⟩
  have hconnected : peer ∈ registry.peers ↔ registry.peers[peer]? ≠ none := by
    rw [Std.ExtTreeMap.mem_iff_isSome_getElem?, Option.isSome_iff_ne_none]
  change peer ∈ ((e.requests.joining registry).foldl (fun t entry ↦ t.track entry.1)
    ((e.requests.departed registry).foldl ModeTable.forget e.modes)).modes ↔ _
  rw [ModeTable.mem_foldl_track, ModeTable.mem_foldl_forget, h.schedule.mem_departed_iff,
    h.schedule.exists_mem_joining_iff, h.moded, ne_eq (Place.refresh ..),
    Place.refresh_eq_away_iff, ← ne_eq, ← hconnected]
  by_cases haway : place = .away <;> by_cases hmem : peer ∈ registry.peers <;> simp [haway, hmem]

namespace Seat

/-- Sending requests changes the outgoing messages and the statistics only. -/
theorem exec_sendHeaderRequests (now : Millis) (l : List HeaderRequest) : ∀ s : Seat,
    ∃ node stats, (sendHeaderRequests now l).exec s =
      (.ok (), ⟨node, { s.engine with stats }⟩) := by
  induction l with
  | nil => exact fun s ↦ ⟨s.node, s.engine.stats, rfl⟩
  | cons r rest ih =>
    intro s
    exact ih ⟨s.node.send r.peer (.requestHeaders r.first r.count),
      { s.engine with stats := s.engine.stats.recordRequest r.peer .headers now }⟩

/-- A pass issues its requests at the engine that met the connected peers and, unless that faults,
sends them. -/
theorem exec_headerPass_eq (s : Seat) (now : Millis) (localBest : UInt64)
    (localTotal : Difficulty) :
    (headerPass now localBest localTotal).exec s =
      let met := s.engine.meetPeers s.node.registry now
      match (RequestSchedule.issue s.node.registry met.modes now localBest localTotal).exec
          met.requests with
      | (.error e, requests) => (.error e, { s with engine := { met with requests } })
      | (.ok asked, requests) =>
        (.ok asked, (sendHeaderRequests now asked).leaves
          { s with engine := { met with requests } }) := by
  have hmet : (onEngine (Engine.meetPeers s.node.registry now)).exec s =
      (.ok (), { s with engine := s.engine.meetPeers s.node.registry now }) := rfl
  have hget (e : Engine) : requestsPart.get { s with engine := e } = e.requests := rfl
  rw [headerPass, Step.exec_bind_of_ok (Step.exec_get s), Step.exec_bind_of_ok hmet,
    Step.exec_bind_of_ok (Step.exec_get _), Step.exec_bind, Step.exec_part, hget]
  generalize s.engine.meetPeers s.node.registry now = e
  dsimp only
  cases (RequestSchedule.issue s.node.registry e.modes now localBest localTotal).exec
    e.requests with
  | mk answer requests =>
    cases answer with
    | error fault => rfl
    | ok asked =>
      have hput : requestsPart.put requests { s with engine := e } =
          { s with engine := { e with requests } } := rfl
      obtain ⟨node, stats, hsent⟩ := exec_sendHeaderRequests now asked
        { s with engine := { e with requests } }
      dsimp only
      rw [hput, Step.exec_bind_of_ok hsent, Step.leaves, hsent]
      rfl

/-- A pass issues its requests at the engine that met the connected peers. -/
theorem exec_headerPass_at (s : Seat) (now : Millis) (localBest : UInt64)
    (localTotal : Difficulty) :
    ((headerPass now localBest localTotal).exec s).1 =
        ((RequestSchedule.issue s.node.registry
          (s.engine.meetPeers s.node.registry now).modes now localBest localTotal).exec
          (s.engine.meetPeers s.node.registry now).requests).1 ∧
      ((headerPass now localBest localTotal).leaves s).engine.requests =
        (RequestSchedule.issue s.node.registry
          (s.engine.meetPeers s.node.registry now).modes now localBest localTotal).leaves
          (s.engine.meetPeers s.node.registry now).requests ∧
      ((headerPass now localBest localTotal).leaves s).engine.modes =
        (s.engine.meetPeers s.node.registry now).modes := by
  rw [Step.leaves, Step.leaves, exec_headerPass_eq]
  dsimp only
  generalize s.engine.meetPeers s.node.registry now = e
  cases (RequestSchedule.issue s.node.registry e.modes now localBest localTotal).exec
    e.requests with
  | mk answer requests =>
    cases answer with
    | error fault => exact ⟨rfl, rfl, rfl⟩
    | ok asked =>
      obtain ⟨node, stats, hsent⟩ := exec_sendHeaderRequests now asked
        { s with engine := { e with requests } }
      dsimp only
      rw [Step.leaves, hsent]
      exact ⟨rfl, rfl, rfl⟩

/-- How often a pass asks a peer: so many of its requests go to it. A pass that faults answers no
requests; the peer was asked by it if it was available and is booked. -/
def asksOf (peer : PeerId) (now : Millis) (localBest : UInt64) (localTotal : Difficulty)
    (s : Seat) : Nat :=
  match (headerPass now localBest localTotal).exec s with
  | (.ok requests, _) => requests.countP fun r ↦ r.peer = peer
  | (.error _, t) =>
    if peer ∈ (s.engine.meetPeers s.node.registry now).requests.available ∧
      peer ∈ t.engine.requests.booked then 1 else 0

end Seat

namespace Engine.Stands

variable {s : Seat} {quota : Nat} {peer : PeerId} {place : Place}

/-- A pass meets the connected peers, and then asks a peer at most once, and only a free one. -/
theorem exists_headerPass (h : s.engine.Stands quota peer place) (now : Millis) (localBest : UInt64)
    (localTotal : Difficulty) :
    ∃ n reached,
      Place.Issued now (place.refresh s.node.registry.peers[peer]? now quota) n reached ∧
      ((Seat.headerPass now localBest localTotal).leaves s).engine.Stands quota peer reached ∧
      RequestSchedule.AsksOf peer n ((Seat.headerPass now localBest localTotal).exec s).1 := by
  obtain ⟨hanswer, hrequests, hmodes⟩ := s.exec_headerPass_at now localBest localTotal
  have hmet := h.meetPeers s.node.registry now
  obtain ⟨n, reached, hissued, hschedule, hasks⟩ := hmet.schedule.issue s.node.registry
    (s.engine.meetPeers s.node.registry now).modes now localBest localTotal
  refine ⟨n, reached, hissued, ⟨?_, ?_⟩, ?_⟩
  · rw [hrequests]
    exact hschedule
  · rw [hmodes, hmet.moded]
    exact not_congr hissued.away_iff.symm
  · rw [hanswer]
    exact hasks

/-- A pass meets the connected peers, and then moves a peer as often as it asks it. -/
theorem headerPass (h : s.engine.Stands quota peer place) (now : Millis) (localBest : UInt64)
    (localTotal : Difficulty) :
    ∃ reached, Place.Issued now (place.refresh s.node.registry.peers[peer]? now quota)
        (s.asksOf peer now localBest localTotal) reached ∧
      ((Seat.headerPass now localBest localTotal).leaves s).engine.Stands quota peer reached := by
  have hmet := (h.meetPeers s.node.registry now).schedule
  obtain ⟨n, reached, hissued, hreached, hasks⟩ := h.exists_headerPass now localBest localTotal
  suffices hn : s.asksOf peer now localBest localTotal = n from ⟨reached, hn ▸ hissued, hreached⟩
  rw [Step.leaves] at hreached
  rw [Seat.asksOf]
  cases hrun : (Seat.headerPass now localBest localTotal).exec s with
  | mk answer t =>
    rw [hrun] at hreached hasks
    cases answer with
    | ok requests => exact hasks requests rfl
    | error e =>
      -- Without an answer, it is the booking that tells whether the peer was asked.
      have hasked := hissued.asked_iff
      have hatMost := hissued.le_one
      rw [← hmet.available, ← hreached.schedule.booked] at hasked
      dsimp only
      rw [if_congr hasked rfl rfl]
      split <;> omega

/-- Headers that arrive of a peer release it if it may be. -/
theorem storeHeaders {e : Engine} (h : e.Stands quota peer place) (batch : HeaderBatch)
    (now : Millis) :
    ({ e with requests := e.requests.storeHeaders batch now } : Engine).Stands quota peer
      (if batch.peer = peer then place.release now quota else place) := by
  refine ⟨h.schedule.storeHeaders batch now, h.moded.trans (not_congr ?_)⟩
  split
  · exact Place.release_eq_away_iff.symm
  · rfl

/-- Taking headers of any peer moves no peer. -/
theorem matchHeaders (h : s.engine.Stands quota peer place) (other : PeerId) (size : Nat) :
    ((Seat.matchHeaders other size).leaves s).engine.Stands quota peer place :=
  ⟨h.schedule.matchHeaders other size, h.moded⟩

/-- Moving the mode of any peer moves no peer. -/
theorem applyMode (h : s.engine.Stands quota peer place) (other : PeerId) (event : ImportEvent) :
    ((Seat.applyMode other event).leaves s).engine.Stands quota peer place :=
  ⟨h.schedule, ModeTable.mem_apply_iff.trans h.moded⟩

end Engine.Stands

/-! ### Runs -/

/-- What happens to the schedule of an engine and to the modes of its peers. -/
inductive ScheduleEvent where
  /-- A pass of header requests starts while these peers are connected. -/
  | pass (registry : Registry) (now : Millis) (localBest : UInt64) (localTotal : Difficulty)
  /-- Headers of a peer arrive. -/
  | store (batch : HeaderBatch) (now : Millis)
  /-- The bodies for so many headers of a peer arrive. -/
  | take (peer : PeerId) (size : Nat)
  /-- Something became of blocks of a peer. -/
  | move (peer : PeerId) (event : ImportEvent)

namespace ScheduleEvent

def act : ScheduleEvent → Step Seat Unit
  | pass registry now localBest localTotal => do
    Seat.onNode fun n ↦ { n with registry }
    discard (Seat.headerPass now localBest localTotal)
  | store batch now =>
    Seat.onEngine fun e ↦ { e with requests := e.requests.storeHeaders batch now }
  | take peer size => discard (Seat.matchHeaders peer size)
  | move peer event => discard (Seat.applyMode peer event)

def afterAll (events : List ScheduleEvent) (s : Seat) : Seat :=
  events.foldl (fun s event ↦ event.act.leaves s) s

end ScheduleEvent

namespace Seat

/-- The seat before any peer was met, with a new schedule and no modes. -/
def beforeMeeting (s : Seat) (maxPerSecond : Nat) (expiry : Millis) (seed : UInt64) : Seat :=
  { s with engine := { s.engine with
    modes := .empty, requests := .new maxPerSecond expiry seed } }

/-- A pass runs while its peers are connected. -/
theorem leaves_act_pass (s : Seat) (registry : Registry) (now : Millis) (localBest : UInt64)
    (localTotal : Difficulty) :
    (ScheduleEvent.pass registry now localBest localTotal).act.leaves s =
      (headerPass now localBest localTotal).leaves (s.withRegistry registry) := by
  have hconnect : (onNode fun n ↦ { n with registry }).exec s = (.ok (), s.withRegistry registry) :=
    rfl
  rw [ScheduleEvent.act, Step.leaves, Step.exec_bind_of_ok hconnect, Step.exec_discard]
  rfl

/-- Before any peer was met, every peer is away. -/
theorem stands_beforeMeeting (s : Seat) (maxPerSecond : Nat) (expiry : Millis) (seed : UInt64)
    (peer : PeerId) : (s.beforeMeeting maxPerSecond expiry seed).engine.Stands
      (max maxPerSecond 1) peer .away :=
  ⟨RequestSchedule.stands_new maxPerSecond expiry seed peer,
    by simp [beforeMeeting, ModeTable.empty]⟩

end Seat

def ScheduleEvent.asks (peer : PeerId) (s : Seat) : ScheduleEvent → Nat
  | pass registry now localBest localTotal =>
    (s.withRegistry registry).asksOf peer now localBest localTotal
  | store .. | take .. | move .. => 0

/-- What an event that asks a peer so often does to its place. -/
inductive Place.Moved (quota : Nat) (peer : PeerId) : ScheduleEvent → Place → Nat → Place → Prop
  /-- A pass meets the peer if it is connected, and may ask it. -/
  | passed {registry : Registry} {now : Millis} {localBest : UInt64} {localTotal : Difficulty}
    {place reached : Place} {n : Nat}
    (issued : Issued now (place.refresh registry.peers[peer]? now quota) n reached) :
    Moved quota peer (.pass registry now localBest localTotal) place n reached
  /-- Headers of the peer release it if it may be. -/
  | stored (batch : HeaderBatch) (now : Millis) (place : Place) :
    Moved quota peer (.store batch now) place 0
      (if batch.peer = peer then place.release now quota else place)
  /-- Taking headers moves no peer. -/
  | taken (other : PeerId) (size : Nat) (place : Place) :
    Moved quota peer (.take other size) place 0 place
  /-- Moving a mode moves no peer. -/
  | switched (other : PeerId) (event : ImportEvent) (place : Place) :
    Moved quota peer (.move other event) place 0 place

/-- After a pass a peer is away exactly when it is not connected. -/
theorem Place.Moved.away_iff {quota : Nat} {peer : PeerId} {registry : Registry} {now : Millis}
    {localBest : UInt64} {localTotal : Difficulty} {place reached : Place} {n : Nat}
    (moved : Moved quota peer (.pass registry now localBest localTotal) place n reached) :
    reached = away ↔ peer ∉ registry.peers := by
  cases moved with
  | passed issued =>
    rw [issued.away_iff, refresh_eq_away_iff, Std.ExtTreeMap.mem_iff_isSome_getElem?,
      Bool.not_eq_true, Option.isSome_eq_false_iff, Option.isNone_iff_eq_none]

/-- Every event moves every peer, whatever becomes of the others. -/
theorem Engine.Stands.act {s : Seat} {quota : Nat} {peer : PeerId} {place : Place}
    (h : s.engine.Stands quota peer place) (event : ScheduleEvent) :
    ∃ reached, Place.Moved quota peer event place (event.asks peer s) reached ∧
      (event.act.leaves s).engine.Stands quota peer reached := by
  cases event with
  | pass registry now localBest localTotal =>
    have hregistry : (s.withRegistry registry).engine.Stands quota peer place := h
    obtain ⟨reached, hissued, hreached⟩ := hregistry.headerPass now localBest localTotal
    refine ⟨reached, .passed hissued, ?_⟩
    rw [s.leaves_act_pass]
    exact hreached
  | store batch now => exact ⟨_, .stored batch now place, h.storeHeaders batch now⟩
  | take other size =>
    refine ⟨place, .taken other size place, ?_⟩
    rw [ScheduleEvent.act, Step.leaves, Step.exec_discard]
    exact h.matchHeaders other size
  | move other event =>
    refine ⟨place, .switched other event place, ?_⟩
    rw [ScheduleEvent.act, Step.leaves, Step.exec_discard]
    exact h.applyMode other event

/-- Through a run of events every peer stands at some place. -/
theorem Engine.Stands.afterAll {quota : Nat} {peer : PeerId} (events : List ScheduleEvent) :
    ∀ {s : Seat} {place : Place}, s.engine.Stands quota peer place →
      ∃ reached, (ScheduleEvent.afterAll events s).engine.Stands quota peer reached := by
  induction events with
  | nil => exact fun h ↦ ⟨_, h⟩
  | cons event rest ih =>
    intro s place h
    obtain ⟨reached, -, hreached⟩ := h.act event
    exact ih hreached

namespace Engine

/-- What an engine keeps for its peers is in step. -/
structure InStep (e : Engine) : Prop where
  /-- A tracked peer is available or booked, and not both. -/
  placed : ∀ peer ∈ e.requests.peers, Xor (peer ∈ e.requests.available) (peer ∈ e.requests.booked)
  /-- Only tracked peers are available. -/
  available : ∀ peer ∈ e.requests.available, peer ∈ e.requests.peers
  /-- Only tracked peers are booked. -/
  booked : ∀ peer ∈ e.requests.booked, peer ∈ e.requests.peers
  /-- Headers that wait are filed under their own peer, which is tracked. -/
  headers : ∀ peer, ∀ batch ∈ e.requests.headers.waiting peer,
    batch.peer = peer ∧ peer ∈ e.requests.peers
  /-- The tracked peers are those with a mode. -/
  moded : ∀ peer, peer ∈ e.modes.modes ↔ peer ∈ e.requests.peers

/-- Nothing about a peer is kept. -/
structure Forgets (e : Engine) (peer : PeerId) : Prop where
  /-- It is not tracked. -/
  peers : peer ∉ e.requests.peers
  /-- It is not available. -/
  available : peer ∉ e.requests.available
  /-- It is not booked. -/
  booked : peer ∉ e.requests.booked
  /-- It has no mode. -/
  modes : peer ∉ e.modes.modes
  /-- No headers are filed under it. -/
  queues : peer ∉ e.requests.headers.queues
  /-- No headers of it wait. -/
  headers : ∀ other, ∀ batch ∈ e.requests.headers.waiting other, batch.peer ≠ peer

/-- When every peer stands at some place, all is in step. -/
theorem inStep_of_stands {e : Engine} {quota : Nat}
    (h : ∀ peer, ∃ place, e.Stands quota peer place) : e.InStep := by
  refine ⟨?_, ?_, ?_, ?_, ?_⟩
  · intro peer htracked
    obtain ⟨place, hplace⟩ := h peer
    rw [hplace.schedule.mem_peers_iff] at htracked
    rw [hplace.schedule.available, hplace.schedule.booked]
    cases place with
    | away => exact absurd rfl htracked
    | free p => exact .inl ⟨⟨p, rfl⟩, by simp⟩
    | busy p => exact .inr ⟨⟨p, rfl⟩, by simp⟩
  · intro peer havailable
    obtain ⟨place, hplace⟩ := h peer
    obtain ⟨p, rfl⟩ := hplace.schedule.available.mp havailable
    exact hplace.schedule.mem_peers_iff.mpr (by simp)
  · intro peer hbooked
    obtain ⟨place, hplace⟩ := h peer
    obtain ⟨p, rfl⟩ := hplace.schedule.booked.mp hbooked
    exact hplace.schedule.mem_peers_iff.mpr (by simp)
  · intro peer batch hbatch
    obtain ⟨place, hplace⟩ := h peer
    refine ⟨hplace.schedule.own batch hbatch, hplace.schedule.mem_peers_iff.mpr ?_⟩
    exact hplace.schedule.queued (HeaderStore.mem_of_mem_waiting hbatch)
  · intro peer
    obtain ⟨place, hplace⟩ := h peer
    rw [hplace.moded, hplace.schedule.mem_peers_iff]

/-- While all is in step, nothing is kept of a peer that is not tracked. -/
theorem InStep.forgets {e : Engine} (h : e.InStep) {peer : PeerId}
    (untracked : peer ∉ e.requests.peers) (queues : peer ∉ e.requests.headers.queues) :
    e.Forgets peer where
  peers := untracked
  available hmem := untracked (h.available peer hmem)
  booked hmem := untracked (h.booked peer hmem)
  modes hmem := untracked ((h.moded peer).mp hmem)
  queues := queues
  headers other batch hbatch he := by
    obtain ⟨rfl, htracked⟩ := h.headers other batch hbatch
    exact untracked (he ▸ htracked)

end Engine

/-- Through every run what an engine keeps for its peers stays in step, and after each pass the
tracked peers are the connected ones and nothing is kept of the others. -/
theorem ScheduleEvent.inStep_afterAll (s : Seat) (maxPerSecond : Nat) (expiry : Millis)
    (seed : UInt64) (events : List ScheduleEvent) :
    (afterAll events (s.beforeMeeting maxPerSecond expiry seed)).engine.InStep ∧
      ∀ (registry : Registry) (now : Millis) (localBest : UInt64) (localTotal : Difficulty),
        let e := (afterAll (events ++ [.pass registry now localBest localTotal])
          (s.beforeMeeting maxPerSecond expiry seed)).engine
        e.InStep ∧ ∀ peer, (peer ∈ e.requests.peers ↔ peer ∈ registry.peers) ∧
          (peer ∉ registry.peers → e.Forgets peer) := by
  have hstands (run : List ScheduleEvent) (peer : PeerId) :
      ∃ place, (afterAll run (s.beforeMeeting maxPerSecond expiry seed)).engine.Stands
        (max maxPerSecond 1) peer place :=
    (s.stands_beforeMeeting maxPerSecond expiry seed peer).afterAll run
  refine ⟨Engine.inStep_of_stands (hstands events), ?_⟩
  intro registry now localBest localTotal e
  have hstep : e.InStep := Engine.inStep_of_stands (hstands _)
  refine ⟨hstep, fun peer ↦ ?_⟩
  obtain ⟨place, hplace⟩ := hstands events peer
  obtain ⟨reached, hmoved, hreached⟩ := hplace.act (.pass registry now localBest localTotal)
  have he : e.Stands (max maxPerSecond 1) peer reached := by
    change (afterAll (events ++ _) _).engine.Stands _ peer reached
    rw [afterAll, List.foldl_append]
    exact hreached
  have htracked : peer ∈ e.requests.peers ↔ peer ∈ registry.peers := by
    rw [he.schedule.mem_peers_iff, ne_eq, hmoved.away_iff, not_not]
  refine ⟨htracked, fun hgone ↦ hstep.forgets (mt htracked.mp hgone) ?_⟩
  exact fun hqueue ↦ he.schedule.queued hqueue (hmoved.away_iff.mpr hgone)

end ChainSync
