import ChainSync.Proofs.Schedule.Membership

/-!
# How often a peer is asked

The schedule forgets when it asked a peer one time after the other, and only when it releases the
peer. What it recalls is enough: as long as a peer stays tracked, no more requests than allowed lie
in any second, and a pass finds the peer available exactly when fewer lie in the last one.
-/

namespace ChainSync

/-! ### What is recalled of a peer -/

namespace PeerRequests

/-- A time is less than a second old exactly when a second after it is still to come. -/
theorem sub_lt_window_iff {now time : Nat} : now - time < window ↔ now < time + window := by
  change now - time < 1000 ↔ now < time + 1000
  omega

/-- Of more requests in a row than allowed the last comes a second after the first, or later. -/
def Spaced (quota : Nat) (asked : List Millis) : Prop :=
  ∀ i j first last, i + quota ≤ j → asked[i]? = some first → asked[j]? = some last →
    first + window ≤ last

theorem Spaced.nil (quota : Nat) : Spaced quota [] := by
  intro i j first last _ hfirst
  cases hfirst

theorem Spaced.tail {quota : Nat} {time : Millis} {rest : List Millis}
    (h : Spaced quota (time :: rest)) : Spaced quota rest := by
  intro i j first last hij hfirst hlast
  exact h (i + 1) (j + 1) first last (by omega) hfirst hlast

/-- No second holds more requests than allowed. -/
theorem Spaced.countP_le {quota : Nat} (start : Millis) : ∀ {asked : List Millis},
    Spaced quota asked → asked.countP (fun time ↦ start ≤ time ∧ time < start + window) ≤ quota
  | [], _ => Nat.zero_le _
  | time :: rest, h => by
    by_cases hin : start ≤ time ∧ time < start + window
    · -- Those that come so many requests later lie beyond the second.
      have hlater : ((time :: rest).drop quota).countP
          (fun time ↦ start ≤ time ∧ time < start + window) = 0 := by
        rw [List.countP_eq_zero]
        intro last hlast
        obtain ⟨j, hj⟩ := List.mem_iff_getElem?.mp hlast
        rw [List.getElem?_drop] at hj
        have hspan := h 0 (quota + j) time last (by omega) rfl hj
        have hpast := Nat.le_trans (Nat.add_le_add_right hin.1 window) hspan
        simp only [decide_eq_true_eq]
        exact fun hlast ↦ Nat.not_lt.mpr hpast hlast.2
      have hfirst : ((time :: rest).take quota).countP
          (fun time ↦ start ≤ time ∧ time < start + window) ≤ quota :=
        Nat.le_trans List.countP_le_length (List.length_take_le ..)
      rw [← List.take_append_drop quota (time :: rest), List.countP_append, hlater]
      exact hfirst
    · rw [List.countP_cons_of_neg (by simpa using hin)]
      exact h.tail.countP_le start

/-- What is recalled of a peer is enough of when it was asked: the requests that were forgotten are
a second old. -/
structure Recalls (p : PeerRequests) (quota : Nat) (latest : Millis) (asked : List Millis) :
    Prop where
  /-- The latest requests are recalled, and the others are a second old. -/
  past : ∃ forgotten, asked = forgotten ++ p.times ∧ ∀ time ∈ forgotten, time + window ≤ latest
  /-- No more requests are recalled than allowed in a second. -/
  few : p.times.length ≤ quota
  /-- They are recalled in order. -/
  sorted : p.times.Pairwise (· ≤ ·)
  /-- None was made later. -/
  latest : ∀ time ∈ p.times, time ≤ latest
  /-- No more requests than allowed were made in any second. -/
  spaced : Spaced quota asked

namespace Recalls

variable {p q : PeerRequests} {quota : Nat} {latest now : Millis} {asked : List Millis}

theorem mono (h : p.Recalls quota latest asked) (hle : latest ≤ now) :
    p.Recalls quota now asked where
  past := by
    obtain ⟨forgotten, hasked, hold⟩ := h.past
    exact ⟨forgotten, hasked, fun time htime ↦ Nat.le_trans (hold time htime) hle⟩
  few := h.few
  sorted := h.sorted
  latest time htime := Nat.le_trans (h.latest time htime) hle
  spaced := h.spaced

theorem congr (h : p.Recalls quota latest asked) (times : q.times = p.times) :
    q.Recalls quota latest asked where
  past := times ▸ h.past
  few := times ▸ h.few
  sorted := times ▸ h.sorted
  latest := times ▸ h.latest
  spaced := h.spaced

/-- There is nothing to recall of a peer that was never asked. -/
theorem new (info : PeerInfo) (quota : Nat) (latest : Millis) :
    (PeerRequests.new info).Recalls quota latest [] where
  past := ⟨[], rfl, by simp⟩
  few := Nat.zero_le _
  sorted := .nil
  latest := by simp [PeerRequests.new]
  spaced := .nil quota

/-- A peer that is released or not is recalled as well. -/
theorem tryRelease (h : p.Recalls quota now asked) :
    (p.tryRelease now quota).2.Recalls quota now asked := by
  have htried := p.tried_tryRelease now quota
  generalize p.tryRelease now quota = released at htried ⊢
  obtain ⟨released, q⟩ := released
  cases htried with
  | room _ => exact h
  | full _ _ => exact h
  | @aged oldest rest times old =>
    obtain ⟨forgotten, hasked, hforgotten⟩ := h.past
    have hsorted := times ▸ h.sorted
    have hlatest := times ▸ h.latest
    have hfew := times ▸ h.few
    have hold : oldest + window ≤ now :=
      Nat.add_le_of_le_sub' (hlatest oldest List.mem_cons_self) old
    refine ⟨⟨forgotten ++ [oldest], ?_, ?_⟩, Nat.le_of_succ_le hfew, hsorted.of_cons,
      fun time htime ↦ hlatest time (List.mem_cons_of_mem _ htime), h.spaced⟩
    · rw [hasked, times, List.append_assoc, List.singleton_append]
    · intro time htime
      rcases List.mem_append.mp htime with htime | htime
      · exact hforgotten time htime
      · exact List.mem_singleton.mp htime ▸ hold

/-- A peer that is released has room for a request. -/
theorem room (h : p.Recalls quota latest asked) (released : (p.tryRelease now quota).1 = true) :
    (p.tryRelease now quota).2.times.length < quota := by
  have htried := p.tried_tryRelease now quota
  rw [released] at htried
  generalize (p.tryRelease now quota).2 = q at htried ⊢
  cases htried with
  | room room => exact room
  | aged times _ =>
    have hfew := times ▸ h.few
    exact hfew

/-- A peer with room for a request is recalled after it was asked. -/
theorem ask (h : p.Recalls quota now asked) (room : p.times.length < quota)
    (times : q.times = p.times ++ [now]) : q.Recalls quota now (asked ++ [now]) := by
  obtain ⟨forgotten, hasked, hforgotten⟩ := h.past
  refine ⟨⟨forgotten, ?_, hforgotten⟩, ?_, ?_, ?_, ?_⟩
  · rw [hasked, times, List.append_assoc]
  · rw [times, List.length_append, List.length_singleton]
    omega
  · rw [times, List.pairwise_append]
    exact ⟨h.sorted, List.pairwise_singleton .., fun time htime last hlast ↦
      List.mem_singleton.mp hlast ▸ h.latest time htime⟩
  · intro time htime
    rw [times] at htime
    rcases List.mem_append.mp htime with htime | htime
    · exact h.latest time htime
    · exact Nat.le_of_eq (List.mem_singleton.mp htime)
  · intro i j first last hij hfirst hlast
    have hlen : asked.length = forgotten.length + p.times.length := by
      rw [hasked, List.length_append]
    have hj : j < (asked ++ [now]).length := (List.getElem?_eq_some_iff.mp hlast).1
    rw [List.length_append, List.length_singleton] at hj
    rw [List.getElem?_append_left (by omega)] at hfirst
    rcases Nat.lt_succ_iff_lt_or_eq.mp hj with hj | rfl
    · rw [List.getElem?_append_left hj] at hlast
      exact h.spaced i j first last hij hfirst hlast
    · -- The first one was forgotten already.
      rw [List.getElem?_append_right (Nat.le_refl _), Nat.sub_self] at hlast
      cases hlast
      rw [hasked, List.getElem?_append_left (by omega)] at hfirst
      exact hforgotten first (List.mem_of_getElem? hfirst)

/-- With room for a request fewer were made in the last second than allowed. -/
theorem countP_lt (h : p.Recalls quota now asked) (room : p.times.length < quota) :
    asked.countP (fun time ↦ now - time < window) < quota := by
  obtain ⟨forgotten, hasked, hforgotten⟩ := h.past
  have hnone : forgotten.countP (fun time ↦ now - time < window) = 0 := by
    rw [List.countP_eq_zero]
    intro time htime
    simp only [decide_eq_true_eq, sub_lt_window_iff]
    exact Nat.not_lt.mpr (hforgotten time htime)
  rw [hasked, List.countP_append, hnone, Nat.zero_add]
  exact Nat.lt_of_le_of_lt List.countP_le_length room

/-- When a peer is not released, as many requests were made in the last second as allowed. -/
theorem le_countP (h : p.Recalls quota now asked) (held : (p.tryRelease now quota).1 = false) :
    quota ≤ asked.countP (fun time ↦ now - time < window) := by
  obtain ⟨forgotten, hasked, -⟩ := h.past
  have htried := p.tried_tryRelease now quota
  rw [held] at htried
  generalize (p.tryRelease now quota).2 = q at htried
  cases htried with
  | full full young =>
    -- The earliest request that is recalled is less than a second old, and so are the others.
    have hall : p.times.countP (fun time ↦ now - time < window) = p.times.length := by
      rw [List.countP_eq_length]
      have hsorted := h.sorted
      cases htimes : p.times with
      | nil => simp
      | cons oldest rest =>
        rw [htimes] at hsorted young
        have hyoung := sub_lt_window_iff.mp (young oldest rfl)
        intro time htime
        have hle : oldest ≤ time := by
          rcases List.mem_cons.mp htime with rfl | htime
          · exact Nat.le_refl _
          · exact List.rel_of_pairwise_cons hsorted htime
        simp only [decide_eq_true_eq, sub_lt_window_iff]
        exact Nat.lt_of_lt_of_le hyoung (Nat.add_le_add_right hle window)
    rw [hasked, List.countP_append, hall]
    omega

end Recalls
end PeerRequests

namespace Place

/-- What is recalled at a place is enough of when the peer was asked, and a free peer has room for a
request. -/
inductive Recalls (quota : Nat) (latest : Millis) : Place → List Millis → Prop
  /-- There is nothing to recall of a peer that is not tracked. -/
  | away : Recalls quota latest away []
  /-- A free peer is recalled, and has room for a request. -/
  | free {p : PeerRequests} {asked : List Millis} (recalls : p.Recalls quota latest asked)
    (room : p.times.length < quota) : Recalls quota latest (free p) asked
  /-- A busy peer is recalled. -/
  | busy {p : PeerRequests} {asked : List Millis} (recalls : p.Recalls quota latest asked) :
    Recalls quota latest (busy p) asked

namespace Recalls

variable {place reached : Place} {quota n : Nat} {latest now : Millis} {asked : List Millis}

theorem mono (h : Recalls quota latest place asked) (hle : latest ≤ now) :
    Recalls quota now place asked := by
  cases h with
  | away => exact .away
  | free recalls room => exact .free (recalls.mono hle) room
  | busy recalls => exact .busy (recalls.mono hle)

theorem spaced (h : Recalls quota latest place asked) : PeerRequests.Spaced quota asked := by
  cases h with
  | away => exact .nil quota
  | free recalls _ => exact recalls.spaced
  | busy recalls => exact recalls.spaced

/-- A connected peer is recalled when it is met. -/
theorem meet (h : Recalls quota now place asked) (pos : 1 ≤ quota) (info : PeerInfo) :
    Recalls quota now (place.meet info) asked := by
  cases h with
  | away => exact .free (.new info quota now) pos
  | free recalls room => exact .free (recalls.congr rfl) room
  | busy recalls => exact .busy (recalls.congr rfl)

/-- A peer is recalled when it is released or not. -/
theorem release (h : Recalls quota now place asked) :
    Recalls quota now (place.release now quota) asked := by
  cases h with
  | away => exact .away
  | free recalls room => exact .free recalls room
  | busy recalls =>
    rw [Place.release]
    split
    · next released => exact .free recalls.tryRelease (recalls.room released)
    · exact .busy recalls.tryRelease

/-- A peer is recalled through a refresh while it is connected, and forgotten when it is not. -/
theorem refresh (h : Recalls quota now place asked) (pos : 1 ≤ quota)
    (advertised : Option PeerInfo) :
    Recalls quota now (place.refresh advertised now quota)
      (if advertised.isSome then asked else []) := by
  cases advertised with
  | none => exact .away
  | some info => exact (h.meet pos info).release

/-- A peer is recalled after the requests of a pass. -/
theorem issued (h : Recalls quota now place asked) (issued : Issued now place n reached) :
    Recalls quota now reached (asked ++ List.replicate n now) := by
  cases issued with
  | kept =>
    rw [List.replicate_zero, List.append_nil]
    exact h
  | noted times =>
    rw [List.replicate_zero, List.append_nil]
    cases h with
    | free recalls room => exact .free (recalls.congr times) (times ▸ room)
  | asked times =>
    cases h with
    | free recalls room => exact .busy (recalls.ask room times)

/-- Right after a refresh a connected peer is free exactly when fewer requests were made in the last
second than allowed. -/
theorem refresh_eq_free_iff (h : Recalls quota now place asked) (pos : 1 ≤ quota)
    (info : PeerInfo) :
    (∃ p, place.refresh (some info) now quota = .free p) ↔
      asked.countP (fun time ↦ now - time < PeerRequests.window) < quota := by
  have hmet := h.meet pos info
  have hnotAway := place.meet_ne_away info
  rw [Place.refresh]
  cases hplace : place.meet info with
  | away => exact absurd hplace hnotAway
  | free p =>
    rw [hplace] at hmet
    cases hmet with
    | free recalls room => simpa [Place.release] using recalls.countP_lt room
  | busy p =>
    rw [hplace] at hmet
    cases hmet with
    | busy recalls =>
      cases hreleased : (p.tryRelease now quota).1 with
      | true =>
        simpa [Place.release, hreleased] using
          recalls.tryRelease.countP_lt (recalls.room hreleased)
      | false => simpa [Place.release, hreleased] using recalls.le_countP hreleased

end Recalls
end Place

/-! ### Runs -/

namespace ScheduleEvent

/-- When an event happens, if that matters. -/
def time? : ScheduleEvent → Option Millis
  | pass _ now _ _ | store _ now => some now
  | take .. | move .. => none

/-- When a peer was asked since it is tracked, after one more event that asks it so often. -/
def record (peer : PeerId) (asked : List Millis) (n : Nat) : ScheduleEvent → List Millis
  | pass registry now _ _ =>
    (if peer ∈ registry.peers then asked else []) ++ List.replicate n now
  | store .. | take .. | move .. => asked

/-- When a peer was asked since it is tracked, after some more events. -/
def recordAll (peer : PeerId) : List ScheduleEvent → Seat → List Millis → List Millis
  | [], _, asked => asked
  | event :: rest, s, asked =>
    recordAll peer rest (event.act.leaves s) (event.record peer asked (event.asks peer s))

end ScheduleEvent

theorem Place.Recalls.moved {quota n : Nat} {peer : PeerId} {event : ScheduleEvent}
    {place reached : Place} {latest : Millis} {asked : List Millis}
    (h : Recalls quota latest place asked) (pos : 1 ≤ quota)
    (later : ∀ now, event.time? = some now → latest ≤ now)
    (moved : Moved quota peer event place n reached) :
    Recalls quota (event.time?.getD latest) reached (event.record peer asked n) := by
  cases moved with
  | @passed registry now _ _ _ _ _ issued =>
    rw [ScheduleEvent.record, if_congr Std.ExtTreeMap.mem_iff_isSome_getElem? rfl rfl]
    exact ((h.mono (later now rfl)).refresh pos registry.peers[peer]?).issued issued
  | stored batch now =>
    have hnow := h.mono (later now rfl)
    split
    · exact hnow.release
    · exact hnow
  | taken => exact h
  | switched => exact h

/-- Events in the order of their times keep that a peer is recalled. -/
theorem Engine.Stands.recalls_afterAll {quota : Nat} {peer : PeerId} (pos : 1 ≤ quota)
    {now : Millis} (events : List ScheduleEvent) :
    ∀ {s : Seat} {place : Place} {latest : Millis} {asked : List Millis},
      s.engine.Stands quota peer place → place.Recalls quota latest asked →
      (latest :: (events.filterMap ScheduleEvent.time? ++ [now])).Pairwise (· ≤ ·) →
      ∃ reached, (ScheduleEvent.afterAll events s).engine.Stands quota peer reached ∧
        reached.Recalls quota now (ScheduleEvent.recordAll peer events s asked) := by
  induction events with
  | nil =>
    intro s place latest asked h recalls ordered
    exact ⟨place, h, recalls.mono (List.rel_of_pairwise_cons ordered (List.mem_singleton_self now))⟩
  | cons event rest ih =>
    intro s place latest asked h recalls ordered
    obtain ⟨reached, hmoved, hreached⟩ := h.act event
    cases htime : event.time? with
    | none =>
      rw [List.filterMap_cons_none htime] at ordered
      have hrecalls := recalls.moved pos (by simp [htime]) hmoved
      rw [htime] at hrecalls
      exact ih hreached hrecalls ordered
    | some time =>
      rw [List.filterMap_cons_some htime, List.cons_append, List.pairwise_cons] at ordered
      have hrecalls := recalls.moved pos
        (by simpa [htime] using ordered.1 time List.mem_cons_self) hmoved
      rw [htime] at hrecalls
      exact ih hreached hrecalls ordered.2

/-- Through every run of events in the order of their times, the limit on the requests to a peer
holds exactly while the peer stays tracked: more requests in a row than allowed span a second at
least, so that none holds more than allowed, and right after the refresh of a pass the peer is
available exactly when fewer were made in the last second than allowed. -/
theorem ScheduleEvent.spaced_afterAll (s : Seat) {maxPerSecond : Nat} (pos : 1 ≤ maxPerSecond)
    (expiry : Millis) (seed : UInt64) {events : List ScheduleEvent}
    (ordered : (events.filterMap time?).Pairwise (· ≤ ·)) (peer : PeerId) :
    let start := s.beforeMeeting maxPerSecond expiry seed
    let asked := recordAll peer events start []
    PeerRequests.Spaced maxPerSecond asked ∧
      (∀ start, asked.countP (fun time ↦
        start ≤ time ∧ time < start + PeerRequests.window) ≤ maxPerSecond) ∧
      ∀ (registry : Registry) (now : Millis), peer ∈ registry.peers →
        (∀ time ∈ events.filterMap time?, time ≤ now) →
        (peer ∈ ((afterAll events start).engine.meetPeers registry now).requests.available ↔
          asked.countP (fun time ↦ now - time < PeerRequests.window) < maxPerSecond) := by
  intro start asked
  have hstart : start.engine.Stands maxPerSecond peer .away := by
    have h := s.stands_beforeMeeting maxPerSecond expiry seed peer
    rw [Nat.max_eq_left pos] at h
    exact h
  have hrun (now : Millis) (hnow : ∀ time ∈ events.filterMap time?, time ≤ now) :
      ∃ place, (afterAll events start).engine.Stands maxPerSecond peer place ∧
        place.Recalls maxPerSecond now asked := by
    have hnone : Place.Recalls maxPerSecond 0 .away [] := .away
    apply hstart.recalls_afterAll pos events hnone
    rw [List.pairwise_cons, List.pairwise_append]
    refine ⟨fun time _ ↦ Nat.zero_le time, ordered, List.pairwise_singleton .., ?_⟩
    intro time htime last hlast
    exact List.mem_singleton.mp hlast ▸ hnow time htime
  -- Any time after all events will do.
  have hspaced : PeerRequests.Spaced maxPerSecond asked := by
    obtain ⟨place, -, hrecalls⟩ := hrun ((events.filterMap time?).max?.getD 0)
      fun time htime ↦ List.le_max?_getD_of_mem htime
    exact hrecalls.spaced
  refine ⟨hspaced, fun start ↦ hspaced.countP_le start, ?_⟩
  intro registry now hconnected hnow
  obtain ⟨place, hplace, hrecalls⟩ := hrun now hnow
  obtain ⟨info, hinfo⟩ := Option.isSome_iff_exists.mp
    (Std.ExtTreeMap.mem_iff_isSome_getElem?.mp hconnected)
  have hmet := (hplace.meetPeers registry now).schedule.available
  rw [hinfo] at hmet
  rw [hmet]
  exact hrecalls.refresh_eq_free_iff pos info

theorem Registry.mem_upsert (r : Registry) (peer : PeerId) (info : PeerInfo) :
    peer ∈ (r.upsert peer info).peers := by
  simp [upsert]

namespace ScheduleEvent

def single : Registry := Registry.empty.upsert (.ofNat 1) ⟨100, 7, "peer-1"⟩

/-- A pass, headers less than a second later, and a pass a second later. -/
def answered : List ScheduleEvent :=
  [.pass single 0 0 1, .store ⟨.ofNat 1, "peer-1", [Block.genesis.header], 900⟩ 900,
    .pass single 1000 0 1]

/-- When one request is allowed in a second, both passes ask the peer, though the headers came too
early to release it, and it is available again a second after that. -/
theorem spaced_afterAll_answered :
    let start := (Seat.genesisSeat Seat.exists_genesis.choose).beforeMeeting 1 60000 0
    let available (now : Millis) :=
      ((afterAll answered start).engine.meetPeers single now).requests.available
    recordAll (.ofNat 1) answered start [] = [0, 1000] ∧
      .ofNat 1 ∉ available 1999 ∧ .ofNat 1 ∈ available 2000 := by
  intro start available
  have hasked : recordAll (.ofNat 1) answered start [] = [0, 1000] := by decide +kernel
  have hconnected : .ofNat 1 ∈ single.peers := Registry.mem_upsert ..
  obtain ⟨-, -, hiff⟩ := spaced_afterAll (Seat.genesisSeat Seat.exists_genesis.choose)
    (by decide : 1 ≤ 1) 60000 0 (by decide : (answered.filterMap time?).Pairwise (· ≤ ·)) (.ofNat 1)
  rw [hasked] at hiff
  refine ⟨hasked, ?_, ?_⟩
  · rw [hiff single 1999 hconnected (by decide)]
    decide
  · rw [hiff single 2000 hconnected (by decide)]
    decide

end ScheduleEvent
end ChainSync
