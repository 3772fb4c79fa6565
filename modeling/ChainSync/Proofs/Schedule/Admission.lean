import ChainSync.Proofs.Schedule.Visits

/-!
# What a pass may ask for

Every tracked peer has a size that requests have: even, and between the least and the greatest. All
steps of the schedule keep that, those that fault among them, and with it every start lies above
zero. So each request of a pass asks an available peer for a range that it can have. The peers that
are asked are booked, and those that are visited and not asked stay available.
-/

namespace ChainSync

/-! ### Sizes -/

/-- A size that requests have. -/
structure AdmissibleSize (size : UInt32) : Prop where
  /-- It is not below the least. -/
  least : 24 ≤ size.toNat
  /-- It is not above the greatest. -/
  greatest : size.toNat ≤ 40
  /-- It is even. -/
  even : size.toNat % 2 = 0

theorem admissibleSize_minSize : AdmissibleSize PeerRequests.minSize :=
  ⟨by decide, by decide, by decide⟩

/-- The size after one that requests have is another one. -/
theorem AdmissibleSize.nextSize {p : PeerRequests} (h : AdmissibleSize p.size) :
    AdmissibleSize p.nextSize := by
  obtain ⟨least, greatest⟩ := PeerRequests.Sized.nextSize ⟨h.least, h.greatest⟩
  refine ⟨least, greatest, ?_⟩
  unfold PeerRequests.nextSize PeerRequests.sizeAfter
  split
  · decide
  · next hlarge =>
    have htwo : (2 : UInt32).toNat = 2 := rfl
    have hlimit : (PeerRequests.minSize + 2).toNat = 26 := rfl
    have hle := UInt32.le_iff_toNat_le.mp (UInt32.not_lt.mp hlarge)
    have heven := h.even
    rw [UInt32.toNat_sub_of_le _ _ (UInt32.le_iff_toNat_le.mpr (by omega))]
    omega

/-! ### Latest requests -/

namespace RequestSchedule

/-- The latest request to every tracked peer has a property, told by its start and its size. -/
def Everywhere (P : UInt64 → UInt32 → Prop) (s : RequestSchedule) : Prop :=
  ∀ (peer : PeerId) (p : PeerRequests), s.peers[peer]? = some p → P p.first p.size

/-- Every tracked peer has a size that requests have. -/
def Regular (s : RequestSchedule) : Prop :=
  ∀ (peer : PeerId) (p : PeerRequests), s.peers[peer]? = some p → AdmissibleSize p.size

variable {s t : RequestSchedule} {modes : ModeTable} {now : Millis} {peer : PeerId}
  {l : List PeerId} {nextFirst : UInt64} {vs : List Visited}

namespace Everywhere

variable {P : UInt64 → UInt32 → Prop}

theorem new (P : UInt64 → UInt32 → Prop) (maxPerSecond : Nat) (expiry : Millis) (seed : UInt64) :
    (RequestSchedule.new maxPerSecond expiry seed).Everywhere P := by
  intro peer p h
  rw [RequestSchedule.new, Std.ExtTreeMap.getElem?_empty] at h
  cases h

theorem withPeer (h : s.Everywhere P) (peer : PeerId) {p : PeerRequests} (hp : P p.first p.size) :
    (s.withPeer peer p).Everywhere P := by
  intro other q hq
  rw [getElem?_withPeer] at hq
  split at hq
  · cases hq
    exact hp
  · exact h other q hq

theorem removePeer (h : s.Everywhere P) (peer : PeerId) : (s.removePeer peer).Everywhere P := by
  intro other p hp
  rw [RequestSchedule.removePeer, Std.ExtTreeMap.getElem?_erase] at hp
  split at hp
  · cases hp
  · exact h other p hp

/-- What a peer advertises is no part of its latest request. -/
theorem meet (h : s.Everywhere P) (start : P 0 PeerRequests.minSize) (peer : PeerId)
    (info : PeerInfo) : (s.meet peer info).Everywhere P := by
  unfold RequestSchedule.meet
  split
  · next p hp =>
    exact h.withPeer peer (p := { p with lastBest := info.bestNumber, name := info.name })
      (h peer p hp)
  · exact h.withPeer peer (p := .new info) start

theorem releaseIfAllowed (h : s.Everywhere P) (now : Millis) (peer : PeerId) :
    (s.releaseIfAllowed now peer).Everywhere P := by
  rcases s.releaseIfAllowed_cases now peer with he | ⟨p, q, -, hp, alike, -, he⟩
  · rw [he]
    exact h
  · have hq : P q.first q.size := by
      rw [alike.first, alike.size]
      exact h peer p hp
    rcases he with he | he
    · rw [he]
      exact h.withPeer peer hq
    · rw [he]
      exact h.withPeer peer hq

/-- Meeting the connected peers keeps what holds of every latest request, if it holds of a peer that
was never asked. -/
theorem refresh (h : s.Everywhere P) (start : P 0 PeerRequests.minSize) (registry : Registry)
    (now : Millis) : (s.refresh registry now).Everywhere P :=
  refresh_induction h registry now (fun _ peer h ↦ h.removePeer peer) (fun _ _ h ↦ h)
    (fun _ peer info h ↦ h.meet start peer info) fun _ peer h ↦ h.releaseIfAllowed now peer

theorem storeHeaders (h : s.Everywhere P) (batch : HeaderBatch) (now : Millis) :
    (s.storeHeaders batch now).Everywhere P := by
  have hstored : ({ s with headers := s.headers.store batch } : RequestSchedule).Everywhere P := h
  unfold RequestSchedule.storeHeaders
  split
  · exact hstored.releaseIfAllowed now batch.peer
  · exact h

end Everywhere

namespace Regular

theorem new (maxPerSecond : Nat) (expiry : Millis) (seed : UInt64) :
    (RequestSchedule.new maxPerSecond expiry seed).Regular :=
  Everywhere.new (fun _ size ↦ AdmissibleSize size) maxPerSecond expiry seed

theorem withPeer (h : s.Regular) (peer : PeerId) {p : PeerRequests}
    (size : AdmissibleSize p.size) :
    (s.withPeer peer p).Regular :=
  Everywhere.withPeer (P := fun _ size ↦ AdmissibleSize size) h peer size

theorem refresh (h : s.Regular) (registry : Registry) (now : Millis) :
    (s.refresh registry now).Regular :=
  Everywhere.refresh (P := fun _ size ↦ AdmissibleSize size) h admissibleSize_minSize registry now

theorem storeHeaders (h : s.Regular) (batch : HeaderBatch) (now : Millis) :
    (s.storeHeaders batch now).Regular :=
  Everywhere.storeHeaders (P := fun _ size ↦ AdmissibleSize size) h batch now

/-- A visit leaves the size of the peer regular, whatever it comes to. -/
theorem settled (h : s.Regular) {p : PeerRequests} {v : Visited} (size : AdmissibleSize v.size) :
    (s.settled p v now).Regular := by
  unfold RequestSchedule.settled
  split
  · exact h.withPeer v.peer
      (p := ⟨p.name, v.mode, .ofNat v.first, v.size, v.best, p.times ++ [now]⟩) size
  · exact h.withPeer v.peer size

/-- A visit leaves every size regular, whether or not it faults. -/
theorem visit (h : s.Regular) (mode : SyncMode) (now : Millis) (peer : PeerId)
    (nextFirst : UInt64) : ((RequestSchedule.visit mode now peer nextFirst).leaves s).Regular := by
  rw [Step.leaves]
  cases hp : s.peers[peer]? with
  | none =>
    rw [exec_visit_of_unknown hp]
    exact h
  | some p =>
    have hsize := h peer p hp
    rcases exec_visit hp mode now nextFirst with ⟨-, hvisit⟩ | ⟨-, q, hvisit, hq⟩
    · rw [hvisit]
      exact h.settled hsize.nextSize
    · rw [hvisit]
      refine h.withPeer peer ?_
      rcases hq with hq | hq
      · exact hq ▸ hsize
      · exact hq ▸ hsize.nextSize

theorem issue (h : s.Regular) (registry : Registry) (modes : ModeTable) (now : Millis)
    (localBest : UInt64) (localTotal : Difficulty) :
    ((RequestSchedule.issue registry modes now localBest localTotal).leaves s).Regular :=
  keeps_issue (P := Regular) (fun _ _ h ↦ h) (fun _ _ h ↦ h)
    (fun mode peer nextFirst _ h ↦ h.visit mode now peer nextFirst) registry modes localBest
    localTotal h

end Regular

namespace Tour

/-- In a regular schedule every visit starts above zero and has a size that requests have. -/
theorem admissible (tour : Tour modes now l nextFirst s vs t) (regular : s.Regular)
    (pos : 1 ≤ nextFirst.toNat) : ∀ v ∈ vs, 1 ≤ v.first ∧ AdmissibleSize v.size := by
  induction tour with
  | done => simp
  | passed _ _ ih => exact ih regular pos
  | @visited peer _ nextFirst s _ p v _ known plan fits _ ih =>
    have hsize := regular peer p known
    have hplanned : 1 ≤ v.first ∧ AdmissibleSize v.size := by
      subst plan
      refine ⟨?_, hsize.nextSize⟩
      change 1 ≤ p.nextStart nextFirst (modes.mode peer)
      have hleast := hsize.least
      unfold PeerRequests.nextStart
      split
      · omega
      · omega
      · split <;> omega
    have hnext : 1 ≤ (v.next s.requestHeight nextFirst).toNat := by
      by_cases normal : v.mode = .normal
      · have := hplanned.1
        rw [fits.toNat_next normal, Visited.beyond]
        omega
      · rw [Visited.next_of_ne normal]
        exact pos
    intro w hw
    rcases List.mem_cons.mp hw with rfl | hw
    · exact hplanned
    · exact ih (regular.settled hplanned.2) hnext w hw

theorem mem_available_iff (tour : Tour modes now l nextFirst s vs t) :
    peer ∈ t.available ↔
      peer ∈ s.available ∧ ∀ v ∈ vs, v.isAsked = true → v.peer ≠ peer := by
  induction tour with
  | done => simp
  | passed _ _ ih => exact ih
  | @visited _ _ _ s _ p v vs _ _ _ _ ih =>
    rw [ih, List.forall_mem_cons, ← and_assoc]
    refine and_congr_left fun _ ↦ ?_
    cases hasked : v.isAsked with
    | true => simp [settled, hasked, asked, and_comm]
    | false => simp [settled, hasked, withPeer]

theorem mem_booked_iff (tour : Tour modes now l nextFirst s vs t) :
    peer ∈ t.booked ↔ peer ∈ s.booked ∨ ∃ v ∈ vs, v.isAsked = true ∧ v.peer = peer := by
  induction tour with
  | done => simp
  | passed _ _ ih => exact ih
  | @visited _ _ _ s _ p v vs _ _ _ _ ih =>
    have hany : (∃ w ∈ v :: vs, w.isAsked = true ∧ w.peer = peer) ↔
        (v.isAsked = true ∧ v.peer = peer) ∨ ∃ w ∈ vs, w.isAsked = true ∧ w.peer = peer := by simp
    rw [ih, hany, ← or_assoc]
    refine or_congr_left ?_
    cases hasked : v.isAsked with
    | true => simp [settled, hasked, asked, or_comm]
    | false => simp [settled, hasked, withPeer]

/-- A peer that is visited and not asked is known to have been withheld. -/
theorem exists_first_eq_zero (tour : Tour modes now l nextFirst s vs t) (distinct : l.Nodup)
    {v : Visited} (h : v ∈ vs) (withheld : v.isAsked = false) :
    ∃ q, t.peers[v.peer]? = some q ∧ q.first = 0 := by
  induction tour with
  | done => cases h
  | passed _ _ ih => exact ih distinct.of_cons h
  | @visited peer rest _ s _ p w _ _ plan _ later ih =>
    rcases List.mem_cons.mp h with rfl | h
    · have hnot : v.peer ∉ rest := plan ▸ (List.nodup_cons.mp distinct).1
      rw [later.getElem?_of_notMem hnot, settled, withheld, if_neg Bool.false_ne_true,
        getElem?_withPeer, if_pos rfl]
      exact ⟨_, rfl, rfl⟩
    · exact ih distinct.of_cons h

/-- When all peers of the list are tracked, all of them are visited. -/
theorem map_peer (tour : Tour modes now l nextFirst s vs t) (tracked : ∀ peer ∈ l, peer ∈ s.peers) :
    vs.map Visited.peer = l := by
  induction tour with
  | done => rfl
  | @passed peer _ _ _ _ _ unknown _ _ =>
    have := Std.ExtTreeMap.mem_iff_isSome_getElem?.mp (tracked peer List.mem_cons_self)
    rw [unknown] at this
    cases this
  | @visited peer rest _ s _ p v vs _ plan _ _ ih =>
    have hpeer : v.peer = peer := by
      rw [plan]
      rfl
    rw [List.map_cons, hpeer, ih]
    intro other hother
    have hmem := tracked other (List.mem_cons_of_mem _ hother)
    unfold settled
    split
    · exact Std.ExtTreeMap.mem_insert.mpr (.inr hmem)
    · exact Std.ExtTreeMap.mem_insert.mpr (.inr hmem)

end Tour
end RequestSchedule

/-- Once a connected peer was met, what it advertises is known. -/
theorem Place.lastBest_of_refresh {place : Place} {info : PeerInfo} {now : Millis} {quota : Nat}
    {p : PeerRequests} (h : (place.refresh (some info) now quota).known = some p) :
    p.lastBest = info.bestNumber := by
  rw [refresh] at h
  cases place with
  | away =>
    cases h
    rfl
  | free q =>
    cases h
    rfl
  | busy q =>
    have alike := PeerRequests.alike_tryRelease
      { q with lastBest := info.bestNumber, name := info.name } now quota
    simp only [meet, release] at h
    split at h
    · cases h
      exact alike.lastBest
    · cases h
      exact alike.lastBest

/-! ### One pass -/

def HeaderRequest.message (r : HeaderRequest) : Outbound :=
  ⟨r.peer, .requestHeaders r.first r.count⟩

/-- A request is one that a schedule may issue. -/
structure HeaderRequest.Admissible (r : HeaderRequest) (s : RequestSchedule) (registry : Registry)
    (localTotal : Difficulty) : Prop where
  /-- The peer is available. -/
  available : r.peer ∈ s.available
  /-- The peer is connected, its chain is not lighter than the local one, and the range starts no
  higher than the peer advertises, if it advertises a height. -/
  advertised : ∃ info, registry.peers[r.peer]? = some info ∧ localTotal ≤ info.totalDifficulty ∧
    (r.first ≤ info.bestNumber ∨ info.bestNumber = 0)
  /-- The range starts above the genesis block. -/
  positive : 1 ≤ r.first
  /-- Its size is one that requests have. -/
  size : AdmissibleSize r.count

namespace RequestSchedule

/-- Visits fault where a sum of one of them does not fit, and nowhere else. -/
theorem visitAll_eq_error (modes : ModeTable) (now : Millis) (l : List PeerId) {e : Fault} :
    ∀ {nextFirst : UInt64} {s : RequestSchedule},
      ((visitAll modes now l nextFirst).exec s).1 = .error e →
      (∃ v ∈ visits modes now l nextFirst s, ¬ v.Fits) ∧ e = .additionOverflow := by
  induction l with
  | nil =>
    intro nextFirst s h
    cases h
  | cons peer rest ih =>
    intro nextFirst s h
    have hrest {answer : Option HeaderRequest} {next : UInt64} {t : RequestSchedule}
        (hvisit : (visit (modes.mode peer) now peer nextFirst).exec s = (.ok (answer, next), t)) :
        (∃ v ∈ visits modes now rest next t, ¬ v.Fits) ∧ e = .additionOverflow := by
      rw [exec_visitAll_cons, hvisit] at h
      dsimp only at h
      cases hlater : ((visitAll modes now rest next).exec t).1 with
      | error fault =>
        rw [hlater] at h
        cases h
        exact ih hlater
      | ok later =>
        rw [hlater] at h
        cases h
    cases hp : s.peers[peer]? with
    | none =>
      have hvisit := exec_visit_of_unknown hp (modes.mode peer) now nextFirst
      rw [visits, hvisit, hp]
      exact hrest hvisit
    | some p =>
      rcases exec_visit hp (modes.mode peer) now nextFirst with
        ⟨-, hvisit⟩ | ⟨full, q, hvisit, -⟩
      · obtain ⟨⟨v, hv, hfull⟩, he⟩ := hrest hvisit
        rw [visits, hvisit]
        exact ⟨⟨v, List.mem_append_right _ hv, hfull⟩, he⟩
      · rw [exec_visitAll_cons, hvisit] at h
        cases h
        rw [visits, hvisit, hp]
        exact ⟨⟨_, List.mem_singleton_self _, full⟩, rfl⟩

/-- A choice among candidates faults when the height from which requests are far ahead does not
fit. -/
theorem pick_eq_error {candidates : List PeerId} {e : Fault}
    (h : ((pick candidates).exec s).1 = .error e) :
    UInt64.size ≤ s.localHeight.toNat + maxAhead.toNat ∧ e = .additionOverflow := by
  unfold pick at h
  rw [Step.exec_bind_of_ok (Step.exec_get s)] at h
  simp only [Step.exec_bind, Step.exec_lift] at h
  cases hlimit : checkedAdd s.localHeight maxAhead with
  | error fault =>
    rw [hlimit] at h
    cases h
    exact checkedAdd_eq_error_iff.mp hlimit
  | ok limit =>
    rw [hlimit] at h
    dsimp only at h
    split at h
    · cases h
    · cases h

/-- Issuing the requests of a pass faults where a sum of a visit does not fit, or when the height
from which requests are far ahead does not, and nowhere else. -/
theorem issue_eq_error {registry : Registry} {localBest : UInt64} {localTotal : Difficulty}
    {e : Fault} (h : ((issue registry modes now localBest localTotal).exec s).1 = .error e) :
    (UInt64.size ≤ (max s.localHeight localBest).toNat + maxAhead.toNat ∨
      ∃ v ∈ s.issueVisits registry modes now localBest localTotal, ¬ v.Fits) ∧
      e = .additionOverflow := by
  rw [exec_issue] at h
  cases hsum : checkedAdd localBest overlapSwitch with
  | error fault =>
    rw [hsum] at h
    cases h
    obtain ⟨full, rfl⟩ := checkedAdd_eq_error_iff.mp hsum
    have hless : overlapSwitch.toNat ≤ maxAhead.toNat := by decide
    rw [toNat_max]
    exact ⟨.inl (by omega), rfl⟩
  | ok switch =>
    obtain ⟨r, random, hpick, -⟩ := s.exists_exec_pick registry localBest localTotal
    rw [hsum] at h
    dsimp only at h
    rw [Step.exec_bind, hpick] at h
    unfold issueVisits
    rw [hpick]
    cases r with
    | error fault =>
      cases h
      obtain ⟨full, he⟩ := pick_eq_error (congrArg Prod.fst hpick)
      exact ⟨.inl full, he⟩
    | ok chosen =>
      obtain ⟨hvisit, he⟩ := visitAll_eq_error modes now chosen h
      exact ⟨.inr hvisit, he⟩

/-- Issuing the requests of a pass faults on a sum that does not fit only. -/
theorem eq_of_issue_eq_error {registry : Registry} {localBest : UInt64} {localTotal : Difficulty}
    {e : Fault} (h : ((issue registry modes now localBest localTotal).exec s).1 = .error e) :
    e = .additionOverflow := (issue_eq_error h).2

end RequestSchedule

namespace Seat

/-- Sending requests appends them to the messages that wait. -/
theorem outbox_sendHeaderRequests (now : Millis) (l : List HeaderRequest) : ∀ s : Seat,
    ((sendHeaderRequests now l).leaves s).node.registry.outbox =
      (l.map HeaderRequest.message).reverse ++ s.node.registry.outbox := by
  induction l with
  | nil => exact fun _ ↦ rfl
  | cons r rest ih =>
    intro s
    rw [List.map_cons, List.reverse_cons, List.append_assoc]
    exact ih ⟨s.node.send r.peer (.requestHeaders r.first r.count),
      { s.engine with stats := s.engine.stats.recordRequest r.peer .headers now }⟩

/-- A pass that answers sends its requests in order. -/
theorem outbox_headerPass {s : Seat} {now : Millis} {localBest : UInt64} {localTotal : Difficulty}
    {requests : List HeaderRequest}
    (answers : ((headerPass now localBest localTotal).exec s).1 = .ok requests) :
    ((headerPass now localBest localTotal).leaves s).node.registry.outbox =
      (requests.map HeaderRequest.message).reverse ++ s.node.registry.outbox := by
  rw [exec_headerPass_eq] at answers
  rw [Step.leaves, exec_headerPass_eq]
  dsimp only at answers ⊢
  generalize s.engine.meetPeers s.node.registry now = e at *
  cases hissue : (RequestSchedule.issue s.node.registry e.modes now localBest localTotal).exec
    e.requests with
  | mk answer t =>
    rw [hissue] at answers
    cases answer with
    | error fault => cases answers
    | ok asked =>
      cases answers
      exact outbox_sendHeaderRequests now requests { s with engine := { e with requests := t } }

/-- A pass from a seat issues these requests, and each of them as it may. -/
structure Admits (s : Seat) (now : Millis) (localBest : UInt64) (localTotal : Difficulty)
    (requests : List HeaderRequest) : Prop where
  /-- No peer is asked twice. -/
  once : (requests.map HeaderRequest.peer).Nodup
  /-- Each request may be issued once the connected peers were met. -/
  admissible : ∀ r ∈ requests, r.Admissible (s.engine.meetPeers s.node.registry now).requests
    s.node.registry localTotal
  /-- The messages that are sent are the requests, in order. -/
  sent : ((headerPass now localBest localTotal).leaves s).node.registry.outbox =
    (requests.map HeaderRequest.message).reverse ++ s.node.registry.outbox
  /-- A peer that is asked is booked. -/
  booked : ∀ r ∈ requests,
    r.peer ∈ ((headerPass now localBest localTotal).leaves s).engine.requests.booked
  /-- The requests are those of the visits that ask. -/
  visited : requests = (s.visits now localBest localTotal).filterMap Visited.answer
  /-- Unless requests are far ahead of the local chain, all candidates are visited. -/
  candidates : s.engine.requests.Near localBest →
    (s.visits now localBest localTotal).map Visited.peer =
      (s.engine.meetPeers s.node.registry now).requests.candidates s.node.registry localTotal
  /-- A peer that is visited and not asked stays available and starts over. -/
  withheld : ∀ v ∈ s.visits now localBest localTotal, v.isAsked = false →
    v.peer ∈ ((headerPass now localBest localTotal).leaves s).engine.requests.available ∧
      ∃ p, ((headerPass now localBest localTotal).leaves s).engine.requests.peers[v.peer]? =
        some p ∧ p.first = 0

end Seat

/-! ### Runs -/

/-- Every event leaves every size regular. -/
theorem RequestSchedule.Regular.act {s : Seat} (h : s.engine.requests.Regular)
    (event : ScheduleEvent) : (event.act.leaves s).engine.requests.Regular := by
  cases event with
  | pass registry now localBest localTotal =>
    rw [s.leaves_act_pass]
    obtain ⟨-, hrequests, -⟩ := (s.withRegistry registry).exec_headerPass_at now localBest localTotal
    have hmet : ((s.withRegistry registry).engine.meetPeers registry now).requests.Regular :=
      h.refresh registry now
    rw [hrequests]
    exact hmet.issue _ _ _ _ _
  | store batch now => exact h.storeHeaders batch now
  | take peer size =>
    rw [ScheduleEvent.act, Step.leaves, Step.exec_discard]
    exact h
  | move peer event =>
    rw [ScheduleEvent.act, Step.leaves, Step.exec_discard]
    exact h

/-- Through every run every size is regular. -/
theorem RequestSchedule.Regular.afterAll (events : List ScheduleEvent) :
    ∀ {s : Seat}, s.engine.requests.Regular →
      (ScheduleEvent.afterAll events s).engine.requests.Regular := by
  induction events with
  | nil => exact id
  | cons event rest ih => exact fun h ↦ ih (h.act event)

/-- While every peer stands at some place and every size is regular, a pass that answers issues its
requests as it may. -/
theorem Seat.admits_of_regular {s : Seat} {quota : Nat}
    (stands : ∀ peer, ∃ place, s.engine.Stands quota peer place)
    (regular : s.engine.requests.Regular) {now : Millis} {localBest : UInt64}
    {localTotal : Difficulty} {requests : List HeaderRequest}
    (answers : ((headerPass now localBest localTotal).exec s).1 = .ok requests) :
    s.Admits now localBest localTotal requests := by
  obtain ⟨chosen, random, hchosen, hnear, tour, hrequests⟩ := exists_tour_of_headerPass answers
  have distinct := (RequestSchedule.nodup_candidates _ _ _).sublist hchosen
  have hregular : (s.engine.meetPeers s.node.registry now).requests.Regular :=
    regular.refresh s.node.registry now
  have hadmissible := tour.admissible hregular (RequestSchedule.nextFirst_bounds _ _).1
  have hmet (peer : PeerId) : ∃ place : Place,
      (s.engine.meetPeers s.node.registry now).requests.Stands quota peer
        (place.refresh s.node.registry.peers[peer]? now quota) := by
    obtain ⟨place, hplace⟩ := stands peer
    exact ⟨place, (hplace.meetPeers s.node.registry now).schedule⟩
  -- A visited peer is a candidate, and what it advertises is known of it.
  have hvisited {v : Visited} (hv : v ∈ s.visits now localBest localTotal) :
      v.peer ∈ (s.engine.meetPeers s.node.registry now).requests.available ∧ v.Fits ∧
        ∃ info, s.node.registry.peers[v.peer]? = some info ∧
          localTotal ≤ info.totalDifficulty ∧ v.best = info.bestNumber := by
    obtain ⟨havailable, info, hinfo, htotal⟩ :=
      RequestSchedule.mem_candidates_iff.mp (hchosen.subset (tour.mem_of_mem hv))
    obtain ⟨p, n, hp, plan, fits⟩ := tour.exists_planned distinct hv
    obtain ⟨place, hplace⟩ := hmet v.peer
    have hknown := hplace.known.symm.trans hp
    rw [hinfo] at hknown
    refine ⟨havailable, fits, info, hinfo, htotal, ?_⟩
    rw [plan]
    exact Place.lastBest_of_refresh hknown
  have hpeers : (s.visits now localBest localTotal).Pairwise fun v w ↦ v.peer ≠ w.peer :=
    List.pairwise_map.mp (distinct.sublist tour.sublist)
  refine ⟨?_, ?_, outbox_headerPass answers, ?_, hrequests, ?_, ?_⟩
  · rw [List.Nodup, List.pairwise_map, hrequests]
    refine hpeers.filterMap _ fun v w hne q hq r hr ↦ ?_
    obtain ⟨-, rfl⟩ := Visited.mem_answer_iff.mp hq
    obtain ⟨-, rfl⟩ := Visited.mem_answer_iff.mp hr
    exact hne
  · intro r hr
    rw [hrequests] at hr
    obtain ⟨v, hv, hasked, rfl⟩ := Visited.exists_of_mem_answers hr
    obtain ⟨havailable, fits, info, hinfo, htotal, hbest⟩ := hvisited hv
    obtain ⟨hpositive, hsize⟩ := hadmissible v hv
    refine ⟨havailable, ⟨info, hinfo, htotal, ?_⟩, ?_, hsize⟩
    · rw [Visited.isAsked, hbest, Bool.or_eq_true, decide_eq_true_eq, decide_eq_true_eq] at hasked
      rw [UInt64.le_iff_toNat_le, Visited.request, fits.toNat_first]
      exact hasked
    · rw [UInt64.le_iff_toNat_le, Visited.request, fits.toNat_first]
      exact hpositive
  · intro r hr
    rw [hrequests] at hr
    obtain ⟨v, hv, hasked, rfl⟩ := Visited.exists_of_mem_answers hr
    exact tour.mem_booked_iff.mpr (.inr ⟨v, hv, hasked, rfl⟩)
  · intro near
    rw [tour.map_peer ?_, hnear near]
    intro peer hpeer
    obtain ⟨place, hplace⟩ := hmet peer
    obtain ⟨p, hp⟩ := hplace.available.mp
      (RequestSchedule.mem_candidates_iff.mp (hchosen.subset hpeer)).1
    exact hplace.mem_peers_iff.mpr (by simp [hp])
  · intro v hv withheld
    refine ⟨tour.mem_available_iff.mpr ⟨(hvisited hv).1, ?_⟩,
      tour.exists_first_eq_zero distinct hv withheld⟩
    -- No other visit is of the same peer.
    intro w hw hasked he
    rw [tour.eq_of_peer_eq distinct hv hw he, withheld] at hasked
    cases hasked

/-- Every pass, at any state that a run from a new schedule leaves, faults on a sum that does not
fit or issues requests as it may: at most one to a peer, each to an available peer whose chain is
not lighter than the local one, for an even number of headers between the least and the greatest
that start above zero and no higher than the peer advertises. -/
theorem ScheduleEvent.admits_afterAll (s : Seat) (maxPerSecond : Nat) (expiry : Millis)
    (seed : UInt64) (events : List ScheduleEvent) (registry : Registry) (now : Millis)
    (localBest : UInt64) (localTotal : Difficulty) :
    let start := (afterAll events (s.beforeMeeting maxPerSecond expiry seed)).withRegistry registry
    let answer := ((Seat.headerPass now localBest localTotal).exec start).1
    (∀ e, answer = .error e → e = .additionOverflow) ∧
      ∀ requests, answer = .ok requests → start.Admits now localBest localTotal requests := by
  intro start answer
  have hnew : (s.beforeMeeting maxPerSecond expiry seed).engine.requests.Regular :=
    .new maxPerSecond expiry seed
  have hregular : start.engine.requests.Regular := hnew.afterAll events
  have hstands (peer : PeerId) :
      ∃ place, start.engine.Stands (max maxPerSecond 1) peer place :=
    (s.stands_beforeMeeting maxPerSecond expiry seed peer).afterAll events
  refine ⟨fun e h ↦ ?_, fun requests h ↦ Seat.admits_of_regular hstands hregular h⟩
  exact RequestSchedule.eq_of_issue_eq_error
    ((start.exec_headerPass_at now localBest localTotal).1.symm.trans h)

namespace ScheduleEvent

/-- Two connected peers of which one is behind. -/
def uneven : Registry :=
  (Registry.empty.upsert (.ofNat 1) ⟨500, 7, "peer-1"⟩).upsert (.ofNat 2) ⟨50, 7, "peer-2"⟩

/-- A pass, and headers of the peer that it asked. -/
def half : List ScheduleEvent :=
  [.pass uneven 0 100 1, .store ⟨.ofNat 1, "peer-1", [Block.genesis.header], 900⟩ 900]

/-- The next pass asks one peer for its next range, and visits the one that is behind in vain. -/
theorem admits_afterAll_half :
    let s := Seat.genesisSeat Seat.exists_genesis.choose
    let start := (afterAll half (s.beforeMeeting 1 60000 0)).withRegistry uneven
    ((Seat.headerPass 1000 100 1).exec start).1 = .ok [⟨.ofNat 1, 137, 38⟩] ∧
      start.visits 1000 100 1 = [⟨.ofNat 1, .normal, 137, 38, 500⟩, ⟨.ofNat 2, .normal, 175, 38, 50⟩] ∧
      start.Admits 1000 100 1 [⟨.ofNat 1, 137, 38⟩] := by
  intro s start
  have answers : ((Seat.headerPass 1000 100 1).exec start).1 = .ok [⟨.ofNat 1, 137, 38⟩] := by
    decide +kernel
  exact ⟨answers, by decide +kernel,
    (admits_afterAll s 1 60000 0 half uneven 1000 100 1).2 _ answers⟩

end ScheduleEvent
end ChainSync
