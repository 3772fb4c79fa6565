import ChainSync.Proofs.Round.Pass
import ChainSync.Proofs.Schedule.Admission
import ChainSync.Proofs.Schedule.Ranges

/-!
# How far a schedule gets ahead of the local chain

What a peer advertises decides whether its range is asked for, and never where the range starts:
that is read off the local best block, the latest range of the peer, and the end of the furthest
request. A visit goes beyond the highest of these by two sizes of requests at most. So the starts
and the ends of all ranges lie within eighty heights per visit of the greatest local best block, and
as long as these are heights no sum of a pass overflows.
-/

namespace ChainSync

/-! ### Visits -/

/-- The range of a visit ends at most two sizes above all that its start is read off. -/
theorem PeerRequests.beyond_planned_le {p : PeerRequests} {nextFirst : UInt64} {bound : Nat}
    (first : p.first.toNat ≤ bound) (size : AdmissibleSize p.size)
    (next : nextFirst.toNat ≤ bound) (peer : PeerId) (mode : SyncMode) :
    (p.planned peer mode nextFirst).beyond ≤ bound + 80 := by
  have hsize := size.greatest
  have hnextSize := size.nextSize.greatest
  have hstart : p.nextStart nextFirst mode ≤ bound + 40 := by
    cases mode with
    | backward =>
      rw [nextStart]
      omega
    | forward =>
      rw [nextStart]
      omega
    | normal =>
      rw [nextStart]
      split <;> omega
  change p.nextStart nextFirst mode + p.nextSize.toNat ≤ bound + 80
  omega

namespace Visited

/-- How high the starts and ends of ranges lie at most after some visits, when they lay within a
bound before. -/
def reach (bound : Nat) (vs : List Visited) : Nat := bound + 80 * vs.length

variable {v : Visited} {bound : Nat} {vs ws : List Visited}

theorem reach_append (bound : Nat) (vs ws : List Visited) :
    reach bound (vs ++ ws) = reach (reach bound vs) ws := by
  simp only [reach, List.length_append]
  omega

theorem le_reach (bound : Nat) (vs : List Visited) : bound ≤ reach bound vs :=
  Nat.le_add_right ..

/-- Where a sum of a visit does not fit, the end of its range does not. -/
theorem le_beyond_of_not_fits (h : ¬ v.Fits) : UInt64.size ≤ v.beyond := by
  have hfirst : v.first ≤ v.beyond := Nat.le_add_right ..
  unfold Fits at h
  split at h <;> omega

end Visited

namespace RequestSchedule

open Visited (reach)

/-- The local height lies no higher than the greatest local best block, and neither the latest range
of a peer nor the furthest request gets beyond a bound. -/
structure Within (best bound : Nat) (s : RequestSchedule) : Prop where
  /-- The local height comes from local best blocks. -/
  localHeight : s.localHeight.toNat ≤ best
  /-- The furthest request ends within the bound. -/
  requestHeight : s.requestHeight.toNat ≤ bound
  /-- The latest range of every peer starts within the bound and has the size of one. -/
  latest : s.Everywhere fun first size ↦ first.toNat ≤ bound ∧ AdmissibleSize size

/-- Visits leave a schedule that is within what they reach, and none of their ranges ends beyond. -/
structure Reaches (best bound : Nat) (vs : List Visited) (t : RequestSchedule) : Prop where
  /-- The schedule is within the bound. -/
  within : t.Within best (reach bound vs)
  /-- So is every range, asked for or not. -/
  beyond : ∀ v ∈ vs, v.beyond ≤ reach bound vs

variable {s t : RequestSchedule} {best bound bound' : Nat} {modes : ModeTable} {now : Millis}
  {nextFirst : UInt64} {vs ws : List Visited}

theorem Reaches.append (first : ∀ v ∈ vs, v.beyond ≤ reach bound vs)
    (rest : Reaches best (reach bound vs) ws t) : Reaches best bound (vs ++ ws) t := by
  have hreach := Visited.reach_append bound vs ws
  refine ⟨hreach ▸ rest.within, fun v hv ↦ ?_⟩
  rw [hreach]
  rcases List.mem_append.mp hv with hv | hv
  · exact Nat.le_trans (first v hv) (Visited.le_reach ..)
  · exact rest.beyond v hv

namespace Within

theorem reaches_nil (h : s.Within best bound) : Reaches best bound [] s :=
  ⟨h, fun _ hv ↦ absurd hv List.not_mem_nil⟩

theorem new (best bound maxPerSecond : Nat) (expiry : Millis) (seed : UInt64) :
    (RequestSchedule.new maxPerSecond expiry seed).Within best bound :=
  ⟨Nat.zero_le _, Nat.zero_le _, .new _ maxPerSecond expiry seed⟩

theorem mono (h : s.Within best bound) (le : bound ≤ bound') : s.Within best bound' :=
  ⟨h.localHeight, Nat.le_trans h.requestHeight le,
    fun peer p hp ↦ ⟨Nat.le_trans (h.latest peer p hp).1 le, (h.latest peer p hp).2⟩⟩

/-- Every height is within a bound that is none. -/
theorem withPeer_of_size_le (h : s.Within best bound) (full : UInt64.size ≤ bound') (peer : PeerId)
    {p : PeerRequests} (size : AdmissibleSize p.size) :
    (s.withPeer peer p).Within best bound' := by
  have hword (height : UInt64) : height.toNat ≤ bound' :=
    Nat.le_trans (Nat.le_of_lt height.toNat_lt) full
  refine ⟨h.localHeight, hword _, ?_⟩
  exact Everywhere.withPeer (fun other q hq ↦ ⟨hword _, (h.latest other q hq).2⟩) peer
    ⟨hword _, size⟩

theorem meetPeers {e : Engine} (h : e.requests.Within best bound) (registry : Registry)
    (now : Millis) : (e.meetPeers registry now).requests.Within best bound := by
  obtain ⟨hrequest, hlocal⟩ := e.requests.refresh_heights registry now
  refine ⟨?_, ?_, h.latest.refresh ⟨Nat.zero_le _, admissibleSize_minSize⟩ registry now⟩
  · exact Nat.le_trans (Nat.le_of_eq (congrArg UInt64.toNat hlocal)) h.localHeight
  · exact Nat.le_trans (Nat.le_of_eq (congrArg UInt64.toNat hrequest)) h.requestHeight

theorem storeHeaders (h : s.Within best bound) (batch : HeaderBatch) (now : Millis) :
    (s.storeHeaders batch now).Within best bound := by
  obtain ⟨hrequest, hlocal⟩ := s.storeHeaders_heights batch now
  exact ⟨hlocal ▸ h.localHeight, hrequest ▸ h.requestHeight, h.latest.storeHeaders batch now⟩

theorem raised (h : s.Within best bound) {localBest : UInt64} (low : localBest.toNat ≤ best)
    (random : ChaCha.Random) : (s.raised localBest random).Within best bound := by
  refine ⟨?_, h.requestHeight, h.latest⟩
  rw [RequestSchedule.raised, toNat_max]
  exact Nat.max_le.mpr ⟨h.localHeight, low⟩

/-- A visit whose range ends within a bound leaves the schedule within it. -/
theorem settled (h : s.Within best bound) {v : Visited} (fits : v.Fits)
    (beyond : v.beyond ≤ bound) (size : AdmissibleSize v.size) (p : PeerRequests) (now : Millis) :
    (s.settled p v now).Within best bound := by
  have hfirst : (UInt64.ofNat v.first).toNat ≤ bound := by
    rw [fits.toNat_first]
    exact Nat.le_trans (Nat.le_add_right ..) beyond
  unfold RequestSchedule.settled
  split
  · next hasked =>
    refine ⟨h.localHeight, ?_, ?_⟩
    · rw [asked, toNat_max, fits.toNat_beyond (.inl hasked)]
      exact Nat.max_le.mpr ⟨h.requestHeight, beyond⟩
    · exact h.latest.withPeer v.peer
        (p := ⟨p.name, v.mode, .ofNat v.first, v.size, v.best, p.times ++ [now]⟩) ⟨hfirst, size⟩
  · exact ⟨h.localHeight, h.requestHeight, h.latest.withPeer v.peer ⟨Nat.zero_le _, size⟩⟩

/-- After a visit whose range ends within a bound, the next peer in the normal mode is asked from
within it. -/
theorem toNat_next_le (h : s.Within best bound) {v : Visited} (fits : v.Fits)
    (beyond : v.beyond ≤ bound) (next : nextFirst.toNat ≤ bound) :
    (v.next s.requestHeight nextFirst).toNat ≤ bound := by
  by_cases normal : v.mode = .normal
  · rw [fits.toNat_next normal]
    exact Nat.max_le.mpr ⟨h.requestHeight, beyond⟩
  · rw [Visited.next_of_ne normal]
    exact next

/-- Visits in order reach no further than two sizes of requests for each of them. One that faults
did so as its range ended above all heights. -/
theorem visitAll (modes : ModeTable) (now : Millis) (l : List PeerId) :
    ∀ {s : RequestSchedule} {bound : Nat} {nextFirst : UInt64}, s.Within best bound →
      nextFirst.toNat ≤ bound →
      Reaches best bound (visits modes now l nextFirst s)
        ((RequestSchedule.visitAll modes now l nextFirst).leaves s) := by
  induction l with
  | nil => exact fun h _ ↦ h.reaches_nil
  | cons peer rest ih =>
    intro s bound nextFirst h next
    rw [Step.leaves, exec_visitAll_cons, visits]
    cases known : s.peers[peer]? with
    | none =>
      rw [exec_visit_of_unknown known]
      exact ih h next
    | some p =>
      obtain ⟨first, size⟩ := h.latest peer p known
      have hbeyond := PeerRequests.beyond_planned_le first size next peer (modes.mode peer)
      have hvisited : ∀ v ∈ [p.planned peer (modes.mode peer) nextFirst],
          v.beyond ≤ reach bound [p.planned peer (modes.mode peer) nextFirst] :=
        List.forall_mem_singleton.mpr hbeyond
      rcases exec_visit known (modes.mode peer) now nextFirst with
        ⟨fits, hvisit⟩ | ⟨full, q, hvisit, hq⟩
      · -- The rest is visited from a bound that is higher by this visit.
        have hgrown := Nat.le_add_right bound 80
        have hsettled := (h.mono hgrown).settled fits hbeyond size.nextSize p now
        have hnext := (h.mono hgrown).toNat_next_le fits hbeyond (Nat.le_trans next hgrown)
        rw [hvisit]
        exact .append hvisited (ih hsettled hnext)
      · rw [hvisit]
        refine ⟨h.withPeer_of_size_le ?_ peer ?_, hvisited⟩
        · exact Nat.le_trans (Visited.le_beyond_of_not_fits full)
            (hvisited _ (List.mem_singleton_self _))
        · rcases hq with hq | hq
          · exact hq ▸ size
          · exact hq ▸ size.nextSize

/-- Issuing the requests of a pass reaches as far as its visits. -/
theorem issue (h : s.Within best bound) {localBest : UInt64} (low : localBest.toNat ≤ best)
    (above : max best 1 ≤ bound) (registry : Registry) (modes : ModeTable) (now : Millis)
    (localTotal : Difficulty) :
    Reaches best bound (s.issueVisits registry modes now localBest localTotal)
      ((RequestSchedule.issue registry modes now localBest localTotal).leaves s) := by
  have hnext : (RequestSchedule.nextFirst localBest s.networkHeight).toNat ≤ bound := by
    have hlow := (nextFirst_bounds localBest s.networkHeight).2.1
    omega
  obtain ⟨r, random, hpick, -⟩ := s.exists_exec_pick registry localBest localTotal
  have hraised (random : ChaCha.Random) := h.raised low random
  rw [Step.leaves, exec_issue]
  cases hsum : checkedAdd localBest overlapSwitch with
  | error e =>
    have hfull := (checkedAdd_eq_error_iff.mp hsum).1
    have hless : overlapSwitch.toNat ≤ maxAhead.toNat := by decide
    rw [issueVisits_of_full (by omega)]
    exact (hraised s.random).reaches_nil
  | ok switch =>
    unfold issueVisits
    dsimp only
    rw [Step.exec_bind, hpick]
    cases r with
    | error e => exact (hraised random).reaches_nil
    | ok chosen => exact (hraised random).visitAll modes now chosen hnext

end Within
end RequestSchedule

/-! ### Requests that are counted -/

namespace Stats

def sent (s : Stats) (peer : PeerId) (kind : RequestKind) : Nat :=
  ((s.counters peer).requests[kind]?.map RequestLog.count).getD 0

variable {peer : PeerId} {kind : RequestKind}

/-- A peer whose counters are dropped starts over. -/
theorem sent_retain_le (s : Stats) (keep : PeerId → Bool) :
    (s.retain keep).2.sent peer kind ≤ s.sent peer kind := by
  cases hkeep : keep peer with
  | true => exact Nat.le_of_eq (by rw [sent, s.counters_retain hkeep, sent])
  | false =>
    have hdropped : (s.retain keep).2.counters peer = .zero := by
      simp only [retain, counters, Std.ExtTreeMap.getElem?_filter', hkeep]
      cases s.peers[peer]? <;> rfl
    rw [sent, hdropped]
    exact Nat.zero_le _

/-- A name does not count. -/
theorem sent_notePeer (s : Stats) (other : PeerId) (name : String) :
    (s.notePeer other name).sent peer kind = s.sent peer kind := by
  rw [sent, notePeer, counters_setCounters]
  split
  · next he => rw [he, sent]
  · rw [sent]

/-- A request counts one for its peer and kind. -/
theorem sent_recordRequest_le (s : Stats) (other : PeerId) (now : Millis) :
    (s.recordRequest other kind now).sent peer kind ≤ s.sent peer kind + 1 := by
  rw [sent, recordRequest, counters_setCounters]
  split
  · next he =>
    rw [he, Std.ExtTreeMap.getElem?_insert_self, sent]
    cases (s.counters peer).requests[kind]? <;> exact Nat.le_refl _
  · rw [sent]
    exact Nat.le_add_right ..

end Stats

/-- Meeting the connected peers counts no request. -/
theorem Engine.sent_meetPeers_le (e : Engine) (registry : Registry) (now : Millis) (peer : PeerId)
    (kind : RequestKind) :
    (e.meetPeers registry now).stats.sent peer kind ≤ e.stats.sent peer kind :=
  List.foldlRecOn (motive := fun s : Stats ↦ s.sent peer kind ≤ e.stats.sent peer kind) _ _
    (e.stats.sent_retain_le _) fun s hs entry _ ↦
      Nat.le_trans (Nat.le_of_eq (s.sent_notePeer entry.1 entry.2.name)) hs

namespace Seat

open RequestSchedule (Reaches)
open Visited (reach)

/-- Requests that are sent are counted once. -/
theorem sent_sendHeaderRequests_le (peer : PeerId) (now : Millis) (l : List HeaderRequest) :
    ∀ s : Seat, ((sendHeaderRequests now l).leaves s).engine.stats.sent peer .headers ≤
      s.engine.stats.sent peer .headers + l.length := by
  induction l with
  | nil => exact fun _ ↦ Nat.le_refl _
  | cons r rest ih =>
    intro s
    have hfirst : (s.engine.stats.recordRequest r.peer .headers now).sent peer .headers ≤
        s.engine.stats.sent peer .headers + 1 := s.engine.stats.sent_recordRequest_le r.peer now
    have hrest := ih ⟨s.node.send r.peer (.requestHeaders r.first r.count),
      { s.engine with stats := s.engine.stats.recordRequest r.peer .headers now }⟩
    refine Nat.le_trans hrest (Nat.le_trans (Nat.add_le_add_right hfirst rest.length) ?_)
    rw [List.length_cons]
    omega

/-- A pass counts no more requests than it makes visits. -/
theorem sent_headerPass_le (s : Seat) (now : Millis) (localBest : UInt64) (localTotal : Difficulty)
    (peer : PeerId) :
    ((headerPass now localBest localTotal).leaves s).engine.stats.sent peer .headers ≤
      s.engine.stats.sent peer .headers + (s.visits now localBest localTotal).length := by
  have hmet := s.engine.sent_meetPeers_le s.node.registry now peer .headers
  rw [Step.leaves, exec_headerPass_eq, visits]
  dsimp only
  generalize s.engine.meetPeers s.node.registry now = e at *
  cases hissue : (RequestSchedule.issue s.node.registry e.modes now localBest localTotal).exec
    e.requests with
  | mk answer t =>
    cases answer with
    | error fault => exact Nat.le_trans hmet (Nat.le_add_right ..)
    | ok requests =>
      obtain ⟨-, -, -, -, -, hrequests⟩ := RequestSchedule.exists_tour_of_issue hissue
      have hlength : requests.length ≤ _ := hrequests ▸ List.length_filterMap_le _ _
      have hsent := sent_sendHeaderRequests_le peer now requests
        { s with engine := { e with requests := t } }
      exact Nat.le_trans hsent (Nat.add_le_add hmet hlength)

/-! ### Passes -/

variable {s : Seat} {best bound : Nat} {localBest : UInt64}

/-- A pass reaches as far as its visits. -/
theorem reaches_headerPass (h : s.engine.requests.Within best bound)
    (low : localBest.toNat ≤ best) (above : max best 1 ≤ bound) (now : Millis)
    (localTotal : Difficulty) :
    Reaches best bound (s.visits now localBest localTotal)
      ((headerPass now localBest localTotal).leaves s).engine.requests := by
  rw [(s.exec_headerPass_at now localBest localTotal).2.1]
  have hmet := h.meetPeers s.node.registry now
  unfold visits
  exact hmet.issue low above s.node.registry _ now localTotal

/-- A pass answers when its visits reach a height, and there is one from which requests are far
ahead of the local chain. -/
theorem exists_answers_of_within (h : s.engine.requests.Within best bound)
    (low : localBest.toNat ≤ best) (above : max best 1 ≤ bound)
    (ahead : best + 10000 < UInt64.size) {now : Millis} {localTotal : Difficulty}
    (fits : reach bound (s.visits now localBest localTotal) < UInt64.size) :
    ∃ requests, ((headerPass now localBest localTotal).exec s).1 = .ok requests := by
  cases answers : ((headerPass now localBest localTotal).exec s).1 with
  | ok requests => exact ⟨requests, rfl⟩
  | error e =>
    rw [(s.exec_headerPass_at now localBest localTotal).1] at answers
    obtain ⟨full | ⟨v, hv, full⟩, -⟩ := RequestSchedule.issue_eq_error answers
    · have hlocal := (h.meetPeers s.node.registry now).localHeight
      have hahead : RequestSchedule.maxAhead.toNat = 10000 := rfl
      rw [toNat_max] at full
      omega
    · have hbeyond := (reaches_headerPass h low above now localTotal).beyond v hv
      have hfull := Visited.le_beyond_of_not_fits full
      omega

end Seat

/-! ### Runs -/

namespace ScheduleEvent

open RequestSchedule (Reaches)
open Visited (reach)

/-- The local best block lies no higher than a height if this is a pass. -/
def BestBy (best : Nat) : ScheduleEvent → Prop
  | pass _ _ localBest _ => localBest.toNat ≤ best
  | store .. | take .. | move .. => True

/-- What the visits of an event come to. -/
def visited (s : Seat) : ScheduleEvent → List Visited
  | pass registry now localBest localTotal =>
    (s.withRegistry registry).visits now localBest localTotal
  | store .. | take .. | move .. => []

def visitedAll : List ScheduleEvent → Seat → List Visited
  | [], _ => []
  | event :: rest, s => event.visited s ++ visitedAll rest (event.act.leaves s)

variable {s : Seat} {best bound : Nat}

theorem visitedAll_append (events later : List ScheduleEvent) : ∀ s : Seat,
    visitedAll (events ++ later) s = visitedAll events s ++ visitedAll later (afterAll events s) := by
  induction events with
  | nil => exact fun _ ↦ rfl
  | cons event rest ih =>
    intro s
    rw [List.cons_append, visitedAll, ih, visitedAll, List.append_assoc]
    rfl

theorem length_visitedAll_take_le (events : List ScheduleEvent) (i : Nat) (s : Seat) :
    (visitedAll (events.take i) s).length ≤ (visitedAll events s).length := by
  conv_rhs => rw [← List.take_append_drop i events, visitedAll_append, List.length_append]
  exact Nat.le_add_right ..

/-- An event reaches as far as its visits. -/
theorem reaches_act (h : s.engine.requests.Within best bound) (above : max best 1 ≤ bound)
    {event : ScheduleEvent} (low : event.BestBy best) :
    Reaches best bound (event.visited s) (event.act.leaves s).engine.requests := by
  cases event with
  | pass registry now localBest localTotal =>
    rw [s.leaves_act_pass]
    have hregistry : (s.withRegistry registry).engine.requests.Within best bound := h
    exact Seat.reaches_headerPass hregistry low above now localTotal
  | store batch now => exact (h.storeHeaders batch now).reaches_nil
  | take peer size =>
    rw [act, Step.leaves, Step.exec_discard]
    exact RequestSchedule.Within.reaches_nil ⟨h.localHeight, h.requestHeight, h.latest⟩
  | move peer event =>
    rw [act, Step.leaves, Step.exec_discard]
    exact h.reaches_nil

/-- Events reach as far as their visits. -/
theorem reaches_afterAll (events : List ScheduleEvent) : ∀ {s : Seat} {bound : Nat},
    s.engine.requests.Within best bound → max best 1 ≤ bound →
    (∀ event ∈ events, event.BestBy best) →
    Reaches best bound (visitedAll events s) (afterAll events s).engine.requests := by
  induction events with
  | nil => exact fun h _ _ ↦ h.reaches_nil
  | cons event rest ih =>
    intro s bound h above low
    obtain ⟨hevent, hrest⟩ := List.forall_mem_cons.mp low
    have hfirst := reaches_act h above hevent
    exact .append hfirst.beyond
      (ih hfirst.within (Nat.le_trans above (Visited.le_reach ..)) hrest)

/-- Events count no more requests than they make visits. -/
theorem sent_afterAll_le (peer : PeerId) (events : List ScheduleEvent) : ∀ s : Seat,
    (afterAll events s).engine.stats.sent peer .headers ≤
      s.engine.stats.sent peer .headers + (visitedAll events s).length := by
  induction events with
  | nil => exact fun _ ↦ Nat.le_refl _
  | cons event rest ih =>
    intro s
    have hfirst : (event.act.leaves s).engine.stats.sent peer .headers ≤
        s.engine.stats.sent peer .headers + (event.visited s).length := by
      cases event with
      | pass registry now localBest localTotal =>
        rw [s.leaves_act_pass]
        exact (s.withRegistry registry).sent_headerPass_le now localBest localTotal peer
      | store batch now => exact Nat.le_refl _
      | take peer size =>
        rw [act, Step.leaves, Step.exec_discard]
        exact Nat.le_refl _
      | move peer event =>
        rw [act, Step.leaves, Step.exec_discard]
        exact Nat.le_refl _
    have hrest := ih (event.act.leaves s)
    rw [visitedAll, List.length_append]
    change (afterAll rest (event.act.leaves s)).engine.stats.sent peer .headers ≤ _
    omega

/-- In every run from a new schedule in which the local best block stays within `best` and at most
`visits` visits are made, the furthest request, the start of every peer and the range of every
visit, asked for or not, stay within `max best 1 + 80 * visits`, whatever peers advertise and
however modes move. No more requests are counted than visits are made. So every pass of the run
answers, and none of its sums overflows, when that bound leaves room for one more visit and for the
height from which requests are far ahead of the local chain. -/
theorem bounded_afterAll (s : Seat) (maxPerSecond : Nat) (expiry : Millis) (seed : UInt64)
    (events : List ScheduleEvent) {best visits : Nat}
    (low : ∀ event ∈ events, event.BestBy best)
    (few : (visitedAll events
      (s.withRequests (.new maxPerSecond expiry seed))).length ≤ visits) :
    let start := s.withRequests (.new maxPerSecond expiry seed)
    (∀ i, let e := (afterAll (events.take i) start).engine
      e.requests.requestHeight.toNat ≤ max best 1 + 80 * visits ∧
      (∀ (peer : PeerId) (p : PeerRequests), e.requests.peers[peer]? = some p →
        p.first.toNat ≤ max best 1 + 80 * visits) ∧
      ∀ peer, e.stats.sent peer .headers ≤ s.engine.stats.sent peer .headers + visits) ∧
    (∀ v ∈ visitedAll events start, v.beyond ≤ max best 1 + 80 * visits) ∧
    (max best 1 + 80 * (visits + 1) + 10000 < UInt64.size →
      ∀ (i : Nat) (registry : Registry) (now : Millis) (localBest : UInt64)
        (localTotal : Difficulty),
        events[i]? = some (pass registry now localBest localTotal) →
        ∃ requests, ((Seat.headerPass now localBest localTotal).exec
          ((afterAll (events.take i) start).withRegistry registry)).1 = .ok requests) := by
  intro start
  have hnew : start.engine.requests.Within best (max best 1) := .new _ _ maxPerSecond expiry seed
  have hcount (i : Nat) : (visitedAll (events.take i) start).length ≤ visits :=
    Nat.le_trans (length_visitedAll_take_le events i start) few
  have hearlier (i : Nat) := reaches_afterAll (events.take i) hnew (Nat.le_refl _)
    fun event h ↦ low event (List.mem_of_mem_take h)
  have hreach {vs : List Visited} (h : vs.length ≤ visits) :
      reach (max best 1) vs ≤ max best 1 + 80 * visits :=
    Nat.add_le_add_left (Nat.mul_le_mul_left 80 h) _
  refine ⟨fun i ↦ ?_, fun v hv ↦ ?_, fun fits i registry now localBest localTotal hpass ↦ ?_⟩
  · have hwithin := (hearlier i).within.mono (hreach (hcount i))
    refine ⟨hwithin.requestHeight, fun peer p hp ↦ (hwithin.latest peer p hp).1, fun peer ↦ ?_⟩
    exact Nat.le_trans (sent_afterAll_le peer (events.take i) start)
      (Nat.add_le_add_left (hcount i) _)
  · exact Nat.le_trans ((reaches_afterAll events hnew (Nat.le_refl _) low).beyond v hv) (hreach few)
  · have hlow : localBest.toNat ≤ best := low _ (List.mem_of_getElem? hpass)
    have hstart : ((afterAll (events.take i) start).withRegistry registry).engine.requests.Within best
        (reach (max best 1) (visitedAll (events.take i) start)) := (hearlier i).within
    -- The visits of the pass come after those before it, and count with them.
    have hvisits : visitedAll (events.take (i + 1)) start = visitedAll (events.take i) start ++
        ((afterAll (events.take i) start).withRegistry registry).visits now localBest localTotal := by
      rw [List.take_add_one, hpass, visitedAll_append]
      exact congrArg _ (List.append_nil _)
    have htotal := hreach (hcount (i + 1))
    rw [hvisits, Visited.reach_append] at htotal
    exact Seat.exists_answers_of_within hstart hlow (Visited.le_reach ..) (by omega) (by omega)

/-- Two connected peers that advertise the last height, and one that does not. -/
def distant : Registry :=
  ((Registry.empty.upsert (.ofNat 1) ⟨18446744073709551615, 7, "peer-1"⟩).upsert (.ofNat 2)
    ⟨18446744073709551615, 7, "peer-2"⟩).upsert (.ofNat 3) ⟨150, 7, "peer-3"⟩

/-- Three passes between which the second peer turns back and then follows a branch. -/
def roving : List ScheduleEvent :=
  [.pass distant 0 100 1, .move (.ofNat 2) (.connected .noParent true), .pass distant 1000 100 1,
    .move (.ofNat 2) (.connected (.imported false) false), .pass distant 2000 100 1]

/-- The passes make nine visits, of which three are in vain. They answer, and stay near the local
chain. -/
theorem bounded_afterAll_roving :
    let start := (Seat.genesisSeat Seat.exists_genesis.choose).withRequests (.new 1 60000 0)
    (∀ event ∈ roving, event.BestBy 100) ∧
      (visitedAll roving start).map Visited.first = [97, 137, 177, 137, 9, 177, 97, 47, 177] ∧
      max 100 1 + 80 * (9 + 1) + 10000 < UInt64.size ∧
      (∀ i, (afterAll (roving.take i) start).engine.requests.requestHeight.toNat ≤ 820) ∧
      (∀ v ∈ visitedAll roving start, v.beyond ≤ 820) ∧
      ∃ requests, ((Seat.headerPass 2000 100 1).exec
        ((afterAll (roving.take 4) start).withRegistry distant)).1 = .ok requests := by
  intro start
  have low : ∀ event ∈ roving, event.BestBy 100 := by simp [roving, BestBy]
  have visits : (visitedAll roving start).map Visited.first =
      [97, 137, 177, 137, 9, 177, 97, 47, 177] := by decide +kernel
  have few : (visitedAll roving start).length ≤ 9 := by
    rw [← List.length_map Visited.first, visits]
    decide
  have fits : max 100 1 + 80 * (9 + 1) + 10000 < UInt64.size := by decide
  obtain ⟨hstates, hranges, hanswers⟩ := bounded_afterAll
    (Seat.genesisSeat Seat.exists_genesis.choose) 1 60000 0 roving low few
  exact ⟨low, visits, fits, fun i ↦ (hstates i).1, hranges, hanswers fits 4 distant 2000 100 1 rfl⟩

end ScheduleEvent
end ChainSync
