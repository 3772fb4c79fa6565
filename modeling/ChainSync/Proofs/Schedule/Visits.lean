import Mathlib.Data.List.Nodup
import ChainSync.Proofs.Schedule.Membership

/-!
# The visits of a pass

A pass visits its peers in the order of their identities. A visit comes to a range of headers, and
the peer is asked for it or not. What a visit comes to is read off what is known of the peer and
where the visits before it got to, and the requests of a pass are those of its visits that ask.
-/

namespace ChainSync

/-- What the visit of a tracked peer comes to. -/
structure Visited where
  /-- The peer. -/
  peer : PeerId
  /-- The mode that it is visited in. -/
  mode : SyncMode
  /-- Where its range starts. -/
  first : Nat
  /-- The size of its range. -/
  size : UInt32
  /-- The height that it advertises. -/
  best : UInt64
  deriving DecidableEq

namespace Visited

/-- The first height after the range. -/
def beyond (v : Visited) : Nat := v.first + v.size.toNat

/-- The range is asked for unless it starts above what the peer advertises. -/
def isAsked (v : Visited) : Bool := v.first ≤ v.best.toNat || v.best = 0

def request (v : Visited) : HeaderRequest := ⟨v.peer, .ofNat v.first, v.size⟩

def answer (v : Visited) : Option HeaderRequest := if v.isAsked then some v.request else none

/-- Every sum of the visit fits. The end of the range is a sum of visits that ask, and of all visits
in the normal mode. -/
def Fits (v : Visited) : Prop :=
  (if v.isAsked || v.mode = .normal then v.beyond else v.first) < UInt64.size

/-- Where the next peer in the normal mode is asked from, when the furthest request before the visit
ended at a height. -/
def next (v : Visited) (height nextFirst : UInt64) : UInt64 :=
  if v.mode = .normal then max height (.ofNat v.beyond) else nextFirst

variable {v : Visited}

theorem answer_of_asked (h : v.isAsked = true) : v.answer = some v.request := if_pos h

theorem answer_of_withheld (h : v.isAsked = false) : v.answer = none := by
  rw [answer, h, if_neg Bool.false_ne_true]

theorem filterMap_answer_cons (v : Visited) (vs : List Visited) :
    (v :: vs).filterMap answer = v.answer.toList ++ vs.filterMap answer := by
  rw [List.filterMap_cons]
  cases v.answer <;> rfl

theorem mem_answer_iff {r : HeaderRequest} :
    v.answer = some r ↔ v.isAsked = true ∧ v.request = r := by
  unfold answer
  split <;> simp_all

/-- A request that visits answer is that of one of them that asks. -/
theorem exists_of_mem_answers {vs : List Visited} {r : HeaderRequest}
    (h : r ∈ vs.filterMap answer) : ∃ v ∈ vs, v.isAsked = true ∧ v.request = r := by
  obtain ⟨v, hv, hanswer⟩ := List.mem_filterMap.mp h
  exact ⟨v, hv, mem_answer_iff.mp hanswer⟩

theorem Fits.first_lt (fits : v.Fits) : v.first < UInt64.size := by
  unfold Fits at fits
  split at fits
  · exact Nat.lt_of_le_of_lt (Nat.le_add_right _ _) fits
  · exact fits

theorem Fits.beyond_lt (fits : v.Fits) (summed : v.isAsked = true ∨ v.mode = .normal) :
    v.beyond < UInt64.size := by
  rw [Fits, if_pos (by simpa using summed)] at fits
  exact fits

theorem Fits.toNat_first (fits : v.Fits) : (UInt64.ofNat v.first).toNat = v.first :=
  UInt64.toNat_ofNat_of_lt' fits.first_lt

theorem Fits.toNat_beyond (fits : v.Fits) (summed : v.isAsked = true ∨ v.mode = .normal) :
    (UInt64.ofNat v.beyond).toNat = v.beyond :=
  UInt64.toNat_ofNat_of_lt' (fits.beyond_lt summed)

/-- After a visit in the normal mode the next one starts at the furthest request or at the end of
the range, whichever is further. -/
theorem Fits.toNat_next (fits : v.Fits) (normal : v.mode = .normal) (height nextFirst : UInt64) :
    (v.next height nextFirst).toNat = max height.toNat v.beyond := by
  rw [next, if_pos normal, toNat_max, fits.toNat_beyond (.inr normal)]

theorem next_of_ne (h : v.mode ≠ .normal) (height nextFirst : UInt64) :
    v.next height nextFirst = nextFirst := if_neg h

end Visited

/-- What the visit of a peer comes to in a mode, when the peers in the normal mode are asked from a
height on. -/
def PeerRequests.planned (p : PeerRequests) (peer : PeerId) (mode : SyncMode)
    (nextFirst : UInt64) : Visited :=
  ⟨peer, mode, p.nextStart nextFirst mode, p.nextSize, p.lastBest⟩

namespace RequestSchedule

variable {s t : RequestSchedule} {p : PeerRequests} {peer other : PeerId} {mode : SyncMode}
  {now : Millis} {nextFirst : UInt64}

def settled (s : RequestSchedule) (p : PeerRequests) (v : Visited) (now : Millis) :
    RequestSchedule :=
  if v.isAsked then
    s.asked v.peer ⟨p.name, v.mode, .ofNat v.first, v.size, v.best, p.times ++ [now]⟩
      (max s.requestHeight (.ofNat v.beyond))
  else s.withPeer v.peer ⟨p.name, v.mode, 0, v.size, v.best, p.times⟩

/-! ### One visit -/

/-- A visit of a peer faults on a sum that does not fit. Of what is known of the peer the size is as
before or the next one. -/
def Faults (s : RequestSchedule) (peer : PeerId) (p : PeerRequests)
    (run : Except Fault (Option HeaderRequest × UInt64) × RequestSchedule) : Prop :=
  ∃ q : PeerRequests, run = (.error .additionOverflow, s.withPeer peer q) ∧
    (q.size = p.size ∨ q.size = p.nextSize)

/-- Once its start is known, a visit asks for its range or does not, and faults when it asks and the
end of the range does not fit. -/
theorem exec_settle {first : UInt64} {v : Visited} (plan : v = p.planned peer mode nextFirst)
    (start : first.toNat = v.first) (next : UInt64) (s : RequestSchedule) (q : PeerRequests) :
    ((v.isAsked = true → v.beyond < UInt64.size) ∧
        (settle mode now peer p first next).exec (s.withPeer peer q) =
          (.ok (v.answer, next), s.settled p v now)) ∨
      (v.isAsked = true ∧ UInt64.size ≤ v.beyond ∧
        s.Faults peer p ((settle mode now peer p first next).exec (s.withPeer peer q))) := by
  have hword : UInt64.ofNat v.first = first := by rw [← start, UInt64.ofNat_toNat]
  have hasked : (first ≤ p.lastBest || p.lastBest = 0) = v.isAsked := by
    have hbest : v.best = p.lastBest := by
      rw [plan]
      rfl
    simp only [Visited.isAsked, ← start, hbest, UInt64.le_iff_toNat_le]
  unfold settle
  dsimp only
  rw [Step.exec_bind_of_ok (exec_setPeer ..), withPeer_withPeer, hasked]
  subst plan
  cases hcase : (p.planned peer mode nextFirst).isAsked with
  | true =>
    rw [if_pos rfl]
    simp only [Step.exec_bind, Step.exec_lift]
    cases hsum : checkedAdd first p.nextSize.toUInt64 with
    | error e =>
      obtain ⟨full, rfl⟩ := checkedAdd_eq_error_iff.mp hsum
      rw [UInt32.toNat_toUInt64, start] at full
      exact .inr ⟨trivial, full, _, rfl, .inr rfl⟩
    | ok after =>
      have hend := checkedAdd_eq_ok_iff.mp hsum
      rw [UInt32.toNat_toUInt64, start] at hend
      have hbeyond : (p.planned peer mode nextFirst).beyond < UInt64.size := by
        rw [Visited.beyond]
        exact hend ▸ after.toNat_lt
      have hafter : UInt64.ofNat (p.planned peer mode nextFirst).beyond = after := by
        rw [Visited.beyond]
        exact hend ▸ UInt64.ofNat_toNat
      refine .inl ⟨fun _ ↦ hbeyond, ?_⟩
      rw [Visited.answer_of_asked hcase, settled, hcase, if_pos rfl, hafter, Visited.request, hword]
      have hpeers := congrArg RequestSchedule.peers (withPeer_withPeer s peer
        ⟨p.name, mode, first, p.nextSize, p.lastBest, p.times⟩
        ⟨p.name, mode, first, p.nextSize, p.lastBest, p.times ++ [now]⟩)
      simp only [withPeer] at hpeers
      simp only [asked, withPeer, PeerRequests.planned, Step.exec_modify, Step.exec_pure, hpeers]
  | false =>
    rw [if_neg Bool.false_ne_true, Step.exec_bind_of_ok (exec_setPeer ..), withPeer_withPeer]
    refine .inl ⟨fun h ↦ (by cases h), ?_⟩
    rw [Visited.answer_of_withheld hcase, settled, hcase, if_neg Bool.false_ne_true]
    rfl

/-- In the normal mode the end of the range is formed before it is asked for. -/
private theorem exec_normal {first : UInt64} {v : Visited}
    (plan : v = p.planned peer .normal nextFirst) (start : first.toNat = v.first)
    (s : RequestSchedule) (q : PeerRequests) :
    let run : Step RequestSchedule (Option HeaderRequest × UInt64) := do
      setPeer peer ⟨p.name, .normal, first, p.size, p.lastBest, p.times⟩
      let after ← checkedAdd first p.nextSize.toUInt64
      settle .normal now peer p first (max (← get).requestHeight after)
    (v.Fits ∧ run.exec (s.withPeer peer q) =
        (.ok (v.answer, v.next s.requestHeight nextFirst), s.settled p v now)) ∨
      (¬ v.Fits ∧ s.Faults peer p (run.exec (s.withPeer peer q))) := by
  have hfits : v.Fits ↔ v.beyond < UInt64.size := by
    rw [Visited.Fits, if_pos (by simp [plan, PeerRequests.planned])]
  have hbeyond : v.beyond = first.toNat + p.nextSize.toUInt64.toNat := by
    rw [Visited.beyond, start, UInt32.toNat_toUInt64, plan]
    rfl
  dsimp only
  rw [Step.exec_bind_of_ok (exec_setPeer ..), withPeer_withPeer, hfits, hbeyond]
  simp only [Step.exec_bind, Step.exec_lift]
  cases hsum : checkedAdd first p.nextSize.toUInt64 with
  | error e =>
    obtain ⟨full, rfl⟩ := checkedAdd_eq_error_iff.mp hsum
    exact .inr ⟨Nat.not_lt.mpr full, _, rfl, .inl rfl⟩
  | ok after =>
    have hend := checkedAdd_eq_ok_iff.mp hsum
    have hafter : UInt64.ofNat v.beyond = after := by rw [hbeyond, ← hend, UInt64.ofNat_toNat]
    have hlt : v.beyond < UInt64.size := by
      rw [hbeyond, ← hend]
      exact after.toNat_lt
    have hnext : v.next s.requestHeight nextFirst = max s.requestHeight after := by
      rw [Visited.next, if_pos (by rw [plan]; rfl), hafter]
    rcases exec_settle plan start (max s.requestHeight after) s
      ⟨p.name, .normal, first, p.size, p.lastBest, p.times⟩ with ⟨-, hrun⟩ | ⟨-, full, -⟩
    · exact .inl ⟨hbeyond ▸ hlt, hnext ▸ hrun⟩
    · exact absurd hlt (Nat.not_lt.mpr full)

/-- A visit of a tracked peer answers what it comes to when its sums fit, and faults when they do
not. -/
theorem exec_visit (hp : s.peers[peer]? = some p) (mode : SyncMode) (now : Millis)
    (nextFirst : UInt64) :
    ((p.planned peer mode nextFirst).Fits ∧ (visit mode now peer nextFirst).exec s =
        (.ok ((p.planned peer mode nextFirst).answer,
          (p.planned peer mode nextFirst).next s.requestHeight nextFirst),
          s.settled p (p.planned peer mode nextFirst) now)) ∨
      (¬ (p.planned peer mode nextFirst).Fits ∧
        s.Faults peer p ((visit mode now peer nextFirst).exec s)) := by
  generalize plan : p.planned peer mode nextFirst = v
  unfold visit
  rw [Step.exec_bind_of_ok (Step.exec_get s), hp]
  dsimp only
  rw [Step.exec_bind_of_ok (exec_setPeer ..)]
  -- Out of the normal mode the end of the range is formed to ask for it only.
  have hother (hmode : mode ≠ .normal) {first : UInt64} (start : first.toNat = v.first)
      (q : PeerRequests) :
      (v.Fits ∧ (settle mode now peer p first nextFirst).exec (s.withPeer peer q) =
          (.ok (v.answer, v.next s.requestHeight nextFirst), s.settled p v now)) ∨
        (¬ v.Fits ∧ s.Faults peer p
          ((settle mode now peer p first nextFirst).exec (s.withPeer peer q))) := by
    have hv : v.mode ≠ .normal := plan ▸ hmode
    rw [Visited.next_of_ne hv]
    rcases exec_settle plan.symm start nextFirst s q with ⟨hsum, hrun⟩ | ⟨hasked, full, hrun⟩
    · refine .inl ⟨?_, hrun⟩
      unfold Visited.Fits
      split
      · next h => exact hsum (by simpa [hv] using h)
      · exact start ▸ first.toNat_lt
    · refine .inr ⟨?_, hrun⟩
      rw [Visited.Fits, if_pos (by rw [hasked]; rfl)]
      exact Nat.not_lt.mpr full
  cases mode with
  | backward =>
    have start : (max (monus p.first backwardStep) 1).toNat = v.first := by
      rw [toNat_max, toNat_monus, ← plan]
      rfl
    exact hother (by decide) start { p with mode := .backward }
  | forward =>
    simp only [Step.exec_bind, Step.exec_lift]
    have hfirst : v.first = p.first.toNat + p.size.toUInt64.toNat := by
      rw [UInt32.toNat_toUInt64, ← plan]
      rfl
    cases hsum : checkedAdd p.first p.size.toUInt64 with
    | error e =>
      obtain ⟨full, rfl⟩ := checkedAdd_eq_error_iff.mp hsum
      refine .inr ⟨fun fits ↦ ?_, _, rfl, .inl rfl⟩
      exact absurd fits.first_lt (Nat.not_lt.mpr (hfirst ▸ full))
    | ok first =>
      have start := (checkedAdd_eq_ok_iff.mp hsum).trans hfirst.symm
      exact hother (by decide) start { p with mode := .forward }
  | normal =>
    by_cases hsame : p.first = nextFirst
    · have hfirst : v.first = nextFirst.toNat + p.size.toUInt64.toNat := by
        rw [UInt32.toNat_toUInt64, ← plan]
        exact if_pos hsame
      rw [if_pos hsame, Step.exec_bind, Step.exec_lift]
      cases hsum : checkedAdd nextFirst p.size.toUInt64 with
      | error e =>
        obtain ⟨full, rfl⟩ := checkedAdd_eq_error_iff.mp hsum
        refine .inr ⟨fun fits ↦ ?_, _, rfl, .inl rfl⟩
        exact absurd fits.first_lt (Nat.not_lt.mpr (hfirst ▸ full))
      | ok first =>
        have start := (checkedAdd_eq_ok_iff.mp hsum).trans hfirst.symm
        exact exec_normal plan.symm start s { p with mode := .normal }
    · have hfirst : nextFirst.toNat = v.first := by
        rw [← plan]
        exact (if_neg hsame).symm
      rw [if_neg hsame]
      exact exec_normal plan.symm hfirst s { p with mode := .normal }

/-! ### The visits in order -/

/-- What the visits of peers in order come to, up to one that faults. Peers that are not tracked are
passed over. -/
def visits (modes : ModeTable) (now : Millis) :
    List PeerId → UInt64 → RequestSchedule → List Visited
  | [], _, _ => []
  | peer :: rest, nextFirst, s =>
    let planned := s.peers[peer]?.map fun p ↦ p.planned peer (modes.mode peer) nextFirst
    match (visit (modes.mode peer) now peer nextFirst).exec s with
    | (.ok (_, nextFirst), t) => planned.toList ++ visits modes now rest nextFirst t
    | (.error _, _) => planned.toList

/-- Visits of peers in order of which none faults, what they come to, and the schedule that they
leave. -/
inductive Tour (modes : ModeTable) (now : Millis) : List PeerId → UInt64 → RequestSchedule →
    List Visited → RequestSchedule → Prop
  /-- No peer is left. -/
  | done {nextFirst : UInt64} {s : RequestSchedule} : Tour modes now [] nextFirst s [] s
  /-- The first peer is not tracked. -/
  | passed {peer : PeerId} {rest : List PeerId} {nextFirst : UInt64} {s t : RequestSchedule}
    {vs : List Visited} (unknown : s.peers[peer]? = none)
    (later : Tour modes now rest nextFirst s vs t) :
    Tour modes now (peer :: rest) nextFirst s vs t
  /-- The first peer is visited. -/
  | visited {peer : PeerId} {rest : List PeerId} {nextFirst : UInt64} {s t : RequestSchedule}
    {p : PeerRequests} {v : Visited} {vs : List Visited} (known : s.peers[peer]? = some p)
    (plan : v = p.planned peer (modes.mode peer) nextFirst) (fits : v.Fits)
    (later : Tour modes now rest (v.next s.requestHeight nextFirst) (s.settled p v now) vs t) :
    Tour modes now (peer :: rest) nextFirst s (v :: vs) t

variable {modes : ModeTable} {l : List PeerId} {vs : List Visited} {requests : List HeaderRequest}

/-- Visiting a peer that is not tracked does nothing. -/
theorem exec_visit_of_unknown (unknown : s.peers[peer]? = none) (mode : SyncMode) (now : Millis)
    (nextFirst : UInt64) :
    (visit mode now peer nextFirst).exec s = (.ok (none, nextFirst), s) := by
  unfold visit
  rw [Step.exec_bind_of_ok (Step.exec_get s), unknown]
  rfl

/-- Visits that answer are a tour. -/
theorem tour_of_visitAll (modes : ModeTable) (now : Millis) (l : List PeerId) :
    ∀ {nextFirst : UInt64} {s t : RequestSchedule} {requests : List HeaderRequest},
      (visitAll modes now l nextFirst).exec s = (.ok requests, t) →
      Tour modes now l nextFirst s (visits modes now l nextFirst s) t ∧
        requests = (visits modes now l nextFirst s).filterMap Visited.answer := by
  induction l with
  | nil =>
    intro nextFirst s t requests h
    cases h
    exact ⟨.done, rfl⟩
  | cons peer rest ih =>
    intro nextFirst s t requests h
    rw [exec_visitAll_cons] at h
    -- The rest answers from where the first visit got to.
    have hrest {answer : Option HeaderRequest} {next : UInt64} {u : RequestSchedule}
        (hvisit : (visit (modes.mode peer) now peer nextFirst).exec s = (.ok (answer, next), u)) :
        Tour modes now rest next u (visits modes now rest next u) t ∧
          requests = answer.toList ++ (visits modes now rest next u).filterMap Visited.answer := by
      rw [hvisit] at h
      dsimp only [Step.leaves] at h
      cases hlater : (visitAll modes now rest next).exec u with
      | mk r t' =>
        rw [hlater] at h
        cases r with
        | error e => cases h
        | ok later =>
          cases h
          obtain ⟨htour, rfl⟩ := ih hlater
          exact ⟨htour, rfl⟩
    cases hp : s.peers[peer]? with
    | none =>
      have hvisit := exec_visit_of_unknown hp (modes.mode peer) now nextFirst
      obtain ⟨htour, hrequests⟩ := hrest hvisit
      rw [visits, hvisit, hp]
      exact ⟨.passed hp htour, hrequests⟩
    | some p =>
      rcases exec_visit hp (modes.mode peer) now nextFirst with
        ⟨fits, hvisit⟩ | ⟨-, q, hvisit, -⟩
      · obtain ⟨htour, hrequests⟩ := hrest hvisit
        rw [visits, hvisit, hp]
        refine ⟨.visited hp rfl fits htour, ?_⟩
        rw [hrequests]
        exact (Visited.filterMap_answer_cons _ _).symm
      · rw [hvisit] at h
        cases h

/-- A tour answers the requests of its visits. -/
theorem Tour.exec_visitAll (tour : Tour modes now l nextFirst s vs t) :
    (visitAll modes now l nextFirst).exec s = (.ok (vs.filterMap Visited.answer), t) := by
  induction tour with
  | done => rfl
  | passed unknown later ih =>
    rw [exec_visitAll_cons, exec_visit_of_unknown unknown]
    dsimp only
    rw [Step.leaves, ih]
    rfl
  | @visited peer rest nextFirst s t p v vs known plan fits later ih =>
    subst plan
    rcases exec_visit known (modes.mode peer) now nextFirst with ⟨-, hvisit⟩ | ⟨hnot, -⟩
    · rw [exec_visitAll_cons, hvisit]
      dsimp only
      rw [Step.leaves, ih, Visited.filterMap_answer_cons]
      rfl
    · exact absurd fits hnot

/-! ### What a tour leaves of everyone else -/

theorem getElem?_settled_of_ne {v : Visited} (hne : other ≠ v.peer) (s : RequestSchedule)
    (p : PeerRequests) (now : Millis) :
    (s.settled p v now).peers[other]? = s.peers[other]? := by
  unfold settled
  split
  · exact (getElem?_withPeer ..).trans (if_neg hne.symm)
  · exact (getElem?_withPeer ..).trans (if_neg hne.symm)

/-- The furthest request ends no lower after a visit, nor does it end below a range that was asked
for. -/
theorem le_requestHeight_settled {v : Visited} (fits : v.Fits) (s : RequestSchedule)
    (p : PeerRequests) (now : Millis) :
    s.requestHeight.toNat ≤ (s.settled p v now).requestHeight.toNat ∧
      (v.isAsked = true → v.beyond ≤ (s.settled p v now).requestHeight.toNat) := by
  unfold settled
  split
  · next hasked =>
    simp only [asked, toNat_max, fits.toNat_beyond (.inl hasked)]
    omega
  · next hnot => exact ⟨Nat.le_refl _, fun h ↦ absurd h hnot⟩

namespace Tour

/-- The visits are of peers of the list, in its order. -/
theorem sublist (tour : Tour modes now l nextFirst s vs t) :
    (vs.map Visited.peer).Sublist l := by
  induction tour with
  | done => exact List.Sublist.refl _
  | passed _ _ ih => exact ih.cons _
  | visited _ plan _ _ ih =>
    subst plan
    exact ih.cons_cons _

theorem mem_of_mem (tour : Tour modes now l nextFirst s vs t) {v : Visited} (h : v ∈ vs) :
    v.peer ∈ l := tour.sublist.subset (List.mem_map_of_mem h)

/-- No peer is visited twice. -/
theorem eq_of_peer_eq (tour : Tour modes now l nextFirst s vs t) (distinct : l.Nodup)
    {v w : Visited} (hv : v ∈ vs) (hw : w ∈ vs) (same : w.peer = v.peer) : w = v :=
  List.inj_on_of_nodup_map (distinct.sublist tour.sublist) hw hv same

theorem getElem?_of_notMem (tour : Tour modes now l nextFirst s vs t) (hnot : peer ∉ l) :
    t.peers[peer]? = s.peers[peer]? := by
  induction tour with
  | done => rfl
  | passed _ _ ih => exact ih fun h ↦ hnot (List.mem_cons_of_mem _ h)
  | @visited other rest _ s _ p v _ _ plan _ _ ih =>
    have hne : peer ≠ v.peer := by
      rw [plan]
      exact fun h ↦ hnot (h ▸ List.mem_cons_self)
    rw [ih fun h ↦ hnot (List.mem_cons_of_mem _ h), getElem?_settled_of_ne hne]

/-- Each visit is what its mode makes of what was known of the peer before the tour. -/
theorem exists_planned (tour : Tour modes now l nextFirst s vs t) (distinct : l.Nodup)
    {v : Visited} (h : v ∈ vs) : ∃ p n, s.peers[v.peer]? = some p ∧
      v = p.planned v.peer (modes.mode v.peer) n ∧ v.Fits := by
  induction tour with
  | done => cases h
  | passed _ _ ih => exact ih distinct.of_cons h
  | @visited peer rest n s _ p w _ known plan fits later ih =>
    rcases List.mem_cons.mp h with rfl | h
    · have hpeer : v.peer = peer := by
        rw [plan]
        rfl
      exact ⟨p, n, hpeer ▸ known, hpeer ▸ plan, fits⟩
    · obtain ⟨q, m, hq, hplan, hfits⟩ := ih distinct.of_cons h
      have hne : v.peer ≠ w.peer := by
        have hpeer : w.peer = peer := by
          rw [plan]
          rfl
        rw [hpeer]
        exact fun he ↦ (List.nodup_cons.mp distinct).1 (he ▸ later.mem_of_mem h)
      rw [getElem?_settled_of_ne hne] at hq
      exact ⟨q, m, hq, hplan, hfits⟩

/-- The furthest request ends no lower after a tour, nor does it end below a range that was asked
for in it. -/
theorem le_requestHeight (tour : Tour modes now l nextFirst s vs t) :
    s.requestHeight.toNat ≤ t.requestHeight.toNat ∧
      ∀ v ∈ vs, v.isAsked = true → v.beyond ≤ t.requestHeight.toNat := by
  induction tour with
  | done => exact ⟨Nat.le_refl _, fun _ hv ↦ absurd hv List.not_mem_nil⟩
  | passed _ _ ih => exact ih
  | @visited _ _ _ s _ p v _ _ _ fits _ ih =>
    obtain ⟨hheight, hasked⟩ := le_requestHeight_settled fits s p now
    refine ⟨Nat.le_trans hheight ih.1, ?_⟩
    intro w hw h
    rcases List.mem_cons.mp hw with rfl | hw
    · exact Nat.le_trans (hasked h) ih.1
    · exact ih.2 w hw h

end Tour

/-- Requests are not far ahead of the local chain, its best block taken into account. -/
def Near (s : RequestSchedule) (localBest : UInt64) : Prop :=
  s.requestHeight.toNat ≤ (max s.localHeight localBest).toNat + maxAhead.toNat

instance (s : RequestSchedule) (localBest : UInt64) : Decidable (s.Near localBest) :=
  inferInstanceAs (Decidable (_ ≤ _))

/-! ### Through a refresh -/

/-- A refresh keeps every property that dropping, meeting and releasing a peer and a new network
height keep. -/
theorem refresh_induction {P : RequestSchedule → Prop} (h : P s) (registry : Registry)
    (now : Millis) (dropped : ∀ s peer, P s → P (removePeer s peer))
    (network : ∀ (s : RequestSchedule) networkHeight, P s → P { s with networkHeight })
    (met : ∀ s peer info, P s → P (meet s peer info))
    (released : ∀ s peer, P s → P (releaseIfAllowed now s peer)) : P (s.refresh registry now) := by
  have hdeparted : P ((s.departed registry).foldl removePeer s) :=
    List.foldlRecOn _ _ h fun s hs peer _ ↦ dropped s peer hs
  have hactive := List.foldlRecOn (motive := P) registry.active
    (fun s entry ↦ meet s entry.1 entry.2) (network _ ((registry.bestHead).getD 0) hdeparted)
    fun s hs entry _ ↦ met s entry.1 entry.2 hs
  exact List.foldlRecOn _ _ hactive fun s hs peer _ ↦ released s peer hs

/-- A refresh leaves how far requests reach and the local height. -/
theorem refresh_heights (s : RequestSchedule) (registry : Registry) (now : Millis) :
    (s.refresh registry now).requestHeight = s.requestHeight ∧
      (s.refresh registry now).localHeight = s.localHeight := by
  refine refresh_induction (P := fun t ↦ t.requestHeight = s.requestHeight ∧
    t.localHeight = s.localHeight) ⟨rfl, rfl⟩ registry now (fun _ _ h ↦ h) (fun _ _ h ↦ h) ?_ ?_
  · intro t peer info h
    unfold meet
    split <;> exact h
  · intro t peer h
    rcases t.releaseIfAllowed_cases now peer with he | ⟨_, _, _, _, _, _, he | he⟩ <;>
      rw [he] <;> exact h

/-! ### The visits of a pass -/

/-- What the visits that issue the requests of a pass come to, up to one that faults. -/
def issueVisits (registry : Registry) (modes : ModeTable) (now : Millis) (localBest : UInt64)
    (localTotal : Difficulty) (s : RequestSchedule) : List Visited :=
  match (pick (s.candidates registry localTotal)).exec
      { s with localHeight := max s.localHeight localBest } with
  | (.ok chosen, t) => visits modes now chosen (RequestSchedule.nextFirst localBest s.networkHeight) t
  | (.error _, _) => []

/-- Nobody is visited when the height from which requests are far ahead does not fit. -/
theorem issueVisits_of_full {localBest : UInt64}
    (full : UInt64.size ≤ localBest.toNat + maxAhead.toNat) (registry : Registry)
    (modes : ModeTable) (now : Millis) (localTotal : Difficulty) (s : RequestSchedule) :
    s.issueVisits registry modes now localBest localTotal = [] := by
  have hlimit : checkedAdd (max s.localHeight localBest) maxAhead = .error .additionOverflow := by
    rw [checkedAdd_eq_error_iff, toNat_max]
    exact ⟨by omega, rfl⟩
  unfold issueVisits pick
  rw [Step.exec_bind_of_ok (Step.exec_get _), Step.exec_bind, Step.exec_lift]
  dsimp only
  rw [hlimit]

/-- The candidates are the available peers whose chain is at least as heavy as the local one. -/
theorem mem_candidates_iff {registry : Registry} {localTotal : Difficulty} :
    peer ∈ s.candidates registry localTotal ↔ peer ∈ s.available ∧
      ∃ info, registry.peers[peer]? = some info ∧ localTotal ≤ info.totalDifficulty := by
  rw [candidates, List.mem_filter, Std.ExtTreeSet.mem_toList]
  refine and_congr_right fun _ ↦ ?_
  cases registry.peers[peer]? <;> simp

/-- The candidates come in the order of their identities. -/
theorem pairwise_candidates (s : RequestSchedule) (registry : Registry) (localTotal : Difficulty) :
    (s.candidates registry localTotal).Pairwise fun a b ↦ compare a b = .lt :=
  List.Pairwise.filter _ s.available.ordered_toList

/-- Issuing the requests of a pass is a choice among the candidates and the visits of the chosen
ones, unless the local best block is too near to the last height. -/
theorem exec_issue (registry : Registry) (modes : ModeTable) (now : Millis) (localBest : UInt64)
    (localTotal : Difficulty) (s : RequestSchedule) :
    (issue registry modes now localBest localTotal).exec s =
      match checkedAdd localBest overlapSwitch with
      | .error e => (.error e, { s with localHeight := max s.localHeight localBest })
      | .ok _ => (pick (s.candidates registry localTotal) >>= fun chosen ↦
          visitAll modes now chosen (RequestSchedule.nextFirst localBest s.networkHeight)).exec
            { s with localHeight := max s.localHeight localBest } := by
  unfold issue
  rw [Step.exec_bind_of_ok (Step.exec_modify _ _), Step.exec_bind, Step.exec_lift]
  cases hsum : checkedAdd localBest overlapSwitch with
  | error e => rfl
  | ok switch =>
    have hswitch := checkedAdd_eq_ok_iff.mp hsum
    have hoverlap : (if switch ≤ s.networkHeight then farOverlap else closeOverlap) =
        overlap localBest s.networkHeight := by
      simp only [overlap, UInt64.le_iff_toNat_le, hswitch]
    dsimp only
    rw [Step.exec_bind_of_ok (Step.exec_get _)]
    dsimp only
    rw [hoverlap]
    rfl

/-- A choice among the candidates leaves the schedule with the local best block taken into
account. -/
theorem exists_exec_pick (s : RequestSchedule) (registry : Registry) (localBest : UInt64)
    (localTotal : Difficulty) :
    ∃ r random, (pick (s.candidates registry localTotal)).exec
        { s with localHeight := max s.localHeight localBest } = (r, s.raised localBest random) ∧
      ∀ chosen, r = .ok chosen → chosen.Sublist (s.candidates registry localTotal) :=
  exec_pick _ _

/-- While requests are not far ahead of the local chain, all candidates are picked. -/
theorem exec_pick_of_near {localBest : UInt64} (near : s.Near localBest)
    (candidates : List PeerId) :
    (pick candidates).exec { s with localHeight := max s.localHeight localBest } =
      ((checkedAdd (max s.localHeight localBest) maxAhead).map fun _ ↦ candidates,
        { s with localHeight := max s.localHeight localBest }) := by
  unfold pick
  rw [Step.exec_bind_of_ok (Step.exec_get _), Step.exec_bind, Step.exec_lift]
  dsimp only
  cases hsum : checkedAdd (max s.localHeight localBest) maxAhead with
  | error e => rfl
  | ok limit =>
    have hlimit := checkedAdd_eq_ok_iff.mp hsum
    have hnot : ¬ (limit < s.requestHeight && !candidates.isEmpty) = true := by
      rw [Near] at near
      simp only [Bool.and_eq_true, decide_eq_true_eq, UInt64.lt_iff_toNat_lt, hlimit]
      omega
    dsimp only
    rw [if_neg hnot]
    rfl

/-- Requests that are issued are those of a tour of candidates, and of all of them while requests
are not far ahead of the local chain. -/
theorem exists_tour_of_issue {registry : Registry} {localBest : UInt64} {localTotal : Difficulty}
    (h : (issue registry modes now localBest localTotal).exec s = (.ok requests, t)) :
    ∃ chosen random, chosen.Sublist (s.candidates registry localTotal) ∧
      (s.Near localBest → chosen = s.candidates registry localTotal) ∧
      Tour modes now chosen (RequestSchedule.nextFirst localBest s.networkHeight)
        (s.raised localBest random) (s.issueVisits registry modes now localBest localTotal) t ∧
      requests =
        (s.issueVisits registry modes now localBest localTotal).filterMap Visited.answer := by
  rw [exec_issue] at h
  cases hsum : checkedAdd localBest overlapSwitch with
  | error e =>
    rw [hsum] at h
    cases h
  | ok switch =>
    rw [hsum] at h
    obtain ⟨chosen, u, hpick, hvisits⟩ := Step.exists_exec_of_bind h
    obtain ⟨r, random, hexec, hchosen⟩ := s.exists_exec_pick registry localBest localTotal
    obtain ⟨rfl, rfl⟩ := Prod.mk.inj (hexec.symm.trans hpick)
    refine ⟨chosen, random, hchosen chosen rfl, ?_, ?_⟩
    · intro near
      rw [exec_pick_of_near near] at hpick
      cases hlimit : checkedAdd (max s.localHeight localBest) maxAhead with
      | error e =>
        rw [hlimit] at hpick
        cases hpick
      | ok limit =>
        rw [hlimit] at hpick
        cases hpick
        rfl
    · unfold issueVisits
      rw [hexec]
      exact tour_of_visitAll modes now chosen hvisits

end RequestSchedule

namespace Seat

/-- Meeting the connected peers brings requests no nearer to the local chain, nor further ahead of
it. -/
theorem near_meetPeers {e : Engine} {registry : Registry} {now : Millis} {localBest : UInt64} :
    (e.meetPeers registry now).requests.Near localBest ↔ e.requests.Near localBest := by
  obtain ⟨hrequest, hlocal⟩ := e.requests.refresh_heights registry now
  change (e.requests.refresh registry now).Near localBest ↔ _
  rw [RequestSchedule.Near, RequestSchedule.Near, hrequest, hlocal]

/-- What the visits of a pass come to, up to one that faults. -/
def visits (now : Millis) (localBest : UInt64) (localTotal : Difficulty) (s : Seat) :
    List Visited :=
  let met := s.engine.meetPeers s.node.registry now
  met.requests.issueVisits s.node.registry met.modes now localBest localTotal

/-- The requests of a pass are those of a tour of the candidates that the schedule has once it met
the connected peers, and of all of them while requests are not far ahead of the local chain. -/
theorem exists_tour_of_headerPass {s : Seat} {now : Millis} {localBest : UInt64}
    {localTotal : Difficulty} {requests : List HeaderRequest}
    (answers : ((headerPass now localBest localTotal).exec s).1 = .ok requests) :
    let met := s.engine.meetPeers s.node.registry now
    ∃ chosen random,
      chosen.Sublist (met.requests.candidates s.node.registry localTotal) ∧
      (s.engine.requests.Near localBest →
        chosen = met.requests.candidates s.node.registry localTotal) ∧
      RequestSchedule.Tour met.modes now chosen
        (RequestSchedule.nextFirst localBest met.requests.networkHeight)
        (met.requests.raised localBest random) (s.visits now localBest localTotal)
        ((headerPass now localBest localTotal).leaves s).engine.requests ∧
      requests = (s.visits now localBest localTotal).filterMap Visited.answer := by
  intro met
  obtain ⟨hanswer, hrequests, -⟩ := s.exec_headerPass_at now localBest localTotal
  rw [hrequests, ← near_meetPeers]
  exact RequestSchedule.exists_tour_of_issue (Prod.ext (hanswer.symm.trans answers) rfl)

end Seat
end ChainSync
