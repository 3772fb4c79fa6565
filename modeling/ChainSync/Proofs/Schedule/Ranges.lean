import Mathlib.Data.List.Basic
import ChainSync.Proofs.Schedule.Visits

/-!
# The ranges of peers in the normal mode

Whatever peers in other modes are visited in between, a peer in the normal mode starts no lower than
the end of the range that the one before it came to, and no lower than the furthest request. So the
ranges of one pass do not overlap, and all but the first lie beyond what earlier passes asked for.
-/

namespace ChainSync

/-- The first height after the range of a request. -/
def HeaderRequest.beyond (r : HeaderRequest) : Nat := r.first.toNat + r.count.toNat

/-- A request that fits ends where its visit does. -/
theorem Visited.Fits.beyond_request {v : Visited} (fits : v.Fits) : v.request.beyond = v.beyond := by
  rw [HeaderRequest.beyond, Visited.request, fits.toNat_first]
  rfl

namespace RequestSchedule

variable {s t : RequestSchedule} {modes : ModeTable} {now : Millis} {l : List PeerId}
  {nextFirst : UInt64} {vs : List Visited}

/-- A peer in the normal mode starts no lower than it is asked from. -/
theorem le_first_planned (p : PeerRequests) (peer : PeerId) (nextFirst : UInt64) :
    nextFirst.toNat ≤ (p.planned peer .normal nextFirst).first := by
  change nextFirst.toNat ≤
    if p.first = nextFirst then nextFirst.toNat + p.size.toNat else nextFirst.toNat
  split <;> omega

/-- The next peer in the normal mode is asked from no lower than this one. -/
theorem le_toNat_next {p : PeerRequests} {peer : PeerId} {mode : SyncMode} {v : Visited}
    (plan : v = p.planned peer mode nextFirst) (fits : v.Fits) (height : UInt64) :
    nextFirst.toNat ≤ (v.next height nextFirst).toNat := by
  by_cases normal : v.mode = .normal
  · have hmode : mode = .normal := by
      rw [← normal, plan]
      rfl
    subst hmode
    have hfirst : nextFirst.toNat ≤ v.first := plan ▸ le_first_planned p peer nextFirst
    rw [fits.toNat_next normal, Visited.beyond]
    omega
  · exact Nat.le_of_eq (congrArg UInt64.toNat (Visited.next_of_ne normal height nextFirst).symm)

namespace Tour

/-- No peer in the normal mode starts below the height that they are asked from. -/
theorem le_first (tour : Tour modes now l nextFirst s vs t) {w : Visited} (h : w ∈ vs)
    (normal : w.mode = .normal) : nextFirst.toNat ≤ w.first := by
  induction tour with
  | done => cases h
  | passed _ _ ih => exact ih h
  | @visited peer _ nextFirst s _ p v _ _ plan fits _ ih =>
    rcases List.mem_cons.mp h with rfl | h
    · have hmode : modes.mode peer = .normal := by
        rw [← normal, plan]
        rfl
      rw [plan, hmode]
      exact le_first_planned p peer nextFirst
    · exact Nat.le_trans (le_toNat_next plan fits s.requestHeight) (ih h)

/-- After the first visit in the normal mode, each starts no lower than the furthest request and no
lower than the ends of the ranges before it. -/
theorem pairwise_normal (tour : Tour modes now l nextFirst s vs t) {height : Nat}
    (hheight : height ≤ s.requestHeight.toNat) :
    (vs.filter fun v ↦ v.mode = .normal).Pairwise fun v w ↦ max height v.beyond ≤ w.first := by
  induction tour with
  | done => exact .nil
  | passed _ _ ih => exact ih hheight
  | @visited _ _ nextFirst s _ p v _ _ _ fits later ih =>
    have hlater := ih (Nat.le_trans hheight (le_requestHeight_settled fits s p now).1)
    by_cases normal : v.mode = .normal
    · rw [List.filter_cons_of_pos (by simpa using normal), List.pairwise_cons]
      refine ⟨fun w hw ↦ ?_, hlater⟩
      obtain ⟨hw, hmode⟩ := List.mem_filter.mp hw
      have hfirst := later.le_first hw (by simpa using hmode)
      rw [fits.toNat_next normal] at hfirst
      omega
    · rw [List.filter_cons_of_neg (by simpa using normal)]
      exact hlater

/-- In the normal mode a peer starts no lower than the end of the range of one that comes before
it. -/
theorem beyond_le_first (tour : Tour modes now l nextFirst s vs t)
    (sorted : l.Pairwise fun a b ↦ compare a b = .lt) {v w : Visited} (hv : v ∈ vs) (hw : w ∈ vs)
    (normal : v.mode = .normal) (normal' : w.mode = .normal) (after : compare v.peer w.peer = .lt) :
    v.beyond ≤ w.first := by
  induction tour with
  | done => cases hv
  | passed _ _ ih => exact ih sorted.of_cons hv hw
  | @visited peer _ nextFirst s _ p u _ _ plan fits later ih =>
    obtain ⟨hbefore, hsorted⟩ := List.pairwise_cons.mp sorted
    have hpeer : u.peer = peer := plan ▸ rfl
    rcases List.mem_cons.mp hv with rfl | hearly
    · rcases List.mem_cons.mp hw with rfl | hlate
      · rw [Std.ReflOrd.compare_self] at after
        cases after
      · have hfirst := later.le_first hlate normal'
        rw [fits.toNat_next normal] at hfirst
        omega
    · rcases List.mem_cons.mp hw with rfl | hlate
      · rw [hpeer, Std.OrientedCmp.gt_of_lt (hbefore v.peer (later.mem_of_mem hearly))] at after
        cases after
      · exact ih hsorted hearly hlate

/-- The requests to peers in the normal mode do not overlap. -/
theorem pairwise_requests (tour : Tour modes now l nextFirst s vs t) (distinct : l.Nodup) :
    ((vs.filterMap Visited.answer).filter fun r ↦ modes.mode r.peer = .normal).Pairwise
      fun q r ↦ q.beyond ≤ r.first.toNat := by
  have hplanned {v : Visited} (hv : v ∈ vs) : v.mode = modes.mode v.peer ∧ v.Fits := by
    obtain ⟨_, _, -, plan, fits⟩ := tour.exists_planned distinct hv
    exact ⟨congrArg Visited.mode plan, fits⟩
  have hfilter : ((vs.filterMap Visited.answer).filter fun r ↦ modes.mode r.peer = .normal) =
      (vs.filter fun v ↦ v.mode = .normal).filterMap Visited.answer := by
    rw [List.filter_filterMap, List.filterMap_filter]
    refine List.filterMap_congr fun v hv ↦ ?_
    rw [(hplanned hv).1]
    cases hanswer : v.answer with
    | none => simp
    | some r =>
      obtain ⟨-, rfl⟩ := Visited.mem_answer_iff.mp hanswer
      rfl
  rw [hfilter]
  have hnormals := (tour.pairwise_normal (Nat.zero_le _)).imp_of_mem
    (S := fun v w ↦ v.Fits ∧ w.Fits ∧ v.beyond ≤ w.first) fun hv hw h ↦
      ⟨(hplanned (List.mem_filter.mp hv).1).2, (hplanned (List.mem_filter.mp hw).1).2,
        Nat.le_trans (Nat.le_max_right _ _) h⟩
  refine hnormals.filterMap _ fun v w ⟨hv, hw, hle⟩ q hq r hr ↦ ?_
  obtain ⟨-, rfl⟩ := Visited.mem_answer_iff.mp hq
  obtain ⟨-, rfl⟩ := Visited.mem_answer_iff.mp hr
  rw [hv.beyond_request, Visited.request, hw.toNat_first]
  exact hle

end Tour

/-! ### How far requests reach -/

/-- Headers that arrive leave how far requests reach and the local height. -/
theorem storeHeaders_heights (s : RequestSchedule) (batch : HeaderBatch) (now : Millis) :
    (s.storeHeaders batch now).requestHeight = s.requestHeight ∧
      (s.storeHeaders batch now).localHeight = s.localHeight := by
  unfold storeHeaders
  split
  · rcases releaseIfAllowed_cases { s with headers := s.headers.store batch } now batch.peer with
      h | ⟨_, _, _, _, _, _, h | h⟩ <;> rw [h] <;> exact ⟨rfl, rfl⟩
  · exact ⟨rfl, rfl⟩

/-- A visit, whether or not it faults, never lowers the end of the furthest request. -/
theorem le_requestHeight_visit (mode : SyncMode) (now : Millis) (peer : PeerId)
    (nextFirst : UInt64) (s : RequestSchedule) :
    s.requestHeight.toNat ≤ ((visit mode now peer nextFirst).leaves s).requestHeight.toNat := by
  rw [Step.leaves]
  cases hp : s.peers[peer]? with
  | none =>
    exact Nat.le_of_eq (by rw [exec_visit_of_unknown hp])
  | some p =>
    rcases exec_visit hp mode now nextFirst with ⟨fits, hvisit⟩ | ⟨-, q, hvisit, -⟩
    · rw [hvisit]
      exact (le_requestHeight_settled fits s p now).1
    · exact Nat.le_of_eq (by rw [hvisit]; rfl)

/-- Issuing the requests of a pass never lowers the end of the furthest one. -/
theorem le_requestHeight_issue (registry : Registry) (modes : ModeTable) (now : Millis)
    (localBest : UInt64) (localTotal : Difficulty) (s : RequestSchedule) : s.requestHeight.toNat ≤
      ((issue registry modes now localBest localTotal).leaves s).requestHeight.toNat :=
  keeps_issue (P := fun t ↦ s.requestHeight.toNat ≤ t.requestHeight.toNat) (fun _ _ h ↦ h)
    (fun _ _ h ↦ h)
    (fun mode peer nextFirst t h ↦ Nat.le_trans h (le_requestHeight_visit mode now peer nextFirst t))
    registry modes localBest localTotal (Nat.le_refl _)

end RequestSchedule

/-- Meeting the connected peers does not change how far requests reach. -/
theorem Engine.requestHeight_meetPeers (e : Engine) (registry : Registry) (now : Millis) :
    (e.meetPeers registry now).requests.requestHeight = e.requests.requestHeight :=
  (e.requests.refresh_heights registry now).1

namespace ScheduleEvent

def issued (s : Seat) : ScheduleEvent → List HeaderRequest
  | pass registry now localBest localTotal =>
    ((Seat.headerPass now localBest localTotal).exec (s.withRegistry registry)).1.toOption.getD []
  | store .. | take .. | move .. => []

theorem mem_issued_pass {s : Seat} {registry : Registry} {now : Millis} {localBest : UInt64}
    {localTotal : Difficulty} {r : HeaderRequest}
    (h : r ∈ (pass registry now localBest localTotal).issued s) :
    ∃ requests, ((Seat.headerPass now localBest localTotal).exec (s.withRegistry registry)).1 =
      .ok requests ∧ r ∈ requests := by
  rw [issued] at h
  cases answers :
      ((Seat.headerPass now localBest localTotal).exec (s.withRegistry registry)).1 with
  | error e =>
    rw [answers] at h
    cases h
  | ok requests =>
    rw [answers] at h
    exact ⟨requests, rfl, h⟩

def issuedAll : List ScheduleEvent → Seat → List HeaderRequest
  | [], _ => []
  | event :: rest, s => event.issued s ++ issuedAll rest (event.act.leaves s)

/-- An event never lowers the end of the furthest request, and issues none beyond it. -/
theorem le_requestHeight_act (event : ScheduleEvent) (s : Seat) :
    s.engine.requests.requestHeight.toNat ≤
        (event.act.leaves s).engine.requests.requestHeight.toNat ∧
      ∀ r ∈ event.issued s,
        r.beyond ≤ (event.act.leaves s).engine.requests.requestHeight.toNat := by
  cases event with
  | pass registry now localBest localTotal =>
    rw [s.leaves_act_pass]
    change (s.withRegistry registry).engine.requests.requestHeight.toNat ≤ _ ∧ _
    obtain ⟨-, hrequests, -⟩ :=
      (s.withRegistry registry).exec_headerPass_at now localBest localTotal
    constructor
    · rw [hrequests, ← (s.withRegistry registry).engine.requestHeight_meetPeers _ now]
      exact RequestSchedule.le_requestHeight_issue ..
    · intro r hr
      obtain ⟨requests, answers, hr⟩ := mem_issued_pass hr
      obtain ⟨chosen, random, hchosen, -, tour, hanswers⟩ :=
        Seat.exists_tour_of_headerPass answers
      rw [hanswers] at hr
      obtain ⟨v, hv, hasked, rfl⟩ := Visited.exists_of_mem_answers hr
      obtain ⟨-, -, -, -, fits⟩ := tour.exists_planned
        ((RequestSchedule.nodup_candidates _ _ _).sublist hchosen) hv
      rw [fits.beyond_request]
      exact tour.le_requestHeight.2 v hv hasked
  | store batch now =>
    refine ⟨Nat.le_of_eq (congrArg UInt64.toNat ?_), fun _ h ↦ absurd h List.not_mem_nil⟩
    exact (s.engine.requests.storeHeaders_heights batch now).1.symm
  | take peer size =>
    rw [act, Step.leaves, Step.exec_discard]
    exact ⟨Nat.le_refl _, fun _ h ↦ absurd h List.not_mem_nil⟩
  | move peer event =>
    rw [act, Step.leaves, Step.exec_discard]
    exact ⟨Nat.le_refl _, fun _ h ↦ absurd h List.not_mem_nil⟩

/-- Through a run of events the end of the furthest request is never lowered, and no request of the
run ends beyond it. -/
theorem le_requestHeight_afterAll (events : List ScheduleEvent) :
    ∀ s : Seat, s.engine.requests.requestHeight.toNat ≤
        (afterAll events s).engine.requests.requestHeight.toNat ∧
      ∀ r ∈ issuedAll events s,
        r.beyond ≤ (afterAll events s).engine.requests.requestHeight.toNat := by
  induction events with
  | nil => exact fun _ ↦ ⟨Nat.le_refl _, fun _ h ↦ absurd h List.not_mem_nil⟩
  | cons event rest ih =>
    intro s
    obtain ⟨hact, hissued⟩ := event.le_requestHeight_act s
    obtain ⟨hrest, hlater⟩ := ih (event.act.leaves s)
    refine ⟨Nat.le_trans hact hrest, fun r hr ↦ ?_⟩
    rcases List.mem_append.mp hr with hr | hr
    · exact Nat.le_trans (hissued r hr) hrest
    · exact hlater r hr

/-- In every pass that answers, at any state that a run leaves, the visits are made in the order of
the peers' identities, and the ranges of those in the normal mode follow one another: after the
first one each starts no lower than the furthest request before the pass and no lower than the end
of every range before it, asked for or not. So no two requests to peers in the normal mode overlap,
and all but the first such range lie beyond everything that the run asked for. -/
theorem pairwise_normal_afterAll (s : Seat) (events : List ScheduleEvent) (registry : Registry)
    (now : Millis) (localBest : UInt64) (localTotal : Difficulty) {requests : List HeaderRequest}
    (answers : ((Seat.headerPass now localBest localTotal).exec
      ((afterAll events s).withRegistry registry)).1 = .ok requests) :
    let start := (afterAll events s).withRegistry registry
    let modes := (start.engine.meetPeers registry now).modes
    let visits := start.visits now localBest localTotal
    let normals := visits.filter fun v ↦ v.mode = .normal
    (visits.Pairwise fun v w ↦ compare v.peer w.peer = .lt) ∧
      (∀ v ∈ visits, v.mode = modes.mode v.peer) ∧
      requests = visits.filterMap Visited.answer ∧
      (normals.Pairwise fun v w ↦
        max start.engine.requests.requestHeight.toNat v.beyond ≤ w.first) ∧
      ((requests.filter fun r ↦ modes.mode r.peer = .normal).Pairwise fun q r ↦
        q.beyond ≤ r.first.toNat) ∧
      ∀ w ∈ normals.tail, ∀ r ∈ issuedAll events s, r.beyond ≤ w.first := by
  intro start modes visits normals
  obtain ⟨chosen, random, hchosen, -, tour, hrequests⟩ := Seat.exists_tour_of_headerPass answers
  have distinct := (RequestSchedule.nodup_candidates _ _ _).sublist hchosen
  have hheight : start.engine.requests.requestHeight.toNat ≤
      ((start.engine.meetPeers registry now).requests.raised localBest random).requestHeight.toNat :=
    Nat.le_of_eq
      (congrArg UInt64.toNat (start.engine.requestHeight_meetPeers registry now).symm)
  have hnormals : normals.Pairwise fun v w ↦
      max start.engine.requests.requestHeight.toNat v.beyond ≤ w.first :=
    tour.pairwise_normal hheight
  refine ⟨?_, ?_, hrequests, hnormals, ?_, ?_⟩
  · exact List.pairwise_map.mp ((RequestSchedule.pairwise_candidates _ _ _).sublist
      (tour.sublist.trans hchosen))
  · intro v hv
    obtain ⟨_, _, -, plan, -⟩ := tour.exists_planned distinct hv
    exact congrArg Visited.mode plan
  · rw [hrequests]
    exact tour.pairwise_requests distinct
  · intro w hw r hr
    have hreach := (le_requestHeight_afterAll events s).2 r hr
    cases hcase : normals with
    | nil =>
      rw [hcase] at hw
      cases hw
    | cons v rest =>
      rw [hcase] at hw hnormals
      have hfirst := (List.pairwise_cons.mp hnormals).1 w hw
      exact Nat.le_trans hreach (Nat.le_trans (Nat.le_max_left _ _) hfirst)

def three : Registry :=
  ((Registry.empty.upsert (.ofNat 1) ⟨500, 7, "peer-1"⟩).upsert (.ofNat 2)
    ⟨500, 7, "peer-2"⟩).upsert (.ofNat 3) ⟨500, 7, "peer-3"⟩

/-- A pass that asks three peers, and blocks of the second one that lack their parent. -/
def turned : List ScheduleEvent :=
  [.pass three 0 100 1, .move (.ofNat 2) (.connected .noParent true)]

/-- The next pass asks the second peer further down, and the third one from beyond all requests of
the first pass though the first one starts among them. -/
theorem pairwise_normal_afterAll_turned :
    let s := (Seat.genesisSeat Seat.exists_genesis.choose).beforeMeeting 1 60000 0
    let start := (afterAll turned s).withRegistry three
    issuedAll turned s = [⟨.ofNat 1, 97, 40⟩, ⟨.ofNat 2, 137, 40⟩, ⟨.ofNat 3, 177, 40⟩] ∧
      ((Seat.headerPass 1000 100 1).exec start).1 =
        .ok [⟨.ofNat 1, 137, 38⟩, ⟨.ofNat 2, 9, 38⟩, ⟨.ofNat 3, 217, 38⟩] ∧
      ∀ w ∈ ((start.visits 1000 100 1).filter fun v ↦ v.mode = .normal).tail,
        ∀ r ∈ issuedAll turned s, r.beyond ≤ w.first := by
  intro s start
  have answers : ((Seat.headerPass 1000 100 1).exec start).1 =
      .ok [⟨.ofNat 1, 137, 38⟩, ⟨.ofNat 2, 9, 38⟩, ⟨.ofNat 3, 217, 38⟩] := by decide +kernel
  obtain ⟨-, -, -, -, -, hbeyond⟩ := pairwise_normal_afterAll s turned three 1000 100 1 answers
  exact ⟨by decide +kernel, answers, hbeyond⟩

end ScheduleEvent
end ChainSync
