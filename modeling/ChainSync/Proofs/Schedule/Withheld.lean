import Mathlib.Data.List.Find
import ChainSync.Proofs.Schedule.Ranges

/-!
# Peers that are visited in vain

A peer that is visited and not asked leaves a trace in the pass nonetheless: in the normal mode the
peers after it start no lower than the end of its range, though nobody was asked for that range. To
find out what this changes, the pass is compared with the one in which the peer advertises a chain
lighter than the local one, so that it is not visited.
-/

namespace ChainSync

/-- A peer that comes before another is another one. -/
theorem ne_of_compare {a b : PeerId} (h : compare a b = .lt) : a ≠ b := by
  rintro rfl
  rw [Std.ReflOrd.compare_self] at h
  cases h

/-- The request is to a peer in the normal mode. -/
def ModeTable.inNormal (modes : ModeTable) (r : HeaderRequest) : Bool :=
  modes.mode r.peer = .normal

/-- The request is to a peer in the normal mode that comes after a peer. -/
def ModeTable.inNormalAfter (modes : ModeTable) (peer : PeerId) (r : HeaderRequest) : Bool :=
  compare peer r.peer = .lt && modes.inNormal r

namespace Visited

variable {v : Visited}

theorem filterMap_answer_of_asked (h : v.isAsked = true) (vs : List Visited) :
    (v :: vs).filterMap answer = v.request :: vs.filterMap answer :=
  List.filterMap_cons_some (answer_of_asked h)

theorem filterMap_answer_of_withheld (h : v.isAsked = false) (vs : List Visited) :
    (v :: vs).filterMap answer = vs.filterMap answer :=
  List.filterMap_cons_none (answer_of_withheld h)

end Visited

/-- Out of the normal mode it does not matter from where the peers in it are asked. -/
theorem PeerRequests.nextStart_of_ne_normal (p : PeerRequests) {mode : SyncMode}
    (h : mode ≠ .normal) (n n' : UInt64) : p.nextStart n mode = p.nextStart n' mode := by
  cases mode with
  | backward => rfl
  | forward => rfl
  | normal => exact absurd rfl h

namespace RequestSchedule

/-- Schedules agree but on what is known of one peer, as far as visits of the others read them. -/
structure AgreeBut (peer : PeerId) (s t : RequestSchedule) : Prop where
  /-- The furthest request ends at the same height. -/
  height : t.requestHeight = s.requestHeight
  /-- The same is known of every other peer. -/
  others : ∀ other, other ≠ peer → t.peers[other]? = s.peers[other]?

variable {s t s' t' : RequestSchedule} {modes : ModeTable} {now : Millis} {peer : PeerId}
  {l : List PeerId} {nextFirst nextFirst' : UInt64} {v w : Visited} {vs vs' : List Visited}
  {p : PeerRequests}

namespace AgreeBut

/-- Visits that come to the same, asked for or not, keep the agreement. So do visits that are both
not asked for and start at different heights. -/
theorem settled (h : AgreeBut peer s t) (p : PeerRequests) (now : Millis)
    (hpeer : w.peer = v.peer) (hmode : w.mode = v.mode) (hsize : w.size = v.size)
    (hbest : w.best = v.best) (hasked : w.isAsked = v.isAsked)
    (hfirst : v.isAsked = true → w.first = v.first) :
    AgreeBut peer (s.settled p v now) (t.settled p w now) := by
  unfold RequestSchedule.settled
  rw [hasked, hpeer, hmode, hsize, hbest]
  split
  · next hv =>
    refine ⟨?_, fun other hne ↦ ?_⟩
    · simp only [asked, Visited.beyond, hfirst hv, hsize, h.height]
    · simp only [asked, getElem?_withPeer, hfirst hv, h.others other hne]
  · refine ⟨h.height, fun other hne ↦ ?_⟩
    simp only [getElem?_withPeer, h.others other hne]

/-- A peer that is visited in vain changes nothing for the others. -/
theorem of_withheld (withheld : v.isAsked = false) : AgreeBut v.peer (s.settled p v now) s := by
  rw [RequestSchedule.settled, withheld, if_neg Bool.false_ne_true]
  exact ⟨rfl, fun other hne ↦ by rw [getElem?_withPeer, if_neg hne.symm]⟩

end AgreeBut

namespace Tour

/-- Where schedules agree on all peers of a list, tours of it come to the same. -/
theorem congr (tour : Tour modes now l nextFirst s vs t) (agree : AgreeBut peer s s')
    (hnot : peer ∉ l) : ∃ t', Tour modes now l nextFirst s' vs t' := by
  induction tour generalizing s' with
  | done => exact ⟨s', .done⟩
  | @passed other _ _ _ _ _ unknown _ ih =>
    rw [List.mem_cons, not_or] at hnot
    obtain ⟨t', htour⟩ := ih agree hnot.2
    exact ⟨t', .passed ((agree.others other (Ne.symm hnot.1)).trans unknown) htour⟩
  | @visited other _ _ _ _ p v _ known plan fits _ ih =>
    rw [List.mem_cons, not_or] at hnot
    have hsettled := agree.settled p now (v := v) rfl rfl rfl rfl rfl fun _ ↦ rfl
    obtain ⟨t', htour⟩ := ih hsettled hnot.2
    rw [← agree.height] at htour
    exact ⟨t', .visited ((agree.others other (Ne.symm hnot.1)).trans known) plan fits htour⟩

/-- Tours of the same peers from the same schedule answer the same. -/
theorem answers_unique (tour : Tour modes now l nextFirst s vs t)
    (tour' : Tour modes now l nextFirst s vs' t') :
    vs'.filterMap Visited.answer = vs.filterMap Visited.answer := by
  have h := tour'.exec_visitAll.symm.trans tour.exec_visitAll
  exact Except.ok.inj (Prod.mk.inj h).1

theorem mem_of_find? (tour : Tour modes now l nextFirst s vs t) {wanted : HeaderRequest → Bool}
    {r : HeaderRequest} (h : (vs.filterMap Visited.answer).find? wanted = some r) : r.peer ∈ l := by
  obtain ⟨v, hv, -, rfl⟩ := Visited.exists_of_mem_answers (List.mem_of_find?_eq_some h)
  exact tour.mem_of_mem hv

/-- When the first requests in the normal mode are the same, so are the answers of the visits of a
peer in that mode that come first: no later one is to that peer. -/
theorem answer_eq_of_find?_eq (later : Tour modes now l nextFirst s vs t)
    (later' : Tour modes now l nextFirst' s' vs' t') (same : w.peer = v.peer) (hnot : v.peer ∉ l)
    (normal : modes.mode v.peer = .normal)
    (first : ((w :: vs').filterMap Visited.answer).find? modes.inNormal =
      ((v :: vs).filterMap Visited.answer).find? modes.inNormal) :
    w.answer = v.answer := by
  have hv : modes.inNormal v.request = true := decide_eq_true normal
  have hw : modes.inNormal w.request = true := decide_eq_true ((congrArg modes.mode same).trans normal)
  cases hasked : v.isAsked with
  | false =>
    rw [Visited.filterMap_answer_of_withheld hasked] at first
    cases hasked' : w.isAsked with
    | false => rw [Visited.answer_of_withheld hasked, Visited.answer_of_withheld hasked']
    | true =>
      rw [Visited.filterMap_answer_of_asked hasked', List.find?_cons_of_pos hw] at first
      exact absurd (same ▸ later.mem_of_find? first.symm) hnot
  | true =>
    rw [Visited.filterMap_answer_of_asked hasked, List.find?_cons_of_pos hv] at first
    cases hasked' : w.isAsked with
    | false =>
      rw [Visited.filterMap_answer_of_withheld hasked'] at first
      exact absurd (later'.mem_of_find? first) hnot
    | true =>
      rw [Visited.filterMap_answer_of_asked hasked', List.find?_cons_of_pos hw] at first
      rw [Visited.answer_of_asked hasked, Visited.answer_of_asked hasked', first]

/-- Tours of the same peers that call for the normal mode from different heights answer the same as
soon as their first requests in the normal mode are the same: from there on both go on from the end
of that request. -/
theorem catch_up (tour : Tour modes now l nextFirst s vs t) :
    ∀ {nextFirst' : UInt64} {s' t' : RequestSchedule} {vs' : List Visited},
      Tour modes now l nextFirst' s' vs' t' → AgreeBut peer s s' → peer ∉ l → l.Nodup →
      (vs'.filterMap Visited.answer).find? modes.inNormal =
        (vs.filterMap Visited.answer).find? modes.inNormal →
      vs'.filterMap Visited.answer = vs.filterMap Visited.answer := by
  induction tour with
  | done =>
    intro _ _ _ _ tour' _ _ _ _
    cases tour'
    rfl
  | @passed other _ _ _ _ _ unknown _ ih =>
    intro _ _ _ _ tour' agree hnot distinct first
    rw [List.mem_cons, not_or] at hnot
    cases tour' with
    | passed _ later' => exact ih later' agree hnot.2 distinct.of_cons first
    | visited known' _ _ _ =>
      rw [agree.others other (Ne.symm hnot.1), unknown] at known'
      cases known'
  | @visited other rest n s _ p v vs known plan fits later ih =>
    intro n' s' _ _ tour' agree hnot distinct first
    rw [List.mem_cons, not_or] at hnot
    cases tour' with
    | passed unknown' _ =>
      rw [agree.others other (Ne.symm hnot.1), known] at unknown'
      cases unknown'
    | @visited _ _ _ _ _ p' v' vs' known' plan' fits' later' =>
      have hp : p' = p := by
        rw [agree.others other (Ne.symm hnot.1), known] at known'
        exact (Option.some.inj known').symm
      subst hp
      have hpeer : v.peer = other := plan ▸ rfl
      have hpeer' : v'.peer = v.peer := plan ▸ plan' ▸ rfl
      have hmode : v'.mode = v.mode := plan ▸ plan' ▸ rfl
      have hsize : v'.size = v.size := plan ▸ plan' ▸ rfl
      have hsettled := agree.settled p' now hpeer' hmode hsize
        (plan ▸ plan' ▸ rfl : v'.best = v.best)
      have hanswer : v'.answer = v.answer := by
        by_cases normal : modes.mode other = .normal
        · exact later.answer_eq_of_find?_eq later' hpeer' (hpeer ▸ (List.nodup_cons.mp distinct).1)
            (hpeer ▸ normal) first
        · rw [plan, plan', PeerRequests.planned, PeerRequests.planned,
            p'.nextStart_of_ne_normal normal n' n]
      cases hasked : v.isAsked with
      | false =>
        have hasked' : v'.isAsked = false := by
          simpa [Visited.answer, hasked] using hanswer
        rw [Visited.filterMap_answer_of_withheld hasked,
          Visited.filterMap_answer_of_withheld hasked'] at first ⊢
        exact ih later' (hsettled (hasked'.trans hasked.symm) (by simp [hasked])) hnot.2
          distinct.of_cons first
      | true =>
        rw [Visited.answer_of_asked hasked] at hanswer
        obtain ⟨hasked', hrequest⟩ := Visited.mem_answer_iff.mp hanswer
        have hfirst : v'.first = v.first := by
          have := congrArg (fun r ↦ r.first.toNat) hrequest
          simpa [Visited.request, fits.toNat_first, fits'.toNat_first] using this
        have hagree := hsettled (hasked'.trans hasked.symm) fun _ ↦ hfirst
        rw [Visited.filterMap_answer_of_asked hasked, Visited.filterMap_answer_of_asked hasked',
          hrequest] at first ⊢
        by_cases normal : v.mode = .normal
        · -- From here on both go on from the end of the same range.
          have hnext : v'.next s'.requestHeight n' = v.next s.requestHeight n := by
            rw [Visited.next, Visited.next, hmode, if_pos normal, if_pos normal, agree.height,
              Visited.beyond, Visited.beyond, hfirst, hsize]
          obtain ⟨u, hu⟩ := later.congr hagree hnot.2
          rw [hnext] at later'
          rw [hu.answers_unique later']
        · -- Out of the normal mode the others decide.
          have hskip : ¬ modes.inNormal v.request = true := by
            have hplanned : modes.mode v.peer = v.mode := plan ▸ rfl
            simpa [ModeTable.inNormal, Visited.request, hplanned] using normal
          rw [List.find?_cons_of_neg hskip, List.find?_cons_of_neg hskip] at first
          rw [ih later' hagree hnot.2 distinct.of_cons first]

/-- Out of the normal mode a peer that is visited in vain may as well not be visited. -/
theorem exists_filter_of_withheld (tour : Tour modes now l nextFirst s vs t) (distinct : l.Nodup)
    (h : v ∈ vs) (withheld : v.isAsked = false) (other : v.mode ≠ .normal) :
    ∃ vs' t', Tour modes now (l.filter (· ≠ v.peer)) nextFirst s vs' t' ∧
      vs'.filterMap Visited.answer = vs.filterMap Visited.answer := by
  induction tour with
  | done => cases h
  | @passed peer rest _ _ _ _ unknown later ih =>
    have hne : peer ≠ v.peer := fun he ↦
      (List.nodup_cons.mp distinct).1 (he ▸ later.mem_of_mem h)
    obtain ⟨vs', t', htour, hanswers⟩ := ih distinct.of_cons h
    rw [List.filter_cons_of_pos (by simpa using hne)]
    exact ⟨vs', t', .passed unknown htour, hanswers⟩
  | @visited peer rest n s _ p w vs known plan fits later ih =>
    have hpeer : w.peer = peer := plan ▸ rfl
    rcases List.mem_cons.mp h with rfl | h
    · have hrest : rest.filter (· ≠ v.peer) = rest := by
        rw [List.filter_eq_self]
        intro other hmem
        have := (List.nodup_cons.mp distinct).1
        rw [hpeer]
        simpa using fun he : other = peer ↦ this (he ▸ hmem)
      obtain ⟨t', htour⟩ := later.congr (.of_withheld withheld)
        (hpeer ▸ (List.nodup_cons.mp distinct).1)
      rw [List.filter_cons_of_neg (by simp [hpeer]), hrest,
        Visited.filterMap_answer_of_withheld withheld]
      rw [Visited.next_of_ne other] at htour
      exact ⟨vs, t', htour, rfl⟩
    · have hne : peer ≠ v.peer := fun he ↦
        (List.nodup_cons.mp distinct).1 (he ▸ later.mem_of_mem h)
      obtain ⟨vs', t', htour, hanswers⟩ := ih distinct.of_cons h
      rw [List.filter_cons_of_pos (by simpa using hne)]
      refine ⟨w :: vs', t', .visited known plan fits htour, ?_⟩
      rw [Visited.filterMap_answer_cons, Visited.filterMap_answer_cons, hanswers]

/-- A tour answers the same without a peer that it visits in vain as soon as the first later
requests in the normal mode are the same. -/
theorem eq_of_find?_eq (tour : Tour modes now l nextFirst s vs t)
    (sorted : l.Pairwise fun a b ↦ compare a b = .lt) (h : v ∈ vs) (withheld : v.isAsked = false) :
    ∀ {t' : RequestSchedule} {vs' : List Visited},
      Tour modes now (l.filter (· ≠ v.peer)) nextFirst s vs' t' →
      (vs'.filterMap Visited.answer).find? (modes.inNormalAfter v.peer) =
        (vs.filterMap Visited.answer).find? (modes.inNormalAfter v.peer) →
      vs'.filterMap Visited.answer = vs.filterMap Visited.answer := by
  induction tour with
  | done => cases h
  | @passed peer rest _ _ _ _ unknown later ih =>
    intro _ _ tour' first
    obtain ⟨hbefore, hsorted⟩ := List.pairwise_cons.mp sorted
    have hlt := hbefore v.peer (later.mem_of_mem h)
    rw [List.filter_cons_of_pos (by simpa using ne_of_compare hlt)] at tour'
    cases tour' with
    | passed _ later' => exact ih hsorted h later' first
    | visited known _ _ _ =>
      rw [unknown] at known
      cases known
  | @visited peer rest n s _ p w vs known plan fits later ih =>
    intro _ _ tour' first
    obtain ⟨hbefore, hsorted⟩ := List.pairwise_cons.mp sorted
    have hpeer : w.peer = peer := plan ▸ rfl
    rcases List.mem_cons.mp h with rfl | hlater
    · -- All peers of the rest come after this one.
      have hrest : rest.filter (· ≠ v.peer) = rest :=
        List.filter_eq_self.mpr fun other hmem ↦ by
          simpa using (ne_of_compare (hpeer ▸ hbefore other hmem)).symm
      have hafter {us : List Visited} (hus : ∀ u ∈ us, u.peer ∈ rest) :
          (us.filterMap Visited.answer).find? (modes.inNormalAfter v.peer) =
            (us.filterMap Visited.answer).find? modes.inNormal := by
        refine List.find?_congr fun r hr ↦ ?_
        obtain ⟨u, hu, -, rfl⟩ := Visited.exists_of_mem_answers hr
        have hlt : compare v.peer u.request.peer = .lt := hpeer ▸ hbefore u.peer (hus u hu)
        simp [ModeTable.inNormalAfter, hlt]
      have hnot : v.peer ∉ rest := fun hmem ↦ ne_of_compare (hpeer ▸ hbefore _ hmem) rfl
      rw [List.filter_cons_of_neg (by simp [hpeer]), hrest] at tour'
      rw [Visited.filterMap_answer_of_withheld withheld] at first ⊢
      rw [hafter fun u hu ↦ tour'.mem_of_mem hu, hafter fun u hu ↦ later.mem_of_mem hu] at first
      exact later.catch_up tour' (.of_withheld withheld) hnot
        (hsorted.imp fun hab ↦ ne_of_compare hab) first
    · have hlt := hbefore v.peer (later.mem_of_mem hlater)
      rw [List.filter_cons_of_pos (by simpa using ne_of_compare hlt)] at tour'
      cases tour' with
      | passed unknown _ =>
        rw [unknown] at known
        cases known
      | @visited _ _ _ _ _ p' w' vs' known' plan' _ later' =>
        rw [known] at known'
        cases known'
        have hsame : w' = w := plan'.trans plan.symm
        subst hsame
        rw [Visited.filterMap_answer_cons, Visited.filterMap_answer_cons] at first ⊢
        have hskip : w'.answer.toList.find? (modes.inNormalAfter v.peer) = none := by
          rw [List.find?_eq_none]
          intro r hr
          obtain ⟨-, rfl⟩ := Visited.mem_answer_iff.mp (Option.mem_toList.mp hr)
          have hgt : compare v.peer w'.request.peer = .gt :=
            Std.OrientedCmp.gt_of_lt ((congrArg (compare · v.peer) hpeer).trans hlt)
          simp [ModeTable.inNormalAfter, hgt]
        rw [List.find?_append, List.find?_append, hskip, Option.none_or, Option.none_or] at first
        rw [ih hsorted hlater later' first]

end Tour
end RequestSchedule

/-! ### A peer whose chain is lighter -/

namespace Registry

variable {r : Registry} {peer : PeerId} {info : PeerInfo} {total : Difficulty}

/-- What a peer advertises, with another total difficulty if it is a certain one. -/
def reweigh (peer : PeerId) (total : Difficulty) (entry : PeerId × PeerInfo) : PeerId × PeerInfo :=
  (entry.1, if entry.1 = peer then { entry.2 with totalDifficulty := total } else entry.2)

/-- When a connected peer advertises another total difficulty, the connected peers are as before
but for that. -/
theorem active_upsert (connected : r.peers[peer]? = some info) (total : Difficulty) :
    (r.upsert peer { info with totalDifficulty := total }).active =
      r.active.map (reweigh peer total) := by
  have hmap : r.peers.insert peer { info with totalDifficulty := total } = r.peers.map fun k i ↦
      if k = peer then { i with totalDifficulty := total } else i := by
    apply Std.ExtTreeMap.ext_getElem?
    intro other
    rw [Std.ExtTreeMap.getElem?_insert, Std.ExtTreeMap.getElem?_map]
    by_cases he : peer = other
    · subst he
      simp [connected]
    · simp [he, Ne.symm he]
  rw [upsert, active, active, hmap, Std.ExtTreeMap.toList_map]
  rfl

/-- Another total difficulty connects no peer. -/
theorem contains_upsert (connected : r.peers[peer]? = some info) (total : Difficulty)
    (other : PeerId) :
    (r.upsert peer { info with totalDifficulty := total }).peers.contains other =
      r.peers.contains other := by
  rw [upsert, Std.ExtTreeMap.contains_insert]
  by_cases he : peer = other
  · subst he
    simp [Std.ExtTreeMap.contains_eq_isSome_getElem?, connected]
  · simp [he]

end Registry

namespace RequestSchedule

variable {registry : Registry} {peer : PeerId} {info : PeerInfo}

/-- Another total difficulty makes no peer depart. -/
theorem departed_upsert (connected : registry.peers[peer]? = some info) (total : Difficulty)
    (s : RequestSchedule) :
    s.departed (registry.upsert peer { info with totalDifficulty := total }) =
      s.departed registry := by
  unfold departed
  exact List.filter_congr fun other _ ↦ by rw [Registry.contains_upsert connected]

/-- A peer is met by its height and its name. -/
theorem meet_reweigh (s : RequestSchedule) (peer : PeerId) (total : Difficulty)
    (entry : PeerId × PeerInfo) :
    s.meet entry.1 (Registry.reweigh peer total entry).2 = s.meet entry.1 entry.2 := by
  unfold Registry.reweigh
  split <;> rfl

/-- A refresh does not read total difficulties. -/
theorem refresh_upsert (connected : registry.peers[peer]? = some info) (total : Difficulty)
    (s : RequestSchedule) (now : Millis) :
    s.refresh (registry.upsert peer { info with totalDifficulty := total }) now =
      s.refresh registry now := by
  have hheights : (registry.active.map (Registry.reweigh peer total)).map
      (fun entry ↦ entry.2.bestNumber) = registry.active.map fun entry ↦ entry.2.bestNumber := by
    rw [List.map_map]
    refine List.map_congr_left fun entry _ ↦ ?_
    change (Registry.reweigh peer total entry).2.bestNumber = _
    unfold Registry.reweigh
    split <;> rfl
  have hactive (t : RequestSchedule) : (registry.active.map (Registry.reweigh peer total)).foldl
      (fun s entry ↦ s.meet entry.1 entry.2) t =
        registry.active.foldl (fun s entry ↦ s.meet entry.1 entry.2) t := by
    rw [List.foldl_map]
    exact congrArg (fun f ↦ registry.active.foldl f t)
      (funext₂ fun s entry ↦ s.meet_reweigh peer total entry)
  simp only [refresh, departed_upsert connected, Registry.bestHead,
    Registry.active_upsert connected, hheights, hactive]

/-- Meeting the connected peers does not read total difficulties. -/
theorem meetPeers_upsert (connected : registry.peers[peer]? = some info) (total : Difficulty)
    (e : Engine) (now : Millis) :
    (e.meetPeers (registry.upsert peer { info with totalDifficulty := total }) now).requests =
        (e.meetPeers registry now).requests ∧
      (e.meetPeers (registry.upsert peer { info with totalDifficulty := total }) now).modes =
        (e.meetPeers registry now).modes := by
  have hjoining : e.requests.joining (registry.upsert peer { info with totalDifficulty := total }) =
      (e.requests.joining registry).map (Registry.reweigh peer total) := by
    rw [joining, Registry.active_upsert connected, List.filter_map]
    rfl
  constructor
  · simp only [Engine.meetPeers, refresh_upsert connected]
  · simp only [Engine.meetPeers, departed_upsert connected, hjoining, List.foldl_map]
    rfl

/-- A peer whose chain is lighter than the local one is not a candidate, and the others are
candidates as before. -/
theorem candidates_upsert (s : RequestSchedule) {localTotal : Difficulty} {total : Difficulty}
    (lighter : total < localTotal) :
    s.candidates (registry.upsert peer { info with totalDifficulty := total }) localTotal =
      (s.candidates registry localTotal).filter (· ≠ peer) := by
  unfold candidates
  rw [List.filter_filter]
  refine List.filter_congr fun other _ ↦ ?_
  rw [Registry.upsert, Std.ExtTreeMap.getElem?_insert]
  by_cases he : peer = other
  · subst he
    simpa using lighter
  · simp [he, Ne.symm he]

/-- While requests are not far ahead of the local chain, issuing those of a pass is visiting all
candidates, unless the local chain is too near to the last height. -/
theorem exec_issue_of_near {s : RequestSchedule} {localBest : UInt64} (near : s.Near localBest)
    (registry : Registry) (modes : ModeTable) (now : Millis) (localTotal : Difficulty) :
    (issue registry modes now localBest localTotal).exec s =
      if localBest.toNat + overlapSwitch.toNat < UInt64.size ∧
          (max s.localHeight localBest).toNat + maxAhead.toNat < UInt64.size then
        (visitAll modes now (s.candidates registry localTotal)
          (RequestSchedule.nextFirst localBest s.networkHeight)).exec (s.raised localBest s.random)
      else (.error .additionOverflow, s.raised localBest s.random) := by
  rw [exec_issue]
  cases hsum : checkedAdd localBest overlapSwitch with
  | error e =>
    obtain ⟨full, rfl⟩ := checkedAdd_eq_error_iff.mp hsum
    rw [if_neg fun h ↦ Nat.not_lt.mpr full h.1]
    rfl
  | ok switch =>
    have hswitch := checkedAdd_eq_ok_iff.mp hsum
    dsimp only
    rw [Step.exec_bind, exec_pick_of_near near]
    cases hlimit : checkedAdd (max s.localHeight localBest) maxAhead with
    | error e =>
      obtain ⟨full, rfl⟩ := checkedAdd_eq_error_iff.mp hlimit
      rw [if_neg fun h ↦ Nat.not_lt.mpr full h.2]
      rfl
    | ok limit =>
      have hlimit := checkedAdd_eq_ok_iff.mp hlimit
      rw [if_pos ⟨hswitch ▸ switch.toNat_lt, hlimit ▸ limit.toNat_lt⟩]
      rfl

end RequestSchedule

namespace Seat

variable {s : Seat} {now : Millis} {localBest : UInt64} {localTotal : Difficulty}
  {requests : List HeaderRequest}

/-- When a peer advertises a chain lighter than the local one, a pass that would answer visits the
other candidates. -/
theorem exec_headerPass_upsert
    (answers : ((headerPass now localBest localTotal).exec s).1 = .ok requests)
    (near : s.engine.requests.Near localBest)
    {peer : PeerId} {info : PeerInfo} (connected : s.node.registry.peers[peer]? = some info)
    {total : Difficulty} (lighter : total < localTotal) :
    let met := s.engine.meetPeers s.node.registry now
    ((headerPass now localBest localTotal).exec (s.withRegistry
        (s.node.registry.upsert peer { info with totalDifficulty := total }))).1 =
      ((RequestSchedule.visitAll met.modes now
        ((met.requests.candidates s.node.registry localTotal).filter (· ≠ peer))
        (RequestSchedule.nextFirst localBest met.requests.networkHeight)).exec
          (met.requests.raised localBest met.requests.random)).1 := by
  intro met
  have hnear : met.requests.Near localBest := near_meetPeers.mpr near
  rw [(s.exec_headerPass_at now localBest localTotal).1,
    RequestSchedule.exec_issue_of_near hnear] at answers
  have hmet := RequestSchedule.meetPeers_upsert connected total s.engine now
  have hanswer (r : Registry) : ((headerPass now localBest localTotal).exec (s.withRegistry r)).1 =
      ((RequestSchedule.issue r (s.engine.meetPeers r now).modes now localBest localTotal).exec
        (s.engine.meetPeers r now).requests).1 :=
    ((s.withRegistry r).exec_headerPass_at now localBest localTotal).1
  rw [hanswer, hmet.1, hmet.2, RequestSchedule.exec_issue_of_near hnear,
    RequestSchedule.candidates_upsert _ lighter]
  split at answers
  · next fits => rw [if_pos fits]
  · cases answers

/-- A peer that a pass visits in vain, compared with the pass in which the peer advertises a chain
lighter than the local one. Out of the normal mode the other peers are asked for the same. In the
normal mode the peers after it start no lower than the end of its range, and they are asked for the
same exactly when the first of them to be asked in the normal mode is. -/
theorem headerPass_upsert_of_withheld
    (answers : ((headerPass now localBest localTotal).exec s).1 = .ok requests)
    (near : s.engine.requests.Near localBest)
    {v : Visited} (visited : v ∈ s.visits now localBest localTotal) (withheld : v.isAsked = false)
    {info : PeerInfo} (connected : s.node.registry.peers[v.peer]? = some info) {total : Difficulty}
    (lighter : total < localTotal) :
    let lowered := ((headerPass now localBest localTotal).exec (s.withRegistry
      (s.node.registry.upsert v.peer { info with totalDifficulty := total }))).1
    let later := (s.engine.meetPeers s.node.registry now).modes.inNormalAfter v.peer
    (∀ r ∈ requests, r.peer ≠ v.peer) ∧
      (v.mode ≠ .normal → lowered = .ok requests) ∧
      (v.mode = .normal →
        (∀ w ∈ s.visits now localBest localTotal, w.mode = .normal →
          compare v.peer w.peer = .lt → v.beyond ≤ w.first) ∧
        ∀ others, lowered = .ok others →
          (others = requests ↔ others.find? later = requests.find? later)) := by
  intro lowered later
  have hlowered : lowered = _ := exec_headerPass_upsert answers near connected lighter
  obtain ⟨chosen, random, -, hall, tour, hrequests⟩ := exists_tour_of_headerPass answers
  have hchosen := hall near
  subst hchosen
  have hsorted := RequestSchedule.pairwise_candidates
    (s.engine.meetPeers s.node.registry now).requests s.node.registry localTotal
  have distinct := RequestSchedule.nodup_candidates
    (s.engine.meetPeers s.node.registry now).requests s.node.registry localTotal
  have hnot : v.peer ∉ (((s.engine.meetPeers s.node.registry now).requests.candidates
      s.node.registry localTotal).filter (· ≠ v.peer)) := by simp
  -- The choice among the candidates does not matter to the visits.
  have hagree (r r' : ChaCha.Random) : RequestSchedule.AgreeBut v.peer
      ((s.engine.meetPeers s.node.registry now).requests.raised localBest r)
      ((s.engine.meetPeers s.node.registry now).requests.raised localBest r') :=
    ⟨rfl, fun _ _ ↦ rfl⟩
  refine ⟨?_, fun other ↦ ?_, fun normal ↦ ⟨?_, ?_⟩⟩
  · intro r hr he
    rw [hrequests] at hr
    obtain ⟨w, hw, hasked, rfl⟩ := Visited.exists_of_mem_answers hr
    rw [tour.eq_of_peer_eq distinct visited hw he, withheld] at hasked
    cases hasked
  · obtain ⟨vs', t', tour', hanswers⟩ := tour.exists_filter_of_withheld distinct visited withheld
      other
    obtain ⟨u, hu⟩ := tour'.congr (hagree _ (s.engine.meetPeers s.node.registry now).requests.random)
      hnot
    rw [hlowered, hu.exec_visitAll, hrequests, hanswers]
  · exact fun w hw normal' after ↦ tour.beyond_le_first hsorted visited hw normal normal' after
  · intro others hothers
    refine ⟨fun he ↦ by rw [he], fun first ↦ ?_⟩
    obtain ⟨tour', rfl⟩ := RequestSchedule.tour_of_visitAll _ _ _
      (Prod.ext (hlowered.symm.trans hothers) rfl)
    obtain ⟨u, hu⟩ := tour'.congr (hagree _ random) hnot
    rw [hrequests] at first ⊢
    exact tour.eq_of_find?_eq hsorted visited withheld hu first

/-- Two connected peers of which the first one is below the local chain. -/
def behind : Registry :=
  (Registry.empty.upsert (.ofNat 1) ⟨10, 7, "peer-1"⟩).upsert (.ofNat 2) ⟨5000, 7, "peer-2"⟩

/-- The second peer starts no lower than the end of the range of the first one. -/
theorem headerPass_upsert_of_withheld_behind :
    let s := ((genesisSeat exists_genesis.choose).beforeMeeting 1 60000 0).withRegistry behind
    ⟨.ofNat 1, .normal, 17, 40, 10⟩ ∈ s.visits 0 20 1 ∧
      ∀ w ∈ s.visits 0 20 1, w.mode = .normal → compare (.ofNat 1) w.peer = .lt →
        57 ≤ w.first := by
  intro s
  have answers : ((headerPass 0 20 1).exec s).1 = .ok [⟨.ofNat 2, 57, 40⟩] := by decide +kernel
  have near : s.engine.requests.Near 20 := by decide +kernel
  have visited : ⟨.ofNat 1, .normal, 17, 40, 10⟩ ∈ s.visits 0 20 1 := by decide +kernel
  have connected : s.node.registry.peers[PeerId.ofNat 1]? = some ⟨10, 7, "peer-1"⟩ := by
    decide +kernel
  obtain ⟨-, -, hnormal⟩ := headerPass_upsert_of_withheld answers near visited (by decide) connected
    (by decide : (0 : Difficulty) < 1)
  exact ⟨visited, (hnormal rfl).1⟩

/-- A peer that is visited in vain matters to the others: because of it nobody is asked for the
headers from 17 to 56. -/
theorem exists_headerPass_upsert_ne :
    let s := ((genesisSeat exists_genesis.choose).beforeMeeting 1 60000 0).withRegistry behind
    let lowered := s.withRegistry (behind.upsert (.ofNat 1) ⟨10, 0, "peer-1"⟩)
    s.engine.requests.Near 20 ∧
      s.visits 0 20 1 =
        [⟨.ofNat 1, .normal, 17, 40, 10⟩, ⟨.ofNat 2, .normal, 57, 40, 5000⟩] ∧
      ((headerPass 0 20 1).exec s).1 = .ok [⟨.ofNat 2, 57, 40⟩] ∧
      ((headerPass 0 20 1).exec lowered).1 = .ok [⟨.ofNat 2, 17, 40⟩] := by
  decide +kernel

end Seat
end ChainSync
