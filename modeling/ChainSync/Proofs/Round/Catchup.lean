import ChainSync.Proofs.Delivery.Convergence
import ChainSync.Proofs.Round.Serving
import Mathlib.Data.List.Chain

/-!
# Catching up with a peer

A peer serves a line, and the local chain holds it up to a height. While the peer stays in the
normal mode, a round asks it for a range that starts at most one above that height and ends at least
eight above it, or where the line ends, and imports what the range brings. Main statement: after as
many rounds as there are blocks missing the last block of the line is the best one.
-/

namespace ChainSync

/-- An event that leaves the mode of a peer as it is changes it whether the peer is tracked or
not. -/
theorem ModeTable.mode_apply_of_next {t : ModeTable} {peer : PeerId} {event : ImportEvent}
    (same : (t.mode peer).next event = t.mode peer) :
    (t.apply peer event).2.mode peer = t.mode peer := by
  by_cases tracked : peer ∈ t.modes
  · rw [(mode_apply tracked event).1, same]
  · simp only [apply, Std.ExtTreeMap.getElem?_eq_none tracked]

namespace Seat

/-! ### Drains of nothing -/

/-- No range is pending, and none is reported as failing. -/
def Unfiled (s : Seat) : Prop :=
  ∀ level, s.node.pending.load level = (.ok ∅, s.node.pending)

/-- Where no range is pending a drain imports nothing. -/
theorem exec_drain_of_unfiled {s : Seat} (unfiled : s.Unfiled) (peer : PeerId) {level : UInt64} :
    ∀ {d : Drain}, d.lastLevel.toNat + 1 < UInt64.size →
      (drain peer level d).exec s = (.ok d.drained, s) := by
  -- By induction on the number of levels that are left up to the last height.
  induction hn : UInt64.size - level.toNat using Nat.strongRecOn generalizing level with
  | ind n ih =>
    intro d room
    have hlevel : (drainLevel peer level d).exec s = (.ok (true, { d with settled := [] }), s) := by
      have hload : (loadPending level).exec s = (.ok (.ok ∅), s) := by
        simp only [loadPending, Step.exec_update, unfiled level]
      have hnil : (∅ : PendingQueues).toList = [] := by
        simp
      rw [drainLevel, ImportSite.drainLevel, importSite_run, Step.exec_bind_of_ok hload]
      dsimp only
      rw [hnil]
      rfl
    rw [exec_drain]
    split
    · rfl
    · next hlast =>
      have hle := UInt64.le_iff_toNat_le.mp (UInt64.not_lt.mp hlast)
      have hone : (1 : UInt64).toNat = 1 := rfl
      obtain ⟨next, hnext⟩ : ∃ next, checkedAdd level 1 = .ok next :=
        ⟨_, isOk_checkedAdd_iff.mpr (by omega)⟩
      have hsucc := checkedAdd_eq_ok_iff.mp hnext
      rw [hlevel]
      dsimp only
      rw [hnext]
      exact ih (UInt64.size - next.toNat) (by omega) rfl room

/-! ### One batch -/

/-- The line is held up to a height and nothing else is stored, remembered or pending, and the peer
is in the normal mode. -/
structure Grounded (c : Nat → Block) (top : Nat) (peer : PeerId) (height : Nat) (s : Seat) :
    Prop where
  /-- No error is set for a later import. -/
  ready : Ready s
  /-- The chain stores the line up to the height. -/
  stores : StoresTo c height s.node.chain
  /-- The height is one of the line. -/
  le_top : height ≤ top
  /-- No range is pending. -/
  unfiled : s.Unfiled
  /-- Every remembered hash is stored. -/
  cache {h : Digest} : h ∈ s.engine.imported.keys → ∃ i ≤ height, h = (c i).hash
  /-- The peer is credited with no more blocks than are stored. -/
  credited : (s.engine.stats.counters peer).imported.toNat ≤ height
  /-- The peer is in the normal mode. -/
  normal : s.engine.modes.mode peer = .normal

namespace Grounded

variable {c : Nat → Block} {top height : Nat} {peer : PeerId} {s t : Seat}

theorem of_beside (grounded : Grounded c top peer height s) (beside : Beside peer s t) :
    Grounded c top peer height t where
  ready := ⟨beside.later.trans grounded.ready.later, by
    rw [beside.chain]
    exact grounded.ready.chain⟩
  stores := by
    rw [beside.chain]
    exact grounded.stores
  le_top := grounded.le_top
  unfiled level := by
    rw [beside.pending]
    exact grounded.unfiled level
  cache h := grounded.cache (beside.imported ▸ h)
  credited := by
    rw [beside.credited]
    exact grounded.credited
  normal := beside.mode.trans grounded.normal

theorem noted (grounded : Grounded c top peer height s) : Grounded c top peer height s.noted :=
  ⟨⟨grounded.ready.later, grounded.ready.chain⟩, grounded.stores, grounded.le_top,
    grounded.unfiled, grounded.cache, grounded.credited, grounded.normal⟩

/-- An event that a peer in the normal mode stays in it after keeps everything. -/
theorem moved (grounded : Grounded c top peer height s) {event : ImportEvent}
    (normal : SyncMode.normal.next event = .normal) :
    Grounded c top peer height (s.moved peer event) := by
  refine ⟨⟨grounded.ready.later, grounded.ready.chain⟩, grounded.stores, grounded.le_top,
    grounded.unfiled, grounded.cache, grounded.credited, ?_⟩
  have := grounded.normal
  rw [← this]
  exact ModeTable.mode_apply_of_next (by rw [this, normal])

/-- Blocks above the height are not remembered. -/
theorem contains_eq_false (line : Line c top) (grounded : Grounded c top peer height s) {i : Nat}
    (hlow : height < i) (hi : i ≤ top) : s.engine.imported.contains (c i).hash = false := by
  rw [RecentSet.contains, List.contains_eq_mem, decide_eq_false_iff_not]
  intro hmem
  obtain ⟨j, hj, hhash⟩ := grounded.cache hmem
  have := line.hash_inj hi (by omega) hhash
  omega

theorem remembered (grounded : Grounded c top peer height s) {hash : Digest} {number : UInt64}
    (known : s.node.chain.isStored hash number = true) :
    Grounded c top peer height (s.withImported (s.engine.imported.insertAll [hash])) := by
  refine ⟨⟨grounded.ready.later, grounded.ready.chain⟩, grounded.stores, grounded.le_top,
    grounded.unfiled, ?_, grounded.credited, grounded.normal⟩
  intro h hh
  rcases RecentSet.mem_of_mem_insertAll [hash] hh with hh | hh
  · exact grounded.cache hh
  · obtain rfl := List.mem_singleton.mp hh
    exact grounded.stores.exists_of_isStored known

theorem linked (grounded : Grounded c top peer height s) {height' : Nat} {chain : Chain}
    {imported : List Digest} {blocks : List Block} {outcome : ImportOutcome}
    (links : s.Links blocks imported outcome chain) (stores : StoresTo c height' chain)
    (hcount : height + imported.length = height') (htop : height' ≤ top) (room : top < UInt64.size)
    (hmem : ∀ h ∈ imported, ∃ i ≤ height', h = (c i).hash) :
    s.Counts peer imported ∧ Grounded c top peer height' (s.linked peer chain imported) := by
  have hlen : (UInt64.ofNat imported.length).toNat = imported.length :=
    UInt64.toNat_ofNat_of_lt' (by omega)
  have hcredited := grounded.credited
  have counts : s.Counts peer imported := by
    rw [Counts, hlen]
    omega
  obtain ⟨stats, hstats, hcounters⟩ := Stats.exec_recordImported counts
  have hlinked : (s.linked peer chain imported).engine.stats = stats := by
    change ((Stats.recordImported peer _).exec s.engine.stats).2 = stats
    rw [hstats]
  have hframe := (Chain.importBlocks_frame blocks .exist s.node.chain).1
  rw [links] at hframe
  refine ⟨counts, ⟨grounded.ready.later, hframe.trans grounded.ready.chain⟩, stores, htop,
    grounded.unfiled, ?_, ?_, grounded.normal⟩
  · intro h hh
    rcases RecentSet.mem_of_mem_insertAll imported hh with hh | hh
    · obtain ⟨i, hi, hhash⟩ := grounded.cache hh
      exact ⟨i, by omega, hhash⟩
    · exact hmem h hh
  · rw [hlinked, (hcounters peer).2, if_pos rfl, hlen]
    omega

/-- The last block of a range that is not remembered is the end of the range or of the line, if that
is above the height. -/
theorem getLast?_lacking (line : Line c top) (grounded : Grounded c top peer height s)
    (first count : Nat) (hfirst : first ≤ height + 1)
    (hlow : height < min top (first + count - 1)) :
    (lacking c top s.engine.imported first count).getLast? =
      some (min top (first + count - 1)) := by
  obtain ⟨n, hn⟩ : ∃ n, min count (top + 1 - first) = n + 1 :=
    ⟨min count (top + 1 - first) - 1, by omega⟩
  have hend : min top (first + count - 1) = first + n := by omega
  have hnew := grounded.contains_eq_false line hlow (Nat.min_le_left ..)
  rw [hend] at hnew ⊢
  simp [lacking, hn, List.range'_1_concat, hnew]

/-- Linking the blocks of a range that starts at most one above the height and are not remembered
stores the line up to the end of the range or of the line. -/
theorem exists_links (line : Line c top) (grounded : Grounded c top peer height s)
    {first : Nat} (hfirst : first ≤ height + 1) (count : Nat) :
    ∃ imported outcome chain,
      s.Links (s.wanted ((lacking c top s.engine.imported first count).map c)) imported outcome
        chain ∧
      outcome.isStored = true ∧ s.Counts peer imported ∧
      Grounded c top peer (max height (min top (first + count - 1)))
        (s.linked peer chain imported) := by
  have hroom := line.room
  have htop := grounded.le_top
  obtain ⟨hclimbs, hreach⟩ := climbs_filter_range'
    (fun i ↦ !s.engine.imported.contains (c i).hash) (min count (top + 1 - first)) hfirst (by
      intro j hlow hj
      rw [grounded.contains_eq_false line hlow (by omega)]
      rfl)
  change Climbs height (lacking c top s.engine.imported first count) at hclimbs
  change (lacking c top s.engine.imported first count).foldl max height = _ at hreach
  obtain ⟨imported, outcome, chain, hrun, hstored, stores, hcount, hmem⟩ :=
    exists_importBlocks_of_climbs line _ .exist grounded.stores
      (fun j hj ↦ (mem_lacking.mp hj).2.2.1) hclimbs rfl
  have hmax : (lacking c top s.engine.imported first count).foldl max height =
      max height (min top (first + count - 1)) := by
    rw [hreach]
    omega
  rw [hmax] at stores hcount hmem
  have links : s.Links (s.wanted ((lacking c top s.engine.imported first count).map c)) imported
      outcome chain := by
    rw [wanted_lacking grounded.stores.unpruned]
    exact hrun
  obtain ⟨counts, grounded'⟩ := grounded.linked links stores hcount (by omega) (by omega) hmem
  exact ⟨imported, outcome, chain, links, hstored, counts, grounded'⟩

/-- However the import of these blocks ends, it answers and stores the line up to there. -/
theorem batchEnd (line : Line c top) (grounded : Grounded c top peer height s) (name : String)
    {first count : Nat} (hfirst : first ≤ height + 1)
    (nonempty : lacking c top s.engine.imported first count ≠ []) {answer : Except Fault Unit}
    {u : Seat} (ends : BatchEnd ⟨peer, name, (lacking c top s.engine.imported first count).map c⟩ s
      answer u) :
    answer = .ok () ∧ Retains s u ∧
      Grounded c top peer (max height (min top (first + count - 1))) u := by
  have hroom := line.room
  have htop := grounded.le_top
  have hwanted := wanted_lacking grounded.stores.unpruned c top first count
  obtain ⟨imported, outcome, chain, links, hstored, counts, grounded'⟩ :=
    grounded.exists_links line hfirst count
  have hbest : chain.bestNumber.toNat ≤ top := by
    have hblock : chain.bestBlock = c (max height (min top (first + count - 1))) :=
      grounded'.stores.bestBlock
    rw [Chain.bestNumber, hblock, line.toNat_number grounded'.le_top]
    exact grounded'.le_top
  have hlast {last : Block} (tip : (s.wanted ((lacking c top s.engine.imported first count).map
      c)).getLast? = some last) : last.number.toNat ≤ top := by
    rw [hwanted] at tip
    obtain ⟨j, hj, rfl⟩ := List.mem_map.mp (List.mem_of_getLast? tip)
    have hj := (mem_lacking.mp hj).2.2.1
    rw [line.toNat_number hj]
    exact hj
  cases ends with
  | nothing empty =>
    rw [hwanted, List.map_eq_nil_iff] at empty
    exact absurd empty nonempty
  | @skipped last tip mode known =>
    -- The last block is stored, so the range ends where the line is held already.
    rw [hwanted, List.getLast?_map] at tip
    have hlow : min top (first + count - 1) ≤ height := by
      by_contra hhigh
      rw [grounded.getLast?_lacking line first count hfirst (by omega)] at tip
      cases tip
      obtain ⟨j, hj, hhash⟩ := grounded.stores.exists_of_isStored known
      have := line.hash_inj (Nat.min_le_left ..) (by omega) hhash
      omega
    rw [Nat.max_eq_left hlow]
    exact ⟨rfl, ((Retains.refl s).withImported _).moved .., (grounded.remembered known).moved rfl⟩
  | noHeight _ runs =>
    rw [links] at runs
    cases runs
  | uncounted _ links' full =>
    rw [Links, links] at links'
    cases links'
    exact absurd counts full
  | unfiled _ links' _ _ =>
    rw [Links, links] at links'
    cases links'
    cases hstored
  | noSalvage _ _ _ _ full =>
    rw [Chain.bestNumber, grounded.stores.bestBlock, line.toNat_number htop] at full
    omega
  | refused _ links' _ _ unstored =>
    rw [Links, links] at links'
    cases links'
    rw [hstored] at unstored
    cases unstored
  | noLevel _ tip links' _ _ full =>
    rw [Links, links] at links'
    cases links'
    have := hlast tip
    omega
  | @drained _ _ _ bottom last level answer _ _ _ tip links' _ _ above drains =>
    rw [Links, links] at links'
    cases links'
    have := hlast tip
    have hnormal : SyncMode.normal.next (.connected outcome (s.salvageable bottom)) = .normal := by
      cases outcome <;> first | rfl | cases hstored
    have grounded'' := grounded'.moved hnormal
    have hlevel : (⟨level, 0, []⟩ : Drain).lastLevel.toNat + 1 < UInt64.size := by
      change level.toNat + 1 < _
      omega
    rw [exec_drain_of_unfiled grounded''.unfiled peer hlevel] at drains
    cases drains
    exact ⟨rfl, ((Retains.refl s).linked ..).moved .., grounded''⟩

/-- The blocks of a range that starts at most one above the height and are not remembered, if there
are any, are imported up to the end of the range or of the line. -/
theorem processBatch (line : Line c top) (grounded : Grounded c top peer height s)
    (name : String) {first count : Nat} (hfirst : first ≤ height + 1)
    (nonempty : lacking c top s.engine.imported first count ≠ []) :
    ∃ report t, (Seat.processBatch ⟨peer, name,
        (lacking c top s.engine.imported first count).map c⟩).exec s = (.ok report, t) ∧
      Retains s t ∧ Grounded c top peer (max height (min top (first + count - 1))) t := by
  obtain ⟨_, _, _, links, hstored, -⟩ := grounded.exists_links line hfirst count
  obtain ⟨answer, u, ends, hanswer, hleft⟩ := batchEnd_processBatch_of_ready grounded.ready
    ⟨peer, name, (lacking c top s.engine.imported first count).map c⟩ (by
      intro imported' c' links'
      rw [Links, links] at links'
      cases links'
      cases hstored)
  obtain ⟨rfl, kept, grounded'⟩ := grounded.batchEnd line name hfirst nonempty ends
  cases hrun : (Seat.processBatch ⟨peer, name,
      (lacking c top s.engine.imported first count).map c⟩).exec s with
  | mk r v =>
    rw [hrun] at hanswer hleft
    cases r with
    | error e => cases hanswer
    | ok report =>
      change v = u.noted at hleft
      subst hleft
      exact ⟨report, _, rfl, kept.noted, grounded'.noted⟩

end Grounded

/-! ### One round -/

/-- Rounds with a peer that serves a line go on from here: the line is held up to a height, and as
long as that is not the end of it the latest request started well below. -/
structure Climbing (c : Nat → Block) (top : Nat) (peer : PeerId) (name : String) (due : Millis)
    (height count : Nat) (s : Seat) : Prop where
  /-- Everything is quiet. -/
  quiet : Quiet peer due s
  /-- The line is held up to the height. -/
  grounded : Grounded c top peer height s
  /-- The peer is the only one that is connected. -/
  active : s.node.registry.active = [(peer, advertised c top name)]
  /-- The headers of the line are accepted. -/
  welcome : Remote.Welcome c top s.node.accepts
  /-- No more blocks than this are counted as received. -/
  received : (s.engine.stats.counters peer).received.toNat ≤ count
  /-- The local chain never was above the line. -/
  highest : s.engine.requests.localHeight.toNat ≤ top
  /-- The next request will not start where the latest one did. -/
  behind {p : PeerRequests} : height < top → s.engine.requests.peers[peer]? = some p →
    p.first.toNat + 23 ≤ height

namespace Climbing

variable {c : Nat → Block} {top height count : Nat} {peer : PeerId} {name : String}
  {due now : Millis} {s t : Seat}

theorem toNat_bestNumber (line : Line c top)
    (climbing : Climbing c top peer name due height count s) :
    s.node.chain.bestNumber.toNat = height := by
  rw [Chain.bestNumber, climbing.grounded.stores.bestBlock,
    line.toNat_number climbing.grounded.le_top]

/-- A request is for twenty-four headers at least and for forty at most. -/
theorem ask_bounds (climbing : Climbing c top peer name due height count s) (info : PeerInfo) :
    24 ≤ (s.ask peer info).toNat ∧ (s.ask peer info).toNat ≤ 40 :=
  (climbing.quiet.lone.sized_seen info).nextSize

/-- A request starts not far above the line. -/
theorem start_le (line : Line c top) (climbing : Climbing c top peer name due height count s)
    (info : PeerInfo) : s.start peer info ≤ top + 41 := by
  have hbounds := RequestSchedule.nextFirst_bounds s.node.chain.bestNumber info.bestNumber
  rw [climbing.toNat_bestNumber line] at hbounds
  have hsize := (climbing.quiet.lone.sized_seen info).greatest
  have hforty : PeerRequests.maxSize.toNat = 40 := rfl
  have hle := climbing.grounded.le_top
  rw [Seat.start, climbing.grounded.normal, PeerRequests.nextStart]
  split <;> omega

/-- As long as blocks are missing a request starts at most one above the local best block, and not
far below it. -/
theorem start_bounds (line : Line c top) (climbing : Climbing c top peer name due height count s)
    (info : PeerInfo) (hlow : height < top) :
    1 ≤ s.start peer info ∧ s.start peer info ≤ max (height - 3) 1 ∧
      height ≤ s.start peer info + 15 := by
  have hbounds := RequestSchedule.nextFirst_bounds s.node.chain.bestNumber info.bestNumber
  rw [climbing.toNat_bestNumber line] at hbounds
  have hother : (s.engine.requests.seen peer info).first ≠
      RequestSchedule.nextFirst s.node.chain.bestNumber info.bestNumber := by
    intro he
    rw [← he] at hbounds
    unfold RequestSchedule.seen at hbounds
    cases hp : s.engine.requests.peers[peer]? with
    | none =>
      rw [hp] at hbounds
      have hzero : (PeerRequests.new info).first.toNat = 0 := rfl
      rw [Option.getD_none, hzero] at hbounds
      omega
    | some p =>
      rw [hp, Option.getD_some] at hbounds
      have := climbing.behind hlow hp
      omega
  rw [Seat.start, climbing.grounded.normal, PeerRequests.nextStart, if_neg hother]
  exact hbounds

/-- After a round that left the line held up to a height, rounds go on from there. -/
theorem next (line : Line c top) (climbing : Climbing c top peer name due height count s)
    {first : UInt64} {size : UInt32} {got : Nat} (settled : Settled peer now first size got s t)
    (hgot : got ≤ 40) {u : Seat} (kept : Retains t u) {height' : Nat}
    (grounded : Grounded c top peer height' u)
    (behind : height' < top → first.toNat + 23 ≤ height') :
    Climbing c top peer name (now + PeerRequests.window) height' (count + 40) u where
  quiet := settled.quiet.of_retains kept
  grounded := grounded
  active := by
    rw [kept.registry, Registry.active, settled.beside.peers]
    exact climbing.active
  welcome := by
    rw [kept.accepts, settled.beside.accepts]
    exact climbing.welcome
  received := by
    have := settled.received
    have := climbing.received
    rw [kept.received]
    omega
  highest := by
    have := climbing.highest
    have := climbing.grounded.le_top
    rw [kept.schedule, settled.height, toNat_max, climbing.toNat_bestNumber line]
    omega
  behind := by
    intro p hlow hp
    obtain ⟨q, hq, hfirst, -⟩ := settled.latest
    rw [kept.schedule, hq] at hp
    cases hp
    rw [hfirst]
    exact behind hlow

/-- The sums of a pass fit. -/
theorem not_crowded (line : Line c top) (room : top + RequestSchedule.maxAhead.toNat < UInt64.size)
    (climbing : Climbing c top peer name due height count s) (info : PeerInfo) :
    ¬ s.Crowded peer info := by
  have hahead : RequestSchedule.maxAhead.toNat = 10000 := rfl
  have hswitch : RequestSchedule.overlapSwitch.toNat = 128 := rfl
  have hstart := climbing.start_le line info
  have hask := climbing.ask_bounds info
  have hle := climbing.grounded.le_top
  have hhighest := climbing.highest
  rw [Crowded, toNat_max, climbing.toNat_bestNumber line]
  omega

/-- A round with the peer gets at least one block further, or to the end of the line. -/
theorem round (line : Line c top) (room : top + RequestSchedule.maxAhead.toNat < UInt64.size)
    (climbing : Climbing c top peer name due height count s) (rested : due ≤ now)
    (hcount : count + 40 < UInt64.size) :
    ∃ height' t, (Seat.round (.serving c top) now).exec s = (.ok (), t) ∧
      min top (height + 1) ≤ height' ∧
      Climbing c top peer name (now + PeerRequests.window) height' (count + 40) t := by
  have ends := climbing.quiet.roundEnd climbing.active rested (.serving c top)
  have hroom := line.room
  have hle := climbing.grounded.le_top
  have hask := climbing.ask_bounds (advertised c top name)
  have hadvertised : (advertised c top name).bestNumber.toNat = top :=
    line.toNat_number (Nat.le_refl top)
  have hbounds := climbing.start_bounds line (advertised c top name)
  have hone := climbing.quiet.one_le_start (advertised c top name)
  have hfetch {first : UInt64} (start : first.toNat = s.start peer (advertised c top name)) :=
    Remote.fetch_serving line climbing.welcome s.engine.imported peer (start ▸ hone)
      (s.ask peer (advertised c top name)) now
  have hsize (imported : RecentSet Digest) (first : UInt64) (sender : String) :
      (⟨peer, sender, (lacking c top imported first.toNat
        (s.ask peer (advertised c top name)).toNat).map c⟩ : BlockBatch).size ≤ 40 := by
    rw [BlockBatch.size, List.length_map]
    exact Nat.le_trans (length_lacking_le ..) hask.2
  -- Where no block is missing nothing can go wrong.
  have hdone {first : UInt64} {size : UInt32} {t : Seat} (hend : top ≤ height)
      (settled : Settled peer now first size 0 s t) :
      min top (height + 1) ≤ height ∧
        Climbing c top peer name (now + PeerRequests.window) height (count + 40) t :=
    ⟨by omega, climbing.next line settled (by omega) (.refl t)
      (climbing.grounded.of_beside settled.beside) (by omega)⟩
  cases hrun : (Seat.round (.serving c top) now).exec s with
  | mk answer t =>
    rw [hrun] at ends
    dsimp only at ends
    cases ends with
    | crowded crowded => exact absurd crowded (climbing.not_crowded line room _)
    | light light settled =>
      rw [climbing.grounded.stores.totalDifficulty, advertised, BitVec.lt_def,
        line.toNat_weight hle, line.toNat_weight (Nat.le_refl top)] at light
      have := Line.weight_le c hle
      omega
    | @withheld first _ start beyond known settled =>
      have hbeyond := UInt64.lt_iff_toNat_lt.mp beyond
      exact ⟨height, t, rfl, hdone (by omega) settled⟩
    | unlinked start _ fetch =>
      rw [hfetch start] at fetch
      cases fetch
    | @missed first _ start _ fetch settled =>
      refine ⟨height, t, rfl, hdone ?_ settled⟩
      rw [hfetch start] at fetch
      split at fetch
      · next hnil =>
        by_contra hlow
        have hlow : height < top := by omega
        have hlast := climbing.grounded.getLast?_lacking line first.toNat
          (s.ask peer (advertised c top name)).toNat (by omega) (by omega)
        rw [hnil] at hlast
        cases hlast
      · cases fetch
    | @uncounted first batch _ start _ fetch full =>
      rw [hfetch start] at fetch
      split at fetch
      · cases fetch
      · cases fetch
        have := Nat.le_trans (toNat_ofNat_le _)
          (hsize s.engine.imported first ((Remote.serving c top).nameOf peer))
        have := climbing.received
        omega
    | @imported first batch answer t₁ _ start _ fetch settled run =>
      rw [hfetch start] at fetch
      split at fetch
      · cases fetch
      · next hnonempty =>
        cases fetch
        have hfirst : first.toNat ≤ height + 1 := by
          by_cases hlow : height < top
          · have := hbounds hlow
            omega
          · obtain ⟨i, hi⟩ := List.exists_mem_of_ne_nil _ hnonempty
            have hi := mem_lacking.mp hi
            omega
        have grounded := climbing.grounded.of_beside settled.beside
        rw [← settled.beside.imported] at run hnonempty
        obtain ⟨report, t', hrun', kept, grounded'⟩ :=
          grounded.processBatch line _ hfirst hnonempty
        rw [hrun'] at run
        cases run
        refine ⟨_, _, rfl, ?_, climbing.next line settled (hsize ..) kept grounded' ?_⟩
        · by_cases hlow : height < top
          · have := hbounds hlow
            omega
          · omega
        · intro hlow
          omega

/-- Every round gets at least one block further, or to the end of the line. -/
theorem rounds (line : Line c top) (room : top + RequestSchedule.maxAhead.toNat < UInt64.size)
    (times : List Millis) :
    ∀ {due : Millis} {height count : Nat} {s : Seat},
      Climbing c top peer name due height count s → (∀ now ∈ times.head?, due ≤ now) →
      times.IsChain (fun now next ↦ now + PeerRequests.window ≤ next) →
      count + 40 * times.length < UInt64.size →
      ∃ due' height' count' t, (Seat.rounds (.serving c top) times).exec s = (.ok (), t) ∧
        min top (height + times.length) ≤ height' ∧
        Climbing c top peer name due' height' count' t := by
  induction times with
  | nil =>
    intro due height count s climbing _ _ _
    exact ⟨due, height, count, s, rfl, Nat.min_le_right .., climbing⟩
  | cons now rest ih =>
    intro due height count s climbing rested spaced hcount
    rw [List.length_cons] at hcount
    obtain ⟨height₁, t₁, hrun, hfurther, climbing₁⟩ :=
      climbing.round line room (rested now rfl) (by omega)
    obtain ⟨hnext, hspaced⟩ := List.isChain_cons.mp spaced
    obtain ⟨due', height', count', t, hrest, hfurther', climbing'⟩ :=
      ih climbing₁ hnext hspaced (by omega)
    refine ⟨due', height', count', t, ?_, ?_, climbing'⟩
    · rw [Seat.rounds, Step.exec_bind_of_ok hrun, hrest]
    · rw [List.length_cons]
      omega

end Climbing

/-- A node stores a line up to a height and has no range pending, and its only peer serves the line
and advertises it. With a new engine, whichever stored hashes that remembers, rounds at least a
second apart end without a fault, and after as many as there are blocks missing the last block of
the line is the best and no batch waits. -/
theorem exists_rounds_catchUp {c : Nat → Block} {top height : Nat} (line : Line c top)
    (hle : height ≤ top) {node : Node} (stores : StoresTo c height node.chain)
    (unset : node.chain.nextFailure = none) (later : node.laterFailure = none)
    (unfiled : ∀ level, node.pending.load level = (.ok ∅, node.pending)) {peer : PeerId}
    {name : String} (active : node.registry.active = [(peer, advertised c top name)])
    (outbox : node.registry.outbox = []) (welcome : Remote.Welcome c top node.accepts)
    {imported : RecentSet Digest} (cache : ∀ h ∈ imported.keys, ∃ i ≤ height, h = (c i).hash)
    (settings : Settings) (inbox : TrieInbox)
    (room : top + RequestSchedule.maxAhead.toNat < UInt64.size) {times : List Millis}
    (spaced : times.IsChain fun now next ↦ now + PeerRequests.window ≤ next)
    (hcount : 40 * times.length < UInt64.size) (enough : top ≤ height + times.length) :
    ∃ t, (rounds (.serving c top) times).exec
        ⟨node, { Engine.new settings node.chain.bestNumber inbox with imported }⟩ = (.ok (), t) ∧
      t.node.chain.best = (c top).hash ∧ t.node.chain.bestBlock = c top ∧
      t.engine.queue.batches = ∅ := by
  have hcounters : ((Engine.new settings node.chain.bestNumber inbox).stats.counters peer) =
      .zero := by
    simp [Engine.new, Stats.new, Stats.counters]
  have quiet := quiet_new outbox peer settings node.chain.bestNumber inbox imported
  have grounded : Grounded c top peer height
      ⟨node, { Engine.new settings node.chain.bestNumber inbox with imported }⟩ := by
    refine ⟨⟨later, unset⟩, stores, hle, unfiled, fun {h} ↦ cache h, ?_, ?_⟩
    · rw [hcounters]
      exact Nat.zero_le _
    · simp [Engine.new, ModeTable.empty, ModeTable.mode]
  have climbing : Climbing c top peer name 0 height 0
      ⟨node, { Engine.new settings node.chain.bestNumber inbox with imported }⟩ := by
    refine ⟨quiet, grounded, active, welcome, ?_, Nat.zero_le _, ?_⟩
    · rw [hcounters]
      exact Nat.le_refl 0
    · intro p _ hp
      simp [Engine.new, RequestSchedule.new] at hp
  obtain ⟨due, height', count, t, hrun, hfurther, climbing'⟩ :=
    climbing.rounds line room times (fun now _ ↦ Nat.zero_le now) spaced (by omega)
  have hle' := climbing'.grounded.le_top
  obtain rfl : height' = top := by omega
  exact ⟨t, hrun, climbing'.grounded.stores.best, climbing'.grounded.stores.bestBlock,
    climbing'.quiet.batches⟩

/-- The node of a new chain of the first block of a line, to which one peer is connected. -/
def plainNode (chain : Chain) : Node :=
  { Node.new chain .inMemory Header.isAcceptable with
    registry := Registry.empty.upsert (.ofNat 1) (advertised plain 2 "peer-1") }

/-- The two blocks above the first one are imported in two rounds. -/
theorem exists_rounds_catchUp_plain :
    ∃ chain t, Chain.new (plain 0) = .ok chain ∧
      (rounds (.serving plain 2) [0, 1000]).exec
        ⟨plainNode chain, { Engine.new {} (plainNode chain).chain.bestNumber .opened with
          imported := .empty 1 }⟩ = (.ok (), t) ∧
      t.node.chain.bestBlock = plain 2 := by
  obtain ⟨chain, hnew, stores, hcalm⟩ := exists_new_storesTo line_plain
  have stores' : StoresTo plain 0 (plainNode chain).chain := stores
  have unfiled (level : UInt64) :
      (plainNode chain).pending.load level = (.ok ∅, (plainNode chain).pending) := by
    simp [plainNode, Node.new, PendingStore.inMemory, PendingStore.load, PendingStore.takeFailure,
      PendingIndex.load, PendingIndex.empty]
  have active : (plainNode chain).registry.active =
      [(.ofNat 1, advertised plain 2 "peer-1")] := rfl
  have welcome : Remote.Welcome plain 2 (plainNode chain).accepts := by
    intro i hlow hi
    obtain ⟨j, rfl⟩ : ∃ j, i = j + 1 := ⟨i - 1, by omega⟩
    have hnumber := (line_plain.follows hi).number
    have habove : 0 < (plain (j + 1)).header.number := UInt64.lt_iff_toNat_lt.mpr (by
      change 0 < (plain (j + 1)).number.toNat
      omega)
    exact Bool.and_eq_true_iff.mpr ⟨decide_eq_true habove, (line_plain.follows hi).isSealed⟩
  have cache : ∀ h ∈ (RecentSet.empty 1 : RecentSet Digest).keys, ∃ i ≤ 0, h = (plain i).hash :=
    fun h hh ↦ absurd hh List.not_mem_nil
  have spaced : ([0, 1000] : List Millis).IsChain
      fun now next ↦ now + PeerRequests.window ≤ next := by
    simp [PeerRequests.window]
  obtain ⟨t, hrun, -, hbest, -⟩ := exists_rounds_catchUp line_plain (Nat.zero_le 2) stores' hcalm
    rfl unfiled active rfl welcome cache {} .opened (by decide) spaced (by decide) (by decide)
  exact ⟨chain, t, hnew, hrun, hbest⟩

end Seat
end ChainSync
