import ChainSync.Engine.Exchange
import ChainSync.Proofs.Round.Schedule

/-!
# A pass of header requests with a single peer

What a pass does to a seat that is connected to one peer: it changes the schedule, the statistics,
the tracked modes and the outgoing messages only. It ends with one request sent to the peer, or
with none, or it faults for want of heights.
-/

namespace ChainSync

/-! ### Answers that are waited for -/

namespace Stats

/-- When the requests of a kind were sent to a peer that wait for an answer. -/
def waiting (s : Stats) (peer : PeerId) (kind : RequestKind) : List Millis :=
  ((s.counters peer).requests[kind]?.map RequestLog.waiting).getD []

/-- The counters of imported and received blocks of a peer, and its requests, are the same. -/
structure Agrees (peer : PeerId) (s t : Stats) : Prop where
  /-- As many blocks were imported. -/
  imported : (t.counters peer).imported = (s.counters peer).imported
  /-- As many blocks were received. -/
  received : (t.counters peer).received = (s.counters peer).received
  /-- The same requests wait for an answer. -/
  waiting (kind : RequestKind) : t.waiting peer kind = s.waiting peer kind

theorem Agrees.trans {peer : PeerId} {s t u : Stats} (h : Agrees peer s t)
    (h' : Agrees peer t u) : Agrees peer s u :=
  ⟨h'.imported.trans h.imported, h'.received.trans h.received,
    fun kind ↦ (h'.waiting kind).trans (h.waiting kind)⟩

/-- Statistics with the same counters of a peer agree. -/
theorem agrees_of_counters {peer : PeerId} {s t : Stats} (h : t.counters peer = s.counters peer) :
    Agrees peer s t := by
  refine ⟨by rw [h], by rw [h], fun kind ↦ ?_⟩
  rw [waiting, h]
  rfl

theorem counters_retain (s : Stats) {keep : PeerId → Bool} {peer : PeerId}
    (kept : keep peer = true) : (s.retain keep).2.counters peer = s.counters peer := by
  simp only [retain, counters, Std.ExtTreeMap.getElem?_filter', kept]
  cases s.peers[peer]? <;> rfl

/-- A name does not count. -/
theorem agrees_notePeer (s : Stats) (peer other : PeerId) (name : String) :
    Agrees peer s (s.notePeer other name) := by
  have h := s.counters_setCounters other peer { s.counters other with name }
  by_cases hp : other = peer
  · subst hp
    rw [if_pos rfl] at h
    refine ⟨by rw [notePeer, h], by rw [notePeer, h], fun kind ↦ ?_⟩
    rw [waiting, notePeer, h]
    rfl
  · rw [if_neg hp] at h
    exact agrees_of_counters h

/-- A request waits after those before it. -/
theorem waiting_recordRequest {s : Stats} {peer : PeerId} {kind : RequestKind}
    (idle : s.waiting peer kind = []) (now : Millis) :
    (s.recordRequest peer kind now).waiting peer kind = [now] ∧
      ∀ other ≠ kind, (s.recordRequest peer kind now).waiting peer other =
        s.waiting peer other := by
  have hlog : ((s.counters peer).requests[kind]?.getD ⟨0, []⟩).waiting = [] := by
    rw [waiting] at idle
    cases h : (s.counters peer).requests[kind]? with
    | none => rfl
    | some log =>
      rw [h] at idle
      exact idle
  constructor
  · simp [waiting, recordRequest, counters_setCounters, hlog, waitingLimit]
  · intro other hne
    simp [waiting, recordRequest, counters_setCounters, Std.ExtTreeMap.getElem?_insert, hne.symm]

theorem counters_recordRequest (s : Stats) (peer : PeerId) (kind : RequestKind) (now : Millis) :
    ((s.recordRequest peer kind now).counters peer).imported = (s.counters peer).imported ∧
      ((s.recordRequest peer kind now).counters peer).received = (s.counters peer).received := by
  simp [recordRequest, counters_setCounters]

/-- An answer at once to the only request that waits takes no time, and none waits any more. -/
theorem exec_recordResponse {s : Stats} {peer : PeerId} {kind : RequestKind} {now : Millis}
    (sent : s.waiting peer kind = [now]) :
    ∃ t, (recordResponse peer kind now).exec s = (.ok (), t) ∧
      (t.counters peer).imported = (s.counters peer).imported ∧
      (t.counters peer).received = (s.counters peer).received ∧ t.waiting peer kind = [] ∧
      ∀ other ≠ kind, t.waiting peer other = s.waiting peer other := by
  cases hp : s.peers[peer]? with
  | none =>
    rw [waiting, counters, hp] at sent
    simp [PeerCounters.zero] at sent
  | some c =>
    have hc : s.counters peer = c := by rw [counters, hp, Option.getD_some]
    rw [waiting, hc] at sent
    cases hlog : c.requests[kind]? with
    | none =>
      rw [hlog] at sent
      cases sent
    | some log =>
      obtain ⟨count, waits⟩ := log
      rw [hlog] at sent
      obtain rfl : waits = [now] := sent
      have hsum : checkedAdd c.responseMillis (UInt64.ofNat (now - now)) =
          .ok c.responseMillis := by
        rw [Nat.sub_self, checkedAdd_eq_ok_iff]
        rfl
      refine ⟨s.setCounters peer { c with
        requests := c.requests.insert kind ⟨count, []⟩, responses := c.responses + 1 }, ?_, ?_, ?_,
        ?_, ?_⟩
      · unfold recordResponse
        rw [Step.exec_bind_of_ok (Step.exec_get s), hp]
        dsimp only
        rw [hlog]
        simp only [Step.exec_bind, Step.exec_set, Step.exec_lift, hsum]
      · rw [counters_setCounters, if_pos rfl, hc]
      · rw [counters_setCounters, if_pos rfl, hc]
      · simp [waiting, counters_setCounters]
      · intro other hne
        simp [waiting, counters_setCounters, hc, Std.ExtTreeMap.getElem?_insert, hne.symm]

end Stats

namespace ModeTable

theorem mode_track (t : ModeTable) (peer other : PeerId) :
    (t.track other).mode peer = t.mode peer := by
  simp only [mode, track, Std.ExtTreeMap.getElem?_insertIfNew]
  split
  · next h =>
    have he : other = peer := Std.LawfulEqOrd.eq_of_compare h.1
    rw [he] at h
    rw [Std.ExtTreeMap.getElem?_eq_none h.2]
    rfl
  · rfl

theorem mem_track (t : ModeTable) (peer : PeerId) : peer ∈ (t.track peer).modes :=
  Std.ExtTreeMap.mem_insertIfNew.mpr (.inl Std.ReflOrd.compare_self)

end ModeTable

namespace Seat

/-- The parts of a seat that a pass leaves alone are the same, and so is the mode of the peer. -/
structure Beside (peer : PeerId) (s t : Seat) : Prop where
  /-- The chain is the same. -/
  chain : t.node.chain = s.node.chain
  /-- The pending store is the same. -/
  pending : t.node.pending = s.node.pending
  /-- The error set for a later import is the same. -/
  later : t.node.laterFailure = s.node.laterFailure
  /-- The rule for headers is the same. -/
  accepts : t.node.accepts = s.node.accepts
  /-- The same peers are connected. -/
  peers : t.node.registry.peers = s.node.registry.peers
  /-- The same hashes are remembered. -/
  imported : t.engine.imported = s.engine.imported
  /-- The peer is in the same mode. -/
  mode : t.engine.modes.mode peer = s.engine.modes.mode peer
  /-- As many blocks of the peer are counted as imported. -/
  credited : (t.engine.stats.counters peer).imported = (s.engine.stats.counters peer).imported

/-- Nothing is on its way at a seat: no batch, no message and no header waits, every request was
answered, and no peer but one is tracked, which may be asked again once it is due. -/
structure Quiet (peer : PeerId) (due : Millis) (s : Seat) : Prop where
  /-- No batch waits for import. -/
  batches : s.engine.queue.batches = ∅
  /-- At least one may wait before batches are diverted. -/
  preferred : 1 ≤ s.engine.queue.preferredSize
  /-- No message waits for delivery. -/
  outbox : s.node.registry.outbox = []
  /-- The peer is the only one. -/
  lone : s.engine.requests.Lone peer due
  /-- Its mode is tracked with it. -/
  tracked : peer ∈ s.engine.requests.peers → peer ∈ s.engine.modes.modes
  /-- Its requests were answered. -/
  answered (kind : RequestKind) : s.engine.stats.waiting peer kind = []

/-- Around a new engine everything is quiet, whichever hashes it remembers. -/
theorem quiet_new {node : Node} (outbox : node.registry.outbox = []) (peer : PeerId)
    (settings : Settings) (best : UInt64) (inbox : TrieInbox) (imported : RecentSet Digest) :
    Quiet peer 0 ⟨node, { Engine.new settings best inbox with imported }⟩ := by
  refine ⟨rfl, Nat.le_max_right .., outbox, .initial .., ?_, ?_⟩
  · intro h
    simp [Engine.new, RequestSchedule.new] at h
  · intro kind
    simp [Engine.new, Stats.new, Stats.waiting, Stats.counters, PeerCounters.zero]

/-- What the schedule knows of a peer: where its latest request started and how large it was. -/
def Latest (s : Seat) (peer : PeerId) (first : UInt64) (size : UInt32) : Prop :=
  ∃ p, s.engine.requests.peers[peer]? = some p ∧ p.first = first ∧ p.size = size

/-- Where a pass asks a peer for headers that advertises this. -/
def start (s : Seat) (peer : PeerId) (info : PeerInfo) : Nat :=
  (s.engine.requests.seen peer info).nextStart
    (RequestSchedule.nextFirst s.node.chain.bestNumber info.bestNumber)
    (s.engine.modes.mode peer)

/-- A pass asks for headers above the first block only. -/
theorem Quiet.one_le_start {peer : PeerId} {due : Millis} {s : Seat} (quiet : Quiet peer due s)
    (info : PeerInfo) : 1 ≤ s.start peer info := by
  have hfirst := (RequestSchedule.nextFirst_bounds s.node.chain.bestNumber info.bestNumber).1
  have hsize := (quiet.lone.sized_seen info).least
  have hleast : PeerRequests.minSize.toNat = 24 := rfl
  unfold start PeerRequests.nextStart
  split
  · omega
  · omega
  · split <;> omega

/-- How many headers a pass asks a peer for. -/
def ask (s : Seat) (peer : PeerId) (info : PeerInfo) : UInt32 :=
  (s.engine.requests.seen peer info).nextSize

/-- The sums of a pass do not fit: the local chain is too near to the last height, or the range
that is called for is. -/
def Crowded (s : Seat) (peer : PeerId) (info : PeerInfo) : Prop :=
  UInt64.size ≤ s.node.chain.bestNumber.toNat + RequestSchedule.overlapSwitch.toNat ∨
    UInt64.size ≤ (max s.engine.requests.localHeight s.node.chain.bestNumber).toNat +
      RequestSchedule.maxAhead.toNat ∨
    UInt64.size ≤ s.start peer info + (s.ask peer info).toNat

/-- Everything is quiet again after a peer was visited, and so many of its blocks were received. -/
structure Settled (peer : PeerId) (now : Millis) (first : UInt64) (size : UInt32) (got : Nat)
    (s t : Seat) : Prop where
  /-- The chain and what is imported into it are the same. -/
  beside : Beside peer s t
  /-- Everything is quiet. -/
  quiet : Quiet peer (now + PeerRequests.window) t
  /-- The latest request is this one. -/
  latest : t.Latest peer first size
  /-- The local best block is taken into account. -/
  height : t.engine.requests.localHeight =
    max s.engine.requests.localHeight s.node.chain.bestNumber
  /-- No more blocks are counted as received. -/
  received : (t.engine.stats.counters peer).received.toNat ≤
    (s.engine.stats.counters peer).received.toNat + got

/-- The peer was asked, and nothing else is on its way. -/
structure Asking (peer : PeerId) (now : Millis) (first : UInt64) (size : UInt32)
    (s t : Seat) : Prop where
  /-- The chain and what is imported into it are the same. -/
  beside : Beside peer s t
  /-- The request is timed now. -/
  clock : t.node.clock = now
  /-- The same batches wait. -/
  queue : t.engine.queue = s.engine.queue
  /-- The request waits for delivery. -/
  outbox : t.node.registry.outbox = [⟨peer, .requestHeaders first size⟩]
  /-- The peer is the only one. -/
  lone : t.engine.requests.Lone peer (now + PeerRequests.window)
  /-- Its mode is tracked. -/
  tracked : peer ∈ t.engine.modes.modes
  /-- The request waits for its answer. -/
  headers : t.engine.stats.waiting peer .headers = [now]
  /-- No other one does. -/
  others (kind : RequestKind) : kind ≠ .headers → t.engine.stats.waiting peer kind = []
  /-- The latest request is this one. -/
  latest : t.Latest peer first size
  /-- The local best block is taken into account. -/
  height : t.engine.requests.localHeight =
    max s.engine.requests.localHeight s.node.chain.bestNumber
  /-- As many blocks are counted as received. -/
  received : (t.engine.stats.counters peer).received = (s.engine.stats.counters peer).received

/-- How a pass ends at a quiet seat whose only connected peer advertises this. -/
inductive PassEnd (peer : PeerId) (info : PeerInfo) (s : Seat) :
    Except Fault (List HeaderRequest) → Seat → Prop
  /-- A sum does not fit. -/
  | crowded {t : Seat} (crowded : s.Crowded peer info) :
    PassEnd peer info s (.error .additionOverflow) t
  /-- The peer's chain is lighter than the local one. -/
  | light {t : Seat} (light : info.totalDifficulty < s.node.chain.totalDifficulty)
      (settled : Settled peer s.node.clock (s.engine.requests.seen peer info).first
        (s.engine.requests.seen peer info).size 0 s t) :
    PassEnd peer info s (.ok []) t
  /-- The range starts above what the peer advertises. -/
  | withheld {first : UInt64} {t : Seat} (start : first.toNat = s.start peer info)
      (beyond : info.bestNumber < first) (known : info.bestNumber ≠ 0)
      (settled : Settled peer s.node.clock 0 (s.ask peer info) 0 s t) :
    PassEnd peer info s (.ok []) t
  /-- The peer is asked. -/
  | asked {first : UInt64} {t : Seat} (start : first.toNat = s.start peer info)
      (within : first ≤ info.bestNumber ∨ info.bestNumber = 0)
      (asking : Asking peer s.node.clock first (s.ask peer info) s t) :
    PassEnd peer info s (.ok [⟨peer, first, s.ask peer info⟩]) t

/-- The seat before the requests of a pass are issued. -/
def met (s : Seat) : Seat :=
  { s with engine := s.engine.meetPeers s.node.registry s.node.clock }

/-- Meeting the only connected peer leaves its latest request, and once the peer is due it is
available. -/
theorem Quiet.met {peer : PeerId} {due : Millis} {s : Seat} {info : PeerInfo}
    (quiet : Quiet peer due s) (active : s.node.registry.active = [(peer, info)])
    (rested : due ≤ s.node.clock) :
    Beside peer s s.met ∧ s.engine.stats.Agrees peer s.met.engine.stats ∧
      peer ∈ s.met.engine.modes.modes ∧ s.met.engine.requests.Lone peer due ∧
      ∃ p, RequestSchedule.Refreshed peer info s.engine.requests s.met.engine.requests p := by
  obtain ⟨lone, p, refreshed⟩ := quiet.lone.refresh active rested
  have hrequests : s.met.engine.requests =
      s.engine.requests.refresh s.node.registry s.node.clock := lone.pruneHeaders s.node.clock
  have hkept : s.node.registry.peers.contains peer = true := by
    rw [Std.ExtTreeMap.contains_eq_isSome_getElem?, Registry.getElem?_of_active active]
    rfl
  have hretain : s.engine.stats.Agrees peer
      (s.engine.stats.retain fun peer ↦ s.node.registry.peers.contains peer).2 :=
    Stats.agrees_of_counters (s.engine.stats.counters_retain hkept)
  have hparts : s.met.engine.modes.mode peer = s.engine.modes.mode peer ∧
      peer ∈ s.met.engine.modes.modes ∧ s.engine.stats.Agrees peer s.met.engine.stats := by
    simp only [Seat.met, Engine.meetPeers, quiet.lone.departed active, List.foldl_nil,
      RequestSchedule.joining, active]
    by_cases tracked : peer ∈ s.engine.requests.peers
    · have : s.engine.requests.peers.contains peer = true :=
        Std.ExtTreeMap.contains_iff_mem.mpr tracked
      simp only [this, List.filter_cons, List.filter_nil, Bool.not_true, Bool.false_eq_true,
        if_false, List.foldl_nil]
      exact ⟨trivial, quiet.tracked tracked, hretain⟩
    · have : s.engine.requests.peers.contains peer = false := by
        rw [← Bool.not_eq_true, Std.ExtTreeMap.contains_iff_mem]
        exact tracked
      simp only [this, List.filter_cons, List.filter_nil, Bool.not_false, if_true,
        List.foldl_cons, List.foldl_nil]
      exact ⟨ModeTable.mode_track .., ModeTable.mem_track .., hretain.trans
        (Stats.agrees_notePeer ..)⟩
  obtain ⟨hmode, htracked, hstats⟩ := hparts
  rw [hrequests]
  exact ⟨⟨rfl, rfl, rfl, rfl, rfl, rfl, hmode, hstats.imported⟩, hstats, htracked, lone, p,
    refreshed⟩

def withRequests (s : Seat) (requests : RequestSchedule) : Seat :=
  { s with engine := { s.engine with requests } }

/-- A pass issues its requests at the seat that met the connected peers, and sends them. -/
theorem exec_headerPass (s : Seat) (localBest : UInt64) (localTotal : Difficulty) :
    (headerPass s.node.clock localBest localTotal).exec s =
      match (RequestSchedule.issue s.node.registry s.met.engine.modes s.node.clock localBest
        localTotal).exec s.met.engine.requests with
      | (.error e, requests) => (.error e, s.met.withRequests requests)
      | (.ok asked, requests) =>
        (do
          sendHeaderRequests s.node.clock asked
          return asked).exec (s.met.withRequests requests) := by
  have hmet : (onEngine (Engine.meetPeers s.node.registry s.node.clock)).exec s =
      (.ok (), s.met) := rfl
  have hget : requestsPart.get s.met = s.met.engine.requests := rfl
  rw [headerPass, Step.exec_bind_of_ok (Step.exec_get s), Step.exec_bind_of_ok hmet,
    Step.exec_bind_of_ok (Step.exec_get s.met), Step.exec_bind, Step.exec_part, hget]
  cases (RequestSchedule.issue s.node.registry s.met.engine.modes s.node.clock localBest
    localTotal).exec s.met.engine.requests with
  | mk answer requests => cases answer <;> rfl

theorem exec_requestHeaders_of_nil {s : Seat} {requests : RequestSchedule}
    (hissue : (RequestSchedule.issue s.node.registry s.met.engine.modes s.node.clock
      s.node.chain.bestNumber s.node.chain.totalDifficulty).exec s.met.engine.requests =
        (.ok [], requests)) :
    requestHeaders.exec s = (.ok [], (s.met.withRequests requests).withStats
      (s.met.engine.stats.noteNetworkBest requests.networkHeight)) := by
  have hpass := exec_headerPass s s.node.chain.bestNumber s.node.chain.totalDifficulty
  rw [hissue] at hpass
  rw [requestHeaders, Step.exec_bind_of_ok (Step.exec_get s), Step.exec_bind_of_ok hpass]
  rfl

theorem exec_requestHeaders_of_singleton {s : Seat} {requests : RequestSchedule}
    {r : HeaderRequest}
    (hissue : (RequestSchedule.issue s.node.registry s.met.engine.modes s.node.clock
      s.node.chain.bestNumber s.node.chain.totalDifficulty).exec s.met.engine.requests =
        (.ok [r], requests)) :
    requestHeaders.exec s = (.ok [r],
      { node := s.node.send r.peer (.requestHeaders r.first r.count)
        engine := ((s.met.withRequests requests).withStats
          ((s.met.engine.stats.recordRequest r.peer .headers s.node.clock).noteNetworkBest
            requests.networkHeight)).engine }) := by
  have hpass := exec_headerPass s s.node.chain.bestNumber s.node.chain.totalDifficulty
  rw [hissue] at hpass
  rw [requestHeaders, Step.exec_bind_of_ok (Step.exec_get s), Step.exec_bind_of_ok hpass]
  rfl

theorem exec_requestHeaders_of_error {s : Seat} {requests : RequestSchedule} {e : Fault}
    (hissue : (RequestSchedule.issue s.node.registry s.met.engine.modes s.node.clock
      s.node.chain.bestNumber s.node.chain.totalDifficulty).exec s.met.engine.requests =
        (.error e, requests)) :
    requestHeaders.exec s = (.error e, s.met.withRequests requests) := by
  have hpass := exec_headerPass s s.node.chain.bestNumber s.node.chain.totalDifficulty
  rw [hissue] at hpass
  rw [requestHeaders, Step.exec_bind_of_ok (Step.exec_get s), Step.exec_bind_of_error hpass]

private theorem settled_of_nil {peer : PeerId} {due : Millis} {s : Seat}
    (quiet : Quiet peer due s) (beside : Beside peer s s.met)
    (stats : s.engine.stats.Agrees peer s.met.engine.stats)
    (tracked : peer ∈ s.met.engine.modes.modes) {requests : RequestSchedule} {now : Millis}
    (lone : requests.Lone peer (now + PeerRequests.window)) {q : PeerRequests}
    (found : requests.peers[peer]? = some q)
    (height : requests.localHeight =
      max s.engine.requests.localHeight s.node.chain.bestNumber) :
    Settled peer now q.first q.size 0 s ((s.met.withRequests requests).withStats
      (s.met.engine.stats.noteNetworkBest requests.networkHeight)) where
  beside := ⟨rfl, rfl, rfl, rfl, rfl, rfl, beside.mode, stats.imported⟩
  quiet := ⟨quiet.batches, quiet.preferred, quiet.outbox, lone, fun _ ↦ tracked,
    fun kind ↦ (stats.waiting kind).trans (quiet.answered kind)⟩
  latest := ⟨q, found, rfl, rfl⟩
  height := height
  received := Nat.le_of_eq (congrArg UInt64.toNat stats.received)

/-- Every pass at a quiet seat ends in one of the cases. -/
theorem Quiet.passEnd {peer : PeerId} {due : Millis} {s : Seat} {info : PeerInfo}
    (quiet : Quiet peer due s) (active : s.node.registry.active = [(peer, info)])
    (rested : due ≤ s.node.clock) :
    PassEnd peer info s (requestHeaders.exec s).1 (requestHeaders.exec s).2 := by
  obtain ⟨beside, stats, tracked, lone, p, refreshed⟩ := quiet.met active rested
  have hstart (nextFirst : UInt64) (mode : SyncMode) : p.nextStart nextFirst mode =
      (s.engine.requests.seen peer info).nextStart nextFirst mode :=
    refreshed.alike.nextStart nextFirst mode
  have hask : p.nextSize = s.ask peer info := refreshed.alike.nextSize
  have hlast : p.lastBest = info.bestNumber := refreshed.alike.lastBest
  have hheight : max s.met.engine.requests.localHeight s.node.chain.bestNumber =
      max s.engine.requests.localHeight s.node.chain.bestNumber := by
    rw [refreshed.height]
  have ends := refreshed.issueEnd active s.met.engine.modes s.node.clock s.node.chain.bestNumber
    s.node.chain.totalDifficulty
  rw [beside.mode] at ends
  cases hissue : (RequestSchedule.issue s.node.registry s.met.engine.modes s.node.clock
    s.node.chain.bestNumber s.node.chain.totalDifficulty).exec s.met.engine.requests with
  | mk answer requests =>
    rw [hissue] at ends
    dsimp only at ends
    cases ends with
    | full full =>
      rw [exec_requestHeaders_of_error hissue]
      rw [hheight] at full
      exact .crowded (full.imp_right .inl)
    | @light random light =>
      have settled := settled_of_nil quiet beside stats tracked ((lone.mono
        (Nat.le_trans rested (Nat.le_add_right _ PeerRequests.window))).raised _ random)
        refreshed.found hheight
      rw [exec_requestHeaders_of_nil hissue]
      rw [refreshed.alike.first, refreshed.alike.size] at settled
      exact .light light settled
    | @visited random visit _ heavy ends =>
      cases visit with
      | error e =>
        rw [exec_requestHeaders_of_error hissue]
        cases ends with
        | overflow full =>
          rw [hstart, hask] at full
          exact .crowded (.inr (.inr full))
      | ok visit =>
        have lone' := ends.lone (lone.raised _ _) refreshed.found rested
        cases ends with
        | asked start within =>
          rw [exec_requestHeaders_of_singleton hissue, hask]
          rw [hask] at lone'
          rw [hlast] at within
          rw [hstart] at start
          have hidle : s.met.engine.stats.waiting peer .headers = [] :=
            (stats.waiting _).trans (quiet.answered _)
          have hcounts := s.met.engine.stats.counters_recordRequest peer .headers s.node.clock
          have hwaits := Stats.waiting_recordRequest hidle s.node.clock
          refine .asked start within ⟨⟨rfl, rfl, rfl, rfl, rfl, rfl, beside.mode,
            hcounts.1.trans stats.imported⟩, rfl, rfl, ?_, lone', tracked, hwaits.1, ?_, ?_,
            hheight, hcounts.2.trans stats.received⟩
          · exact congrArg (List.cons _) quiet.outbox
          · intro kind hne
            exact (hwaits.2 kind hne).trans ((stats.waiting kind).trans (quiet.answered kind))
          · exact ⟨_, (RequestSchedule.getElem?_withPeer ..).trans (if_pos rfl), rfl, rfl⟩
        | withheld start beyond known =>
          have settled := settled_of_nil quiet beside stats tracked lone'
            ((RequestSchedule.getElem?_withPeer ..).trans (if_pos rfl)) hheight
          rw [exec_requestHeaders_of_nil hissue, hask]
          rw [hlast] at beyond known
          rw [hstart] at start
          rw [hask] at settled
          exact .withheld start beyond known settled

end Seat
end ChainSync
