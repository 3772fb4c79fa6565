import ChainSync.Proofs.Delivery.Steps
import ChainSync.Proofs.Import.Frame
import ChainSync.Proofs.Round.Pass
import ChainSync.Task.Remote

/-!
# Rounds with a single peer

A round is a pass of header requests, the answers to it, and the import of what they brought: the
headers that were asked for, the bodies of those that are still wanted, and the batches that they
make until none waits. Main statement: from a quiet seat every round faults, or comes to a quiet
seat again, or comes to one and imports at most one batch there.
-/

namespace ChainSync

namespace Remote

/-- The batch that a peer's answers make to a request for headers and to the request for their
bodies, if there is anything to import. -/
def fetch (r : Remote) (accepts : Header → Bool) (imported : RecentSet Digest) (peer : PeerId)
    (first : UInt64) (count : UInt32) (now : Millis) : Except Fault (Option BlockBatch) := do
  match ← HeaderBatch.screen accepts imported
    ⟨peer, r.nameOf peer, (r.upFrom count.toNat first).map Block.header, now⟩ with
  | none => return none
  | some headers =>
    return headers.assemble (((headers.headers.map Header.hash).filterMap r.block?).map Block.body)

end Remote

namespace Seat

def takeMessages : Step Seat (List Outbound) :=
  Step.update fun s ↦
    let (sent, registry) := s.node.registry.drain
    (sent, { s with node := { s.node with registry } })

/-- Answers a request for headers or for bodies from the blocks of a network. -/
def serve (r : Remote) (sent : Outbound) : Step Seat Unit :=
  match sent.message with
  | .requestHeaders first count =>
    discard (onHeaders sent.peer (r.nameOf sent.peer)
      ((r.upFrom count.toNat first).map Block.header))
  | .requestBodies hashes =>
    discard (onBodies sent.peer ((hashes.filterMap r.block?).map Block.body))
  | _ => return

def serveAll (r : Remote) : List Outbound → Step Seat Unit
  | [] => return
  | sent :: rest => do
    serve r sent
    serveAll r rest

/-- Answers the messages that were sent. -/
def exchange (r : Remote) : Step Seat Unit := do
  serveAll r (← takeMessages)

/-- A round at a time: a pass, the headers asked for, the bodies asked for after them, and
the import of the batches that they make. -/
def round (r : Remote) (now : Millis) : Step Seat Unit := do
  onNode fun n ↦ { n with clock := now }
  discard requestHeaders
  exchange r
  exchange r
  importQueued (← get).engine.queue.size

def rounds (r : Remote) : List Millis → Step Seat Unit
  | [] => return
  | now :: rest => do
    round r now
    rounds r rest

end Seat

/-! ### Headers and bodies -/

namespace HeaderBatch

/-- Screening keeps the headers that are not remembered, unless it refuses the batch. -/
theorem screen_cases (accepts : Header → Bool) (imported : RecentSet Digest)
    (batch : HeaderBatch) :
    (∃ e, screen accepts imported batch = .error e) ∨ screen accepts imported batch = .ok none ∨
      batch.headers.filter (fun h ↦ !imported.contains h.hash) ≠ [] ∧
        screen accepts imported batch = .ok (some { batch with
          headers := batch.headers.filter fun h ↦ !imported.contains h.hash }) := by
  unfold screen
  split
  · exact .inr (.inl rfl)
  · cases isLinked batch.headers with
    | error e => exact .inl ⟨e, rfl⟩
    | ok linked =>
      cases linked with
      | false => exact .inr (.inl rfl)
      | true =>
        cases hfilter : batch.headers.filter fun h ↦ !imported.contains h.hash with
        | nil => exact .inr (.inl rfl)
        | cons header rest => exact .inr (.inr ⟨by simp, rfl⟩)

/-- What passes the screen is the sender's: some of its headers, and at least one. -/
theorem screen_eq_some {accepts : Header → Bool} {imported : RecentSet Digest}
    {batch passed : HeaderBatch} (screened : screen accepts imported batch = .ok (some passed)) :
    passed.peer = batch.peer ∧ passed.headers ≠ [] ∧ ∀ h ∈ passed.headers, h ∈ batch.headers := by
  rcases screen_cases accepts imported batch with ⟨e, h⟩ | h | ⟨nonempty, h⟩
  · rw [h] at screened
    cases screened
  · rw [h] at screened
    cases screened
  · rw [h] at screened
    cases screened
    exact ⟨rfl, nonempty, fun h hh ↦ (List.mem_filter.mp hh).1⟩

/-- An assembled batch is the sender's, and has a first block. -/
theorem assemble_eq_some {batch : HeaderBatch} {bodies : List Body} {blocks : BlockBatch}
    (h : batch.assemble bodies = some blocks) :
    blocks.peer = batch.peer ∧ ∃ first rest, blocks.blocks = first :: rest := by
  unfold assemble at h
  split at h
  · cases h
    exact ⟨rfl, _, _, rfl⟩
  · cases h

end HeaderBatch

namespace Remote

section

variable {r : Remote} {accepts : Header → Bool} {imported : RecentSet Digest} {peer : PeerId}
  {first : UInt64} {count : UInt32} {now : Millis}

theorem fetch_of_error {e : Fault}
    (screened : HeaderBatch.screen accepts imported
      ⟨peer, r.nameOf peer, (r.upFrom count.toNat first).map Block.header, now⟩ = .error e) :
    r.fetch accepts imported peer first count now = .error e := by
  rw [fetch, screened]
  rfl

theorem fetch_of_none
    (screened : HeaderBatch.screen accepts imported
      ⟨peer, r.nameOf peer, (r.upFrom count.toNat first).map Block.header, now⟩ = .ok none) :
    r.fetch accepts imported peer first count now = .ok none := by
  rw [fetch, screened]
  rfl

/-- Headers that pass the screen are put together with their bodies. -/
theorem fetch_of_some {headers : HeaderBatch}
    (screened : HeaderBatch.screen accepts imported
      ⟨peer, r.nameOf peer, (r.upFrom count.toNat first).map Block.header, now⟩ =
        .ok (some headers)) :
    r.fetch accepts imported peer first count now = .ok (headers.assemble
      (((headers.headers.map Header.hash).filterMap r.block?).map Block.body)) := by
  rw [fetch, screened]
  rfl

end

theorem mem_of_mem_upFrom {r : Remote} {block : Block} (count : Nat) :
    ∀ {first : UInt64}, block ∈ r.upFrom count first → block ∈ r.blocks := by
  induction count with
  | zero => exact fun h ↦ nomatch h
  | succ count ih =>
    intro first h
    rw [upFrom] at h
    split at h
    · cases h
    · next found hfound =>
      rcases List.mem_cons.mp h with rfl | h
      · exact List.mem_of_find?_eq_some hfound
      · exact ih h

theorem length_bodies {r : Remote} {headers : List Header}
    (known : ∀ h ∈ headers, ∃ block ∈ r.blocks, block.header = h) :
    (((headers.map Header.hash).filterMap r.block?).map Block.body).length = headers.length := by
  rw [List.length_map, List.filterMap_length_eq_length.mpr, List.length_map]
  intro hash hmem
  obtain ⟨h, hh, rfl⟩ := List.mem_map.mp hmem
  obtain ⟨block, hblock, rfl⟩ := known h hh
  exact List.find?_isSome.mpr ⟨block, hblock, decide_eq_true rfl⟩

end Remote

/-- Releasing a peer leaves the headers that wait. -/
theorem RequestSchedule.releaseIfAllowed_withHeaders (s : RequestSchedule) (headers : HeaderStore)
    (now : Millis) (peer : PeerId) :
    ({ s with headers } : RequestSchedule).releaseIfAllowed now peer =
      { s.releaseIfAllowed now peer with headers } := by
  unfold releaseIfAllowed
  dsimp only
  split
  · rfl
  · split
    · rfl
    · split <;> rfl

theorem RequestSchedule.headers_releaseIfAllowed (s : RequestSchedule) (now : Millis)
    (peer : PeerId) : (s.releaseIfAllowed now peer).headers = s.headers := by
  have hheaders := congrArg RequestSchedule.headers
    (releaseIfAllowed_withHeaders s s.headers now peer)
  exact hheaders

/-- Headers of a tracked peer are stored, and are matched again by their number. -/
theorem RequestSchedule.Lone.matchHeaders {peer : PeerId} {due : Millis} {s : RequestSchedule}
    (lone : s.Lone peer due) (tracked : peer ∈ s.peers) {batch : HeaderBatch}
    (sender : batch.peer = peer) (nonempty : batch.headers ≠ [])
    (now : Millis) : RequestSchedule.matchHeaders peer batch.size (s.storeHeaders batch now) =
      (some batch, s.releaseIfAllowed now peer) := by
  subst sender
  have hcontains : s.peers.contains batch.peer = true := Std.ExtTreeMap.contains_iff_mem.mpr tracked
  have hstore : s.storeHeaders batch now =
      { s.releaseIfAllowed now batch.peer with headers := s.headers.store batch } := by
    rw [storeHeaders, if_pos hcontains, releaseIfAllowed_withHeaders]
  rw [hstore, RequestSchedule.matchHeaders]
  simp only [HeaderStore.take_store lone.idle nonempty]
  rw [← headers_releaseIfAllowed s now batch.peer]

namespace Stats

variable {s : Stats} {peer : PeerId} {blocks : UInt64}

theorem exec_recordReceived_of_error {e : Fault}
    (h : checkedAdd (s.counters peer).received blocks = .error e) :
    (recordReceived peer blocks).exec s =
      (.error e, s.setCounters peer (s.counters peer)) := by
  simp only [recordReceived, Step.exec_bind, Step.exec_get, Step.exec_set, Step.exec_lift, h]

/-- Received blocks are added to the counter. -/
theorem exec_recordReceived_of_ok {received : UInt64}
    (h : checkedAdd (s.counters peer).received blocks = .ok received) :
    (recordReceived peer blocks).exec s =
      (.ok (), s.setCounters peer { s.counters peer with received }) := by
  simp only [recordReceived, Step.exec_bind, Step.exec_get, Step.exec_set, Step.exec_lift, h]

end Stats

namespace Seat

/-! ### Messages -/

def cleared (s : Seat) : Seat :=
  { s with node := { s.node with registry := { s.node.registry with outbox := [] } } }

/-- Where no message waits there is none to clear. -/
theorem cleared_of_outbox {s : Seat} (h : s.node.registry.outbox = []) : s.cleared = s := by
  unfold cleared
  rw [← h]

/-- An exchange answers the waiting messages in sending order. -/
theorem exec_exchange (r : Remote) (s : Seat) :
    (exchange r).exec s = (serveAll r s.node.registry.outbox.reverse).exec s.cleared := rfl

theorem exec_exchange_of_nil (r : Remote) {s : Seat} (h : s.node.registry.outbox = []) :
    (exchange r).exec s = (.ok (), s) := by
  rw [exec_exchange, cleared_of_outbox h, h]
  rfl

theorem exec_exchange_of_singleton (r : Remote) {s : Seat} {sent : Outbound}
    (h : s.node.registry.outbox = [sent]) :
    (exchange r).exec s = (serve r sent).exec s.cleared := by
  rw [exec_exchange, h, List.reverse_singleton, serveAll, Step.exec_bind]
  cases (serve r sent).exec s.cleared with
  | mk answer t => cases answer <;> rfl

/-- The seat after the headers of a batch were stored and the bodies for them asked for. -/
def requesting (s : Seat) (stats : Stats) (peer : PeerId) (batch : HeaderBatch) : Seat where
  node := s.node.send peer (.requestBodies (batch.headers.map Header.hash))
  engine := { s.engine with
    requests := s.engine.requests.storeHeaders batch s.node.clock
    stats := stats.recordRequest peer .bodies s.node.clock }

/-- Headers that pass the screen are stored, and the bodies for them are asked for. -/
theorem exec_onHeaders {s : Seat} {peer : PeerId} {stats : Stats}
    (timed : (Stats.recordResponse peer .headers s.node.clock).exec s.engine.stats =
      (.ok (), stats)) (name : String) (headers : List Header) :
    (onHeaders peer name headers).exec s =
      match HeaderBatch.screen s.node.accepts s.engine.imported
        ⟨peer, name, headers, s.node.clock⟩ with
      | .error e => (.error e, s.withStats stats)
      | .ok none => (.ok 0, s.withStats stats)
      | .ok (some batch) => (.ok batch.size, s.requesting stats peer batch) := by
  have hresponse : (recordResponse peer .headers).exec s = (.ok (), s.withStats stats) := by
    rw [recordResponse, Step.exec_bind_of_ok (Step.exec_get s), exec_stats, timed]
  have hscreen : HeaderBatch.screen (s.withStats stats).node.accepts
      (s.withStats stats).engine.imported ⟨peer, name, headers, (s.withStats stats).node.clock⟩ =
        HeaderBatch.screen s.node.accepts s.engine.imported
          ⟨peer, name, headers, s.node.clock⟩ := rfl
  rw [onHeaders, Step.exec_bind_of_ok hresponse, Step.exec_bind_of_ok (Step.exec_get _)]
  dsimp only
  rw [Step.exec_bind, Step.exec_lift, hscreen]
  cases HeaderBatch.screen s.node.accepts s.engine.imported ⟨peer, name, headers, s.node.clock⟩ with
  | error e => rfl
  | ok batch => cases batch <;> rfl

/-- Bodies that headers wait for are put together with them, and a batch that fits is queued. -/
theorem exec_onBodies {s : Seat} {peer : PeerId} {stats : Stats}
    (timed : (Stats.recordResponse peer .bodies s.node.clock).exec s.engine.stats =
      (.ok (), stats)) {bodies : List Body} {headers : HeaderBatch} {requests : RequestSchedule}
    (matched : RequestSchedule.matchHeaders peer bodies.length s.engine.requests =
      (some headers, requests)) :
    (onBodies peer bodies).exec s =
      match headers.assemble bodies with
      | none => (.ok none, (s.withStats stats).withRequests requests)
      | some batch => (do
          recordReceived peer batch.size
          enqueue batch).exec ((s.withStats stats).withRequests requests) := by
  have hresponse : (recordResponse peer .bodies).exec s = (.ok (), s.withStats stats) := by
    rw [recordResponse, Step.exec_bind_of_ok (Step.exec_get s), exec_stats, timed]
  have hmatch : (matchHeaders peer bodies.length).exec (s.withStats stats) =
      (.ok (some headers), (s.withStats stats).withRequests requests) := by
    have hget : requestsPart.get (s.withStats stats) = s.engine.requests := rfl
    rw [matchHeaders, Step.exec_part, hget, Step.exec_update, matched]
    rfl
  rw [onBodies, pairBodies, bind_assoc, Step.exec_bind_of_ok hresponse, bind_assoc,
    Step.exec_bind_of_ok hmatch]
  dsimp only
  cases headers.assemble bodies with
  | none => rfl
  | some batch =>
    dsimp only
    rw [bind_assoc]
    rfl

/-! ### Batches -/

/-- Blocks that can be counted as received are counted. -/
theorem exec_recordReceived (s : Seat) (peer : PeerId) (count : Nat) :
    UInt64.size ≤ (s.engine.stats.counters peer).received.toNat + (UInt64.ofNat count).toNat ∧
        (∃ t, (recordReceived peer count).exec s = (.error .additionOverflow, t)) ∨
      ∃ stats, (recordReceived peer count).exec s = (.ok (), s.withStats stats) ∧
        (stats.counters peer).imported = (s.engine.stats.counters peer).imported ∧
        (stats.counters peer).received.toNat ≤
          (s.engine.stats.counters peer).received.toNat + count ∧
        ∀ kind, stats.waiting peer kind = s.engine.stats.waiting peer kind := by
  rw [recordReceived, exec_stats]
  cases hsum : checkedAdd (s.engine.stats.counters peer).received (UInt64.ofNat count) with
  | error e =>
    obtain ⟨full, rfl⟩ := checkedAdd_eq_error_iff.mp hsum
    rw [Stats.exec_recordReceived_of_error hsum]
    exact .inl ⟨full, _, rfl⟩
  | ok received =>
    have hreceived := checkedAdd_eq_ok_iff.mp hsum
    have hcount := toNat_ofNat_le count
    rw [Stats.exec_recordReceived_of_ok hsum]
    refine .inr ⟨_, rfl, ?_, ?_, fun kind ↦ ?_⟩
    · rw [Stats.counters_setCounters, if_pos rfl]
    · rw [Stats.counters_setCounters, if_pos rfl]
      dsimp only
      omega
    · simp [Stats.waiting, Stats.counters_setCounters]

/-- Where nothing waits a batch is queued. -/
theorem exec_enqueue_of_empty {s : Seat} (empty : s.engine.queue.batches = ∅)
    (preferred : 1 ≤ s.engine.queue.preferredSize) {batch : BlockBatch} {first : Block}
    {rest : List Block} (hblocks : batch.blocks = first :: rest) :
    (enqueue batch).exec s =
      (.ok (some .queued), s.withQueue (s.engine.queue.holding first.number batch)) := by
  have hnumber : batch.firstNumber? = some first.number := by
    rw [BlockBatch.firstNumber?, hblocks]
    rfl
  have hsize : s.engine.queue.size = 0 := by
    rw [ImportQueue.size, empty]
    exact Std.ExtTreeMap.size_empty
  have hnear : s.engine.queue.isFarAhead first.number s.node.chain.bestNumber = .ok false := by
    rw [ImportQueue.isFarAhead, if_pos (by omega)]
  have hhold : s.engine.queue.hold first.number batch =
      (.queued, s.engine.queue.holding first.number batch) := by
    have : s.engine.queue.batches[first.number]? = none := by
      rw [empty]
      simp
    simp only [ImportQueue.hold, this, ImportQueue.holding]
  have hget : queuePart.get s = (s.engine.queue, s.node.pending) := rfl
  unfold enqueue ImportQueue.push
  simp only [Step.exec_bind, Step.exec_get, Step.exec_part, hget, hnumber, Step.exec_lift, hnear]
  simp only [Bool.false_eq_true, if_false, Step.exec_bind, Step.exec_set, hhold]
  rfl

/-- The only batch that waits is imported, and then none waits. -/
theorem exec_importQueued_of_holding {s : Seat} {q : ImportQueue} (empty : q.batches = ∅)
    {n : UInt64} {batch : BlockBatch} (hqueue : s.engine.queue = q.holding n batch) :
    ∃ queue, queue.batches = ∅ ∧ queue.preferredSize = q.preferredSize ∧
      (importQueued s.engine.queue.size).exec s =
        (((processBatch batch).exec (s.withQueue queue)).1.map fun _ ↦ (),
          ((processBatch batch).exec (s.withQueue queue)).2) := by
  have hbatches (m : UInt64) :
      s.engine.queue.batches[m]? = if n = m then some batch else none := by
    rw [hqueue, ImportQueue.batches_holding, empty]
    simp
  have hsize : s.engine.queue.size = 1 := by
    rw [hqueue, ImportQueue.size]
    simp [ImportQueue.holding, ImportQueue.wake, empty, Std.ExtTreeMap.size_insert]
  refine ⟨s.engine.queue.without n, ?_, by rw [hqueue]; rfl, ?_⟩
  · apply Std.ExtTreeMap.ext_getElem?
    intro m
    rw [ImportQueue.batches_without, hbatches]
    split <;> simp
  · have hpop : s.engine.queue.pop = (some batch, s.engine.queue.without n) := by
      rcases s.engine.queue.pop_cases with ⟨hzero, -⟩ | ⟨m, other, hother, hpop⟩
      · omega
      · rw [hbatches] at hother
        split at hother
        · next he =>
          cases hother
          rw [hpop, he]
        · cases hother
    have hrun : popBatch.exec s = (.ok (some batch), s.withQueue (s.engine.queue.without n)) := by
      simp only [popBatch, Step.exec_update, hpop, withQueue]
    rw [hsize, importQueued, Step.exec_bind_of_ok hrun]
    dsimp only
    rw [Step.exec_bind, Step.exec_discard]
    cases (processBatch batch).exec (s.withQueue (s.engine.queue.without n)) with
    | mk answer t => cases answer <;> rfl

/-- A batch that is taken where nothing waits is counted and queued, and is the only one imported
then. -/
theorem exec_receive {s : Seat} (empty : s.engine.queue.batches = ∅)
    (preferred : 1 ≤ s.engine.queue.preferredSize) (peer : PeerId) {batch : BlockBatch}
    {first : Block} {rest : List Block} (hblocks : batch.blocks = first :: rest) :
    let receive : Step Seat (Option PushOutcome) := do
      recordReceived peer batch.size
      enqueue batch
    UInt64.size ≤ (s.engine.stats.counters peer).received.toNat +
          (UInt64.ofNat batch.size).toNat ∧
        (∃ t, receive.exec s = (.error .additionOverflow, t)) ∨
      ∃ t stats queue, receive.exec s = (.ok (some .queued), t) ∧
        (importQueued t.engine.queue.size).exec t =
          (((processBatch batch).exec ⟨s.node, { s.engine with stats, queue }⟩).1.map fun _ ↦ (),
            ((processBatch batch).exec ⟨s.node, { s.engine with stats, queue }⟩).2) ∧
        queue.batches = ∅ ∧ queue.preferredSize = s.engine.queue.preferredSize ∧
        (stats.counters peer).imported = (s.engine.stats.counters peer).imported ∧
        (stats.counters peer).received.toNat ≤
          (s.engine.stats.counters peer).received.toNat + batch.size ∧
        ∀ kind, stats.waiting peer kind = s.engine.stats.waiting peer kind := by
  dsimp only
  rcases exec_recordReceived s peer batch.size with ⟨full, t, hrun⟩ | ⟨stats, hrun, counted⟩
  · exact .inl ⟨full, t, Step.exec_bind_of_error hrun _⟩
  · have hqueued : (enqueue batch).exec (s.withStats stats) = (.ok (some .queued),
        (s.withStats stats).withQueue (s.engine.queue.holding first.number batch)) :=
      exec_enqueue_of_empty (s := s.withStats stats) empty preferred hblocks
    obtain ⟨queue, hnone, hsame, himport⟩ := exec_importQueued_of_holding
      (s := (s.withStats stats).withQueue (s.engine.queue.holding first.number batch)) empty rfl
    exact .inr ⟨_, stats, queue, (Step.exec_bind_of_ok hrun _).trans hqueued, himport, hnone,
      hsame, counted⟩

/-! ### Rounds -/

def clocked (s : Seat) (now : Millis) : Seat := { s with node := { s.node with clock := now } }

/-- How a round ends at a quiet seat whose only connected peer advertises this. -/
inductive RoundEnd (r : Remote) (peer : PeerId) (info : PeerInfo) (now : Millis) (s : Seat) :
    Except Fault Unit → Seat → Prop
  /-- A sum of the pass does not fit. -/
  | crowded {t : Seat} (crowded : s.Crowded peer info) :
    RoundEnd r peer info now s (.error .additionOverflow) t
  /-- The peer's chain is lighter than the local one. -/
  | light {t : Seat} (light : info.totalDifficulty < s.node.chain.totalDifficulty)
      (settled : Settled peer now (s.engine.requests.seen peer info).first
        (s.engine.requests.seen peer info).size 0 s t) :
    RoundEnd r peer info now s (.ok ()) t
  /-- The range starts above what the peer advertises. -/
  | withheld {first : UInt64} {t : Seat} (start : first.toNat = s.start peer info)
      (beyond : info.bestNumber < first) (known : info.bestNumber ≠ 0)
      (settled : Settled peer now 0 (s.ask peer info) 0 s t) :
    RoundEnd r peer info now s (.ok ()) t
  /-- The heights of the headers run out. -/
  | unlinked {first : UInt64} {e : Fault} {t : Seat} (start : first.toNat = s.start peer info)
      (within : first ≤ info.bestNumber ∨ info.bestNumber = 0)
      (fetch : r.fetch s.node.accepts s.engine.imported peer first (s.ask peer info) now =
        .error e) :
    RoundEnd r peer info now s (.error e) t
  /-- The answers make no batch. -/
  | missed {first : UInt64} {t : Seat} (start : first.toNat = s.start peer info)
      (within : first ≤ info.bestNumber ∨ info.bestNumber = 0)
      (fetch : r.fetch s.node.accepts s.engine.imported peer first (s.ask peer info) now =
        .ok none)
      (settled : Settled peer now first (s.ask peer info) 0 s t) :
    RoundEnd r peer info now s (.ok ()) t
  /-- The blocks cannot be counted as received. -/
  | uncounted {first : UInt64} {batch : BlockBatch} {t : Seat}
      (start : first.toNat = s.start peer info)
      (within : first ≤ info.bestNumber ∨ info.bestNumber = 0)
      (fetch : r.fetch s.node.accepts s.engine.imported peer first (s.ask peer info) now =
        .ok (some batch))
      (full : UInt64.size ≤
        (s.engine.stats.counters peer).received.toNat + (UInt64.ofNat batch.size).toNat) :
    RoundEnd r peer info now s (.error .additionOverflow) t
  /-- The batch is imported. -/
  | imported {first : UInt64} {batch : BlockBatch} {answer : Except Fault BatchReport}
      {t u : Seat} (start : first.toNat = s.start peer info)
      (within : first ≤ info.bestNumber ∨ info.bestNumber = 0)
      (fetch : r.fetch s.node.accepts s.engine.imported peer first (s.ask peer info) now =
        .ok (some batch))
      (settled : Settled peer now first (s.ask peer info) batch.size s t)
      (run : (processBatch batch).exec t = (answer, u)) :
    RoundEnd r peer info now s (answer.map fun _ ↦ ()) u

section

variable {r : Remote} {peer : PeerId} {now : Millis} {s t : Seat} {first : UInt64} {size : UInt32}

/-- The time does not matter to what was settled. -/
theorem Settled.of_clocked {got : Nat}
    (settled : Settled peer now first size got (s.clocked now) t) :
    Settled peer now first size got s t := by
  obtain ⟨beside, quiet, latest, height, received⟩ := settled
  exact ⟨⟨beside.chain, beside.pending, beside.later, beside.accepts, beside.peers,
    beside.imported, beside.mode, beside.credited⟩, quiet, latest, height, received⟩

theorem Asking.of_clocked (asking : Asking peer now first size (s.clocked now) t) :
    Asking peer now first size s t := by
  obtain ⟨beside, clock, queue, outbox, lone, tracked, headers, others, latest, height, received⟩ :=
    asking
  exact ⟨⟨beside.chain, beside.pending, beside.later, beside.accepts, beside.peers,
    beside.imported, beside.mode, beside.credited⟩, clock, queue, outbox, lone, tracked, headers,
    others, latest, height, received⟩

/-- When the answers to a request were taken, everything is quiet again. -/
theorem Asking.settled (asking : Asking peer now first size s t) {requests : RequestSchedule}
    {stats : Stats} {queue : ImportQueue} {got : Nat}
    (lone : requests.Lone peer (now + PeerRequests.window))
    (latest : ∃ p, requests.peers[peer]? = some p ∧ p.first = first ∧ p.size = size)
    (height : requests.localHeight = t.engine.requests.localHeight)
    (empty : queue.batches = ∅) (preferred : 1 ≤ queue.preferredSize)
    (credited : (stats.counters peer).imported = (t.engine.stats.counters peer).imported)
    (received : (stats.counters peer).received.toNat ≤
      (t.engine.stats.counters peer).received.toNat + got)
    (answered : ∀ kind, stats.waiting peer kind = []) :
    Settled peer now first size got s
      ⟨t.cleared.node, { t.engine with requests, stats, queue }⟩ := by
  obtain ⟨beside, -, -, -, -, tracked, -, -, -, hheight, hreceived⟩ := asking
  refine ⟨⟨beside.chain, beside.pending, beside.later, beside.accepts, beside.peers,
    beside.imported, beside.mode, credited.trans beside.credited⟩,
    ⟨empty, preferred, rfl, lone, fun _ ↦ tracked, answered⟩, latest, height.trans hheight, ?_⟩
  rw [hreceived] at received
  exact received

/-- Everything stays quiet while a batch is imported. -/
theorem Quiet.of_retains {due : Millis} (quiet : Quiet peer due s) (kept : Retains s t) :
    Quiet peer due t where
  batches := by rw [kept.queue, quiet.batches]
  preferred := by
    rw [kept.queue]
    exact quiet.preferred
  outbox := by rw [kept.registry, quiet.outbox]
  lone := by
    rw [kept.schedule]
    exact quiet.lone
  tracked h := by
    rw [kept.schedule] at h
    exact kept.tracked (quiet.tracked h)
  answered kind := by
    rw [Stats.waiting, kept.requests]
    exact quiet.answered kind

/-- Where everything is quiet an exchange does nothing. -/
theorem Quiet.exec_exchange {due : Millis} (quiet : Quiet peer due s) (r : Remote) :
    (exchange r).exec s = (.ok (), s) := exec_exchange_of_nil r quiet.outbox

/-- Where everything is quiet no batch is imported. -/
theorem Quiet.exec_importQueued {due : Millis} (quiet : Quiet peer due s) :
    (importQueued s.engine.queue.size).exec s = (.ok (), s) := by
  have hsize : s.engine.queue.size = 0 := by
    rw [ImportQueue.size, quiet.batches]
    exact Std.ExtTreeMap.size_empty
  rw [hsize]
  rfl

/-- The bodies that are asked for are taken, and the batch that they make is imported. -/
theorem roundEnd_of_requesting {info : PeerInfo} (empty : s.engine.queue.batches = ∅)
    (preferred : 1 ≤ s.engine.queue.preferredSize) (start : first.toNat = s.start peer info)
    (within : first ≤ info.bestNumber ∨ info.bestNumber = 0)
    (asking : Asking peer t.node.clock first (s.ask peer info) s t) {headers : HeaderBatch}
    (screened : HeaderBatch.screen s.node.accepts s.engine.imported ⟨peer, r.nameOf peer,
      (r.upFrom (s.ask peer info).toNat first).map Block.header, t.node.clock⟩ =
        .ok (some headers)) {stats : Stats}
    (credited : (stats.counters peer).imported = (t.engine.stats.counters peer).imported)
    (received : (stats.counters peer).received = (t.engine.stats.counters peer).received)
    (answered : ∀ kind, stats.waiting peer kind = []) :
    let rest : Step Seat Unit := do
      exchange r
      importQueued (← get).engine.queue.size
    RoundEnd r peer info t.node.clock s (rest.exec (t.cleared.requesting stats peer headers)).1
      (rest.exec (t.cleared.requesting stats peer headers)).2 := by
  dsimp only
  have hfetch := Remote.fetch_of_some screened
  obtain ⟨hsender, hnonempty, hmem⟩ := HeaderBatch.screen_eq_some screened
  have hknown : ∀ h ∈ headers.headers, ∃ block ∈ r.blocks, block.header = h := by
    intro h hh
    obtain ⟨block, hblock, he⟩ := List.mem_map.mp (hmem h hh)
    exact ⟨block, Remote.mem_of_mem_upFrom _ hblock, he⟩
  generalize hbodies : ((headers.headers.map Header.hash).filterMap r.block?).map Block.body =
    bodies at hfetch
  have hlength : bodies.length = headers.size := by
    rw [← hbodies]
    exact Remote.length_bodies hknown
  obtain ⟨p, hp, hfirst, hsize⟩ := asking.latest
  have htracked : peer ∈ t.engine.requests.peers :=
    Std.ExtTreeMap.mem_iff_isSome_getElem?.mpr (by rw [hp]; rfl)
  have hmatch := asking.lone.matchHeaders htracked hsender hnonempty t.node.clock
  rw [← hlength] at hmatch
  obtain ⟨⟨q, hq, halike⟩, -, hheight⟩ :=
    RequestSchedule.alike_releaseIfAllowed hp t.node.clock
  have lone := asking.lone.releaseIfAllowed t.node.clock
  have hasked := Stats.waiting_recordRequest (answered .bodies) t.node.clock
  have hcounts := stats.counters_recordRequest peer .bodies t.node.clock
  obtain ⟨stats₂, timed, credited₂, received₂, hanswered, hothers⟩ :=
    Stats.exec_recordResponse hasked.1
  have credited' := (credited₂.trans hcounts.1).trans credited
  have received' := (received₂.trans hcounts.2).trans received
  have answered₂ (kind : RequestKind) : stats₂.waiting peer kind = [] := by
    by_cases hkind : kind = .bodies
    · rw [hkind]
      exact hanswered
    · rw [hothers kind hkind, hasked.2 kind hkind]
      exact answered kind
  have hsent : (t.cleared.requesting stats peer headers).node.registry.outbox =
      [⟨peer, .requestBodies (headers.headers.map Header.hash)⟩] := rfl
  have hserve : (exchange r).exec (t.cleared.requesting stats peer headers) =
      (discard (onBodies peer bodies)).exec (t.cleared.requesting stats peer headers).cleared := by
    rw [← hbodies]
    exact exec_exchange_of_singleton r hsent
  have htaken := exec_onBodies (s := (t.cleared.requesting stats peer headers).cleared) timed hmatch
  rw [Step.exec_bind, hserve, Step.exec_discard, htaken]
  have settled {stats₃ : Stats} {queue : ImportQueue} (got : Nat) (hempty : queue.batches = ∅)
      (hpreferred : 1 ≤ queue.preferredSize)
      (credited₃ : (stats₃.counters peer).imported = (stats₂.counters peer).imported)
      (received₃ : (stats₃.counters peer).received.toNat ≤
        (stats₂.counters peer).received.toNat + got)
      (answered₃ : ∀ kind, stats₃.waiting peer kind = []) :
      Settled peer t.node.clock first (s.ask peer info) got s ⟨t.cleared.node, { t.engine with
        requests := t.engine.requests.releaseIfAllowed t.node.clock peer
        stats := stats₃
        queue }⟩ :=
    asking.settled lone ⟨q, hq, halike.first.trans hfirst, halike.size.trans hsize⟩ hheight hempty
      hpreferred (credited₃.trans credited') (received' ▸ received₃) answered₃
  have hempty : t.engine.queue.batches = ∅ := asking.queue ▸ empty
  have hpreferred : 1 ≤ t.engine.queue.preferredSize := asking.queue ▸ preferred
  cases hassemble : headers.assemble bodies with
  | none =>
    have settled := settled 0 hempty hpreferred rfl (Nat.le_refl _) answered₂
    rw [hassemble] at hfetch
    have hstate : ((t.cleared.requesting stats peer headers).cleared.withStats stats₂).withRequests
        (t.engine.requests.releaseIfAllowed t.node.clock peer) = ⟨t.cleared.node, { t.engine with
          requests := t.engine.requests.releaseIfAllowed t.node.clock peer
          stats := stats₂ }⟩ := rfl
    dsimp only [Except.map]
    rw [hstate, Step.exec_bind_of_ok (Step.exec_get _), settled.quiet.exec_importQueued]
    exact .missed start within hfetch settled
  | some batch =>
    rw [hassemble] at hfetch
    obtain ⟨-, first', rest, hblocks⟩ := HeaderBatch.assemble_eq_some hassemble
    rcases exec_receive
      (s := ((t.cleared.requesting stats peer headers).cleared.withStats stats₂).withRequests
        (t.engine.requests.releaseIfAllowed t.node.clock peer)) hempty hpreferred peer hblocks with
      ⟨full, u, hrun⟩ | ⟨u, stats₃, queue, hrun, himport, hnone, hsame, credited₃, received₃,
        answered₃⟩
    · have hreceived : (stats₂.counters peer).received = (s.engine.stats.counters peer).received :=
        received'.trans asking.received
      dsimp only
      rw [hrun]
      refine .uncounted start within hfetch ?_
      rw [← hreceived]
      exact full
    · have settled := settled batch.size hnone (hsame ▸ hpreferred) credited₃ received₃
        fun kind ↦ (answered₃ kind).trans (answered₂ kind)
      dsimp only
      rw [hrun]
      dsimp only [Except.map]
      rw [Step.exec_bind_of_ok (Step.exec_get u), himport]
      exact .imported start within hfetch settled rfl

/-- What follows after a request was sent: its answers, and the import of what they bring. -/
theorem roundEnd_of_asking {info : PeerInfo} (empty : s.engine.queue.batches = ∅)
    (preferred : 1 ≤ s.engine.queue.preferredSize) (start : first.toNat = s.start peer info)
    (within : first ≤ info.bestNumber ∨ info.bestNumber = 0)
    (asking : Asking peer now first (s.ask peer info) s t) :
    let rest : Step Seat Unit := do
      exchange r
      exchange r
      importQueued (← get).engine.queue.size
    RoundEnd r peer info now s (rest.exec t).1 (rest.exec t).2 := by
  dsimp only
  obtain rfl := asking.clock
  obtain ⟨stats, timed, credited, received, hheaders, hothers⟩ :=
    Stats.exec_recordResponse asking.headers
  have answered (kind : RequestKind) : stats.waiting peer kind = [] := by
    by_cases hkind : kind = .headers
    · rw [hkind]
      exact hheaders
    · rw [hothers kind hkind]
      exact asking.others kind hkind
  have hserve : (exchange r).exec t = (discard (onHeaders peer (r.nameOf peer)
      ((r.upFrom (s.ask peer info).toNat first).map Block.header))).exec t.cleared :=
    exec_exchange_of_singleton r asking.outbox
  have haccepts : t.cleared.node.accepts = s.node.accepts := asking.beside.accepts
  have himported : t.cleared.engine.imported = s.engine.imported := asking.beside.imported
  have hheaders := exec_onHeaders (s := t.cleared) timed (r.nameOf peer)
    ((r.upFrom (s.ask peer info).toNat first).map Block.header)
  rw [haccepts, himported] at hheaders
  rw [Step.exec_bind, hserve, Step.exec_discard, hheaders]
  have settled : Settled peer t.node.clock first (s.ask peer info) 0 s
      (t.cleared.withStats stats) :=
    asking.settled asking.lone asking.latest rfl (asking.queue ▸ empty)
      (asking.queue ▸ preferred) credited (Nat.le_of_eq (congrArg UInt64.toNat received)) answered
  cases hscreen : HeaderBatch.screen s.node.accepts s.engine.imported ⟨peer, r.nameOf peer,
      (r.upFrom (s.ask peer info).toNat first).map Block.header, t.cleared.node.clock⟩ with
  | error e => exact .unlinked start within (Remote.fetch_of_error hscreen)
  | ok headers =>
    cases headers with
    | none =>
      dsimp only [Except.map]
      rw [Step.exec_bind_of_ok (settled.quiet.exec_exchange r),
        Step.exec_bind_of_ok (Step.exec_get _), settled.quiet.exec_importQueued]
      exact .missed start within (Remote.fetch_of_none hscreen) settled
    | some headers =>
      exact roundEnd_of_requesting empty preferred start within asking hscreen credited received
        answered

end

/-- Every round at a quiet seat ends in one of the cases. -/
theorem Quiet.roundEnd {peer : PeerId} {due now : Millis} {s : Seat} {info : PeerInfo}
    (quiet : Quiet peer due s) (active : s.node.registry.active = [(peer, info)])
    (rested : due ≤ now) (r : Remote) :
    RoundEnd r peer info now s ((round r now).exec s).1 ((round r now).exec s).2 := by
  have ends := Quiet.passEnd (s := s.clocked now)
    ⟨quiet.batches, quiet.preferred, quiet.outbox, quiet.lone, quiet.tracked, quiet.answered⟩
    active rested
  have hclock : (onNode fun n ↦ { n with clock := now }).exec s = (.ok (), s.clocked now) := rfl
  rw [round, Step.exec_bind_of_ok hclock, Step.exec_bind, Step.exec_discard]
  cases hpass : requestHeaders.exec (s.clocked now) with
  | mk answer t =>
    rw [hpass] at ends
    dsimp only at ends
    have hnone {first : UInt64} {size : UInt32} (settled : Settled peer now first size 0 s t) :
        (do
          exchange r
          exchange r
          importQueued (← get).engine.queue.size).exec t = (.ok (), t) := by
      have hexchange := settled.quiet.exec_exchange r
      rw [Step.exec_bind_of_ok hexchange, Step.exec_bind_of_ok hexchange,
        Step.exec_bind_of_ok (Step.exec_get t), settled.quiet.exec_importQueued]
    cases ends with
    | crowded crowded => exact .crowded crowded
    | light light settled =>
      have settled := settled.of_clocked
      have := hnone settled
      dsimp only [Except.map]
      rw [this]
      exact .light light settled
    | withheld start beyond known settled =>
      have settled := settled.of_clocked
      have := hnone settled
      dsimp only [Except.map]
      rw [this]
      exact .withheld start beyond known settled
    | asked start within asking =>
      exact roundEnd_of_asking quiet.batches quiet.preferred start within asking.of_clocked

end Seat
end ChainSync
