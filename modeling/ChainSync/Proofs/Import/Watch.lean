import ChainSync.Engine.Propagation
import ChainSync.Proofs.Chain.Linked
import ChainSync.Proofs.Import.Seat

/-!
# Watched imports

The import of a batch hands lists of blocks to the chain: those wanted of the batch, and those
wanted of each range that it drains. A watched import goes through the same steps and notes every
list with its answer, every hash that is remembered, and every seat that a step leaves. An error
can be set for each of its lists just before the list is handed over.

Main statements: a watched import for which no errors are set answers as the import does and leaves
its seat, and a property that the edits of an import keep is kept by every watched import, whether
it ends or faults.
-/

namespace ChainSync

/-- A list of blocks that was handed to the chain. -/
structure Call where
  /-- The level and the key of the pending range that it is from; a fresh batch has none. -/
  range : Option (UInt64 × Digest)
  /-- The blocks. -/
  blocks : List Block
  /-- What the chain answered. -/
  answer : Except Fault (Except ChainError ConnectReport)

namespace Call

def report? (call : Call) : Option ConnectReport :=
  match call.answer with
  | .ok (.ok report) => some report
  | .ok (.error _) | .error _ => none

def reported (call : Call) : List Digest := (call.report?.map ConnectReport.imported).getD []

def hashes (call : Call) : List Digest := call.blocks.map Block.hash

/-- The chain reported that the list is invalid. -/
def IsInvalid (call : Call) : Prop := call.report?.map ConnectReport.outcome = some .invalid

/-- The chain answered with a report or an error; it did not run out of heights. -/
def Answered (call : Call) : Prop := ∃ result, call.answer = .ok result

end Call

namespace Seat

/-- The same blocks are stored and pruned, and the same hashes are remembered. -/
structure Spares (s t : Seat) : Prop where
  /-- The chain is the same. -/
  chain : t.node.chain = s.node.chain
  /-- The remembered hashes are the same. -/
  imported : t.engine.imported = s.engine.imported

/-- The pending ranges are the same as well. -/
structure SparesAll (s t : Seat) : Prop extends Spares s t where
  /-- The pending store is the same. -/
  pending : t.node.pending = s.node.pending

/-- What handing a list to the chain does, whatever errors are set. -/
structure Handed (s : Seat) (blocks : List Block)
    (answer : Except Fault (Except ChainError ConnectReport)) (t : Seat) : Prop where
  /-- The engine is the same. -/
  engine : t.engine = s.engine
  /-- The pending store is the same. -/
  pending : t.node.pending = s.node.pending
  /-- The rule for headers is the same. -/
  accepts : t.node.accepts = s.node.accepts
  /-- No stored block is lost. -/
  within : s.node.chain.Within t.node.chain
  /-- The same heights are pruned. -/
  pruneFloor : t.node.chain.pruneFloor = s.node.chain.pruneFloor
  /-- What is reported comes from linking the blocks. -/
  links {report : ConnectReport} : answer = .ok (.ok report) →
    ∃ c, (Chain.importBlocks blocks .exist).exec c =
      (.ok (report.imported, report.outcome), t.node.chain)
  /-- With an error nothing is added. -/
  refuses {e : ChainError} : answer = .ok (.error e) → s.node.chain.Adds t.node.chain []
  /-- What is added is reported. -/
  adds {report : ConnectReport} : answer = .ok (.ok report) →
    s.node.chain.Adds t.node.chain report.imported
  /-- The height of the best block is reported, and it is the same if nothing was imported. -/
  best {report : ConnectReport} : answer = .ok (.ok report) →
    report.bestNumber = t.node.chain.bestNumber ∧
      (report.imported = [] → t.node.chain.bestNumber = s.node.chain.bestNumber)

end Seat

namespace Node

/-- Counting down to a later error changes nothing else. -/
theorem exists_takeLaterFailure (n : Node) :
    ∃ laterFailure, n.takeLaterFailure.2 = { n with laterFailure } := by
  unfold takeLaterFailure
  split <;> exact ⟨_, rfl⟩

/-- An error of the chain raises an alarm at most. -/
theorem exists_reportChainError (n : Node) (e : ChainError) :
    ∃ alarms, n.reportChainError e = { n with alarms } := by
  unfold reportChainError
  split <;> exact ⟨_, rfl⟩

/-- An error of the pending store raises an alarm at most. -/
theorem exists_reportStoreError (n : Node) (e : StoreError) :
    ∃ alarms, n.reportStoreError e = { n with alarms } := by
  unfold reportStoreError
  split <;> exact ⟨_, rfl⟩

/-- A block that is broadcast changes what peers are sent. -/
theorem exists_broadcast (n : Node) (block : Block) (peers : List PeerId) :
    ∃ registry, n.broadcast block peers = { n with registry } := by
  unfold broadcast
  induction peers generalizing n with
  | nil => exact ⟨_, rfl⟩
  | cons peer rest ih =>
    obtain ⟨registry, h⟩ := ih (n.send peer (.broadcastNewBlock block))
    exact ⟨registry, h⟩

end Node

namespace Seat

theorem SparesAll.refl (s : Seat) : SparesAll s s := ⟨⟨rfl, rfl⟩, rfl⟩

/-- An alarm changes nothing of concern. -/
theorem sparesAll_reportChainError (s : Seat) (e : ChainError) :
    SparesAll s { s with node := s.node.reportChainError e } := by
  obtain ⟨alarms, h⟩ := s.node.exists_reportChainError e
  rw [h]
  exact ⟨⟨rfl, rfl⟩, rfl⟩

theorem Spares.refl (s : Seat) : Spares s s := ⟨rfl, rfl⟩

theorem keeps_spares_pending {α : Type} (s : Seat) (f : PendingStore → α × PendingStore) :
    Step.Keeps (Spares s) (Step.update fun s ↦
      let (answer, pending) := f s.node.pending
      (answer, { s with node := { s.node with pending } })) := fun _ h ↦ ⟨h.chain, h.imported⟩

/-- An alarm of the pending store changes nothing of concern. -/
theorem sparesAll_reportStoreError (s : Seat) (e : StoreError) :
    SparesAll s ((onNode (Node.reportStoreError e)).leaves s) := by
  obtain ⟨alarms, h⟩ := s.node.exists_reportStoreError e
  change SparesAll s { s with node := s.node.reportStoreError e }
  rw [h]
  exact ⟨⟨rfl, rfl⟩, rfl⟩

theorem Spares.trans {s t u : Seat} (h : Spares s t) (h' : Spares t u) : Spares s u :=
  ⟨h'.chain.trans h.chain, h'.imported.trans h.imported⟩

theorem keeps_spares_alarm (s : Seat) (e : StoreError) :
    Step.Keeps (Spares s) (onNode (Node.reportStoreError e)) :=
  fun t h ↦ h.trans (sparesAll_reportStoreError t e).toSpares

theorem keeps_spares_load (s : Seat) (level : UInt64) :
    Step.Keeps (Spares s) (loadPending level) := keeps_spares_pending s (PendingStore.load level)

theorem keeps_spares_drop (s : Seat) (level : UInt64) (keys : List Digest)
    (loaded : PendingQueues) : Step.Keeps (Spares s) (dropPending level keys loaded) := by
  unfold dropPending
  split
  · refine .bind (keeps_spares_pending s (PendingStore.drop level keys loaded)) fun answer ↦ ?_
    cases answer with
    | ok _ => exact .pure _
    | error e => exact keeps_spares_alarm s e
  · exact .pure _

theorem keeps_spares_store (s : Seat) (peer : PeerId) (blocks : List Block) :
    Step.Keeps (Spares s) (storePending peer blocks) := by
  refine .bind (keeps_spares_pending s (PendingStore.store blocks)) fun answer ↦ ?_
  cases answer with
  | ok stored => exact .bind (fun _ h ↦ ⟨h.chain, h.imported⟩) fun _ ↦ .pure _
  | error e => exact .bind (keeps_spares_alarm s e) fun _ ↦ .pure _

/-- Handing a list to the chain answers the error that is set, or comes from linking the blocks. -/
theorem handed_connect (s : Seat) (blocks : List Block) :
    Handed s blocks ((connect blocks).exec s).1 ((connect blocks).leaves s) := by
  obtain ⟨laterFailure, hlater⟩ := s.node.exists_takeLaterFailure
  have hrun : (connect blocks).exec s =
      match s.node.takeLaterFailure with
      | (some e, n) => (.ok (.error e), { s with node := n })
      | (none, n) => (((Chain.connect blocks).exec n.chain).1,
          { s with node := { n with chain := (Chain.connect blocks).leaves n.chain } }) := by
    have hget : nodePart.get s = s.node := rfl
    simp only [connect, Node.connect, Step.exec_part, Step.exec_bind, Step.exec_update, hget]
    cases s.node.takeLaterFailure with
    | mk failure n => cases failure <;> rfl
  rw [Step.leaves, hrun]
  cases htake : s.node.takeLaterFailure with
  | mk failure n =>
    obtain rfl : n = { s.node with laterFailure } := by rw [← hlater, htake]
    cases failure with
    | some e =>
      exact ⟨rfl, rfl, rfl, .refl _, rfl, fun h ↦ (by cases h), fun _ ↦ Chain.Adds.refl _ _,
        fun h ↦ (by cases h), fun h ↦ (by cases h)⟩
    | none =>
      obtain ⟨hwithin, hfloor, hlinks⟩ := Chain.connect_spec blocks s.node.chain
      obtain ⟨hrefuses, hadds⟩ := Chain.adds_connect blocks s.node.chain
      exact ⟨rfl, rfl, rfl, hwithin, hfloor, hlinks _, hrefuses _, hadds _,
        Chain.bestNumber_connect blocks s.node.chain⟩

end Seat

/-- A seat with what is noted while batches are imported at it. -/
structure Watched where
  /-- The seat. -/
  seat : Seat
  /-- The errors that are set for the next lists, one entry for each list. -/
  errors : List (Option ChainError)
  /-- The lists handed over so far, earliest first. -/
  calls : List Call
  /-- The hashes remembered so far, earliest first. -/
  remembered : List Digest
  /-- The seats passed so far, latest first. -/
  passed : List Seat

namespace Watched

variable {α β : Type}

/-- A seat at which nothing was noted yet, with errors set for the next lists. -/
def on (s : Seat) (errors : List (Option ChainError)) : Watched := ⟨s, errors, [], [], []⟩

def seatPart : Part Watched Seat := ⟨seat, fun seat w ↦ { w with seat, passed := seat :: w.passed }⟩

/-- Runs a step at the watched seat. -/
def watch (step : Step Seat α) : Step Watched α := seatPart.run step

def remember (hashes : List Digest) : Step Watched Unit := do
  modify fun w ↦ { w with remembered := w.remembered ++ hashes }
  watch (Seat.remember hashes)

/-- The chain answers a list with the error that is set for it, or links the blocks. -/
def connect (range : Option (UInt64 × Digest)) (blocks : List Block) :
    Step Watched (Except ChainError ConnectReport) := fun w ↦
  let (answer, seat) := (Seat.connect blocks).exec (w.seat.failing w.errors.head?.join)
  (answer,
    { w with
      seat
      errors := w.errors.tail
      calls := w.calls ++ [⟨range, blocks, answer⟩]
      passed := seat :: w.passed })

/-- The watched seat as the place where batches are imported. -/
def importSite : ImportSite Watched := ⟨seatPart, connect, remember⟩

def processBatch (batch : BlockBatch) : Step Watched BatchReport := importSite.processBatch batch

@[simp] theorem importSite_run (step : Step Seat α) : importSite.seat.run step = watch step := rfl

@[simp] theorem importSite_connect : importSite.connect = connect := rfl

@[simp] theorem importSite_remember : importSite.remember = remember := rfl

/-! ### A watched import is an import -/

/-- Run where no errors are set, the watched step answers as the other one does at the seat, and
leaves the seat that the other one leaves. -/
abbrev Mirrors (watched : Step Watched α) (step : Step Seat α) : Prop :=
  Step.Mirrors seat (fun w ↦ w.errors = []) watched step

namespace Mirrors

theorem watch (step : Step Seat α) : Mirrors (watch step) step := fun _ h ↦ ⟨rfl, rfl, h⟩

theorem remember (hashes : List Digest) : Mirrors (remember hashes) (Seat.remember hashes) :=
  fun _ h ↦ ⟨rfl, rfl, h⟩

theorem connect (range : Option (UInt64 × Digest)) (blocks : List Block) :
    Mirrors (connect range blocks) (Seat.connect blocks) := by
  intro w hw
  have hseat : w.seat.failing w.errors.head?.join = w.seat := by
    rw [hw]
    rfl
  have herrors : w.errors.tail = [] := by rw [hw, List.tail_nil]
  have hrun : (Watched.connect range blocks).exec w =
      (((Seat.connect blocks).exec w.seat).1,
        { w with
          seat := ((Seat.connect blocks).exec w.seat).2
          errors := w.errors.tail
          calls := w.calls ++ [⟨range, blocks, ((Seat.connect blocks).exec w.seat).1⟩]
          passed := ((Seat.connect blocks).exec w.seat).2 :: w.passed }) := by
    conv_rhs => rw [← hseat]
    rfl
  rw [Step.leaves, hrun]
  exact ⟨rfl, rfl, herrors⟩

theorem handOver (peer : PeerId) (range : Option (UInt64 × Digest)) (blocks : List Block) :
    Mirrors (importSite.handOver peer range blocks)
      (Seat.importSite.handOver peer range blocks) := by
  refine .bind (connect range blocks) fun answer ↦ ?_
  cases answer with
  | error e => exact .bind (watch _) fun _ ↦ .pure _
  | ok report => exact .bind (.bind (remember _) fun _ ↦ watch _) fun _ ↦ .pure _

theorem drainRanges (peer : PeerId) (level : UInt64) (ranges : List (Digest × List Block)) :
    ∀ d, Mirrors (importSite.drainRanges peer level ranges d)
      (Seat.drainRanges peer level ranges d) := by
  induction ranges with
  | nil => exact fun d ↦ .pure _
  | cons range rest ih =>
    obtain ⟨key, blocks⟩ := range
    intro d
    rw [Seat.drainRanges, ImportSite.drainRanges, ImportSite.drainRanges]
    refine .bind (watch get) fun s ↦ ?_
    dsimp only
    cases (s.wanted blocks).getLast? with
    | none => exact ih _
    | some last =>
      refine .bind (handOver _ _ _) fun answer ↦ ?_
      cases answer with
      | error e =>
        dsimp only
        cases e.isFatal with
        | true => exact .pure _
        | false => exact ih _
      | ok report =>
        obtain ⟨bestNumber, imported, outcome⟩ := report
        cases outcome with
        | exist => exact .bind (.lift _) fun above ↦ .bind (watch _) fun _ ↦ ih _
        | imported best => exact .bind (.lift _) fun above ↦ .bind (watch _) fun _ ↦ ih _
        | invalid => exact ih _
        | noParent => exact ih _

theorem drainLevel (peer : PeerId) (level : UInt64) (d : Drain) :
    Mirrors (importSite.drainLevel peer level d) (Seat.drainLevel peer level d) := by
  refine .bind (watch _) fun answer ↦ ?_
  cases answer with
  | error e => exact .bind (watch _) fun _ ↦ .pure _
  | ok queues =>
    refine .bind (drainRanges _ _ _ _) fun answer ↦ ?_
    obtain ⟨goesOn, d⟩ := answer
    cases goesOn with
    | true => exact .bind (watch _) fun _ ↦ .pure _
    | false => exact .pure _

theorem drain (peer : PeerId) (level : UInt64) (d : Drain) :
    Mirrors (importSite.drain peer level d) (Seat.drain peer level d) := by
  -- By induction on the number of levels that are left up to the last height.
  induction hn : UInt64.size - level.toNat using Nat.strongRecOn generalizing level d with
  | ind n ih =>
    by_cases hlast : d.lastLevel < level
    · rw [Seat.drain, ImportSite.drain, ImportSite.drain, if_pos hlast, if_pos hlast]
      exact .pure _
    · rw [Seat.drain, ImportSite.drain_of_not_lt _ hlast, ImportSite.drain_of_not_lt _ hlast]
      refine .bind (drainLevel _ _ _) fun answer ↦ ?_
      obtain ⟨goesOn, d⟩ := answer
      cases goesOn with
      | false => exact .pure _
      | true =>
        dsimp only
        rw [if_pos rfl, if_pos rfl]
        cases hnext : checkedAdd level 1 with
        | error e => exact .throw e
        | ok next =>
          have hone : (1 : UInt64).toNat = 1 := rfl
          have := toNat_of_checkedAdd_eq_ok hnext
          have := next.toNat_lt_size
          exact ih (UInt64.size - next.toNat) (by omega) next d rfl

theorem importWanted (peer : PeerId) (bestBefore : UInt64) (blocks : List Block)
    (first last : Block) :
    Mirrors (importSite.importWanted peer bestBefore blocks first last)
      (Seat.importWanted peer bestBefore blocks first last) := by
  refine .bind (handOver _ _ _) fun answer ↦ ?_
  cases answer with
  | error e => exact .pure _
  | ok report =>
    obtain ⟨bestNumber, imported, outcome⟩ := report
    cases outcome with
    | noParent =>
      exact .bind (watch _) fun stored ↦ .bind (.lift _) fun limit ↦ .bind (watch _) fun mode ↦
        .bind (.pure _) fun _ ↦ .pure _
    | invalid =>
      exact .bind (.pure _) fun stored ↦ .bind (.lift _) fun limit ↦ .bind (watch _) fun mode ↦
        .bind (.pure _) fun _ ↦ .pure _
    | exist | imported _ =>
      exact .bind (.pure _) fun stored ↦ .bind (.lift _) fun limit ↦ .bind (watch _) fun mode ↦
        .bind (.lift _) fun lastLevel ↦ .bind (drain _ _ _) fun drained ↦ .pure _

end Mirrors

/-- Where no errors are set, a watched import answers as the import of the batch does at the seat,
and leaves the seat that the import leaves. -/
theorem mirrors_processBatch (batch : BlockBatch) :
    Mirrors (processBatch batch) (Seat.processBatch batch) := by
  have hnote {report : BatchReport} : Mirrors
      (importSite.seat.run Seat.noteBest >>= fun _ ↦ pure report)
      (Seat.importSite.seat.run Seat.noteBest >>= fun _ ↦ pure report) :=
    .bind (Mirrors.watch _) fun _ ↦ .pure _
  refine .bind (Mirrors.watch get) fun s ↦ ?_
  dsimp only
  cases (s.wanted batch.blocks).head? with
  | none => exact .bind (Mirrors.watch _) fun _ ↦ .bind (.pure _) fun _ ↦ hnote
  | some first =>
    cases (s.wanted batch.blocks).getLast? with
    | none => exact .bind (Mirrors.watch _) fun _ ↦ .bind (.pure _) fun _ ↦ hnote
    | some last =>
      dsimp only
      by_cases hknown : (decide (s.engine.modes.mode batch.peer ≠ .backward) &&
          s.node.chain.isStored last.hash last.number) = true
      · rw [if_pos hknown, if_pos hknown]
        exact .bind (Mirrors.remember _) fun _ ↦ .bind (Mirrors.watch _) fun _ ↦
          .bind (.pure _) fun _ ↦ hnote
      · rw [if_neg hknown, if_neg hknown]
        exact .bind (Mirrors.importWanted _ _ _ _ _) fun _ ↦ hnote

/-! ### Handing over a list -/

/-- What handing over a list leaves: the list is noted, what was reported is remembered, and all the
rest of concern is the same. -/
structure HandsOver (w : Watched) (call : Call) (v : Watched) : Prop where
  /-- The list is noted last. -/
  calls : v.calls = w.calls ++ [call]
  /-- What was reported is noted as remembered. -/
  remembered : v.remembered = w.remembered ++ call.reported
  /-- What was reported is remembered. -/
  imported : v.seat.engine.imported = w.seat.engine.imported.insertAll call.reported
  /-- The pending store is the same. -/
  pending : v.seat.node.pending = w.seat.node.pending
  /-- No stored block is lost. -/
  within : w.seat.node.chain.Within v.seat.node.chain
  /-- The same heights are pruned. -/
  pruneFloor : v.seat.node.chain.pruneFloor = w.seat.node.chain.pruneFloor
  /-- What was reported comes from linking the blocks. -/
  links {report : ConnectReport} : call.report? = some report →
    ∃ c, (Chain.importBlocks call.blocks .exist).exec c =
      (.ok (report.imported, report.outcome), v.seat.node.chain)
  /-- Unless the chain ran out of heights, what is added was reported. -/
  adds : call.Answered → w.seat.node.chain.Adds v.seat.node.chain call.reported
  /-- The height of the best block was reported, and it is the same if nothing was imported. -/
  best {report : ConnectReport} : call.report? = some report →
    report.bestNumber = v.seat.node.chain.bestNumber ∧
      (report.imported = [] → v.seat.node.chain.bestNumber = w.seat.node.chain.bestNumber)
  /-- At every seat passed the blocks are handed over, and what was reported is remembered or
  not. -/
  passed {s : Seat} : s ∈ v.passed → s ∈ w.passed ∨ s.node.chain = v.seat.node.chain ∧
    (s.engine.imported = w.seat.engine.imported ∨ s.engine.imported = v.seat.engine.imported)

theorem HandsOver.mem {w v : Watched} {call : Call} (hover : HandsOver w call v) :
    call ∈ v.calls := hover.calls ▸ List.mem_append_right _ List.mem_cons_self

/-- The error that is set for the next list changes nothing of concern. -/
theorem handed_failing {s t : Seat} {error : Option ChainError} {blocks : List Block}
    {answer : Except Fault (Except ChainError ConnectReport)}
    (h : (s.failing error).Handed blocks answer t) : s.Handed blocks answer t := by
  cases error with
  | none => exact h
  | some e =>
    exact ⟨h.engine, h.pending, h.accepts, h.within, h.pruneFloor, h.links, h.refuses, h.adds,
      h.best⟩

/-- A seat is watched at which a list was handed to the chain. -/
def called (w : Watched) (call : Call) (t : Seat) : Watched :=
  { w with
    seat := t
    errors := w.errors.tail
    calls := w.calls ++ [call]
    passed := t :: w.passed }

/-- A list for which nothing was reported is handed over. -/
theorem HandsOver.of_refused {w : Watched} {call : Call} {t : Seat}
    (handed : w.seat.Handed call.blocks call.answer t) (refused : call.report? = none) :
    HandsOver w call (w.called call t) := by
  have himported : t.engine.imported = w.seat.engine.imported := by rw [handed.engine]
  have hreported : call.reported = [] := by rw [Call.reported, refused]; rfl
  have hnone {report : ConnectReport} (h : call.report? = some report) : False := by
    rw [refused] at h
    cases h
  refine ⟨rfl, ?_, ?_, handed.pending, handed.within, handed.pruneFloor, fun h ↦ (hnone h).elim,
    ?_, fun h ↦ (hnone h).elim, fun hs ↦ ?_⟩
  · rw [hreported, List.append_nil]
    rfl
  · rw [hreported]
    exact himported
  · rintro ⟨e | report, answered⟩
    · rw [hreported]
      exact handed.refuses answered
    · rw [Call.report?, answered] at refused
      cases refused
  · rcases List.mem_cons.mp hs with rfl | hs
    · exact .inr ⟨rfl, .inl himported⟩
    · exact .inl hs

/-- After a list was handed over a step may leave another seat that differs in nothing of
concern. -/
theorem HandsOver.put {w v : Watched} {call : Call} {s : Seat} (h : HandsOver w call v)
    (spares : v.seat.SparesAll s) : HandsOver w call (seatPart.put s v) := by
  have hchain : s.node.chain = v.seat.node.chain := spares.chain
  have himported : s.engine.imported = v.seat.engine.imported := spares.imported
  refine ⟨h.calls, h.remembered, himported.trans h.imported, spares.pending.trans h.pending, ?_,
    (congrArg _ hchain).trans h.pruneFloor, fun hr ↦ ?_, fun answered ↦ ?_, fun hr ↦ ?_,
    fun hs ↦ ?_⟩
  · change w.seat.node.chain.Within s.node.chain
    rw [hchain]
    exact h.within
  · obtain ⟨c, hc⟩ := h.links hr
    exact ⟨c, hc.trans (by rw [← hchain]; rfl)⟩
  · change w.seat.node.chain.Adds s.node.chain call.reported
    rw [hchain]
    exact h.adds answered
  · have hbest : (seatPart.put s v).seat.node.chain.bestNumber = v.seat.node.chain.bestNumber :=
      congrArg Chain.bestNumber hchain
    rw [hbest]
    exact h.best hr
  · rcases List.mem_cons.mp hs with rfl | hs
    · exact .inr ⟨rfl, .inr rfl⟩
    · refine (h.passed hs).imp_right fun ⟨hc, hi⟩ ↦ ⟨hc.trans hchain.symm, ?_⟩
      exact hi.imp_right fun hi ↦ hi.trans himported.symm

/-- A list for which the chain reported something is handed over once that is remembered. -/
theorem HandsOver.of_reported {w : Watched} {call : Call} {t : Seat} {report : ConnectReport}
    (handed : w.seat.Handed call.blocks (.ok (.ok report)) t) (hr : call.report? = some report)
    (peer : PeerId) :
    HandsOver w call ((importSite.recordConnected peer report).leaves (w.called call t)) := by
  have himported : t.engine.imported = w.seat.engine.imported := by rw [handed.engine]
  have hreported : call.reported = report.imported := by rw [Call.reported, hr]; rfl
  have hremembered : t.engine.imported.insertAll report.imported =
      w.seat.engine.imported.insertAll report.imported := by rw [himported]
  have hleaves : (importSite.recordConnected peer report).leaves (w.called call t) =
      { w.called call t with
        seat := t.linked peer t.node.chain report.imported
        remembered := w.remembered ++ report.imported
        passed := t.linked peer t.node.chain report.imported ::
          t.withImported (t.engine.imported.insertAll report.imported) :: t :: w.passed } := rfl
  rw [hleaves]
  refine ⟨rfl, hreported ▸ rfl, hreported ▸ hremembered, handed.pending, handed.within,
    handed.pruneFloor, fun h ↦ ?_, fun _ ↦ hreported ▸ handed.adds rfl, fun h ↦ ?_, fun hs ↦ ?_⟩
  · obtain rfl := Option.some.inj (hr.symm.trans h)
    exact handed.links rfl
  · obtain rfl := Option.some.inj (hr.symm.trans h)
    exact handed.best rfl
  · rcases List.mem_cons.mp hs with rfl | hs
    · exact .inr ⟨rfl, .inr rfl⟩
    rcases List.mem_cons.mp hs with rfl | hs
    · exact .inr ⟨rfl, .inr rfl⟩
    rcases List.mem_cons.mp hs with rfl | hs
    · exact .inr ⟨rfl, .inl himported⟩
    · exact .inl hs

/-- Handing over a list does nothing else, and what it answers is noted with the list. -/
theorem exists_handsOver (peer : PeerId) (range : Option (UInt64 × Digest)) (blocks : List Block)
    (w : Watched) :
    ∃ call : Call, call.range = range ∧ call.blocks = blocks ∧
      HandsOver w call ((importSite.handOver peer range blocks).leaves w) ∧
      ∀ answer, ((importSite.handOver peer range blocks).exec w).1 = .ok answer →
        call.answer = .ok answer := by
  have handed := handed_failing (Seat.handed_connect (w.seat.failing w.errors.head?.join) blocks)
  have hrun : (connect range blocks).exec w =
      (((Seat.connect blocks).exec (w.seat.failing w.errors.head?.join)).1,
        w.called
          ⟨range, blocks, ((Seat.connect blocks).exec (w.seat.failing w.errors.head?.join)).1⟩
          ((Seat.connect blocks).leaves (w.seat.failing w.errors.head?.join))) := rfl
  generalize ((Seat.connect blocks).exec (w.seat.failing w.errors.head?.join)).1 = answer at *
  generalize (Seat.connect blocks).leaves (w.seat.failing w.errors.head?.join) = t at *
  refine ⟨⟨range, blocks, answer⟩, rfl, rfl, ?_⟩
  rw [Step.leaves, ImportSite.handOver, importSite_connect, Step.exec_bind, hrun]
  rcases answer with fault | e | report
  · exact ⟨.of_refused handed rfl, fun _ h ↦ by cases h⟩
  · refine ⟨(HandsOver.of_refused handed rfl).put (s := { t with
      node := t.node.reportChainError e }) ?_, fun _ h ↦ ?_⟩
    · exact Seat.sparesAll_reportChainError t e
    · cases h
      rfl
  · have hover : HandsOver w ⟨range, blocks, .ok (.ok report)⟩ _ := .of_reported handed rfl peer
    rw [Step.leaves] at hover
    dsimp only
    rw [Step.exec_bind]
    cases hcount : (importSite.recordConnected peer report).exec
        (w.called ⟨range, blocks, .ok (.ok report)⟩ t) with
    | mk counted v =>
      rw [hcount] at hover
      cases counted with
      | error fault => exact ⟨hover, fun _ h ↦ by cases h⟩
      | ok _ =>
        refine ⟨hover, fun _ h ↦ ?_⟩
        cases h
        rfl

/-- A list that is answered is noted with the answer, and nothing else is done. -/
theorem handsOver_of_exec {peer : PeerId} {range : Option (UInt64 × Digest)} {blocks : List Block}
    {w v : Watched} {answer : Except ChainError ConnectReport}
    (run : (importSite.handOver peer range blocks).exec w = (.ok answer, v)) :
    HandsOver w ⟨range, blocks, .ok answer⟩ v := by
  obtain ⟨⟨_, _, answer'⟩, rfl, rfl, hover, hanswer⟩ := exists_handsOver peer range blocks w
  rw [Step.leaves, run] at hover
  obtain rfl : answer' = .ok answer := hanswer answer (by rw [run])
  exact hover

/-! ### What imports keep -/

/-- A property that the edits of handing over ranges keep. -/
structure KeptByRanges (P : Watched → Prop) : Prop where
  /-- Passing to a seat that differs in nothing of concern keeps it. -/
  sparesAll {w : Watched} {s : Seat} : P w → w.seat.SparesAll s → P (seatPart.put s w)
  /-- Handing over blocks that are not remembered keeps it. -/
  handsOver {w v : Watched} {call : Call} : P w →
    (∀ b ∈ call.blocks, b.hash ∉ w.seat.engine.imported.keys) → HandsOver w call v → P v

/-- A property that every edit of an import keeps. -/
structure KeptByBatches (P : Watched → Prop) : Prop extends KeptByRanges P where
  /-- Passing to a seat with other pending ranges keeps it. -/
  spares {w : Watched} {s : Seat} : P w → w.seat.Spares s → P (seatPart.put s w)
  /-- Remembering the hash of a stored block keeps it. -/
  remembered {w : Watched} {hash : Digest} {number : UInt64} : P w →
    w.seat.node.chain.isStored hash number = true →
      P ((remember [hash]).leaves w)

/-- Blocks that are wanted are not remembered. -/
theorem not_mem_of_mem_wanted {s : Seat} {blocks : List Block} {b : Block}
    (h : b ∈ s.wanted blocks) : b.hash ∉ s.engine.imported.keys := by
  have hb := (List.mem_filter.mp h).2
  rw [Bool.and_eq_true, Bool.not_eq_true'] at hb
  intro hmem
  rw [RecentSet.contains, List.contains_iff_mem.mpr hmem] at hb
  cases hb.1

/-- What holds after each way in which an import can go on from looking at its seat, and is kept
when the local best block is noted, holds after the import. -/
theorem leaves_processBatch {P : Watched → Prop} {w : Watched} {batch : BlockBatch}
    (noted : Step.Keeps P (watch Seat.noteBest))
    (nothing : P ((watch (Seat.applyMode batch.peer .emptyAfterFilter)).leaves
      (seatPart.put w.seat w)))
    (known : ∀ last : Block, w.seat.node.chain.isStored last.hash last.number = true →
      P ((do
        remember [last.hash]
        watch (Seat.applyMode batch.peer .skippedKnown)).leaves (seatPart.put w.seat w)))
    (offered : ∀ first last, P ((importSite.importWanted batch.peer w.seat.node.chain.bestNumber
      (w.seat.wanted batch.blocks) first last).leaves (seatPart.put w.seat w))) :
    P ((processBatch batch).leaves w) := by
  have hnote (report : BatchReport) : Step.Keeps P (do
      watch Seat.noteBest
      return report) := .bind noted fun _ ↦ .pure _
  have hnothing := Step.Keeps.seq nothing fun mode ↦
    .bind (.pure { BatchReport.start 0 with mode }) hnote
  have hlook : (watch get : Step Watched Seat).exec w = (.ok w.seat, seatPart.put w.seat w) := rfl
  rw [processBatch, ImportSite.processBatch, Step.leaves, importSite_run,
    Step.exec_bind_of_ok hlook, ← Step.leaves]
  dsimp only
  cases (w.seat.wanted batch.blocks).head? with
  | none => exact hnothing
  | some first =>
    cases (w.seat.wanted batch.blocks).getLast? with
    | none => exact hnothing
    | some last =>
      dsimp only
      split
      · next hknown =>
        rw [Bool.and_eq_true] at hknown
        have h := Step.Keeps.seq (known last hknown.2) fun mode ↦ .bind
          (.pure { BatchReport.start (w.seat.wanted batch.blocks).length with
            skipped := true, mode }) hnote
        rwa [bind_assoc] at h
      · exact Step.Keeps.seq (offered first last) hnote

namespace KeptByRanges

variable {P : Watched → Prop}

/-- A step that changes nothing of concern at the seat keeps the property. -/
theorem watch (kept : KeptByRanges P) {step : Step Seat α}
    (spares : ∀ s : Seat, s.SparesAll (step.leaves s)) : Step.Keeps P (watch step) :=
  fun w h ↦ kept.sparesAll h (spares w.seat)

/-- Looking at the seat and going on from there keeps the property. -/
theorem look (kept : KeptByRanges P) {next : Seat → Step Watched α}
    (rest : ∀ w, P w → P ((next w.seat).leaves w)) :
    Step.Keeps P (Watched.watch get >>= next) := by
  intro w h
  exact rest (seatPart.put w.seat w) (kept.sparesAll h (.refl _))

/-- Handing over blocks that are not remembered and going on keeps the property. -/
theorem handOver (kept : KeptByRanges P) {w : Watched} {peer : PeerId}
    {range : Option (UInt64 × Digest)} {blocks : List Block}
    {next : Except ChainError ConnectReport → Step Watched α} (h : P w)
    (fresh : ∀ b ∈ blocks, b.hash ∉ w.seat.engine.imported.keys)
    (rest : ∀ answer, Step.Keeps P (next answer)) :
    P ((importSite.handOver peer range blocks >>= next).leaves w) := by
  obtain ⟨call, -, rfl, hover, -⟩ := exists_handsOver peer range blocks w
  exact Step.Keeps.seq (kept.handsOver h fresh hover) rest

/-- Moving the mode of a peer keeps the property. -/
theorem applyMode (kept : KeptByRanges P) (peer : PeerId) (event : ImportEvent) :
    Step.Keeps P (Watched.watch (Seat.applyMode peer event)) :=
  kept.watch fun _ ↦ ⟨⟨rfl, rfl⟩, rfl⟩

/-- Handing over ranges keeps the property. -/
theorem drainRanges (kept : KeptByRanges P) (peer : PeerId) (level : UInt64)
    (ranges : List (Digest × List Block)) :
    ∀ d, Step.Keeps P (importSite.drainRanges peer level ranges d) := by
  induction ranges with
  | nil => exact fun d ↦ .pure _
  | cons range rest ih =>
    obtain ⟨key, blocks⟩ := range
    intro d
    rw [ImportSite.drainRanges]
    refine kept.look fun w h ↦ ?_
    dsimp only
    cases (w.seat.wanted blocks).getLast? with
    | none => exact ih _ h
    | some last =>
      refine kept.handOver h (fun b hb ↦ not_mem_of_mem_wanted hb) fun answer ↦ ?_
      cases answer with
      | error e =>
        dsimp only
        split
        · exact .pure _
        · exact ih _
      | ok report =>
        obtain ⟨bestNumber, imported, outcome⟩ := report
        cases outcome with
        | exist => exact .bind (.lift _) fun above ↦ .bind (kept.applyMode ..) fun _ ↦ ih _
        | imported best => exact .bind (.lift _) fun above ↦ .bind (kept.applyMode ..) fun _ ↦ ih _
        | invalid => exact ih _
        | noParent => exact ih _

end KeptByRanges

namespace KeptByBatches

variable {P : Watched → Prop}

/-- A step that spares the chain and what is remembered keeps the property. -/
theorem watch (kept : KeptByBatches P) {step : Step Seat α}
    (spares : ∀ s, Step.Keeps (Seat.Spares s) step) : Step.Keeps P (watch step) :=
  fun w h ↦ kept.spares h (spares w.seat (.refl _))

/-- Draining a level keeps the property. -/
theorem drainLevel (kept : KeptByBatches P) (peer : PeerId) (level : UInt64) (d : Drain) :
    Step.Keeps P (importSite.drainLevel peer level d) := by
  rw [ImportSite.drainLevel]
  refine .bind (kept.watch fun s ↦ Seat.keeps_spares_load s level) fun answer ↦ ?_
  cases answer with
  | error e => exact .bind (kept.watch fun s ↦ Seat.keeps_spares_alarm s e) fun _ ↦ .pure _
  | ok queues =>
    refine .bind (kept.drainRanges ..) fun answer ↦ ?_
    obtain ⟨goesOn, d⟩ := answer
    cases goesOn with
    | true => exact .bind (kept.watch fun s ↦ Seat.keeps_spares_drop s _ _ _) fun _ ↦ .pure _
    | false => exact .pure _

/-- Draining levels keeps the property. -/
theorem drain (kept : KeptByBatches P) (peer : PeerId) (level : UInt64) (d : Drain) :
    Step.Keeps P (importSite.drain peer level d) := by
  -- By induction on the number of levels that are left up to the last height.
  induction hn : UInt64.size - level.toNat using Nat.strongRecOn generalizing level d with
  | ind n ih =>
    rw [ImportSite.drain]
    split
    · exact .pure _
    · refine .bind (kept.drainLevel ..) fun answer ↦ ?_
      obtain ⟨goesOn, d⟩ := answer
      cases goesOn with
      | false => exact .pure _
      | true =>
        dsimp only
        rw [if_pos rfl]
        split
        · exact .throw _
        · next next hnext =>
          have hone : (1 : UInt64).toNat = 1 := rfl
          have := toNat_of_checkedAdd_eq_ok hnext
          have := next.toNat_lt_size
          exact ih (UInt64.size - next.toNat) (by omega) next d rfl

/-- Handing over the wanted blocks of a batch, none of them remembered, keeps the property. -/
theorem importWanted (kept : KeptByBatches P) {w : Watched} {blocks : List Block} (h : P w)
    (fresh : ∀ b ∈ blocks, b.hash ∉ w.seat.engine.imported.keys) (peer : PeerId)
    (bestBefore : UInt64) (first last : Block) :
    P ((importSite.importWanted peer bestBefore blocks first last).leaves w) := by
  refine kept.handOver h fresh fun answer ↦ ?_
  cases answer with
  | error e => exact .pure _
  | ok report =>
    obtain ⟨bestNumber, imported, outcome⟩ := report
    cases outcome with
    | noParent =>
      exact .bind (kept.watch fun s ↦ Seat.keeps_spares_store s _ _) fun stored ↦
        .bind (.lift _) fun _ ↦ .bind (kept.applyMode ..) fun mode ↦ .bind (.pure _) fun _ ↦ .pure _
    | invalid =>
      exact .bind (.pure _) fun stored ↦ .bind (.lift _) fun _ ↦ .bind (kept.applyMode ..)
        fun mode ↦ .bind (.pure _) fun _ ↦ .pure _
    | exist | imported _ =>
      exact .bind (.pure _) fun stored ↦ .bind (.lift _) fun _ ↦ .bind (kept.applyMode ..)
        fun mode ↦ .bind (.lift _) fun _ ↦ .bind (kept.drain ..) fun drained ↦ .pure _

/-- Importing a batch keeps the property. -/
theorem processBatch (kept : KeptByBatches P) (batch : BlockBatch) :
    Step.Keeps P (processBatch batch) := by
  intro w h
  have hlook := kept.sparesAll h (.refl w.seat)
  refine leaves_processBatch (kept.toKeptByRanges.watch fun _ ↦ ⟨⟨rfl, rfl⟩, rfl⟩)
    (kept.applyMode _ _ hlook) (fun last stored ↦ ?_) fun first last ↦ ?_
  · exact Step.Keeps.seq (kept.remembered hlook stored) fun _ ↦ kept.applyMode ..
  · exact kept.importWanted hlook (fun b hb ↦ not_mem_of_mem_wanted hb) ..

end KeptByBatches

end Watched
end ChainSync
