import ChainSync.Engine.Import
import ChainSync.Proofs.Chain.Growth

/-!
# What the parts of an import do to a seat

A seat is calm when its ranges are kept in memory and no error is set for a later call. From a calm
seat every part of an import answers without an error of the chain or of the pending store; what
can still go wrong is a sum that does not fit.
-/

namespace ChainSync

/-! ### Counters -/

namespace Stats

theorem counters_setCounters (s : Stats) (peer p : PeerId) (c : PeerCounters) :
    (s.setCounters peer c).counters p = if peer = p then c else s.counters p := by
  simp only [counters, setCounters, Std.ExtTreeMap.getElem?_insert,
    Std.LawfulEqOrd.compare_eq_iff_eq]
  split <;> rfl

/-- Imported blocks that can be counted are added to those of the peer. -/
theorem exec_recordImported {peer : PeerId} {blocks : UInt64} {s : Stats}
    (fits : (s.counters peer).imported.toNat + blocks.toNat < UInt64.size) :
    ∃ t, (recordImported peer blocks).exec s = (.ok (), t) ∧ ∀ p,
      (t.counters p).stored = (s.counters p).stored ∧
      (t.counters p).imported.toNat =
        (s.counters p).imported.toNat + if peer = p then blocks.toNat else 0 := by
  unfold recordImported
  by_cases hz : blocks = 0
  · refine ⟨s, by simp [hz], fun p ↦ ⟨rfl, by simp [hz]⟩⟩
  · have hadd := isOk_checkedAdd_iff.mpr fits
    simp only [ne_eq, hz, not_false_eq_true, if_true, Step.exec_bind, Step.exec_get, Step.exec_set,
      Step.exec_lift, hadd]
    refine ⟨_, rfl, fun p ↦ ?_⟩
    rw [counters_setCounters]
    by_cases hp : peer = p
    · subst hp
      rw [if_pos rfl, if_pos rfl]
      exact ⟨rfl, toNat_of_checkedAdd_eq_ok hadd⟩
    · rw [if_neg hp, if_neg hp]
      exact ⟨rfl, rfl⟩

/-- Stored blocks that can be counted are added to those of the peer. -/
theorem exec_recordStored {peer : PeerId} {blocks : UInt64} {s : Stats}
    (fits : (s.counters peer).stored.toNat + blocks.toNat < UInt64.size) :
    ∃ t, (recordStored peer blocks).exec s = (.ok (), t) ∧ ∀ p,
      (t.counters p).imported = (s.counters p).imported ∧
      (t.counters p).stored.toNat =
        (s.counters p).stored.toNat + if peer = p then blocks.toNat else 0 := by
  unfold recordStored
  by_cases hz : blocks = 0
  · refine ⟨s, by simp [hz], fun p ↦ ⟨rfl, by simp [hz]⟩⟩
  · have hadd := isOk_checkedAdd_iff.mpr fits
    simp only [ne_eq, hz, not_false_eq_true, if_true, Step.exec_bind, Step.exec_get, Step.exec_set,
      Step.exec_lift, hadd]
    refine ⟨_, rfl, fun p ↦ ?_⟩
    rw [counters_setCounters]
    by_cases hp : peer = p
    · subst hp
      rw [if_pos rfl, if_pos rfl]
      exact ⟨rfl, toNat_of_checkedAdd_eq_ok hadd⟩
    · rw [if_neg hp, if_neg hp]
      exact ⟨rfl, rfl⟩

/-- Imported blocks that cannot be counted fault. -/
theorem recordImported_overflow {peer : PeerId} {blocks : UInt64} {s : Stats}
    (full : UInt64.size ≤ (s.counters peer).imported.toNat + blocks.toNat) :
    ((recordImported peer blocks).exec s).1 = .error .additionOverflow := by
  have hz : blocks ≠ 0 := by
    rintro rfl
    have := (s.counters peer).imported.toNat_lt_size
    simp at full
    omega
  have hadd := checkedAdd_eq_error_iff.mpr ⟨full, rfl⟩
  simp [recordImported, hz, Step.exec_bind, hadd]

/-- Stored blocks that cannot be counted fault. -/
theorem recordStored_overflow {peer : PeerId} {blocks : UInt64} {s : Stats}
    (full : UInt64.size ≤ (s.counters peer).stored.toNat + blocks.toNat) :
    ((recordStored peer blocks).exec s).1 = .error .additionOverflow := by
  have hz : blocks ≠ 0 := by
    rintro rfl
    have := (s.counters peer).stored.toNat_lt_size
    simp at full
    omega
  have hadd := checkedAdd_eq_error_iff.mpr ⟨full, rfl⟩
  simp [recordStored, hz, Step.exec_bind, hadd]

end Stats

namespace Seat

/-- No error is set for a later import of blocks. -/
structure Ready (s : Seat) : Prop where
  /-- No error is set for a later import of the engine. -/
  later : s.node.laterFailure = none
  /-- No error is set for the next import of the chain. -/
  chain : s.node.chain.nextFailure = none

/-- No error is set for a later call, and pending ranges are kept in memory. -/
structure Calm (s : Seat) : Prop where
  /-- No error is set for a later import of the engine. -/
  later : s.node.laterFailure = none
  /-- No error is set for the next import of the chain. -/
  chain : s.node.chain.nextFailure = none
  /-- No error is set for the next call of the pending store. -/
  pending : s.node.pending.nextFailure = none
  /-- Pending ranges are kept in memory. -/
  memory : ∃ index, s.node.pending.backing = .memory index

/-- A seat of a new engine with any modes over a chain, with no pending ranges. -/
def fresh (c : Chain) (accepts : Header → Bool) (settings : Settings) (inbox : TrieInbox)
    (modes : ModeTable) : Seat :=
  ⟨.new c .inMemory accepts, { Engine.new settings c.bestNumber inbox with modes }⟩

theorem Calm.ready {s : Seat} (calm : Calm s) : Ready s := ⟨calm.later, calm.chain⟩

/-- A new engine over a chain without a set error has a calm seat. -/
theorem calm_fresh {c : Chain} (h : c.nextFailure = none) (accepts : Header → Bool)
    (settings : Settings) (inbox : TrieInbox) (modes : ModeTable) :
    Calm (fresh c accepts settings inbox modes) := ⟨rfl, h, rfl, .empty, rfl⟩

def withChain (s : Seat) (c : Chain) : Seat := { s with node := { s.node with chain := c } }

def withRegistry (s : Seat) (registry : Registry) : Seat :=
  { s with node := { s.node with registry } }

/-- The seat with an error set for the next import of its chain, if one is given. -/
def failing (s : Seat) (error : Option ChainError) : Seat :=
  s.withChain (s.node.chain.failing error)

/-- The seat with other pending ranges, kept in memory. -/
def withIndex (s : Seat) (index : PendingIndex) : Seat :=
  { s with node := { s.node with pending := { s.node.pending with backing := .memory index } } }

def withImported (s : Seat) (imported : RecentSet Digest) : Seat :=
  { s with engine := { s.engine with imported } }

def withStats (s : Seat) (stats : Stats) : Seat := { s with engine := { s.engine with stats } }

def withModes (s : Seat) (modes : ModeTable) : Seat := { s with engine := { s.engine with modes } }

def moved (s : Seat) (peer : PeerId) (event : ImportEvent) : Seat :=
  s.withModes (s.engine.modes.apply peer event).2

def linked (s : Seat) (peer : PeerId) (c : Chain) (imported : List Digest) : Seat :=
  ((s.withChain c).withImported (s.engine.imported.insertAll imported)).withStats
    ((Stats.recordImported peer (UInt64.ofNat imported.length)).exec s.engine.stats).2

def noted (s : Seat) : Seat := s.withStats (s.engine.stats.noteBest s.node.chain.bestNumber)

/-! ### Parts of an import -/

/-- Without pruned heights every block is wanted that was not imported lately. -/
theorem wanted_of_unpruned {s : Seat} (h : s.node.chain.pruneFloor = none) (blocks : List Block) :
    s.wanted blocks = blocks.filter fun block ↦ !s.engine.imported.contains block.hash := by
  simp [wanted, Chain.isPruned, h]

theorem exec_applyMode (peer : PeerId) (event : ImportEvent) (s : Seat) :
    (applyMode peer event).exec s =
      (.ok (s.engine.modes.apply peer event).1, s.moved peer event) := rfl

theorem exec_stats {α : Type} (step : Step Stats α) (s : Seat) :
    (statsPart.run step).exec s =
      ((step.exec s.engine.stats).1, s.withStats (step.exec s.engine.stats).2) := rfl

/-- Remembering and counting what the chain imported only counts with a check. -/
theorem exec_recordConnected (peer : PeerId) (report : ConnectReport) (s : Seat) (c : Chain) :
    (recordConnected peer report).exec (s.withChain c) =
      (((Stats.recordImported peer (UInt64.ofNat report.imported.length)).exec
        s.engine.stats).1, s.linked peer c report.imported) := rfl

/-- A seat without a set error hands blocks to its chain. -/
theorem exec_connect {s : Seat} (ready : Ready s) (blocks : List Block) :
    (connect blocks).exec s =
      match (Chain.importBlocks blocks .exist).exec s.node.chain with
      | (.ok (imported, outcome), c) =>
        (.ok (.ok { bestNumber := c.bestNumber, imported, outcome }), s.withChain c)
      | (.error e, c) => (.error e, s.withChain c) := by
  have hget : nodePart.get s = s.node := rfl
  have hchain : Node.chainPart.get s.node = s.node.chain := rfl
  have hlater : s.node.takeLaterFailure = (none, s.node) := by
    rw [Node.takeLaterFailure, ready.later]
  have htake : s.node.chain.takeFailure.2 = s.node.chain := by
    rw [Chain.takeFailure, ← ready.chain]
  have hlink : (Chain.connect blocks).exec s.node.chain = _ :=
    Chain.exec_connect blocks s.node.chain
  rw [ready.chain, htake] at hlink
  simp only [connect, Node.connect, Step.exec_part, Step.exec_bind, Step.exec_update, hget, hlater,
    hchain, hlink]
  cases (Chain.importBlocks blocks .exist).exec s.node.chain with
  | mk outcome c => cases outcome <;> rfl

/-- In a calm seat the ranges of a level are those that the index holds. -/
theorem exec_loadPending {s : Seat} (calm : Calm s) (level : UInt64) :
    (loadPending level).exec s = (.ok (.ok (s.node.pending.index.load level)), s) := by
  obtain ⟨index, hindex⟩ := calm.memory
  have hload : s.node.pending.load level = (.ok (index.load level), s.node.pending) := by
    simp only [PendingStore.load, PendingStore.takeFailure, calm.pending, hindex]
  simp only [loadPending, Step.exec_update, hload, PendingStore.index, hindex]

def dropped (s : Seat) (level : UInt64) (keys : List Digest) : Seat :=
  if keys.isEmpty then s else s.withIndex (s.node.pending.index.remove level keys)

/-- In a calm seat ranges are dropped from the index. -/
theorem exec_dropPending {s : Seat} (calm : Calm s) (level : UInt64) (keys : List Digest)
    (loaded : PendingQueues) :
    (dropPending level keys loaded).exec s = (.ok (), s.dropped level keys) := by
  obtain ⟨index, hindex⟩ := calm.memory
  have hdrop : s.node.pending.drop level keys loaded =
      (.ok (), { s.node.pending with backing := .memory (index.remove level keys) }) := by
    simp only [PendingStore.drop, PendingStore.takeFailure, calm.pending, hindex]
  unfold dropPending dropped
  by_cases hk : keys.isEmpty
  · simp [hk]
  · simp only [hk, Bool.not_false, if_true, Step.exec_bind, Step.exec_update, hdrop,
      PendingStore.index, hindex]
    rfl

/-- The seat after blocks of a peer were filed as pending and counted. -/
def parked (s : Seat) (peer : PeerId) (blocks : List Block) : Seat :=
  match s.node.pending.index.insert blocks with
  | none => s
  | some (_, index) => (s.withIndex index).withStats
    ((Stats.recordStored peer (UInt64.ofNat blocks.length)).exec s.engine.stats).2

/-- How many blocks are counted as stored when a list of blocks is filed. -/
def filed (s : Seat) (blocks : List Block) : Nat :=
  if (s.node.pending.index.insert blocks).isSome then blocks.length else 0

/-- In a calm seat storing a range is filing it in the index. -/
theorem store_pending {s : Seat} (calm : Calm s) (blocks : List Block) :
    s.node.pending.store blocks =
      match s.node.pending.index.insert blocks with
      | none => (.ok 0, s.node.pending)
      | some (_, index) =>
        (.ok blocks.length, { s.node.pending with backing := .memory index }) := by
  obtain ⟨index, hindex⟩ := calm.memory
  have hmem : s.node.pending.index = index := by
    simp only [PendingStore.index, hindex]
  rw [hmem]
  cases hinsert : index.insert blocks <;>
    simp only [PendingStore.store, PendingStore.takeFailure, calm.pending, hindex, hinsert]

/-- In a calm seat blocks are filed in the index, and only counting them can fault. -/
theorem exec_storePending {s : Seat} (calm : Calm s) (peer : PeerId) (blocks : List Block) :
    (storePending peer blocks).exec s =
      (((Stats.recordStored peer (UInt64.ofNat (s.filed blocks))).exec s.engine.stats).1.map
        fun _ ↦ s.filed blocks, s.parked peer blocks) := by
  unfold storePending parked filed
  simp only [Step.exec_bind, Step.exec_update, store_pending calm]
  cases s.node.pending.index.insert blocks with
  | none => rfl
  | some filed =>
    obtain ⟨level, filed⟩ := filed
    simp only [Step.exec_bind, exec_stats, Option.isSome_some, if_true]
    cases (Stats.recordStored peer (UInt64.ofNat blocks.length)).exec s.engine.stats with
    | mk outcome stats => cases outcome <;> rfl

/-! ### Calm seats stay calm -/

namespace Calm

variable {s : Seat}

theorem withImported (calm : Calm s) (imported : RecentSet Digest) :
    Calm (s.withImported imported) := ⟨calm.later, calm.chain, calm.pending, calm.memory⟩

theorem withStats (calm : Calm s) (stats : Stats) : Calm (s.withStats stats) :=
  ⟨calm.later, calm.chain, calm.pending, calm.memory⟩

theorem moved (calm : Calm s) (peer : PeerId) (event : ImportEvent) : Calm (s.moved peer event) :=
  ⟨calm.later, calm.chain, calm.pending, calm.memory⟩

theorem noted (calm : Calm s) : Calm s.noted :=
  ⟨calm.later, calm.chain, calm.pending, calm.memory⟩

theorem withIndex (calm : Calm s) (index : PendingIndex) : Calm (s.withIndex index) :=
  ⟨calm.later, calm.chain, calm.pending, index, rfl⟩

theorem dropped (calm : Calm s) (level : UInt64) (keys : List Digest) :
    Calm (s.dropped level keys) := by
  unfold Seat.dropped
  split
  · exact calm
  · exact calm.withIndex _

theorem parked (calm : Calm s) (peer : PeerId) (blocks : List Block) :
    Calm (s.parked peer blocks) := by
  unfold Seat.parked
  split
  · exact calm
  · exact (calm.withIndex _).withStats _

theorem linked (calm : Calm s) {blocks : List Block} {last : ImportOutcome}
    {answer : Except Fault (List Digest × ImportOutcome)} {c : Chain}
    (runs : (Chain.importBlocks blocks last).exec s.node.chain = (answer, c)) (peer : PeerId)
    (imported : List Digest) : Calm (s.linked peer c imported) := by
  have hframe := (Chain.importBlocks_frame blocks last s.node.chain).1
  rw [runs] at hframe
  exact ⟨calm.later, hframe.trans calm.chain, calm.pending, calm.memory⟩

end Calm

end Seat

/-! ### Drains -/

/-- A drain that is not past its last level drains one level and, if it goes on, those above. -/
theorem ImportSite.drain_of_not_lt {σ : Type} (site : ImportSite σ) {peer : PeerId}
    {level : UInt64} {d : Drain} (h : ¬ d.lastLevel < level) :
    site.drain peer level d = do
      let (goesOn, d) ← site.drainLevel peer level d
      if goesOn then site.drain peer (← liftM (checkedAdd level 1)) d else return d.drained := by
  rw [drain, if_neg h]
  congr 1
  funext ⟨goesOn, d⟩
  cases goesOn with
  | false => rfl
  | true =>
    dsimp only
    rw [if_pos rfl, if_pos rfl]
    split
    · next e he =>
      rw [he]
      rfl
    · next next hnext =>
      rw [hnext]
      rfl

end ChainSync
