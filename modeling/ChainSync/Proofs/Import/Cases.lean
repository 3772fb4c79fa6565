import ChainSync.Proofs.Import.Seat

/-!
# What handing over a range and importing a batch can do

One case for each way in which one range of a level and one batch end at a calm seat, with the
outcome and the seat that is left. Lists of ranges and drains go by these cases.
-/

namespace ChainSync

theorem toNat_max (a b : UInt64) : (max a b).toNat = max a.toNat b.toNat := by
  change (if a ≤ b then b else a).toNat = _
  split
  · next h =>
    have := UInt64.le_iff_toNat_le.mp h
    omega
  · next h =>
    have := UInt64.lt_iff_toNat_lt.mp (UInt64.not_le.mp h)
    omega

namespace Seat

/-- The level above a report is one above the greater of the two numbers. -/
theorem levelAbove_eq_ok_iff {report : ConnectReport} {last level : UInt64} :
    levelAbove report last = .ok level ↔
      level.toNat = max report.bestNumber.toNat last.toNat + 1 := by
  rw [levelAbove, checkedAdd_eq_ok_iff, toNat_max]
  rfl

/-- There is no level above a report exactly when one of the two numbers is the last height. -/
theorem levelAbove_eq_error_iff {report : ConnectReport} {last : UInt64} {e : Fault} :
    levelAbove report last = .error e ↔
      UInt64.size ≤ max report.bestNumber.toNat last.toNat + 1 ∧ e = .additionOverflow := by
  rw [levelAbove, checkedAdd_eq_error_iff, toNat_max]
  rfl

def Counts (s : Seat) (peer : PeerId) (imported : List Digest) : Prop :=
  (s.engine.stats.counters peer).imported.toNat + (UInt64.ofNat imported.length).toNat <
    UInt64.size

/-- Filing blocks of a peer as pending can be counted. -/
def CountsFiled (s : Seat) (peer : PeerId) (blocks : List Block) : Prop :=
  (s.engine.stats.counters peer).stored.toNat + (UInt64.ofNat (s.filed blocks)).toNat <
    UInt64.size

/-- Linking blocks ends with these hashes stored, with this outcome, and leaves this chain. -/
def Links (s : Seat) (blocks : List Block) (imported : List Digest) (outcome : ImportOutcome)
    (c : Chain) : Prop :=
  (Chain.importBlocks blocks .exist).exec s.node.chain = (.ok (imported, outcome), c)

section

variable {s : Seat} {peer : PeerId} {range : Option (UInt64 × Digest)} {blocks : List Block}
  {imported : List Digest} {outcome : ImportOutcome} {c : Chain}

theorem exec_handOver_of_error {e : Fault} (ready : Ready s)
    (runs : (Chain.importBlocks blocks .exist).exec s.node.chain = (.error e, c)) :
    (importSite.handOver peer range blocks).exec s = (.error e, s.withChain c) := by
  rw [ImportSite.handOver, importSite_connect, Step.exec_bind, exec_connect ready, runs]

/-- Handing over a list answers a report when the imported blocks can be counted. -/
theorem exec_handOver_of_counts (ready : Ready s) (links : s.Links blocks imported outcome c)
    (counts : s.Counts peer imported) :
    (importSite.handOver peer range blocks).exec s =
      (.ok (.ok { bestNumber := c.bestNumber, imported, outcome }), s.linked peer c imported) := by
  obtain ⟨t, ht, -⟩ := Stats.exec_recordImported counts
  rw [ImportSite.handOver, importSite_connect, Step.exec_bind, exec_connect ready, links]
  dsimp only
  rw [importSite_recordConnected, Step.exec_bind, exec_recordConnected, ht]
  rfl

/-- Handing over a list faults when the imported blocks cannot be counted. -/
theorem exec_handOver_of_full (ready : Ready s) (links : s.Links blocks imported outcome c)
    (full : ¬ s.Counts peer imported) :
    (importSite.handOver peer range blocks).exec s =
      (.error .additionOverflow, s.linked peer c imported) := by
  rw [ImportSite.handOver, importSite_connect, Step.exec_bind, exec_connect ready, links]
  dsimp only
  rw [importSite_recordConnected, Step.exec_bind, exec_recordConnected,
    Stats.recordImported_overflow (Nat.not_lt.mp full)]

end

/-! ### One range -/

/-- How handing over one range ends. -/
inductive RangeEnd (peer : PeerId) (key : Digest) (blocks : List Block) (d : Drain) (s : Seat) :
    Except Fault (Bool × Drain) → Seat → Prop
  /-- No block is wanted. -/
  | nothing (empty : s.wanted blocks = []) :
    RangeEnd peer key blocks d s (.ok (true, d.settle key)) s
  /-- The chain runs out of heights. -/
  | noHeight {e : Fault} {c : Chain} (nonempty : s.wanted blocks ≠ [])
      (runs : (Chain.importBlocks (s.wanted blocks) .exist).exec s.node.chain = (.error e, c)) :
    RangeEnd peer key blocks d s (.error e) (s.withChain c)
  /-- The imported blocks cannot be counted. -/
  | uncounted {imported : List Digest} {outcome : ImportOutcome} {c : Chain}
      (nonempty : s.wanted blocks ≠ []) (links : s.Links (s.wanted blocks) imported outcome c)
      (full : ¬ s.Counts peer imported) :
    RangeEnd peer key blocks d s (.error .additionOverflow) (s.linked peer c imported)
  /-- There is no level above what was reached. -/
  | noLevel {imported : List Digest} {outcome : ImportOutcome} {c : Chain} {last : Block}
      (top : (s.wanted blocks).getLast? = some last)
      (links : s.Links (s.wanted blocks) imported outcome c) (counts : s.Counts peer imported)
      (stored : outcome.isStored = true)
      (full : UInt64.size ≤ max c.bestNumber.toNat last.number.toNat + 1) :
    RangeEnd peer key blocks d s (.error .additionOverflow) (s.linked peer c imported)
  /-- The range is stored, and the drain may go up to the level above what was reached. -/
  | advanced {imported : List Digest} {outcome : ImportOutcome} {c : Chain} {last : Block}
      {level : UInt64} (top : (s.wanted blocks).getLast? = some last)
      (links : s.Links (s.wanted blocks) imported outcome c) (counts : s.Counts peer imported)
      (stored : outcome.isStored = true)
      (above : level.toNat = max c.bestNumber.toNat last.number.toNat + 1) :
    RangeEnd peer key blocks d s (.ok (true, d.advance key imported.length level))
      ((s.linked peer c imported).moved peer (.drained outcome))
  /-- The range breaks a rule. -/
  | invalid {imported : List Digest} {c : Chain} (nonempty : s.wanted blocks ≠ [])
      (links : s.Links (s.wanted blocks) imported .invalid c) (counts : s.Counts peer imported) :
    RangeEnd peer key blocks d s (.ok (true, d.settle key)) (s.linked peer c imported)
  /-- The range still has no parent. -/
  | noParent {imported : List Digest} {c : Chain} (nonempty : s.wanted blocks ≠ [])
      (links : s.Links (s.wanted blocks) imported .noParent c) (counts : s.Counts peer imported) :
    RangeEnd peer key blocks d s (.ok (true, d)) (s.linked peer c imported)

/-- A range that was stored lets the drain go up, or there is no level above it. -/
private theorem rangeEnd_stored {peer : PeerId} {level : UInt64} {key : Digest}
    {blocks : List Block} {d : Drain} {s : Seat} {imported : List Digest} {outcome : ImportOutcome}
    {c : Chain} {last : Block}
    (top : (s.wanted blocks).getLast? = some last)
    (links : s.Links (s.wanted blocks) imported outcome c) (counts : s.Counts peer imported)
    (stored : outcome.isStored = true) :
    let advance : Step Seat (Bool × Drain) := do
      let above ← levelAbove { bestNumber := c.bestNumber, imported, outcome } last.number
      let _ ← applyMode peer (.drained outcome)
      drainRanges peer level [] (d.advance key imported.length above)
    RangeEnd peer key blocks d s (advance.exec (s.linked peer c imported)).1
      (advance.exec (s.linked peer c imported)).2 := by
  simp only [Step.exec_bind, Step.exec_lift]
  cases habove : levelAbove { bestNumber := c.bestNumber, imported, outcome } last.number with
  | error e =>
    obtain ⟨full, rfl⟩ := levelAbove_eq_error_iff.mp habove
    exact .noLevel top links counts stored full
  | ok above =>
    exact .advanced top links counts stored (levelAbove_eq_ok_iff.mp habove)

/-- Every range handed over at a calm seat ends in one of the cases. -/
theorem rangeEnd_drainRanges {s : Seat} (calm : Calm s) (peer : PeerId) (level : UInt64)
    (key : Digest) (blocks : List Block) (d : Drain) :
    RangeEnd peer key blocks d s ((drainRanges peer level [(key, blocks)] d).exec s).1
      ((drainRanges peer level [(key, blocks)] d).exec s).2 := by
  rw [drainRanges, ImportSite.drainRanges]
  simp only [importSite_run, Step.exec_bind, Step.exec_get]
  cases htop : (s.wanted blocks).getLast? with
  | none => exact .nothing (List.getLast?_eq_none_iff.mp htop)
  | some last =>
    have nonempty : s.wanted blocks ≠ [] := by
      intro he
      rw [he] at htop
      cases htop
    dsimp only
    cases hrun : (Chain.importBlocks (s.wanted blocks) .exist).exec s.node.chain with
    | mk answer c =>
      cases answer with
      | error e =>
        rw [Step.exec_bind_of_error (exec_handOver_of_error calm.ready hrun)]
        exact .noHeight nonempty hrun
      | ok answer =>
        obtain ⟨imported, outcome⟩ := answer
        by_cases counts : s.Counts peer imported
        · rw [Step.exec_bind_of_ok (exec_handOver_of_counts calm.ready hrun counts)]
          cases outcome with
          | exist => exact rangeEnd_stored htop hrun counts rfl
          | imported best => exact rangeEnd_stored htop hrun counts rfl
          | invalid => exact .invalid nonempty hrun counts
          | noParent => exact .noParent nonempty hrun counts
        · rw [Step.exec_bind_of_error (exec_handOver_of_full calm.ready hrun counts)]
          exact .uncounted nonempty hrun counts

/-- Handing over ranges is handing over the first one and, if the drain goes on, the others. -/
theorem exec_drainRanges_cons (peer : PeerId) (level : UInt64) (key : Digest)
    (blocks : List Block) (rest : List (Digest × List Block)) (d : Drain) (s : Seat) :
    (drainRanges peer level ((key, blocks) :: rest) d).exec s =
      match (drainRanges peer level [(key, blocks)] d).exec s with
      | (.ok (true, d), t) => (drainRanges peer level rest d).exec t
      | (.ok (false, d), t) => (.ok (false, d), t)
      | (.error e, t) => (.error e, t) := by
  rw [drainRanges, drainRanges, ImportSite.drainRanges, ImportSite.drainRanges]
  simp only [importSite_run, importSite_drainRanges, Step.exec_bind, Step.exec_get]
  cases (s.wanted blocks).getLast? with
  | none => rfl
  | some last =>
    simp only [Step.exec_bind]
    cases (importSite.handOver peer (some (level, key)) (s.wanted blocks)).exec s with
    | mk answer t =>
      rcases answer with fault | e | report
      · rfl
      · dsimp only
        cases e.isFatal <;> rfl
      · dsimp only
        cases report.outcome with
        | invalid => rfl
        | noParent => rfl
        | exist =>
          simp only [Step.exec_bind, Step.exec_lift]
          cases levelAbove report last.number <;> rfl
        | imported best =>
          simp only [Step.exec_bind, Step.exec_lift]
          cases levelAbove report last.number <;> rfl

/-! ### One batch -/

/-- The wanted blocks of a batch are handed to the chain. -/
def Offered (s : Seat) (batch : BlockBatch) : Prop :=
  ∃ last, (s.wanted batch.blocks).getLast? = some last ∧
    (s.engine.modes.mode batch.peer = .backward ∨
      s.node.chain.isStored last.hash last.number = false)

/-- A batch with this first block starts at most one above the best block. -/
def salvageable (s : Seat) (first : Block) : Bool :=
  decide (first.number.toNat ≤ s.node.chain.bestNumber.toNat + 1)

/-- The seat after blocks of a peer were handed to the chain: those without a parent are filed. -/
def answered (s : Seat) (peer : PeerId) (blocks : List Block) (c : Chain) (imported : List Digest)
    (outcome : ImportOutcome) : Seat :=
  if outcome = .noParent then (s.linked peer c imported).parked peer blocks
  else s.linked peer c imported

/-- How importing a batch ends, before the local best block is noted. -/
inductive BatchEnd (batch : BlockBatch) (s : Seat) : Except Fault Unit → Seat → Prop
  /-- No block is wanted. -/
  | nothing (empty : s.wanted batch.blocks = []) :
    BatchEnd batch s (.ok ()) (s.moved batch.peer .emptyAfterFilter)
  /-- The last block is stored. -/
  | skipped {last : Block} (top : (s.wanted batch.blocks).getLast? = some last)
      (mode : s.engine.modes.mode batch.peer ≠ .backward)
      (known : s.node.chain.isStored last.hash last.number = true) :
    BatchEnd batch s (.ok ())
      ((s.withImported (s.engine.imported.insertAll [last.hash])).moved batch.peer .skippedKnown)
  /-- The chain runs out of heights. -/
  | noHeight {e : Fault} {c : Chain} (offered : s.Offered batch)
      (runs : (Chain.importBlocks (s.wanted batch.blocks) .exist).exec s.node.chain =
        (.error e, c)) :
    BatchEnd batch s (.error e) (s.withChain c)
  /-- The imported blocks cannot be counted. -/
  | uncounted {imported : List Digest} {outcome : ImportOutcome} {c : Chain}
      (offered : s.Offered batch) (links : s.Links (s.wanted batch.blocks) imported outcome c)
      (full : ¬ s.Counts batch.peer imported) :
    BatchEnd batch s (.error .additionOverflow) (s.linked batch.peer c imported)
  /-- The filed blocks cannot be counted. -/
  | unfiled {imported : List Digest} {c : Chain}
      (offered : s.Offered batch) (links : s.Links (s.wanted batch.blocks) imported .noParent c)
      (counts : s.Counts batch.peer imported)
      (full : ¬ (s.linked batch.peer c imported).CountsFiled batch.peer (s.wanted batch.blocks)) :
    BatchEnd batch s (.error .additionOverflow)
      (s.answered batch.peer (s.wanted batch.blocks) c imported .noParent)
  /-- The best block stood at the last height. -/
  | noSalvage {imported : List Digest} {outcome : ImportOutcome} {c : Chain}
      (offered : s.Offered batch) (links : s.Links (s.wanted batch.blocks) imported outcome c)
      (counts : s.Counts batch.peer imported)
      (filed : outcome = .noParent →
        (s.linked batch.peer c imported).CountsFiled batch.peer (s.wanted batch.blocks))
      (full : UInt64.size ≤ s.node.chain.bestNumber.toNat + 1) :
    BatchEnd batch s (.error .additionOverflow)
      (s.answered batch.peer (s.wanted batch.blocks) c imported outcome)
  /-- The blocks are not stored. -/
  | refused {imported : List Digest} {outcome : ImportOutcome} {c : Chain} {salvageable : Bool}
      (offered : s.Offered batch) (links : s.Links (s.wanted batch.blocks) imported outcome c)
      (counts : s.Counts batch.peer imported)
      (filed : outcome = .noParent →
        (s.linked batch.peer c imported).CountsFiled batch.peer (s.wanted batch.blocks))
      (unstored : outcome.isStored = false) :
    BatchEnd batch s (.ok ())
      ((s.answered batch.peer (s.wanted batch.blocks) c imported outcome).moved batch.peer
        (.connected outcome salvageable))
  /-- There is no level above what was reached. -/
  | noLevel {imported : List Digest} {outcome : ImportOutcome} {c : Chain} {last : Block}
      {salvageable : Bool} (offered : s.Offered batch)
      (top : (s.wanted batch.blocks).getLast? = some last)
      (links : s.Links (s.wanted batch.blocks) imported outcome c)
      (counts : s.Counts batch.peer imported) (stored : outcome.isStored = true)
      (full : UInt64.size ≤ max c.bestNumber.toNat last.number.toNat + 1) :
    BatchEnd batch s (.error .additionOverflow)
      ((s.linked batch.peer c imported).moved batch.peer (.connected outcome salvageable))
  /-- The blocks are stored, and the levels from the first one on are drained. -/
  | drained {imported : List Digest} {outcome : ImportOutcome} {c : Chain} {first last : Block}
      {level : UInt64} {answer : Except Fault Nat} {t : Seat}
      (offered : s.Offered batch)
      (bottom : (s.wanted batch.blocks).head? = some first)
      (top : (s.wanted batch.blocks).getLast? = some last)
      (links : s.Links (s.wanted batch.blocks) imported outcome c)
      (counts : s.Counts batch.peer imported) (stored : outcome.isStored = true)
      (above : level.toNat = max c.bestNumber.toNat last.number.toNat + 1)
      (drains : (drain batch.peer first.number ⟨level, 0, []⟩).exec
        ((s.linked batch.peer c imported).moved batch.peer
          (.connected outcome (s.salvageable first))) = (answer, t)) :
    BatchEnd batch s (answer.map fun _ ↦ ()) t

/-- Filing blocks answers when they can be counted. -/
theorem exec_storePending_of_counts {s : Seat} (calm : Calm s) {peer : PeerId}
    {blocks : List Block} (counts : s.CountsFiled peer blocks) :
    (storePending peer blocks).exec s = (.ok (s.filed blocks), s.parked peer blocks) := by
  obtain ⟨t, ht, -⟩ := Stats.exec_recordStored counts
  rw [exec_storePending calm, ht]
  rfl

/-- Filing blocks faults when they cannot be counted. -/
theorem exec_storePending_of_full {s : Seat} (calm : Calm s) {peer : PeerId}
    {blocks : List Block} (full : ¬ s.CountsFiled peer blocks) :
    (storePending peer blocks).exec s = (.error .additionOverflow, s.parked peer blocks) := by
  rw [exec_storePending calm, Stats.recordStored_overflow (Nat.not_lt.mp full)]
  rfl

/-- After a batch that was stored the levels from its first one on are drained. -/
private theorem batchEnd_stored {s : Seat} {batch : BlockBatch} (offered : s.Offered batch)
    {first last : Block} (bottom : (s.wanted batch.blocks).head? = some first)
    (top : (s.wanted batch.blocks).getLast? = some last) {imported : List Digest}
    {outcome : ImportOutcome} {c : Chain}
    (links : s.Links (s.wanted batch.blocks) imported outcome c)
    (counts : s.Counts batch.peer imported) (stored : outcome.isStored = true)
    (report : Option SyncMode → Nat → BatchReport) :
    let run : Step Seat BatchReport := do
      let salvageLimit ← checkedAdd s.node.chain.bestNumber 1
      let mode ← applyMode batch.peer (.connected outcome (first.number ≤ salvageLimit))
      let lastLevel ← levelAbove { bestNumber := c.bestNumber, imported, outcome } last.number
      let drained ← drain batch.peer first.number ⟨lastLevel, 0, []⟩
      return report mode drained
    BatchEnd batch s ((run.exec (s.linked batch.peer c imported)).1.map fun _ ↦ ())
      (run.exec (s.linked batch.peer c imported)).2 := by
  have unfiled : outcome ≠ .noParent := by
    rintro rfl
    cases stored
  have hanswered : s.answered batch.peer (s.wanted batch.blocks) c imported outcome =
      s.linked batch.peer c imported := by
    rw [answered, if_neg unfiled]
  simp only [Step.exec_bind, Step.exec_lift]
  cases hsum : checkedAdd s.node.chain.bestNumber 1 with
  | error e =>
    obtain ⟨full, rfl⟩ := checkedAdd_eq_error_iff.mp hsum
    have := BatchEnd.noSalvage offered links counts (fun h ↦ absurd h unfiled) full
    rw [hanswered] at this
    exact this
  | ok limit =>
    dsimp only
    cases habove : levelAbove { bestNumber := c.bestNumber, imported, outcome } last.number with
    | error e =>
      obtain ⟨full, rfl⟩ := levelAbove_eq_error_iff.mp habove
      exact .noLevel offered top links counts stored full
    | ok level =>
      have hsalvage : decide (first.number ≤ limit) = s.salvageable first := by
        have : limit.toNat = s.node.chain.bestNumber.toNat + 1 := checkedAdd_eq_ok_iff.mp hsum
        simp only [salvageable, UInt64.le_iff_toNat_le, this]
      dsimp only [exec_applyMode]
      rw [hsalvage]
      cases hdrain : (drain batch.peer first.number ⟨level, 0, []⟩).exec
          ((s.linked batch.peer c imported).moved batch.peer
            (.connected outcome (s.salvageable first))) with
      | mk answer t =>
        have := BatchEnd.drained offered bottom top links counts stored
          (levelAbove_eq_ok_iff.mp habove) hdrain
        cases answer <;> exact this

/-- Importing wanted blocks ends in one of the cases at a seat that is calm if they are filed. -/
private theorem batchEnd_importWanted {s : Seat} (ready : Ready s) (batch : BlockBatch)
    (files : ∀ imported c, s.Links (s.wanted batch.blocks) imported .noParent c → Calm s)
    (offered : s.Offered batch) {first last : Block}
    (bottom : (s.wanted batch.blocks).head? = some first)
    (top : (s.wanted batch.blocks).getLast? = some last) :
    let run :=
      importWanted batch.peer s.node.chain.bestNumber (s.wanted batch.blocks) first last
    BatchEnd batch s ((run.exec s).1.map fun _ ↦ ()) (run.exec s).2 := by
  dsimp only
  rw [importWanted, ImportSite.importWanted]
  simp only [importSite_run, importSite_drain]
  cases hrun : (Chain.importBlocks (s.wanted batch.blocks) .exist).exec s.node.chain with
  | mk answer c =>
    cases answer with
    | error e =>
      rw [Step.exec_bind_of_error (exec_handOver_of_error ready hrun)]
      exact .noHeight offered hrun
    | ok answer =>
      obtain ⟨imported, outcome⟩ := answer
      by_cases counts : s.Counts batch.peer imported
      · rw [Step.exec_bind_of_ok (exec_handOver_of_counts ready hrun counts)]
        cases outcome with
        | noParent =>
          have calm' := (files imported c hrun).linked hrun batch.peer imported
          by_cases filed : (s.linked batch.peer c imported).CountsFiled batch.peer
              (s.wanted batch.blocks)
          · dsimp only
            rw [Step.exec_bind_of_ok (exec_storePending_of_counts calm' filed)]
            simp only [Step.exec_bind, Step.exec_lift]
            cases hsum : checkedAdd s.node.chain.bestNumber 1 with
            | error e =>
              obtain ⟨full, rfl⟩ := checkedAdd_eq_error_iff.mp hsum
              exact .noSalvage offered hrun counts (fun _ ↦ filed) full
            | ok limit => exact .refused offered hrun counts (fun _ ↦ filed) rfl
          · dsimp only
            rw [Step.exec_bind_of_error (exec_storePending_of_full calm' filed)]
            exact .unfiled offered hrun counts filed
        | invalid =>
          simp only [Step.exec_bind, Step.exec_pure, Step.exec_lift]
          cases hsum : checkedAdd s.node.chain.bestNumber 1 with
          | error e =>
            obtain ⟨full, rfl⟩ := checkedAdd_eq_error_iff.mp hsum
            exact .noSalvage offered hrun counts (fun h ↦ nomatch h) full
          | ok limit => exact .refused offered hrun counts (fun h ↦ nomatch h) rfl
        | exist => exact batchEnd_stored offered bottom top hrun counts rfl _
        | imported best => exact batchEnd_stored offered bottom top hrun counts rfl _
      · rw [Step.exec_bind_of_error (exec_handOver_of_full ready hrun counts)]
        exact .uncounted offered hrun counts

/-- Every batch imported at a seat that is calm if it is filed ends in one of the cases, and then
the local best block is noted unless there was a fault. -/
theorem batchEnd_processBatch_of_ready {s : Seat} (ready : Ready s) (batch : BlockBatch)
    (files : ∀ imported c, s.Links (s.wanted batch.blocks) imported .noParent c → Calm s) :
    ∃ answer t, BatchEnd batch s answer t ∧
      ((processBatch batch).exec s).1.map (fun _ ↦ ()) = answer ∧
      ((processBatch batch).exec s).2 = if answer.isOk then t.noted else t := by
  rw [processBatch, ImportSite.processBatch]
  simp only [importSite_run, importSite_remember, importSite_importWanted, Step.exec_bind,
    Step.exec_get]
  cases bottom : (s.wanted batch.blocks).head? with
  | none => exact ⟨_, _, .nothing (List.head?_eq_none_iff.mp bottom), rfl, rfl⟩
  | some first =>
    cases top : (s.wanted batch.blocks).getLast? with
    | none =>
      rw [List.getLast?_eq_none_iff] at top
      rw [top] at bottom
      cases bottom
    | some last =>
      dsimp only
      by_cases skip : (decide (s.engine.modes.mode batch.peer ≠ .backward) &&
          s.node.chain.isStored last.hash last.number) = true
      · rw [if_pos skip]
        rw [Bool.and_eq_true, decide_eq_true_iff] at skip
        exact ⟨_, _, .skipped top skip.1 skip.2, rfl, rfl⟩
      · rw [if_neg skip]
        have offered : s.Offered batch := by
          refine ⟨last, top, ?_⟩
          rw [Bool.and_eq_true, decide_eq_true_iff, not_and_or, not_not] at skip
          exact skip.imp_right Bool.eq_false_iff.mpr
        refine ⟨_, _, batchEnd_importWanted ready batch files offered bottom top, ?_⟩
        rw [Step.exec_bind]
        cases (importWanted batch.peer s.node.chain.bestNumber (s.wanted batch.blocks) first
            last).exec s with
        | mk answer t => cases answer <;> exact ⟨rfl, rfl⟩

/-- Every batch imported at a calm seat ends in one of the cases, and then the local best block is
noted unless there was a fault. -/
theorem batchEnd_processBatch {s : Seat} (calm : Calm s) (batch : BlockBatch) :
    ∃ answer t, BatchEnd batch s answer t ∧
      ((processBatch batch).exec s).1.map (fun _ ↦ ()) = answer ∧
      ((processBatch batch).exec s).2 = if answer.isOk then t.noted else t :=
  batchEnd_processBatch_of_ready calm.ready batch fun _ _ _ ↦ calm

/-- A batch that was imported without a fault ended in one of the cases without a fault, and the
local best block was noted. -/
theorem exists_batchEnd_of_ok {s t : Seat} (calm : Calm s) {batch : BlockBatch}
    {report : BatchReport} (run : (processBatch batch).exec s = (.ok report, t)) :
    ∃ answer u, BatchEnd batch s answer u ∧ answer = .ok () ∧ t = u.noted := by
  obtain ⟨answer, u, ends, hanswer, hleft⟩ := batchEnd_processBatch calm batch
  rw [run] at hanswer hleft
  subst hanswer
  exact ⟨_, u, ends, rfl, hleft⟩

end Seat
end ChainSync
