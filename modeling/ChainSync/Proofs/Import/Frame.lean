import ChainSync.Proofs.Import.Overflow

/-!
# What importing keeps

Importing a batch at a calm seat is a sequence of a few kinds of edits. A property that every one of
them keeps is kept by every import that ends without a fault, and one that those of a drain keep is
kept by every drain. What no edit touches is the same afterwards: the queue, the schedule, the
connected peers, and the requests that were sent to them.
-/

namespace ChainSync

namespace Stats

theorem recordImported_frame (peer : PeerId) (blocks : UInt64) (s : Stats) (p : PeerId) :
    (((recordImported peer blocks).exec s).2.counters p).requests = (s.counters p).requests ∧
      (((recordImported peer blocks).exec s).2.counters p).received = (s.counters p).received := by
  unfold recordImported
  by_cases hz : blocks = 0
  · simp [hz]
  · simp only [ne_eq, hz, not_false_eq_true, if_true, Step.exec_bind, Step.exec_get, Step.exec_set,
      Step.exec_lift]
    cases checkedAdd (s.counters peer).imported blocks <;>
      simp only [counters_setCounters] <;> split <;> simp_all

theorem recordStored_frame (peer : PeerId) (blocks : UInt64) (s : Stats) (p : PeerId) :
    (((recordStored peer blocks).exec s).2.counters p).requests = (s.counters p).requests ∧
      (((recordStored peer blocks).exec s).2.counters p).received = (s.counters p).received := by
  unfold recordStored
  by_cases hz : blocks = 0
  · simp [hz]
  · simp only [ne_eq, hz, not_false_eq_true, if_true, Step.exec_bind, Step.exec_get, Step.exec_set,
      Step.exec_lift]
    cases checkedAdd (s.counters peer).stored blocks <;>
      simp only [counters_setCounters] <;> split <;> simp_all

end Stats

namespace ModeTable

theorem mode_apply {t : ModeTable} {peer : PeerId} (tracked : peer ∈ t.modes)
    (event : ImportEvent) :
    (t.apply peer event).2.mode peer = (t.mode peer).next event ∧
      peer ∈ (t.apply peer event).2.modes := by
  obtain ⟨m, hm⟩ := Option.isSome_iff_exists.mp (Std.ExtTreeMap.mem_iff_isSome_getElem?.mp tracked)
  have hmode : t.mode peer = m := by rw [mode, hm, Option.getD_some]
  simp only [apply, hm, hmode]
  exact ⟨by simp [mode], Std.ExtTreeMap.mem_insert.mpr (.inl Std.ReflOrd.compare_self)⟩

theorem mode_apply_of_ne {t : ModeTable} {peer other : PeerId} (hne : other ≠ peer)
    (event : ImportEvent) : (t.apply other event).2.mode peer = t.mode peer := by
  unfold apply
  split
  · rfl
  · simp [mode, Std.ExtTreeMap.getElem?_insert, hne]

theorem mem_apply {t : ModeTable} {peer : PeerId} (tracked : peer ∈ t.modes) (other : PeerId)
    (event : ImportEvent) : peer ∈ (t.apply other event).2.modes := by
  unfold apply
  split
  · exact tracked
  · exact Std.ExtTreeMap.mem_insert.mpr (.inr tracked)

end ModeTable

namespace Seat

/-- What no import touches is the same. -/
structure Retains (s t : Seat) : Prop where
  /-- The same batches wait. -/
  queue : t.engine.queue = s.engine.queue
  /-- The schedule is the same. -/
  schedule : t.engine.requests = s.engine.requests
  /-- The same peers are connected, and the same messages wait for delivery. -/
  registry : t.node.registry = s.node.registry
  /-- The rule for headers is the same. -/
  accepts : t.node.accepts = s.node.accepts
  /-- The mode of a tracked peer stays tracked. -/
  tracked {p : PeerId} : p ∈ s.engine.modes.modes → p ∈ t.engine.modes.modes
  /-- The same requests were sent and answered. -/
  requests (p : PeerId) :
    (t.engine.stats.counters p).requests = (s.engine.stats.counters p).requests
  /-- As many blocks were received. -/
  received (p : PeerId) :
    (t.engine.stats.counters p).received = (s.engine.stats.counters p).received

/-- A property that every edit of a drain keeps. -/
structure KeptByDrains (P : Seat → Prop) : Prop where
  /-- Linking blocks keeps it. -/
  linked {s : Seat} {peer : PeerId} {blocks : List Block} {imported : List Digest}
    {outcome : ImportOutcome} {c : Chain} : P s → s.Links blocks imported outcome c →
      P (s.linked peer c imported)
  /-- The event of a range that was stored keeps it. -/
  drained {s : Seat} (peer : PeerId) (outcome : ImportOutcome) : P s → outcome.isStored = true →
    P (s.moved peer (.drained outcome))
  /-- Other pending ranges keep it. -/
  withIndex {s : Seat} (index : PendingIndex) : P s → P (s.withIndex index)

/-- A property that every edit of an import keeps. -/
structure KeptByImports (P : Seat → Prop) : Prop extends KeptByDrains P where
  /-- Every event keeps it. -/
  moved {s : Seat} (peer : PeerId) (event : ImportEvent) : P s → P (s.moved peer event)
  /-- Counting filed blocks keeps it. -/
  counted {s : Seat} (peer : PeerId) (blocks : UInt64) : P s →
    P (s.withStats ((Stats.recordStored peer blocks).exec s.engine.stats).2)
  /-- Remembering the hash of a stored block keeps it. -/
  remembered {s : Seat} {hash : Digest} {number : UInt64} : P s →
    s.node.chain.isStored hash number = true →
      P (s.withImported (s.engine.imported.insertAll [hash]))
  /-- Noting the local best block keeps it. -/
  noted {s : Seat} : P s → P s.noted

/-! ### Drains -/

namespace KeptByDrains

variable {P : Seat → Prop} {peer : PeerId} {s t : Seat} {d d' : Drain} {goesOn : Bool}

/-- Handing over one range keeps the property. -/
theorem range (kept : KeptByDrains P) (h : P s) {key : Digest} {blocks : List Block}
    (ends : RangeEnd peer key blocks d s (.ok (goesOn, d')) t) : P t := by
  cases ends with
  | nothing _ => exact h
  | advanced _ links _ stored _ => exact kept.drained _ _ (kept.linked h links) stored
  | invalid _ links _ => exact kept.linked h links
  | noParent _ links _ => exact kept.linked h links

/-- Handing over ranges keeps the property. -/
theorem ranges (kept : KeptByDrains P) {level : UInt64} (ranges : List (Digest × List Block)) :
    ∀ {d : Drain} {s : Seat}, Calm s → P s →
      (drainRanges peer level ranges d).exec s = (.ok (goesOn, d'), t) → P t := by
  induction ranges with
  | nil =>
    intro d s _ h run
    cases run
    exact h
  | cons range rest ih =>
    obtain ⟨key, blocks⟩ := range
    intro d s calm h run
    have ends := rangeEnd_drainRanges calm peer level key blocks d
    rw [exec_drainRanges_cons] at run
    cases hfirst : (drainRanges peer level [(key, blocks)] d).exec s with
    | mk first u =>
      rw [hfirst] at ends run
      cases first with
      | error e => cases run
      | ok first =>
        obtain ⟨goesOn', d₁⟩ := first
        obtain ⟨rfl, calm'⟩ := ends.goesOn calm
        exact ih calm' (kept.range h ends) run

/-- Draining a level keeps the property. -/
theorem level (kept : KeptByDrains P) (calm : Calm s) (h : P s) {level : UInt64}
    (run : (drainLevel peer level d).exec s = (.ok (goesOn, d'), t)) :
    goesOn = true ∧ Calm t ∧ P t := by
  rw [exec_drainLevel calm] at run
  cases hranges : (drainRanges peer level (s.node.pending.index.load level).toList
      { d with settled := [] }).exec s with
  | mk answer u =>
    rw [hranges] at run
    cases answer with
    | error e => cases run
    | ok answer =>
      obtain ⟨goesOn', d₁⟩ := answer
      cases run
      have h' := kept.ranges _ calm h hranges
      have calm' := ((drainRanges_atEnd_iff peer level _ calm hranges).2 _ _ rfl).2
      refine ⟨rfl, calm'.dropped _ _, ?_⟩
      unfold dropped
      split
      · exact h'
      · exact kept.withIndex _ h'

/-- A drain keeps the property. -/
theorem drain (kept : KeptByDrains P) {level : UInt64} :
    ∀ {s : Seat} {d : Drain} {count : Nat}, Calm s → P s →
      (Seat.drain peer level d).exec s = (.ok count, t) → Calm t ∧ P t := by
  -- By induction on the number of levels that are left up to the last height.
  induction hn : UInt64.size - level.toNat using Nat.strongRecOn generalizing level with
  | ind n ih =>
    intro s d count calm h run
    rw [exec_drain] at run
    split at run
    · cases run
      exact ⟨calm, h⟩
    · cases hlevel : (drainLevel peer level d).exec s with
      | mk answer u =>
        rw [hlevel] at run
        cases answer with
        | error e => cases run
        | ok answer =>
          obtain ⟨goesOn, d₁⟩ := answer
          obtain ⟨rfl, calm', h'⟩ := kept.level calm h hlevel
          dsimp only at run
          cases hnext : checkedAdd level 1 with
          | error e =>
            rw [hnext] at run
            cases run
          | ok next =>
            rw [hnext] at run
            have hone : (1 : UInt64).toNat = 1 := rfl
            have := toNat_of_checkedAdd_eq_ok hnext
            have := next.toNat_lt_size
            exact ih (UInt64.size - next.toNat) (by omega) rfl calm' h' run

end KeptByDrains

/-! ### Batches -/

namespace KeptByImports

variable {P : Seat → Prop} {s t : Seat}

theorem parked (kept : KeptByImports P) (h : P s) (peer : PeerId) (blocks : List Block) :
    P (s.parked peer blocks) := by
  unfold Seat.parked
  split
  · exact h
  · exact kept.counted peer _ (kept.withIndex _ h)

/-- Importing a batch keeps the property. -/
theorem processBatch (kept : KeptByImports P) (calm : Calm s) (h : P s) {batch : BlockBatch}
    {report : BatchReport} (run : (Seat.processBatch batch).exec s = (.ok report, t)) :
    Calm t ∧ P t := by
  obtain ⟨answer, u, ends, hok, rfl⟩ := exists_batchEnd_of_ok calm run
  obtain ⟨calm', h'⟩ : Calm u ∧ P u := by
    cases ends with
    | nothing _ => exact ⟨calm.moved .., kept.moved _ _ h⟩
    | skipped _ _ known =>
      exact ⟨(calm.withImported _).moved .., kept.moved _ _ (kept.remembered h known)⟩
    | @refused imported outcome c _ _ links _ _ _ =>
      have calm' := calm.linked links batch.peer imported
      have h' : P (s.linked batch.peer c imported) := kept.linked h links
      unfold answered
      split
      · exact ⟨(calm'.parked ..).moved .., kept.moved _ _ (kept.parked h' ..)⟩
      · exact ⟨calm'.moved .., kept.moved _ _ h'⟩
    | @drained imported outcome c _ _ _ answer _ _ _ _ links _ _ _ drains =>
      cases answer with
      | error e => cases hok
      | ok count =>
        exact kept.drain ((calm.linked links _ _).moved _ _)
          (kept.moved _ _ (kept.linked h links)) drains
    | noHeight _ _ | uncounted _ _ _ | unfiled _ _ _ _ | noSalvage _ _ _ _ _
    | noLevel _ _ _ _ _ _ => cases hok
  exact ⟨calm'.noted, kept.noted h'⟩

end KeptByImports

/-! ### What no import touches -/

namespace Retains

variable {s t : Seat}

theorem refl (s : Seat) : Retains s s :=
  ⟨rfl, rfl, rfl, rfl, id, fun _ ↦ rfl, fun _ ↦ rfl⟩

theorem moved (h : Retains s t) (peer : PeerId) (event : ImportEvent) :
    Retains s (t.moved peer event) :=
  ⟨h.queue, h.schedule, h.registry, h.accepts,
    fun hp ↦ ModeTable.mem_apply (h.tracked hp) peer event, h.requests, h.received⟩

theorem withIndex (h : Retains s t) (index : PendingIndex) : Retains s (t.withIndex index) :=
  ⟨h.queue, h.schedule, h.registry, h.accepts, h.tracked, h.requests, h.received⟩

theorem withImported (h : Retains s t) (imported : RecentSet Digest) :
    Retains s (t.withImported imported) :=
  ⟨h.queue, h.schedule, h.registry, h.accepts, h.tracked, h.requests, h.received⟩

theorem noted (h : Retains s t) : Retains s t.noted :=
  ⟨h.queue, h.schedule, h.registry, h.accepts, h.tracked, h.requests, h.received⟩

theorem linked (h : Retains s t) (peer : PeerId) (c : Chain) (imported : List Digest) :
    Retains s (t.linked peer c imported) := by
  have hframe := Stats.recordImported_frame peer (UInt64.ofNat imported.length) t.engine.stats
  exact ⟨h.queue, h.schedule, h.registry, h.accepts, h.tracked,
    fun p ↦ (hframe p).1.trans (h.requests p), fun p ↦ (hframe p).2.trans (h.received p)⟩

/-- Every edit of an import retains what was there before it. -/
theorem keptByImports (s : Seat) : KeptByImports (Retains s) where
  linked h _ := h.linked ..
  drained _ _ h _ := h.moved ..
  withIndex _ h := h.withIndex _
  moved _ _ h := h.moved ..
  counted {t} peer blocks h := by
    have hframe := Stats.recordStored_frame peer blocks t.engine.stats
    exact ⟨h.queue, h.schedule, h.registry, h.accepts, h.tracked,
      fun p ↦ (hframe p).1.trans (h.requests p), fun p ↦ (hframe p).2.trans (h.received p)⟩
  remembered h _ := h.withImported _
  noted h := h.noted

end Retains

end Seat
end ChainSync
