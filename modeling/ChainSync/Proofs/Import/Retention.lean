import ChainSync.Proofs.Chain.Promotion
import ChainSync.Proofs.Import.Overflow
import ChainSync.Proofs.Import.Watch
import ChainSync.Proofs.Pending.Index
import ChainSync.Proofs.RecentSet

/-!
# Draining loses no block

A range is dropped from the pending store when nothing of it is wanted, when the chain stored all
that was wanted of it, or when the chain found it invalid. In the first two cases nothing is lost,
because every remembered hash is stored: a block is wanted unless it is stored or pruned. Main
statement: whatever batches and announced blocks a new engine takes, and whatever errors the chain
answers, every remembered hash stays stored, and a range that an import drops is stored or pruned
block by block unless the chain found it invalid in that import.
-/

namespace ChainSync

namespace PendingStore

def InMemory (p : PendingStore) : Prop := ∃ index, p.backing = .memory index

variable {p : PendingStore}

/-- Taking the error that is set leaves the ranges. -/
theorem backing_takeFailure {call : PendingCall} {e : StoreError} {q : PendingStore}
    (h : p.takeFailure call = some (e, q)) : q.backing = p.backing := by
  unfold takeFailure at h
  split at h
  · cases h
  · split at h
    · cases h
      rfl
    · cases h

theorem InMemory.load (memory : p.InMemory) (level : UInt64) :
    (p.load level).2.InMemory ∧ (p.load level).2.index = p.index ∧
      ∀ queues, (p.load level).1 = .ok queues → queues = p.index.load level := by
  obtain ⟨index, hindex⟩ := memory
  have hself : p.index = index := by rw [PendingStore.index, hindex]
  unfold PendingStore.load
  cases htake : p.takeFailure .load with
  | some failed =>
    obtain ⟨e, q⟩ := failed
    have hbacking := backing_takeFailure htake
    refine ⟨⟨index, hbacking.trans hindex⟩, ?_, fun _ h ↦ by cases h⟩
    rw [PendingStore.index, hbacking, PendingStore.index]
  | none =>
    simp only [hindex]
    refine ⟨⟨index, hindex⟩, trivial, fun queues h ↦ ?_⟩
    cases h
    rw [hself]

theorem InMemory.drop (memory : p.InMemory) (level : UInt64) (keys : List Digest)
    (loaded : PendingQueues) :
    (p.drop level keys loaded).2.InMemory ∧ ∀ l k blocks, p.index.range? l k = some blocks →
      (p.drop level keys loaded).2.index.range? l k = some blocks ∨ l = level ∧ k ∈ keys := by
  obtain ⟨index, hindex⟩ := memory
  have hself : p.index = index := by rw [PendingStore.index, hindex]
  unfold PendingStore.drop
  cases htake : p.takeFailure .drop with
  | some failed =>
    obtain ⟨e, q⟩ := failed
    have hbacking := backing_takeFailure htake
    refine ⟨⟨index, hbacking.trans hindex⟩, fun l k blocks h ↦ .inl ?_⟩
    rwa [PendingStore.index, hbacking]
  | none =>
    simp only [hindex]
    refine ⟨⟨_, rfl⟩, fun l k blocks h ↦ ?_⟩
    change (index.remove level keys).range? l k = some blocks ∨ _
    rw [PendingIndex.range?_remove, ← hself]
    by_cases hk : l = level ∧ k ∈ keys
    · exact .inr hk
    · rw [if_neg hk]
      exact .inl h

theorem InMemory.store (memory : p.InMemory) (blocks : List Block) :
    (p.store blocks).2.InMemory ∧ ∀ l k, (p.index.range? l k).isSome →
      ((p.store blocks).2.index.range? l k).isSome := by
  obtain ⟨index, hindex⟩ := memory
  have hself : p.index = index := by rw [PendingStore.index, hindex]
  unfold PendingStore.store
  cases htake : p.takeFailure .store with
  | some failed =>
    obtain ⟨e, q⟩ := failed
    have hbacking := backing_takeFailure htake
    refine ⟨⟨index, hbacking.trans hindex⟩, fun l k h ↦ ?_⟩
    rwa [PendingStore.index, hbacking]
  | none =>
    simp only [hindex]
    cases hinsert : index.insert blocks with
    | none => exact ⟨⟨index, hindex⟩, fun _ _ h ↦ h⟩
    | some filed =>
      obtain ⟨level, filed⟩ := filed
      refine ⟨⟨filed, rfl⟩, fun l k h ↦ ?_⟩
      change (filed.range? l k).isSome
      rw [hself] at h
      cases blocks with
      | nil => cases hinsert
      | cons first rest =>
        rw [(PendingIndex.range?_insert hinsert).2 l k]
        split
        · rfl
        · exact h

end PendingStore

namespace Call

/-- Every hash reported is one of a report. -/
theorem exists_report {call : Call} {h : Digest} (hh : h ∈ call.reported) :
    ∃ report, call.report? = some report ∧ h ∈ report.imported := by
  cases hr : call.report? with
  | none =>
    rw [reported, hr] at hh
    cases hh
  | some report =>
    rw [reported, hr] at hh
    exact ⟨report, rfl, hh⟩

end Call

namespace Seat

/-- Dropping keys of a level leaves what the pending store leaves. -/
theorem pending_dropPending (level : UInt64) (keys : List Digest) (loaded : PendingQueues)
    (s : Seat) : ((dropPending level keys loaded).leaves s).node.pending =
      if keys.isEmpty then s.node.pending else (s.node.pending.drop level keys loaded).2 := by
  unfold dropPending
  cases keys.isEmpty with
  | true => rfl
  | false =>
    simp only [Bool.not_false, if_true, Step.leaves_bind, Step.exec_update]
    cases (s.node.pending.drop level keys loaded).1 with
    | ok _ => rfl
    | error e => exact (sparesAll_reportStoreError _ e).pending

/-- Storing blocks as pending leaves what the pending store leaves. -/
theorem pending_storePending (peer : PeerId) (blocks : List Block) (s : Seat) :
    ((storePending peer blocks).leaves s).node.pending = (s.node.pending.store blocks).2 := by
  refine Step.Keeps.seq (P := fun t : Seat ↦ t.node.pending = (s.node.pending.store blocks).2) rfl
    fun answer ↦ ?_
  cases answer with
  | ok stored => exact .bind (fun _ h ↦ h) fun _ ↦ .pure _
  | error e =>
    exact .bind (fun t h ↦ (sparesAll_reportStoreError t e).pending.trans h) fun _ ↦ .pure _

end Seat

/-- Every remembered hash is stored. -/
def Seat.Backed (s : Seat) : Prop :=
  ∀ h ∈ s.engine.imported.keys, (s.node.chain.block? h).isSome

namespace Watched

/-- Every remembered hash is stored, now and at every seat passed. -/
structure Backed (w : Watched) : Prop where
  /-- Now it is. -/
  seat : w.seat.Backed
  /-- At every seat passed it was. -/
  passed {s : Seat} : s ∈ w.passed → s.Backed

namespace Backed

variable {w v : Watched}

theorem put (h : Backed w) {s : Seat} (spares : w.seat.Spares s) : Backed (seatPart.put s w) := by
  have hs : s.Backed := by
    intro x hx
    rw [spares.imported] at hx
    rw [spares.chain]
    exact h.seat x hx
  refine ⟨hs, fun ht ↦ ?_⟩
  rcases List.mem_cons.mp ht with rfl | ht
  · exact hs
  · exact h.passed ht

/-- What the chain reports of a list that is handed over is stored. -/
theorem handsOver (h : Backed w) {call : Call} (hover : HandsOver w call v) : Backed v := by
  have hkept {x : Digest} (hx : x ∈ w.seat.engine.imported.keys) :
      (v.seat.node.chain.block? x).isSome := hover.within.isSome (h.seat x hx)
  have hnew {x : Digest} (hx : x ∈ v.seat.engine.imported.keys) :
      (v.seat.node.chain.block? x).isSome := by
    rw [hover.imported] at hx
    rcases RecentSet.mem_of_mem_insertAll call.reported hx with hx | hx
    · exact hkept hx
    · obtain ⟨report, hr, hx⟩ := Call.exists_report hx
      obtain ⟨c, hc⟩ := hover.links hr
      exact Chain.isSome_of_mem_imported call.blocks hc x hx
  refine ⟨fun x hx ↦ hnew hx, fun hs ↦ ?_⟩
  rcases hover.passed hs with hs | ⟨hchain, himported⟩
  · exact h.passed hs
  · intro x hx
    rw [hchain]
    rcases himported with himported | himported
    · exact hkept (himported ▸ hx)
    · exact hnew (himported ▸ hx)

theorem remembered (h : Backed w) {hash : Digest} {number : UInt64}
    (stored : w.seat.node.chain.isStored hash number = true) :
    Backed ((remember [hash]).leaves w) := by
  have hnew : (w.seat.withImported (w.seat.engine.imported.insertAll [hash])).Backed := by
    intro x hx
    rcases RecentSet.mem_of_mem_insertAll [hash] hx with hx | hx
    · exact h.seat x hx
    · obtain rfl := List.mem_singleton.mp hx
      obtain ⟨b, hb, -⟩ := Option.any_eq_true .. |>.mp stored
      exact Option.isSome_iff_exists.mpr ⟨b, hb⟩
  refine ⟨hnew, fun hs ↦ ?_⟩
  rcases List.mem_cons.mp hs with rfl | hs
  · exact hnew
  · exact h.passed hs

/-- Every edit of an import remembers stored blocks only. -/
theorem keptByBatches : KeptByBatches Backed where
  sparesAll h spares := h.put spares.toSpares
  spares h spares := h.put spares
  handsOver h _ hover := h.handsOver hover
  remembered h stored := h.remembered stored

end Backed

/-! ### Ranges that are done with -/

/-- What was stored, pruned and noted before is so afterwards. -/
structure Extends (w v : Watched) : Prop where
  /-- No stored block is lost. -/
  within : w.seat.node.chain.Within v.seat.node.chain
  /-- The same heights are pruned. -/
  pruneFloor : v.seat.node.chain.pruneFloor = w.seat.node.chain.pruneFloor
  /-- No list is forgotten. -/
  calls {call : Call} : call ∈ w.calls → call ∈ v.calls

namespace Extends

theorem refl (w : Watched) : Extends w w := ⟨.refl _, rfl, id⟩

theorem trans {w v u : Watched} (h : Extends w v) (h' : Extends v u) : Extends w u :=
  ⟨h.within.trans h'.within, h'.pruneFloor.trans h.pruneFloor, fun hc ↦ h'.calls (h.calls hc)⟩

theorem put {w v : Watched} (h : Extends w v) {s : Seat} (spares : v.seat.Spares s) :
    Extends w (seatPart.put s v) := by
  refine h.trans ⟨?_, congrArg _ spares.chain, id⟩
  change v.seat.node.chain.Within s.node.chain
  rw [spares.chain]
  exact .refl _

theorem handsOver {w v : Watched} {call : Call} (hover : HandsOver w call v) : Extends w v :=
  ⟨hover.within, hover.pruneFloor, fun hc ↦ hover.calls ▸ List.mem_append_left _ hc⟩

/-- Every edit of an import extends what was there. -/
theorem keptByBatches (w : Watched) : KeptByBatches (Extends w) where
  sparesAll h spares := h.put spares.toSpares
  spares h spares := h.put spares
  handsOver h _ hover := h.trans (.handsOver hover)
  remembered h _ := h.trans ⟨.refl _, rfl, id⟩

end Extends

/-- Each block of a range is stored or pruned, or the chain found the range invalid. -/
def Settled (w : Watched) (level : UInt64) (key : Digest) (blocks : List Block) : Prop :=
  (∀ b ∈ blocks, (w.seat.node.chain.block? b.hash).isSome ∨
    w.seat.node.chain.isPruned b.number = true) ∨
  ∃ call ∈ w.calls, call.range = some (level, key) ∧ call.IsInvalid

theorem Settled.mono {w v : Watched} {level : UInt64} {key : Digest} {blocks : List Block}
    (h : Settled w level key blocks) (extended : Extends w v) : Settled v level key blocks := by
  refine h.imp (fun h b hb ↦ (h b hb).imp extended.within.isSome fun hp ↦ ?_)
    fun ⟨call, hc, h⟩ ↦ ⟨call, extended.calls hc, h⟩
  rw [Chain.isPruned, extended.pruneFloor]
  exact hp

/-- A range is done with once all that was wanted of it is stored: what is not wanted is remembered,
and therefore stored, or pruned. -/
theorem settled_of_wanted {w v : Watched} (backed : w.seat.Backed) (extended : Extends w v)
    (level : UInt64) (key : Digest) {blocks : List Block}
    (stored : ∀ b ∈ w.seat.wanted blocks, (v.seat.node.chain.block? b.hash).isSome) :
    Settled v level key blocks := by
  refine .inl fun b hb ↦ ?_
  by_cases hknown : b.hash ∈ w.seat.engine.imported.keys
  · exact .inl (extended.within.isSome (backed _ hknown))
  · by_cases hpruned : w.seat.node.chain.isPruned b.number = true
    · right
      rw [Chain.isPruned, extended.pruneFloor]
      exact hpruned
    · left
      refine stored b (List.mem_filter.mpr ⟨hb, ?_⟩)
      rw [Bool.not_eq_true] at hpruned
      rw [hpruned, Bool.not_false, Bool.and_true, Bool.not_eq_true', ← Bool.not_eq_true,
        RecentSet.contains_iff]
      exact hknown

theorem exec_applyMode (peer : PeerId) (event : ImportEvent) (w : Watched) :
    (watch (Seat.applyMode peer event)).exec w =
      (.ok (w.seat.engine.modes.apply peer event).1, seatPart.put (w.seat.moved peer event) w) :=
  rfl

/-! ### One range -/

/-- How handing over the first range of a level leaves a watched seat and a drain, where the drain
goes on with the other ranges. -/
inductive RangeStep (peer : PeerId) (level : UInt64) (key : Digest) (blocks : List Block)
    (w : Watched) (d : Drain) : Watched → Drain → Prop
  /-- No block is wanted. -/
  | nothing (empty : w.seat.wanted blocks = []) :
    RangeStep peer level key blocks w d (seatPart.put w.seat w) (d.settle key)
  /-- The chain answers with an error that the drain survives. -/
  | failed {e : ChainError} {u : Watched} (survived : e.isFatal = false)
      (hover : HandsOver (seatPart.put w.seat w)
        ⟨some (level, key), w.seat.wanted blocks, .ok (.error e)⟩ u) :
    RangeStep peer level key blocks w d u d
  /-- The range breaks a rule. -/
  | invalid {bestNumber : UInt64} {imported : List Digest} {u : Watched}
      (hover : HandsOver (seatPart.put w.seat w)
        ⟨some (level, key), w.seat.wanted blocks, .ok (.ok ⟨bestNumber, imported, .invalid⟩)⟩ u) :
    RangeStep peer level key blocks w d u (d.settle key)
  /-- The range still has no parent. -/
  | noParent {bestNumber : UInt64} {imported : List Digest} {u : Watched}
      (hover : HandsOver (seatPart.put w.seat w)
        ⟨some (level, key), w.seat.wanted blocks, .ok (.ok ⟨bestNumber, imported, .noParent⟩)⟩ u) :
    RangeStep peer level key blocks w d u d
  /-- The range is stored, and the drain may go up to the level above what was reached. -/
  | advanced {report : ConnectReport} {last : Block} {above : UInt64} {u : Watched}
      (hover : HandsOver (seatPart.put w.seat w)
        ⟨some (level, key), w.seat.wanted blocks, .ok (.ok report)⟩ u)
      (stored : report.outcome.isStored = true)
      (top : (w.seat.wanted blocks).getLast? = some last)
      (above_eq : above.toNat = max report.bestNumber.toNat last.number.toNat + 1) :
    RangeStep peer level key blocks w d
      (seatPart.put (u.seat.moved peer (.drained report.outcome)) u)
      (d.advance key report.imported.length above)

/-- Handing over ranges, if it answers, is handing over the first one and then the others, unless an
error of the chain ends the drain at the first one. -/
theorem exists_rangeStep {peer : PeerId} {level : UInt64} {key : Digest} {blocks : List Block}
    {rest : List (Digest × List Block)} {w v : Watched} {d d' : Drain} {goesOn : Bool}
    (run : (importSite.drainRanges peer level ((key, blocks) :: rest) d).exec w =
      (.ok (goesOn, d'), v)) :
    (∃ u e, RangeStep peer level key blocks w d u e ∧
      (importSite.drainRanges peer level rest e).exec u = (.ok (goesOn, d'), v)) ∨
    d' = d ∧ ∃ e, HandsOver (seatPart.put w.seat w)
      ⟨some (level, key), w.seat.wanted blocks, .ok (.error e)⟩ v := by
  have hlook : (watch get : Step Watched Seat).exec w = (.ok w.seat, seatPart.put w.seat w) := rfl
  rw [ImportSite.drainRanges] at run
  simp only [importSite_run] at run
  rw [Step.exec_bind_of_ok hlook] at run
  cases hlast : (w.seat.wanted blocks).getLast? with
  | none =>
    rw [hlast] at run
    exact .inl ⟨_, _, .nothing (List.getLast?_eq_none_iff.mp hlast), run⟩
  | some last =>
    rw [hlast] at run
    dsimp only at run
    obtain ⟨answer, u, hover, run⟩ := Step.exists_exec_of_bind run
    have hover := handsOver_of_exec hover
    rcases answer with e | report
    · dsimp only at run
      cases hfatal : e.isFatal with
      | true =>
        rw [hfatal, if_pos rfl] at run
        cases run
        exact .inr ⟨rfl, e, hover⟩
      | false =>
        rw [hfatal, if_neg Bool.false_ne_true] at run
        exact .inl ⟨u, d, .failed hfatal hover, run⟩
    · obtain ⟨bestNumber, imported, outcome⟩ := report
      cases outcome with
      | noParent => exact .inl ⟨u, d, .noParent hover, run⟩
      | invalid => exact .inl ⟨u, d.settle key, .invalid hover, run⟩
      | exist | imported _ =>
        dsimp only at run
        obtain ⟨above, habove, run⟩ := Step.exists_exec_of_lift_bind run
        rw [Step.exec_bind_of_ok (exec_applyMode ..)] at run
        exact .inl ⟨_, _, .advanced hover rfl hlast (Seat.levelAbove_eq_ok_iff.mp habove), run⟩

/-- The key of a range that is handed over is done with only where the range is. -/
theorem RangeStep.settled {peer : PeerId} {level : UInt64} {key : Digest} {blocks : List Block}
    {w u : Watched} {d e : Drain} (step : RangeStep peer level key blocks w d u e)
    (backed : Backed w) : Backed u ∧ ∀ k ∈ e.settled, k ∈ d.settled ∨
      k = key ∧ Settled u level key blocks := by
  have backed₁ : Backed (seatPart.put w.seat w) := backed.put (.refl _)
  -- A key that is noted now is the one of the range.
  have hdone {x : Watched} (hs : Settled x level key blocks) (k : Digest)
      (hk : k ∈ key :: d.settled) : k ∈ d.settled ∨ k = key ∧ Settled x level key blocks :=
    (List.mem_cons.mp hk).symm.imp_right fun hk ↦ ⟨hk, hs⟩
  cases step with
  | nothing empty =>
    refine ⟨backed₁, hdone (settled_of_wanted backed₁.seat (.refl _) _ _ fun b hb ↦ ?_)⟩
    change b ∈ w.seat.wanted blocks at hb
    rw [empty] at hb
    cases hb
  | failed _ hover => exact ⟨backed₁.handsOver hover, fun k hk ↦ .inl hk⟩
  | noParent hover => exact ⟨backed₁.handsOver hover, fun k hk ↦ .inl hk⟩
  | invalid hover => exact ⟨backed₁.handsOver hover, hdone (.inr ⟨_, hover.mem, rfl, rfl⟩)⟩
  | @advanced report _ _ u hover stored _ _ =>
    have spares : u.seat.Spares (u.seat.moved peer (.drained report.outcome)) := ⟨rfl, rfl⟩
    obtain ⟨c, hc⟩ := hover.links rfl
    have hs : Settled u level key blocks := settled_of_wanted backed₁.seat (.handsOver hover) _ _
      (Chain.isSome_of_mem_of_isStored _ hc stored)
    exact ⟨(backed₁.handsOver hover).put spares, hdone (hs.mono ((Extends.refl u).put spares))⟩

/-- The ranges that a drain of a level is done with are done with. -/
theorem settled_drainRanges (peer : PeerId) (level : UInt64) (ranges : List (Digest × List Block)) :
    ∀ {w v : Watched} {d d' : Drain} {goesOn : Bool}, Backed w →
      (importSite.drainRanges peer level ranges d).exec w = (.ok (goesOn, d'), v) →
      ∀ key ∈ d'.settled, key ∈ d.settled ∨
        ∃ blocks, (key, blocks) ∈ ranges ∧ Settled v level key blocks := by
  induction ranges with
  | nil =>
    intro w v d d' goesOn _ run key hkey
    cases run
    exact .inl hkey
  | cons range rest ih =>
    intro w v d d' goesOn backed run key hkey
    rcases exists_rangeStep run with ⟨u, e, step, hrest⟩ | ⟨rfl, -⟩
    · obtain ⟨backed', hsettled⟩ := step.settled backed
      rcases ih backed' hrest key hkey with he | ⟨blocks, hmem, hs⟩
      · refine (hsettled key he).imp_right ?_
        rintro ⟨rfl, hs⟩
        have extended := (Extends.keptByBatches u).drainRanges peer level rest e (.refl u)
        rw [Step.leaves, hrest] at extended
        exact ⟨_, List.mem_cons_self, hs.mono extended⟩
      · exact .inr ⟨blocks, List.mem_cons_of_mem _ hmem, hs⟩
    · exact .inl hkey

/-! ### The pending ranges of a batch -/

def index (w : Watched) : PendingIndex := w.seat.node.pending.index

/-- Every range of the index is there or done with, and ranges are kept in memory. -/
structure Guards (index : PendingIndex) (w : Watched) : Prop where
  /-- Ranges are kept in memory. -/
  memory : w.seat.node.pending.InMemory
  /-- Every remembered hash is stored. -/
  backed : Backed w
  /-- Every range of the index is there or done with. -/
  range {level : UInt64} {key : Digest} {blocks : List Block} :
    index.range? level key = some blocks →
      w.index.range? level key = some blocks ∨ Settled w level key blocks

/-- Every range of the index is done with, unless a range stands in its place, and ranges are kept
in memory. -/
structure Accounts (index : PendingIndex) (w : Watched) : Prop where
  /-- Ranges are kept in memory. -/
  memory : w.seat.node.pending.InMemory
  /-- Every range of the index is done with, unless a range stands in its place. -/
  range {level : UInt64} {key : Digest} {blocks : List Block} :
    index.range? level key = some blocks →
      (w.index.range? level key).isSome ∨ Settled w level key blocks

namespace Guards

variable {ranges : PendingIndex} {w v : Watched}

theorem accounts (h : Guards ranges w) : Accounts ranges w := by
  refine ⟨h.memory, fun hrange ↦ (h.range hrange).imp_left fun h ↦ ?_⟩
  rw [h, Option.isSome_some]

/-- Where the pending store stays the same the ranges stay guarded. -/
theorem of_pending_eq (h : Guards ranges w) (backed : Backed v) (extended : Extends w v)
    (hpending : v.seat.node.pending = w.seat.node.pending) : Guards ranges v := by
  refine ⟨hpending ▸ h.memory, backed, fun hrange ↦ ?_⟩
  refine (h.range hrange).imp (fun h ↦ ?_) fun h ↦ h.mono extended
  rw [index, hpending]
  exact h

/-- Handing over ranges leaves the pending store. -/
theorem keptByRanges_pending (p : PendingStore) :
    KeptByRanges fun w ↦ w.seat.node.pending = p where
  sparesAll h spares := spares.pending.trans h
  handsOver h _ hover := hover.pending.trans h

/-- Handing over ranges guards those that are pending. -/
theorem keptByRanges (ranges : PendingIndex) : KeptByRanges (Guards ranges) where
  sparesAll {w _} h spares := h.of_pending_eq (h.backed.put spares.toSpares)
    ((Extends.refl w).put spares.toSpares) spares.pending
  handsOver h _ hover := h.of_pending_eq (h.backed.handsOver hover) (.handsOver hover) hover.pending

/-- Dropping ranges that are done with guards the ranges. -/
theorem dropPending (h : Guards ranges w) {level : UInt64} {keys : List Digest}
    (settled : ∀ key ∈ keys, ∀ blocks, w.index.range? level key = some blocks →
      Settled w level key blocks) (loaded : PendingQueues) :
    Guards ranges ((watch (Seat.dropPending level keys loaded)).leaves w) := by
  obtain ⟨hmemory, hrest⟩ := h.memory.drop level keys loaded
  have spares := Seat.keeps_spares_drop w.seat level keys loaded (.refl _)
  have hpending := Seat.pending_dropPending level keys loaded w.seat
  change Guards ranges (seatPart.put ((Seat.dropPending level keys loaded).leaves w.seat) w)
  generalize (Seat.dropPending level keys loaded).leaves w.seat = t at spares hpending
  have extended : Extends w (seatPart.put t w) := (Extends.refl w).put spares
  by_cases hk : keys.isEmpty = true
  · rw [if_pos hk] at hpending
    exact h.of_pending_eq (h.backed.put spares) extended hpending
  · rw [if_neg hk] at hpending
    refine ⟨hpending ▸ hmemory, h.backed.put spares, fun {l k blocks} hrange ↦ ?_⟩
    change t.node.pending.index.range? l k = some blocks ∨ _
    rw [hpending]
    rcases h.range hrange with hrange | hs
    · refine (hrest l k blocks hrange).imp_right ?_
      rintro ⟨rfl, hk⟩
      exact (settled k hk blocks hrange).mono extended
    · exact .inr (hs.mono extended)

/-- Draining a level guards the ranges: those dropped are done with. -/
theorem drainLevel (h : Guards ranges w) (peer : PeerId) (level : UInt64) (d : Drain) :
    Guards ranges ((importSite.drainLevel peer level d).leaves w) := by
  obtain ⟨hmemory, hsame, hqueues⟩ := h.memory.load level
  -- After its ranges are loaded the pending store holds the same ranges.
  have hloaded : (watch (Seat.loadPending level)).exec w =
      (.ok (w.seat.node.pending.load level).1, seatPart.put
        { w.seat with node := { w.seat.node with pending := (w.seat.node.pending.load level).2 } }
        w) := rfl
  generalize hw : seatPart.put { w.seat with node := { w.seat.node with
    pending := (w.seat.node.pending.load level).2 } } w = w₁ at hloaded
  have hpending : w₁.seat.node.pending = (w.seat.node.pending.load level).2 := by rw [← hw]; rfl
  have hindex : w₁.index = w.index := by rw [index, hpending, hsame, index]
  have h₁ : Guards ranges w₁ := by
    have extended : Extends w w₁ := hw ▸ (Extends.refl w).put ⟨rfl, rfl⟩
    refine ⟨hpending ▸ hmemory, hw ▸ h.backed.put ⟨rfl, rfl⟩, fun hrange ↦ ?_⟩
    rw [hindex]
    exact (h.range hrange).imp_right fun h ↦ h.mono extended
  rw [ImportSite.drainLevel, importSite_run, Step.leaves_bind, hloaded]
  dsimp only
  cases hload : (w.seat.node.pending.load level).1 with
  | error e =>
    have halarm := (keptByRanges ranges).watch fun s ↦ Seat.sparesAll_reportStoreError s e
    exact Step.Keeps.bind halarm (fun _ ↦ .pure _) h₁
  | ok queues =>
    have hqueues := hqueues queues hload
    dsimp only
    have h₂ := (keptByRanges ranges).drainRanges peer level queues.toList
      { d with settled := [] } h₁
    have hkept := (keptByRanges_pending w₁.seat.node.pending).drainRanges peer level queues.toList
      { d with settled := [] } rfl
    rw [Step.leaves] at h₂ hkept
    rw [Step.leaves_bind]
    cases hrun : (importSite.drainRanges peer level queues.toList
        { d with settled := [] }).exec w₁ with
    | mk answer v =>
      rw [hrun] at h₂ hkept
      rcases answer with fault | ⟨goesOn, d'⟩
      · exact h₂
      · cases goesOn with
        | false => exact h₂
        | true =>
          refine Step.Keeps.seq (h₂.dropPending (fun key hkey blocks hrange ↦ ?_) queues)
            fun _ ↦ .pure _
          -- The range under the key is the one that was loaded and drained.
          rcases settled_drainRanges peer level queues.toList h₁.backed hrun key
            (List.mem_reverse.mp hkey) with hnone | ⟨blocks', hmem, hs⟩
          · cases hnone
          · have hloaded : w.index.range? level key = some blocks' := by
              rw [PendingIndex.range?, index, ← hqueues]
              exact Std.ExtTreeMap.mem_toList_iff_getElem?_eq_some.mp hmem
            have hv : v.index = w.index := by rw [← hindex, index, index, hkept]
            rw [hv, hloaded] at hrange
            cases hrange
            exact hs

/-- Draining levels guards the ranges. -/
theorem drain (h : Guards ranges w) (peer : PeerId) (level : UInt64) (d : Drain) :
    Guards ranges ((importSite.drain peer level d).leaves w) := by
  -- By induction on the number of levels that are left up to the last height.
  induction hn : UInt64.size - level.toNat using Nat.strongRecOn generalizing level d w with
  | ind n ih =>
    rw [ImportSite.drain]
    split
    · exact h
    · have h' := h.drainLevel peer level d
      rw [Step.leaves] at h'
      rw [Step.leaves_bind]
      cases hlevel : (importSite.drainLevel peer level d).exec w with
      | mk answer v =>
        rw [hlevel] at h'
        rcases answer with fault | ⟨goesOn, d'⟩
        · exact h'
        · cases goesOn with
          | false => exact h'
          | true =>
            dsimp only
            rw [if_pos rfl]
            split
            · exact h'
            · next next hnext =>
              have hone : (1 : UInt64).toNat = 1 := rfl
              have := toNat_of_checkedAdd_eq_ok hnext
              have := next.toNat_lt_size
              exact ih (UInt64.size - next.toNat) (by omega) h' next d' rfl

end Guards

namespace Accounts

variable {ranges : PendingIndex} {w v : Watched}

theorem mono (h : Accounts ranges w) (extended : Extends w v)
    (memory : v.seat.node.pending.InMemory)
    (hkept : ∀ l k, (w.index.range? l k).isSome → (v.index.range? l k).isSome) :
    Accounts ranges v :=
  ⟨memory, fun hrange ↦ (h.range hrange).imp (hkept _ _) fun h ↦ h.mono extended⟩

/-- A step that changes nothing of concern accounts for the ranges. -/
theorem watch {step : Step Seat α} (spares : ∀ s : Seat, s.SparesAll (step.leaves s)) :
    Step.Keeps (Accounts ranges) (watch step) := by
  intro w h
  have hpending : ((Watched.watch step).leaves w).seat.node.pending = w.seat.node.pending :=
    (spares w.seat).pending
  refine h.mono ((Extends.refl w).put (spares w.seat).toSpares) (hpending ▸ h.memory)
    fun l k hk ↦ ?_
  rw [index, hpending]
  exact hk

/-- Storing blocks as pending accounts for the ranges. -/
theorem storePending (guards : Guards ranges w) (peer : PeerId) (blocks : List Block) :
    Accounts ranges ((Watched.watch (Seat.storePending peer blocks)).leaves w) := by
  have spares := Seat.keeps_spares_store w.seat peer blocks (.refl _)
  have hpending : ((Watched.watch (Seat.storePending peer blocks)).leaves w).seat.node.pending =
      (w.seat.node.pending.store blocks).2 := Seat.pending_storePending ..
  obtain ⟨hmemory, hkept⟩ := guards.memory.store blocks
  refine guards.accounts.mono ((Extends.refl w).put spares) (hpending ▸ hmemory) fun l k hk ↦ ?_
  rw [index, hpending]
  exact hkept l k hk

end Accounts

/-- Handing over the wanted blocks of a batch accounts for the ranges that were pending. -/
theorem accounts_importWanted {ranges : PendingIndex} {w : Watched} (h : Guards ranges w)
    {blocks : List Block} (fresh : ∀ b ∈ blocks, b.hash ∉ w.seat.engine.imported.keys)
    (peer : PeerId) (bestBefore : UInt64) (first last : Block) :
    Accounts ranges ((importSite.importWanted peer bestBefore blocks first last).leaves w) := by
  obtain ⟨call, -, rfl, hover, -⟩ := exists_handsOver peer none blocks w
  have h' := (Guards.keptByRanges ranges).handsOver h fresh hover
  have kept := Guards.keptByRanges ranges
  rw [ImportSite.importWanted, Step.leaves_bind]
  rw [Step.leaves] at h'
  cases hx : (importSite.handOver peer none call.blocks).exec w with
  | mk answer v =>
    rw [hx] at h'
    rcases answer with fault | e | report
    · exact h'.accounts
    · exact h'.accounts
    · obtain ⟨bestNumber, imported, outcome⟩ := report
      cases outcome with
      | noParent =>
        exact Step.Keeps.seq (Accounts.storePending h' peer _) fun stored ↦ .bind (.lift _)
          fun _ ↦ .bind (Accounts.watch fun _ ↦ ⟨⟨rfl, rfl⟩, rfl⟩) fun mode ↦ .bind (.pure _)
          fun _ ↦ .pure _
      | invalid =>
        exact (Step.Keeps.bind (.pure _) (fun stored ↦ .bind (.lift _) fun _ ↦
          .bind (kept.applyMode ..) fun mode ↦ .bind (.pure _) fun _ ↦ .pure _) h').accounts
      | exist | imported _ =>
        exact (Step.Keeps.bind (.pure _) (fun stored ↦ .bind (.lift _) fun _ ↦
          .bind (kept.applyMode ..) fun mode ↦ .bind (.lift _) fun _ ↦
          .bind (fun _ h ↦ h.drain ..) fun drained ↦ .pure _) h').accounts

/-- An import accounts for the ranges that were pending before it. -/
theorem accounts_processBatch {w : Watched} (memory : w.seat.node.pending.InMemory)
    (backed : Backed w) (batch : BlockBatch) :
    Accounts w.index ((processBatch batch).leaves w) := by
  have kept := Guards.keptByRanges w.index
  have start : Guards w.index (seatPart.put w.seat w) :=
    ⟨memory, backed.put (.refl _), fun hrange ↦ .inl hrange⟩
  refine leaves_processBatch (Accounts.watch fun _ ↦ ⟨⟨rfl, rfl⟩, rfl⟩)
    (kept.applyMode batch.peer .emptyAfterFilter start).accounts (fun last stored ↦ ?_)
    fun first last ↦ ?_
  · have remembered := start.of_pending_eq (start.backed.remembered stored)
      ⟨.refl _, rfl, id⟩ rfl
    exact (Step.Keeps.seq remembered fun _ ↦ kept.applyMode ..).accounts
  · exact accounts_importWanted start (fun b hb ↦ not_mem_of_mem_wanted hb) ..

end Watched

/-! ### Announced blocks -/

namespace Seat

/-- Every remembered hash is stored, and pending ranges are kept in memory. -/
structure Secure (s : Seat) : Prop where
  /-- Every remembered hash is stored. -/
  backed : s.Backed
  /-- Pending ranges are kept in memory. -/
  memory : s.node.pending.InMemory

theorem Secure.sparesAll {s t : Seat} (h : s.Secure) (spares : s.SparesAll t) : t.Secure := by
  refine ⟨fun x hx ↦ ?_, spares.pending ▸ h.memory⟩
  rw [spares.imported] at hx
  rw [spares.chain]
  exact h.backed x hx

theorem keeps_secure {α : Type} {step : Step Seat α}
    (spares : ∀ s : Seat, s.SparesAll (step.leaves s)) : Step.Keeps Secure step :=
  fun s h ↦ h.sparesAll (spares s)

theorem keeps_secure_linkAnnounced (block : Block) :
    Step.Keeps Secure (linkAnnounced block) := by
  intro s h
  have handed := handed_connect s [block]
  rw [linkAnnounced, Step.leaves_bind]
  rw [Step.leaves] at handed
  cases hx : (connect [block]).exec s with
  | mk answer t =>
    rw [hx] at handed
    have secure : t.Secure := by
      refine ⟨fun x hx ↦ ?_, handed.pending ▸ h.memory⟩
      rw [handed.engine] at hx
      exact handed.within.isSome (h.backed x hx)
    rcases answer with fault | e | report
    · exact secure
    · exact secure.sparesAll (sparesAll_reportChainError t e)
    · dsimp only
      split
      · next stored =>
        obtain ⟨c, hc⟩ := handed.links rfl
        refine ⟨fun x hx ↦ ?_, secure.memory⟩
        rcases RecentSet.mem_of_mem_insertAll [block.hash] hx with hx | hx
        · exact secure.backed x hx
        · obtain rfl := List.mem_singleton.mp hx
          exact Chain.isSome_of_mem_of_isStored [block] hc stored block List.mem_cons_self
      · exact secure

/-- Messages to peers change nothing of concern. -/
theorem sparesAll_broadcast (s : Seat) (block : Block) (peers : List PeerId) :
    SparesAll s ((onNode (Node.broadcast block peers)).leaves s) := by
  obtain ⟨registry, h⟩ := s.node.exists_broadcast block peers
  change SparesAll s { s with node := s.node.broadcast block peers }
  rw [h]
  exact ⟨⟨rfl, rfl⟩, rfl⟩

theorem keeps_secure_receiveAnnounced (sender : PeerId) (block : Block) :
    Step.Keeps Secure (receiveAnnounced sender block) := by
  have hforward : Step.Keeps Secure (forward sender block) := by
    refine .bind (fun _ h ↦ h) fun s ↦ ?_
    dsimp only
    split
    · exact .bind (keeps_secure fun t ↦ t.sparesAll_broadcast block _) fun _ ↦ .pure _
    · exact .pure _
  unfold receiveAnnounced
  refine .bind (fun _ h ↦ h) fun s ↦ ?_
  split
  · exact .pure _
  · refine .bind (keeps_secure fun t ↦ ⟨⟨rfl, rfl⟩, rfl⟩) fun fresh ↦ ?_
    split
    · exact .pure _
    · refine .bind (fun _ h ↦ h) fun t ↦ .bind (.lift _) fun next ↦ ?_
      split
      · exact .pure _
      · exact .bind hforward fun forwarded ↦ .bind (keeps_secure_linkAnnounced block)
          fun linked ↦ .pure _

end Seat

/-! ### Runs -/

/-- What a new engine takes from peers. -/
inductive Arrival where
  /-- A batch, and the errors that are set for the lists that its import hands to the chain. -/
  | batch (batch : BlockBatch) (errors : List (Option ChainError))
  /-- A block that a peer announced, and the error that is set when it is handed to the chain. -/
  | announced (sender : PeerId) (block : Block) (error : Option ChainError)

namespace Seat

open Chain (sprout shoot)

def arrive (s : Seat) : Arrival → Seat
  | .batch batch errors => ((Watched.processBatch batch).leaves (.on s errors)).seat
  | .announced sender block error => (receiveAnnounced sender block).leaves (s.failing error)

/-- A seat stays secure whatever arrives. -/
theorem Secure.arrive {s : Seat} (secure : s.Secure) (arrival : Arrival) :
    (s.arrive arrival).Secure := by
  cases arrival with
  | batch batch errors =>
    have start : Watched.Backed (.on s errors) := ⟨secure.backed, fun h ↦ by cases h⟩
    exact ⟨(Watched.Backed.keptByBatches.processBatch batch start).seat,
      (Watched.accounts_processBatch secure.memory start batch).memory⟩
  | announced sender block error =>
    refine keeps_secure_receiveAnnounced sender block ?_
    cases error with
    | none => exact secure
    | some e => exact ⟨secure.backed, secure.memory⟩

/-- A seat stays secure along every run. -/
theorem Secure.foldl_arrive (arrivals : List Arrival) :
    ∀ {s : Seat}, s.Secure → (arrivals.foldl Seat.arrive s).Secure := by
  induction arrivals with
  | nil => exact fun secure ↦ secure
  | cons arrival rest ih => exact fun secure ↦ ih (secure.arrive arrival)

/-- A new engine, whose pending ranges are kept in memory, takes batches and announced blocks in any
order, whatever errors the chain answers. Every remembered hash is stored at all times, also while
the next batch is imported; and of each range that this import drops every block is stored or
pruned afterwards, unless the chain found the range invalid in this import. -/
theorem backed_and_settled_foldl_arrive {s : Seat} (fresh : s.engine.imported.keys = [])
    (memory : s.node.pending.InMemory) (arrivals : List Arrival) (batch : BlockBatch)
    (errors : List (Option ChainError)) :
    let t := arrivals.foldl arrive s
    let w := (Watched.processBatch batch).leaves (.on t errors)
    t.Backed ∧ (∀ u ∈ w.passed, u.Backed) ∧ ∀ level key blocks,
      t.node.pending.index.range? level key = some blocks →
      w.seat.node.pending.index.range? level key = none →
      (∀ b ∈ blocks, (w.seat.node.chain.block? b.hash).isSome ∨
        w.seat.node.chain.isPruned b.number = true) ∨
      ∃ call ∈ w.calls, call.range = some (level, key) ∧ call.IsInvalid := by
  intro t w
  have hstart : s.Backed := by
    intro h hh
    rw [fresh] at hh
    cases hh
  have start : s.Secure := ⟨hstart, memory⟩
  have secure : t.Secure := start.foldl_arrive arrivals
  have backed : Watched.Backed (.on t errors) := ⟨secure.backed, fun h ↦ by cases h⟩
  have backed' : Watched.Backed w := Watched.Backed.keptByBatches.processBatch batch backed
  refine ⟨secure.backed, fun u hu ↦ backed'.passed hu, fun level key blocks hrange hgone ↦ ?_⟩
  refine ((Watched.accounts_processBatch secure.memory backed batch).range hrange).resolve_left ?_
  rw [Watched.index, hgone]
  exact Bool.false_ne_true

/-- A block whose parent is missing, and a rival of that parent from another peer. -/
def sproutArrivals : List Arrival :=
  [.batch ⟨.ofNat 1, "peer-1", [shoot]⟩ [], .announced (.ofNat 3) (sprout 1) none]

/-- Over the first block of every chain, the range of a block whose parent was missing is dropped
with the import of the parent, and its block is stored. -/
theorem backed_and_settled_foldl_arrive_sproutArrivals :
    ∃ c, Chain.new .genesis = .ok c ∧ (genesisSeat c).engine.imported.keys = [] ∧
      (genesisSeat c).node.pending.InMemory ∧
      let t := sproutArrivals.foldl arrive (genesisSeat c)
      let w := (Watched.processBatch ⟨.ofNat 2, "peer-2", [sprout 0]⟩).leaves (.on t [])
      t.node.pending.index.range? 2 shoot.hash = some [shoot] ∧
      w.seat.node.pending.index.range? 2 shoot.hash = none ∧
      ((∀ b ∈ [shoot], (w.seat.node.chain.block? b.hash).isSome ∨
        w.seat.node.chain.isPruned b.number = true) ∨
      ∃ call ∈ w.calls, call.range = some (2, shoot.hash) ∧ call.IsInvalid) := by
  obtain ⟨c, hnew, hrun⟩ := exists_genesis_of_any (fun c ↦
    let t := sproutArrivals.foldl arrive (genesisSeat c)
    let w := (Watched.processBatch ⟨.ofNat 2, "peer-2", [sprout 0]⟩).leaves (.on t [])
    decide (t.node.pending.index.range? 2 shoot.hash = some [shoot] ∧
      w.seat.node.pending.index.range? 2 shoot.hash = none)) (by decide +kernel)
  obtain ⟨hbefore, hafter⟩ := of_decide_eq_true hrun
  have memory : (genesisSeat c).node.pending.InMemory := ⟨.empty, rfl⟩
  exact ⟨c, hnew, rfl, memory, hbefore, hafter, (backed_and_settled_foldl_arrive rfl memory
    sproutArrivals _ []).2.2 2 shoot.hash [shoot] hbefore hafter⟩

end Seat
end ChainSync
