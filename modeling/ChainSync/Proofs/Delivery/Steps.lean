import ChainSync.Proofs.Delivery.Batch
import ChainSync.Proofs.Delivery.Queue

/-!
# Steps of a delivery

A delivery pushes segments of a line into the queue and imports the batches that wait, in any order.
Every step of it keeps that the line is held up to a height, that what waits and what is pending are
segments of it, and that no pushed block is lost.
-/

namespace ChainSync

/-- A step of a delivery. -/
inductive Delivery where
  /-- A peer's segment from one height to another is pushed. -/
  | push (peer : PeerId) (name : String) (first last : Nat)
  /-- The batch that is next in the queue is imported, if there is one. -/
  | importNext
  deriving DecidableEq, Repr

namespace Delivery

/-- The pushed segment lies on the line above its first block. -/
def Fits (top : Nat) : Delivery → Prop
  | push _ _ first last => 1 ≤ first ∧ first ≤ last ∧ last ≤ top
  | importNext => True

/-- A height lies in the pushed segment. -/
def Covers (i : Nat) : Delivery → Prop
  | push _ _ first last => first ≤ i ∧ i ≤ last
  | importNext => False

def size : Delivery → Nat
  | push _ _ first last => last + 1 - first
  | importNext => 0

/-- A height lies in one of the pushed segments. -/
def Covered (deliveries : List Delivery) (i : Nat) : Prop := ∃ d ∈ deliveries, d.Covers i

def total (deliveries : List Delivery) : Nat := (deliveries.map size).sum

/-- How many batches wait at most after a step, if so many wait at most before it. -/
def backlogAfter (waiting : Nat) : Delivery → Nat
  | push .. => waiting + 1
  | importNext => waiting - 1

/-- How many batches wait at most in the end. -/
def backlog (deliveries : List Delivery) : Nat := deliveries.foldl backlogAfter 0

theorem covered_append_singleton {done : List Delivery} {d : Delivery} {i : Nat} :
    Covered (done ++ [d]) i ↔ Covered done i ∨ d.Covers i := by
  simp [Covered, or_and_right, exists_or]

theorem total_append_singleton (done : List Delivery) (d : Delivery) :
    total (done ++ [d]) = total done + d.size := by
  simp [total]

theorem backlog_append_singleton (done : List Delivery) (d : Delivery) :
    backlog (done ++ [d]) = d.backlogAfter (backlog done) := by
  simp [backlog]

end Delivery

namespace Seat

def push (batch : BlockBatch) : Step Seat (Except StoreError PushOutcome) := do
  let best := (← get).node.chain.bestNumber
  queuePart.run (ImportQueue.push batch best)

def withQueue (s : Seat) (queue : ImportQueue) : Seat :=
  { s with engine := { s.engine with queue } }

/-- Imports the batch that is next in the queue, if there is one. -/
def importNext : Step Seat (Option BatchReport) := do
  match ← popBatch with
  | none => return none
  | some batch => return some (← processBatch batch)

/-- The seat after blocks were filed that were far ahead. -/
def diverted (s : Seat) (blocks : List Block) : Seat :=
  match s.node.pending.index.insert blocks with
  | none => s
  | some (_, index) => s.withIndex index

theorem Holds.withQueue {c : Nat → Block} {top height : Nat} {P : Nat → Prop} {s : Seat}
    (holds : Holds c top P height s) (queue : ImportQueue) :
    Holds c top P height (s.withQueue queue) :=
  ⟨⟨holds.calm.later, holds.calm.chain, holds.calm.pending, holds.calm.memory⟩, holds.stores,
    holds.le_top, holds.sound, holds.cache, holds.counted⟩

/-- The blocks counted as filed for a peer and those that wait are no more than a number. -/
def Counted (number : Nat) (s : Seat) : Prop :=
  ∃ waiting : List BlockBatch,
    (∀ (n : UInt64) (batch : BlockBatch), s.engine.queue.batches[n]? = some batch →
      batch ∈ waiting) ∧
    ∀ p, (s.engine.stats.counters p).stored.toNat + (waiting.map BlockBatch.size).sum ≤ number

namespace Counted

variable {number : Nat} {s t : Seat}

theorem mono (counted : Counted number s) {more : Nat} (hle : number ≤ more) : Counted more s := by
  obtain ⟨waiting, hwaiting, hcount⟩ := counted
  exact ⟨waiting, hwaiting, fun p ↦ Nat.le_trans (hcount p) hle⟩

/-- The blocks of a batch that waits can still be counted as filed. -/
theorem room (counted : Counted number s) {n : UInt64} {batch : BlockBatch}
    (hbatch : s.engine.queue.batches[n]? = some batch) (p : PeerId) :
    (s.engine.stats.counters p).stored.toNat + batch.size ≤ number := by
  obtain ⟨waiting, hwaiting, hcount⟩ := counted
  have hsum := ((List.perm_cons_erase (hwaiting n batch hbatch)).map BlockBatch.size).sum_nat
  have hp := hcount p
  rw [hsum, List.map_cons, List.sum_cons] at hp
  omega

/-- A batch waits no longer, and no more than its blocks were counted as filed. -/
theorem imported (counted : Counted number s) {n : UInt64} {batch : BlockBatch}
    (hbatch : s.engine.queue.batches[n]? = some batch)
    (hothers : ∀ (m : UInt64) (b : BlockBatch), t.engine.queue.batches[m]? = some b →
      b ≠ batch ∧ s.engine.queue.batches[m]? = some b)
    (hfiled : ∀ p, (t.engine.stats.counters p).stored.toNat ≤
      (s.engine.stats.counters p).stored.toNat + batch.size) : Counted number t := by
  obtain ⟨waiting, hwaiting, hcount⟩ := counted
  have hsum := ((List.perm_cons_erase (hwaiting n batch hbatch)).map BlockBatch.size).sum_nat
  refine ⟨waiting.erase batch, ?_, ?_⟩
  · intro m b h
    obtain ⟨hne, hb⟩ := hothers m b h
    exact (List.mem_erase_of_ne hne).mpr (hwaiting m b hb)
  · intro p
    have hp := hcount p
    have hmore := hfiled p
    rw [hsum, List.map_cons, List.sum_cons] at hp
    omega

/-- One more batch waits, and nothing was counted. -/
theorem pushed (counted : Counted number s) {batch : BlockBatch}
    (hothers : ∀ (m : UInt64) (b : BlockBatch), t.engine.queue.batches[m]? = some b →
      b = batch ∨ s.engine.queue.batches[m]? = some b)
    (hstats : t.engine.stats = s.engine.stats) : Counted (number + batch.size) t := by
  obtain ⟨waiting, hwaiting, hcount⟩ := counted
  refine ⟨batch :: waiting, ?_, ?_⟩
  · intro m b h
    rcases hothers m b h with rfl | hold
    · exact List.mem_cons_self
    · exact List.mem_cons_of_mem _ (hwaiting m b hold)
  · intro p
    have hp := hcount p
    rw [hstats, List.map_cons, List.sum_cons]
    omega

end Counted

/-- Where a delivery stands: the line is held up to a height, what waits and what is pending are
segments of it, and every pushed block is below the height, waits, or is pending. -/
structure Standing (c : Nat → Block) (top : Nat) (done : List Delivery) (height : Nat) (s : Seat) :
    Prop where
  /-- The line is held up to the height. -/
  holds : Holds c top (Delivery.Covered done) height s
  /-- What is pending is out of reach. -/
  files : Files c top (Delivery.Covered done) (height + 2) s.node.pending.index
  /-- Only batches more than one above the best block are far ahead. -/
  slack : 1 ≤ s.engine.queue.slack.toNat
  /-- How far ahead a batch is can be computed. -/
  room : top + s.engine.queue.slack.toNat < UInt64.size
  /-- What waits are segments under their first numbers. -/
  queued {n : UInt64} {batch : BlockBatch} : s.engine.queue.batches[n]? = some batch →
    Piece c top (Delivery.Covered done) n.toNat batch.blocks
  /-- No pushed block is lost. -/
  kept {i : Nat} : i ≤ top → Delivery.Covered done i →
    i ≤ height ∨ s.engine.queue.Has (c i) ∨ s.node.pending.index.Has (c i)
  /-- No more batches wait than were pushed and not yet imported. -/
  size_le : s.engine.queue.size ≤ Delivery.backlog done
  /-- The blocks counted as filed and those that wait were all pushed. -/
  counted : Counted (Delivery.total done) s

/-- Nothing waits in the queue of a new engine. -/
theorem batches_fresh (chain : Chain) (accepts : Header → Bool) (settings : Settings)
    (inbox : TrieInbox) (modes : ModeTable) (n : UInt64) :
    (fresh chain accepts settings inbox modes).engine.queue.batches[n]? = none := by
  simp [fresh, Engine.new, ImportQueue.new]

theorem counters_fresh (chain : Chain) (accepts : Header → Bool) (settings : Settings)
    (inbox : TrieInbox) (modes : ModeTable) (peer : PeerId) :
    (fresh chain accepts settings inbox modes).engine.stats.counters peer = .zero := by
  simp [fresh, Engine.new, Stats.new, Stats.counters]

namespace Standing

variable {c : Nat → Block} {top height : Nat} {done : List Delivery} {s : Seat}

theorem initial {chain : Chain} (stores : StoresTo c 0 chain)
    (hcalm : chain.nextFailure = none) (accepts : Header → Bool) {settings : Settings}
    (hslack : 1 ≤ settings.importSlack.toNat)
    (hroom : top + settings.importSlack.toNat < UInt64.size) (inbox : TrieInbox)
    (modes : ModeTable) :
    Standing c top [] 0 (fresh chain accepts settings inbox modes) := by
  have holds : Holds c top (Delivery.Covered []) 0 (fresh chain accepts settings inbox modes) := by
    refine ⟨calm_fresh hcalm .., stores, Nat.zero_le _, ?_, ?_, ?_⟩
    · intro i hone hi
      omega
    · intro hash h
      cases h
    · intro peer
      rw [counters_fresh]
      exact Nat.le_refl 0
  have hcounted : Counted 0 (fresh chain accepts settings inbox modes) := by
    refine ⟨[], ?_, ?_⟩
    · intro n batch h
      rw [batches_fresh] at h
      cases h
    · intro p
      rw [counters_fresh]
      exact Nat.le_refl 0
  refine ⟨holds, ?_, hslack, hroom, ?_, ?_, Nat.le_refl 0, hcounted⟩
  · intro level key blocks h
    rw [show (fresh chain accepts settings inbox modes).node.pending.index = .empty from rfl,
      PendingIndex.range?_empty] at h
    cases h
  · intro n batch h
    rw [batches_fresh] at h
    cases h
  · rintro i - ⟨d, hd, -⟩
    cases hd

/-- A step that pushes nothing covers nothing. -/
theorem covered_importNext {i : Nat} :
    Delivery.Covered (done ++ [.importNext]) i ↔ Delivery.Covered done i := by
  rw [Delivery.covered_append_singleton]
  exact or_iff_left id

/-- Where nothing waits nothing is imported. -/
theorem idle (standing : Standing c top done height s) (hempty : s.engine.queue.size = 0) :
    Standing c top (done ++ [.importNext]) height s := by
  have hcov (i : Nat) (h : Delivery.Covered done i) :
      Delivery.Covered (done ++ [.importNext]) i := covered_importNext.mpr h
  refine ⟨standing.holds.mono hcov, standing.files.monoSet hcov, standing.slack, standing.room,
    fun h ↦ (standing.queued h).mono hcov,
    fun hi h ↦ standing.kept hi (covered_importNext.mp h), ?_, ?_⟩
  · rw [hempty]
    exact Nat.zero_le _
  · rw [Delivery.total_append_singleton]
    exact standing.counted

/-- After the next batch was imported the line is held further up. -/
theorem imported (line : Line c top) (standing : Standing c top done height s) {n : UInt64}
    {batch : BlockBatch} (hbatch : s.engine.queue.batches[n]? = some batch) {height' : Nat}
    {t : Seat} (hheight : height ≤ height')
    (after : Holds.After c top (Delivery.Covered done) height'
      (s.withQueue (s.engine.queue.without n)) batch.blocks t) :
    Standing c top (done ++ [.importNext]) height' t := by
  have hcov (i : Nat) (h : Delivery.Covered done i) :
      Delivery.Covered (done ++ [.importNext]) i := covered_importNext.mpr h
  have hqueue : t.engine.queue = s.engine.queue.without n := after.queue
  have hothers (m : UInt64) (b : BlockBatch) (h : t.engine.queue.batches[m]? = some b) :
      b ≠ batch ∧ s.engine.queue.batches[m]? = some b := by
    rw [hqueue, ImportQueue.batches_without] at h
    split at h
    · cases h
    · next hm =>
      refine ⟨?_, h⟩
      rintro rfl
      exact hm (UInt64.toNat_inj.mp
        ((standing.queued hbatch).first_unique line (standing.queued h)))
  refine ⟨after.holds.mono hcov, after.files.monoSet hcov, ?_, ?_,
    fun h ↦ (standing.queued (hothers _ _ h).2).mono hcov, ?_, ?_, ?_⟩
  · rw [hqueue]
    exact standing.slack
  · rw [hqueue]
    exact standing.room
  · intro i hi h
    rcases standing.kept hi (covered_importNext.mp h) with hlow | ⟨m, b, hb, hmem⟩ | hhas
    · exact .inl (by omega)
    · by_cases hm : n = m
      · subst hm
        rw [hbatch] at hb
        cases hb
        exact (after.kept hi (.inl hmem)).imp_right .inr
      · refine .inr (.inl ⟨m, b, ?_, hmem⟩)
        rw [hqueue, ImportQueue.batches_without, if_neg hm, hb]
    · exact (after.kept hi (.inr hhas)).imp_right .inr
  · rw [hqueue, ImportQueue.size_without hbatch, Delivery.backlog_append_singleton]
    exact Nat.sub_le_sub_right standing.size_le 1
  · rw [Delivery.total_append_singleton]
    exact standing.counted.imported hbatch hothers after.filed

/-- The next batch is imported without a fault. -/
theorem importNext (line : Line c top) (standing : Standing c top done height s)
    (hsize : Delivery.total done < UInt64.size) :
    ∃ answer height' t, Seat.importNext.exec s = (.ok answer, t) ∧
      Standing c top (done ++ [.importNext]) height' t := by
  unfold Seat.importNext
  rcases s.engine.queue.pop_cases with ⟨hempty, hpop⟩ | ⟨n, batch, hbatch, hpop⟩
  · have hrun : popBatch.exec s = (.ok none, s) := by
      simp only [popBatch, Step.exec_update, hpop]
    rw [Step.exec_bind_of_ok hrun]
    exact ⟨none, height, s, rfl, standing.idle hempty⟩
  · have hrun : popBatch.exec s = (.ok (some batch), s.withQueue (s.engine.queue.without n)) := by
      simp only [popBatch, Step.exec_update, hpop, Seat.withQueue]
    rw [Step.exec_bind_of_ok hrun]
    have hroom := Nat.lt_of_le_of_lt (standing.counted.room hbatch batch.peer) hsize
    obtain ⟨report, height', t, hproc, hheight, after⟩ :=
      (standing.holds.withQueue (s.engine.queue.without n)).processBatch line standing.files
        batch.name (standing.queued hbatch) hroom
    refine ⟨some report, height', t, ?_, standing.imported line hbatch hheight after⟩
    dsimp only
    rw [Step.exec_bind_of_ok hproc]
    rfl

/-- Pushing blocks files them when it is far ahead, and lets it wait otherwise. -/
theorem exec_push {s : Seat} (calm : Calm s) (peer : PeerId) (name : String) {first : Block}
    (rest : List Block) {far : Bool}
    (hfar : s.engine.queue.isFarAhead first.number s.node.chain.bestNumber = .ok far) :
    ∃ answer, (Seat.push ⟨peer, name, first :: rest⟩).exec s = (.ok answer,
      if far then s.diverted (first :: rest)
      else s.withQueue (s.engine.queue.hold first.number ⟨peer, name, first :: rest⟩).2) := by
  have hget : queuePart.get s = (s.engine.queue, s.node.pending) := rfl
  have hfirst : BlockBatch.firstNumber? ⟨peer, name, first :: rest⟩ = some first.number := rfl
  unfold Seat.push ImportQueue.push
  simp only [Step.exec_bind, Step.exec_get, Step.exec_part, hget, hfirst, Step.exec_lift, hfar]
  cases far with
  | false => exact ⟨_, rfl⟩
  | true =>
    unfold diverted
    simp only [if_true, Step.exec_bind, Step.exec_set, store_pending calm]
    cases s.node.pending.index.insert (first :: rest) with
    | none => exact ⟨_, rfl⟩
    | some filed => exact ⟨_, rfl⟩

/-- A segment that is far ahead starts more than one above the height. -/
theorem isFarAhead (standing : Standing c top done height s) (line : Line c top) {first : Nat}
    (hfirst : first ≤ top) :
    ∃ far, s.engine.queue.isFarAhead (c first).number s.node.chain.bestNumber = .ok far ∧
      (far = true → height + 2 ≤ first) := by
  unfold ImportQueue.isFarAhead
  have hroom := standing.room
  have hslack := standing.slack
  have htop := standing.holds.le_top
  have hbest : s.node.chain.bestNumber.toNat = height := by
    rw [Chain.bestNumber, standing.holds.stores.bestBlock, line.toNat_number htop]
  split
  · exact ⟨false, rfl, fun h ↦ absurd h Bool.false_ne_true⟩
  · obtain ⟨horizon, hsum⟩ : ∃ horizon,
        checkedAdd s.node.chain.bestNumber s.engine.queue.slack = .ok horizon :=
      ⟨_, isOk_checkedAdd_iff.mpr (by omega)⟩
    refine ⟨_, by rw [hsum]; rfl, ?_⟩
    intro hfar
    have hlt := UInt64.lt_iff_toNat_lt.mp (of_decide_eq_true hfar)
    rw [checkedAdd_eq_ok_iff.mp hsum, line.toNat_number hfirst] at hlt
    omega

/-- The heights of a pushed segment are covered, and those covered before still are. -/
theorem covered_push {peer : PeerId} {name : String} {first last i : Nat} :
    Delivery.Covered (done ++ [.push peer name first last]) i ↔
      Delivery.Covered done i ∨ first ≤ i ∧ i ≤ last :=
  Delivery.covered_append_singleton

/-- A segment that is far ahead is filed. -/
theorem divert (line : Line c top) (standing : Standing c top done height s) (peer : PeerId)
    (name : String) {first last : Nat} (hhigh : height + 2 ≤ first) (hle : first ≤ last)
    (hlast : last ≤ top) :
    Standing c top (done ++ [.push peer name first last]) height
      (s.diverted (segment c first last)) := by
  have hcov (i : Nat) (h : Delivery.Covered done i) :
      Delivery.Covered (done ++ [.push peer name first last]) i := covered_push.mpr (.inl h)
  have holds := standing.holds.mono hcov
  have files := standing.files.monoSet hcov
  have hinsert := files.insert line hhigh hle hlast
    fun i hfirst hi ↦ covered_push.mpr (.inr ⟨hfirst, hi⟩)
  have hcounted : Counted (Delivery.total (done ++ [.push peer name first last])) s :=
    standing.counted.mono (Nat.le.intro (Delivery.total_append_singleton ..).symm)
  have hsize_le : s.engine.queue.size ≤
      Delivery.backlog (done ++ [.push peer name first last]) := by
    rw [Delivery.backlog_append_singleton]
    exact Nat.le_succ_of_le standing.size_le
  unfold diverted
  cases hfiled : s.node.pending.index.insert (segment c first last) with
  | none =>
    rw [hfiled] at hinsert
    refine ⟨holds, files, standing.slack, standing.room, fun h ↦ (standing.queued h).mono hcov, ?_,
      hsize_le, hcounted⟩
    intro i hi h
    rcases covered_push.mp h with hold | hnew
    · exact standing.kept hi hold
    · exact .inr (.inr (hinsert i hi ((mem_segment line hlast hi).mpr hnew)))
  | some filed =>
    rw [hfiled] at hinsert
    refine ⟨holds.withIndex _, hinsert.1, standing.slack, standing.room,
      fun h ↦ (standing.queued h).mono hcov, ?_, hsize_le, hcounted⟩
    intro i hi h
    rcases covered_push.mp h with hold | hnew
    · rcases standing.kept hi hold with hlow | hwaits | hhas
      · exact .inl hlow
      · exact .inr (.inl hwaits)
      · exact .inr (.inr (hinsert.2 i hi (.inr hhas)))
    · exact .inr (.inr (hinsert.2 i hi (.inl ((mem_segment line hlast hi).mpr hnew))))

/-- A segment that is not far ahead waits, or a longer one does. -/
theorem wait (line : Line c top) (standing : Standing c top done height s) (peer : PeerId)
    (name : String) {first last : Nat} (hle : first ≤ last) (hlast : last ≤ top) :
    Standing c top (done ++ [.push peer name first last]) height (s.withQueue
      (s.engine.queue.hold (c first).number ⟨peer, name, segment c first last⟩).2) := by
  have hcov (i : Nat) (h : Delivery.Covered done i) :
      Delivery.Covered (done ++ [.push peer name first last]) i := covered_push.mpr (.inl h)
  have hfirst : (c first).number.toNat = first := line.toNat_number (by omega)
  have hhas {i : Nat} (hi : i ≤ top)
      (h : c i ∈ segment c first last ∨ s.engine.queue.Has (c i)) :=
    ImportQueue.has_hold_segment line (fun n b h ↦ standing.queued h) hle hlast
      ⟨peer, name, segment c first last⟩ rfl hi h
  refine ⟨(standing.holds.mono hcov).withQueue _, standing.files.monoSet hcov, ?_, ?_, ?_, ?_, ?_,
    ?_⟩
  · change 1 ≤ (ImportQueue.hold ..).2.slack.toNat
    rw [ImportQueue.slack_hold]
    exact standing.slack
  · change top + (ImportQueue.hold ..).2.slack.toNat < _
    rw [ImportQueue.slack_hold]
    exact standing.room
  · intro n b h
    rcases ImportQueue.batches_hold h with ⟨rfl, rfl⟩ | hold
    · rw [hfirst]
      exact ⟨last, hle, hlast, rfl, fun i hfirst hi ↦ covered_push.mpr (.inr ⟨hfirst, hi⟩)⟩
    · exact (standing.queued hold).mono hcov
  · intro i hi h
    rcases covered_push.mp h with hold | hnew
    · rcases standing.kept hi hold with hlow | hwaits | hpending
      · exact .inl hlow
      · exact .inr (.inl (hhas hi (.inr hwaits)))
      · exact .inr (.inr hpending)
    · exact .inr (.inl (hhas hi (.inl ((mem_segment line hlast hi).mpr hnew))))
  · rw [Delivery.backlog_append_singleton]
    exact Nat.le_trans (ImportQueue.size_hold_le ..) (Nat.succ_le_succ standing.size_le)
  · have hsize : BlockBatch.size ⟨peer, name, segment c first last⟩ = last + 1 - first := by
      simp [BlockBatch.size, segment]
    rw [Delivery.total_append_singleton, Delivery.size, ← hsize]
    exact standing.counted.pushed (fun m b h ↦ (ImportQueue.batches_hold h).imp_left And.right) rfl

/-- A segment is pushed without a fault. -/
theorem push (line : Line c top) (standing : Standing c top done height s) (peer : PeerId)
    (name : String) {first last : Nat} (hle : first ≤ last) (hlast : last ≤ top) :
    ∃ answer t, (Seat.push ⟨peer, name, segment c first last⟩).exec s = (.ok answer, t) ∧
      Standing c top (done ++ [.push peer name first last]) height t := by
  obtain ⟨rest, hsegment⟩ := exists_segment_cons c hle
  obtain ⟨far, hfar, hhigh⟩ := standing.isFarAhead line (by omega : first ≤ top)
  obtain ⟨answer, hrun⟩ := exec_push standing.holds.calm peer name rest hfar
  rw [← hsegment] at hrun
  refine ⟨answer, _, hrun, ?_⟩
  cases far with
  | true =>
    rw [if_pos rfl]
    exact standing.divert line peer name (hhigh rfl) hle hlast
  | false =>
    rw [if_neg Bool.false_ne_true]
    exact standing.wait line peer name hle hlast

end Standing
end Seat
end ChainSync
