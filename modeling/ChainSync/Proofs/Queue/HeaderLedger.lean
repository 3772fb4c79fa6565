import Mathlib.Algebra.BigOperators.Group.List.Basic
import Mathlib.Algebra.GroupWithZero.Nat
import Mathlib.Data.List.Nodup
import ChainSync.Proofs.Queue.HeaderQueues

/-!
# What becomes of header batches that are stored

A ledger has an entry for every batch that was ever stored, in the order of storing, and notes once
what became of it: it was taken, it was dropped after it had waited for the whole expiry time, or it
was dropped with its sender. Main statement: after every sequence of calls the store is told by its
ledger. The queue of a peer and a number of headers is its entries without a note, the earliest one
is taken next, and every count that is answered is a number of entries.
-/

namespace ChainSync

/-- A call of a store of header batches. -/
inductive HeaderCall where
  /-- A batch is stored. -/
  | store (batch : HeaderBatch)
  /-- So many headers of a peer are taken. -/
  | take (peer : PeerId) (size : Nat)
  /-- Batches that waited for the whole expiry time are dropped. -/
  | prune (now : Millis)
  /-- A peer is forgotten. -/
  | remove (peer : PeerId)

/-- What became of a batch that was stored. -/
inductive BatchFate where
  /-- It waits. -/
  | waits
  /-- It was taken. -/
  | taken
  /-- It was dropped because it had waited for the whole expiry time. -/
  | pruned
  /-- It was dropped with its peer. -/
  | removed
  deriving DecidableEq

/-- A batch that was stored, and what became of it. -/
structure FiledBatch where
  /-- The batch. -/
  batch : HeaderBatch
  /-- What became of it. -/
  fate : BatchFate

/-- A batch has waited for the whole expiry time. -/
def HeaderBatch.isExpired (expiry now : Millis) (b : HeaderBatch) : Bool :=
  expiry ≤ now - b.receivedAt

namespace FiledBatch

def waits (e : FiledBatch) : Bool := e.fate = .waits

def waitsOf (peer : PeerId) (e : FiledBatch) : Bool := e.waits && e.batch.peer = peer

/-- The batch is one of a peer with so many headers and still waits. -/
def answers (peer : PeerId) (size : Nat) (e : FiledBatch) : Bool :=
  e.waitsOf peer && e.batch.size = size

/-- Notes what becomes of a batch if it still waits and is concerned. -/
def note (fate : BatchFate) (concerned : HeaderBatch → Bool) (e : FiledBatch) : FiledBatch :=
  if e.waits && concerned e.batch then { e with fate } else e

/-- Notes of the earliest batch of a peer that waits with so many headers that it was taken. -/
def noteTaken (peer : PeerId) (size : Nat) : List FiledBatch → List FiledBatch
  | [] => []
  | e :: rest =>
    if e.answers peer size then { e with fate := .taken } :: rest
    else e :: noteTaken peer size rest

/-- The batches of a peer with so many headers that still wait, earliest first. -/
def waiting (peer : PeerId) (size : Nat) (ledger : List FiledBatch) : List HeaderBatch :=
  (ledger.filter (answers peer size)).map batch

end FiledBatch

/-- The ledger after one more call. An empty batch is not stored. -/
def HeaderCall.file (expiry : Millis) (ledger : List FiledBatch) : HeaderCall → List FiledBatch
  | store batch => if batch.headers = [] then ledger else ledger ++ [⟨batch, .waits⟩]
  | take peer size => FiledBatch.noteTaken peer size ledger
  | prune now => ledger.map (FiledBatch.note .pruned (HeaderBatch.isExpired expiry now))
  | remove peer => ledger.map (FiledBatch.note .removed fun batch ↦ batch.peer = peer)

def HeaderCall.ledger (expiry : Millis) (calls : List HeaderCall) : List FiledBatch :=
  calls.foldl (HeaderCall.file expiry) []

def HeaderCall.leaves (s : HeaderStore) : HeaderCall → HeaderStore
  | store batch => s.store batch
  | take peer size => (s.take peer size).2
  | prune now => (s.prune now).2
  | remove peer => (s.removePeer peer).2

namespace HeaderStore

def afterCalls (s : HeaderStore) (calls : List HeaderCall) : HeaderStore :=
  calls.foldl HeaderCall.leaves s

/-- A store is told by a ledger of its past. -/
structure Accounts (s : HeaderStore) (expiry : Millis) (ledger : List FiledBatch) : Prop where
  /-- The batches of each peer and number of headers that wait, earliest first. -/
  waits (peer : PeerId) (size : Nat) : s.queue peer size = FiledBatch.waiting peer size ledger
  /-- The earliest batch of a peer that waits with so many headers is taken next. -/
  takes (peer : PeerId) (size : Nat) :
    (s.take peer size).1 = (ledger.find? (FiledBatch.answers peer size)).map FiledBatch.batch
  /-- As many batches are dropped for their age as wait and have waited for the expiry time. -/
  prunes (now : Millis) :
    (s.prune now).1 = ledger.countP fun e ↦ e.waits && e.batch.isExpired expiry now
  /-- As many batches are dropped with a peer as wait of it. -/
  removes (peer : PeerId) : (s.removePeer peer).1 = ledger.countP (FiledBatch.waitsOf peer)
  /-- As many batches are held as wait. -/
  size : s.size = ledger.countP FiledBatch.waits
  /-- The store is empty when it holds none. -/
  isEmpty_iff : s.isEmpty = true ↔ s.size = 0

end HeaderStore

/-! ### The ledger -/

namespace FiledBatch

variable {peer other : PeerId} {size count : Nat} {ledger : List FiledBatch}

theorem waiting_cons (e : FiledBatch) (rest : List FiledBatch) :
    waiting peer size (e :: rest) =
      if e.answers peer size then e.batch :: waiting peer size rest
      else waiting peer size rest := by
  unfold waiting
  rw [List.filter_cons]
  split <;> rfl

theorem waiting_append_singleton (batch : HeaderBatch) :
    waiting peer size (ledger ++ [⟨batch, .waits⟩]) =
      if batch.peer = peer ∧ batch.size = size then waiting peer size ledger ++ [batch]
      else waiting peer size ledger := by
  unfold waiting
  by_cases hpeer : batch.peer = peer <;> by_cases hsize : batch.size = size <;>
    simp [List.filter_append, answers, waitsOf, waits, hpeer, hsize]

theorem countP_waiting (q : HeaderBatch → Bool) :
    (waiting peer size ledger).countP q =
      ledger.countP fun e ↦ (e.waitsOf peer && q e.batch) && e.batch.size = size := by
  rw [waiting, List.countP_map, List.countP_filter]
  apply List.countP_congr
  intro e _
  simp [answers, and_assoc, and_comm]

theorem mem_waiting {e : FiledBatch} (h : e ∈ ledger) (waits : e.waitsOf peer = true) :
    e.batch ∈ waiting peer e.batch.size ledger :=
  List.mem_map_of_mem (List.mem_filter.mpr ⟨h, by simp [answers, waits]⟩)

theorem peer_of_mem_waiting {batch : HeaderBatch} (h : batch ∈ waiting peer size ledger) :
    batch.peer = peer := by
  obtain ⟨e, he, rfl⟩ := List.mem_map.mp h
  have hanswers := (List.mem_filter.mp he).2
  simp only [answers, waitsOf, Bool.and_eq_true, decide_eq_true_eq] at hanswers
  exact hanswers.1.2

/-- A batch that a note concerns does not wait any more. -/
theorem waits_note {fate : BatchFate} (settled : fate ≠ .waits) (concerned : HeaderBatch → Bool)
    (e : FiledBatch) : (note fate concerned e).waits = (e.waits && !concerned e.batch) := by
  unfold note
  cases hwaits : e.waits <;> cases hconcerned : concerned e.batch <;> simp_all [waits]

theorem batch_note (fate : BatchFate) (concerned : HeaderBatch → Bool) (e : FiledBatch) :
    (note fate concerned e).batch = e.batch := by
  unfold note
  split <;> rfl

/-- The batches that a note does not concern wait as before. -/
theorem waiting_map_note {fate : BatchFate} (settled : fate ≠ .waits)
    (concerned : HeaderBatch → Bool) :
    waiting peer size (ledger.map (note fate concerned)) =
      (waiting peer size ledger).filter fun batch ↦ !concerned batch := by
  induction ledger with
  | nil => rfl
  | cons e rest ih =>
    have hnoted : (note fate concerned e).answers peer size =
        (e.answers peer size && !concerned e.batch) := by
      simp only [answers, waitsOf, waits_note settled, batch_note, Bool.and_right_comm]
    rw [List.map_cons, waiting_cons, waiting_cons, hnoted, ih, batch_note]
    cases e.answers peer size with
    | false => simp
    | true => simp [List.filter_cons]

/-- The earliest batch of a peer with so many headers does not wait any more; the others do. -/
theorem waiting_noteTaken :
    waiting other count (noteTaken peer size ledger) =
      if peer = other ∧ size = count then (waiting other count ledger).tail
      else waiting other count ledger := by
  induction ledger with
  | nil => simp [noteTaken, waiting]
  | cons e rest ih =>
    unfold noteTaken
    by_cases hanswers : e.answers peer size = true
    · have htaken : ({ e with fate := .taken } : FiledBatch).answers other count = false := rfl
      rw [if_pos hanswers, waiting_cons, htaken, if_neg Bool.false_ne_true, waiting_cons]
      by_cases he : peer = other ∧ size = count
      · rw [if_pos he, ← he.1, ← he.2, if_pos hanswers, List.tail_cons]
      · have hnot : ¬ e.answers other count = true := by
          simp only [answers, waitsOf, Bool.and_eq_true, decide_eq_true_eq] at hanswers ⊢
          rintro ⟨⟨-, hpeer⟩, hsize⟩
          exact he ⟨hanswers.1.2.symm.trans hpeer, hanswers.2.symm.trans hsize⟩
        rw [if_neg he, if_neg hnot]
    · rw [if_neg hanswers, waiting_cons, ih, waiting_cons]
      by_cases he : peer = other ∧ size = count
      · rw [if_pos he, if_pos he, ← he.1, ← he.2, if_neg hanswers, if_neg hanswers]
      · rw [if_neg he, if_neg he]

/-- Counting the entries with each of some different marks counts all, if these are all marks. -/
theorem sum_countP {κ : Type} [BEq κ] [LawfulBEq κ] (mark : FiledBatch → κ)
    (q : FiledBatch → Bool) {marks : List κ} (distinct : marks.Nodup)
    (marked : ∀ e ∈ ledger, q e = true → mark e ∈ marks) :
    (marks.map fun k ↦ ledger.countP fun e ↦ q e && mark e == k).sum = ledger.countP q := by
  induction ledger with
  | nil => simp
  | cons e rest ih =>
    have hrest := ih fun e' he' ↦ marked e' (List.mem_cons_of_mem _ he')
    have hfirst : (marks.map fun k ↦ if q e && mark e == k then 1 else 0).sum =
        if q e then 1 else 0 := by
      cases hq : q e with
      | false => simp
      | true =>
        have hcount := List.count_eq_one_of_mem distinct (marked e List.mem_cons_self hq)
        rw [List.count_eq_countP, List.countP_eq_length_filter] at hcount
        simpa [List.sum_map_ite, BEq.comm] using hcount
    simp only [List.countP_cons, List.sum_map_add, hrest, hfirst]

end FiledBatch

/-! ### The store -/

/-- What is counted entry by entry is the sum over the entries. -/
theorem foldl_add_eq_sum {κ ν : Type} {cmp : κ → κ → Ordering} [Std.TransCmp cmp]
    (m : Std.ExtTreeMap κ ν cmp) (f : ν → Nat) :
    m.foldl (fun count _ v ↦ count + f v) 0 = (m.toList.map fun entry ↦ f entry.2).sum := by
  rw [Std.ExtTreeMap.foldl_eq_foldl_toList, List.sum_eq_foldl, List.foldl_map]

namespace HeaderQueues

theorem total_eq (q : HeaderQueues) :
    q.total = (q.toList.map fun entry ↦ entry.2.countP fun _ ↦ true).sum := by
  simp [total, foldl_add_eq_sum]

/-- The batches that are not kept are dropped. -/
theorem dropped_eq (q : HeaderQueues) (keeps : HeaderBatch → Bool) :
    q.dropped keeps = (q.toList.map fun entry ↦ entry.2.countP fun b ↦ !keeps b).sum := by
  rw [dropped, foldl_add_eq_sum]
  congr 1
  apply List.map_congr_left
  intro entry _
  have hsplit := entry.2.length_eq_countP_add_countP keeps
  have hkept := entry.2.countP_eq_length_filter (p := keeps)
  simp only [Bool.not_eq_true, Bool.decide_eq_false] at hsplit
  omega

end HeaderQueues

namespace HeaderStore

variable {s : HeaderStore} {expiry : Millis} {ledger : List FiledBatch} {peer : PeerId}

theorem isFresh_eq (s : HeaderStore) (now : Millis) (batch : HeaderBatch) :
    s.isFresh now batch = !batch.isExpired s.expiry now := by
  rw [isFresh, HeaderBatch.isExpired, ← decide_not, decide_eq_decide, Nat.not_le]

/-- The store holds the batches of a ledger that wait. -/
structure Records (s : HeaderStore) (expiry : Millis) (ledger : List FiledBatch) : Prop where
  /-- Batches may wait for this time. -/
  expiry : s.expiry = expiry
  /-- The batches of each peer and number of headers that wait, earliest first. -/
  waits (peer : PeerId) (size : Nat) : s.queue peer size = FiledBatch.waiting peer size ledger
  /-- Nothing is kept empty. -/
  tidy : s.Tidy

namespace Records

theorem empty (expiry : Millis) : (HeaderStore.empty expiry).Records expiry [] :=
  ⟨rfl, fun peer size ↦ queue_empty expiry peer size, .empty expiry⟩

theorem store (h : s.Records expiry ledger) (batch : HeaderBatch) :
    (s.store batch).Records expiry ((HeaderCall.store batch).file expiry ledger) := by
  rw [HeaderCall.file]
  by_cases hempty : batch.headers = []
  · rw [if_pos hempty, HeaderStore.store, if_pos (by simpa using hempty)]
    exact h
  · rw [if_neg hempty]
    constructor
    · rw [expiry_store]
      exact h.expiry
    · intro peer size
      rw [queue_store hempty, FiledBatch.waiting_append_singleton, h.waits]
    · exact h.tidy.store batch

theorem take (h : s.Records expiry ledger) (peer : PeerId) (size : Nat) :
    (s.take peer size).2.Records expiry ((HeaderCall.take peer size).file expiry ledger) := by
  constructor
  · rw [expiry_take]
    exact h.expiry
  · intro other count
    rw [HeaderCall.file, FiledBatch.waiting_noteTaken, ← h.waits, queue_take]
  · exact h.tidy.take peer size

theorem prune (h : s.Records expiry ledger) (now : Millis) :
    (s.prune now).2.Records expiry ((HeaderCall.prune now).file expiry ledger) := by
  constructor
  · exact h.expiry
  · intro peer size
    have hfresh : s.isFresh now = fun batch ↦ !batch.isExpired expiry now :=
      funext fun batch ↦ h.expiry ▸ s.isFresh_eq now batch
    rw [HeaderCall.file, FiledBatch.waiting_map_note (by decide), ← h.waits, queue_prune, hfresh]
  · exact .prune s now

theorem removePeer (h : s.Records expiry ledger) (other : PeerId) :
    (s.removePeer other).2.Records expiry ((HeaderCall.remove other).file expiry ledger) := by
  constructor
  · exact h.expiry
  · intro peer size
    rw [HeaderCall.file, FiledBatch.waiting_map_note (by decide), ← h.waits, queue_removePeer]
    have hpeer {batch : HeaderBatch} (hbatch : batch ∈ s.queue peer size) : batch.peer = peer :=
      FiledBatch.peer_of_mem_waiting (h.waits peer size ▸ hbatch)
    symm
    split
    · next he =>
      apply List.filter_eq_nil_iff.mpr
      intro batch hbatch
      simp [hpeer hbatch, he]
    · next hne =>
      apply List.filter_eq_self.mpr
      intro batch hbatch
      simp [hpeer hbatch, Ne.symm hne]
  · exact h.tidy.erase other

theorem leaves (h : s.Records expiry ledger) (call : HeaderCall) :
    (call.leaves s).Records expiry (call.file expiry ledger) := by
  cases call with
  | store batch => exact h.store batch
  | take peer size => exact h.take peer size
  | prune now => exact h.prune now
  | remove peer => exact h.removePeer peer

theorem afterCalls (h : s.Records expiry ledger) (calls : List HeaderCall) :
    (s.afterCalls calls).Records expiry (calls.foldl (HeaderCall.file expiry) ledger) := by
  induction calls generalizing s ledger with
  | nil => exact h
  | cons call calls ih => exact ih (h.leaves call)

/-- Counting the batches of a peer queue by queue counts those that wait of it. -/
theorem sum_queuesOf (h : s.Records expiry ledger) (q : HeaderBatch → Bool) (peer : PeerId) :
    ((s.queuesOf peer).toList.map fun entry ↦ entry.2.countP q).sum =
      ledger.countP fun e ↦ e.waitsOf peer && q e.batch := by
  have hentries : ((s.queuesOf peer).toList.map fun entry ↦ entry.2.countP q) =
      (s.queuesOf peer).keys.map fun size ↦
        ledger.countP fun e ↦ (e.waitsOf peer && q e.batch) && e.batch.size == size := by
    rw [← Std.ExtTreeMap.map_fst_toList_eq_keys, List.map_map]
    apply List.map_congr_left
    intro entry hentry
    have hfiled := Std.ExtTreeMap.mem_toList_iff_getElem?_eq_some.mp hentry
    have hqueue : s.queue peer entry.1 = entry.2 := by rw [queue, hfiled, Option.getD_some]
    rw [← hqueue, h.waits, FiledBatch.countP_waiting]
    rfl
  rw [hentries]
  apply FiledBatch.sum_countP (fun e ↦ e.batch.size) _ Std.ExtTreeMap.nodup_keys
  intro e he hwaits
  have hmem := FiledBatch.mem_waiting he (Bool.and_eq_true_iff.mp hwaits).1
  rw [← h.waits, queue] at hmem
  rw [Std.ExtTreeMap.mem_keys, Std.ExtTreeMap.mem_iff_isSome_getElem?]
  cases hq : (s.queuesOf peer)[e.batch.size]? with
  | none => simp [hq] at hmem
  | some _ => rfl

/-- Counting the batches peer by peer and queue by queue counts those that wait. -/
theorem sum_queues (h : s.Records expiry ledger) (q : HeaderBatch → Bool) :
    (s.queues.toList.map fun filed ↦ (filed.2.toList.map fun entry ↦ entry.2.countP q).sum).sum =
      ledger.countP fun e ↦ e.waits && q e.batch := by
  have hentries : (s.queues.toList.map fun filed ↦
        (filed.2.toList.map fun entry ↦ entry.2.countP q).sum) =
      s.queues.keys.map fun peer ↦
        ledger.countP fun e ↦ (e.waits && q e.batch) && e.batch.peer == peer := by
    rw [← Std.ExtTreeMap.map_fst_toList_eq_keys, List.map_map]
    apply List.map_congr_left
    intro filed hfiled
    have hq := Std.ExtTreeMap.mem_toList_iff_getElem?_eq_some.mp hfiled
    have hqueues : s.queuesOf filed.1 = filed.2 := by rw [queuesOf, hq, Option.getD_some]
    rw [← hqueues, h.sum_queuesOf]
    apply List.countP_congr
    intro e _
    simp [FiledBatch.waitsOf, and_comm, and_left_comm]
  rw [hentries]
  apply FiledBatch.sum_countP (fun e ↦ e.batch.peer) _ Std.ExtTreeMap.nodup_keys
  intro e he hwaits
  have hof : e.waitsOf e.batch.peer = true := by
    simp [FiledBatch.waitsOf, (Bool.and_eq_true_iff.mp hwaits).1]
  have hmem := FiledBatch.mem_waiting he hof
  rw [← h.waits] at hmem
  exact Std.ExtTreeMap.mem_keys.mpr (mem_of_mem_queue hmem)

theorem size_eq (h : s.Records expiry ledger) : s.size = ledger.countP FiledBatch.waits := by
  simpa [HeaderStore.size, foldl_add_eq_sum, HeaderQueues.total_eq] using h.sum_queues fun _ ↦ true

/-- A store that holds no batch has no peer filed, as no peer is kept without batches. -/
theorem isEmpty_iff (h : s.Records expiry ledger) : s.isEmpty = true ↔ s.size = 0 := by
  rw [isEmpty, Std.ExtTreeMap.isEmpty_iff]
  constructor
  · intro hempty
    rw [HeaderStore.size, hempty]
    rfl
  · intro hsize
    rw [h.size_eq, List.countP_eq_zero] at hsize
    rw [Std.ExtTreeMap.eq_empty_iff_forall_not_mem]
    intro peer hpeer
    obtain ⟨size, hqueue⟩ := h.tidy.mem_iff.mp hpeer
    obtain ⟨batch, hbatch⟩ := List.exists_mem_of_ne_nil _ hqueue
    rw [h.waits] at hbatch
    obtain ⟨e, he, -⟩ := List.mem_map.mp hbatch
    obtain ⟨he, hanswers⟩ := List.mem_filter.mp he
    simp only [FiledBatch.answers, FiledBatch.waitsOf, Bool.and_eq_true] at hanswers
    exact hsize e he hanswers.1.1

/-- A store that holds what waits of a ledger is told by it in all other respects. -/
theorem accounts (h : s.Records expiry ledger) : s.Accounts expiry ledger where
  waits := h.waits
  takes peer size := by
    rw [take_fst, h.waits, FiledBatch.waiting, List.head?_map, List.head?_filter]
  prunes now := by
    simp only [HeaderStore.prune, foldl_add_eq_sum, HeaderQueues.dropped_eq, isFresh_eq,
      Bool.not_not, h.expiry]
    exact h.sum_queues fun b ↦ b.isExpired expiry now
  removes peer := by
    simpa [HeaderStore.removePeer, HeaderQueues.total_eq] using h.sum_queuesOf (fun _ ↦ true) peer
  size := h.size_eq
  isEmpty_iff := h.isEmpty_iff

end Records

/-- Through every sequence of calls the queue of a peer and a number of headers is the batches that
were stored and neither taken, nor dropped for their age, nor dropped with their peer, in order. The
earliest one is taken, exactly those that waited for the expiry time are dropped for their age, all
counts are numbers of such batches, and the store is empty when it holds none. -/
theorem accounts_afterCalls (expiry : Millis) (calls : List HeaderCall) :
    ((empty expiry).afterCalls calls).Accounts expiry (HeaderCall.ledger expiry calls) :=
  ((Records.empty expiry).afterCalls calls).accounts

end HeaderStore
end ChainSync
