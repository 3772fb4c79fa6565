import ChainSync.Proofs.Pending.Recovery

/-!
# Stores in memory and on disk

Calls are made of a store in memory and of one on disk, both without ranges at first. What a call
answers and which ranges it leaves is a function of the ranges that are there: the memory store
computes it always, and the disk store whenever it writes its record and drops only ranges that were
loaded. Main statement: the two stores answer alike, call by call, and hold the same ranges, every
one filed under its first block and no level without one.
-/

namespace ChainSync

/-- A call of a pending store. -/
inductive PendingRequest where
  /-- A range is stored. -/
  | store (blocks : List Block)
  /-- The ranges of a level are loaded. -/
  | load (level : UInt64)
  /-- Ranges of a level are dropped after they were loaded from it. -/
  | drop (level : UInt64) (keys : List Digest) (loaded : PendingQueues)
  /-- The ranges are counted. -/
  | count

/-- What a call of a pending store answers. -/
inductive PendingAnswer where
  /-- That many blocks were written. -/
  | written (blocks : Nat)
  /-- These ranges were loaded. -/
  | ranges (queues : PendingQueues)
  /-- Ranges were dropped. -/
  | dropped
  /-- There are that many ranges. -/
  | counted (ranges : Nat)

namespace PendingRequest

def answer (index : PendingIndex) : PendingRequest → PendingAnswer
  | store blocks => .written (if (index.insert blocks).isSome then blocks.length else 0)
  | load level => .ranges (index.load level)
  | drop .. => .dropped
  | count => .counted index.count

def after (index : PendingIndex) : PendingRequest → PendingIndex
  | store blocks => index.filing blocks
  | drop level keys _ => index.remove level keys
  | load _ | count => index

def answers : PendingIndex → List PendingRequest → List PendingAnswer
  | _, [] => []
  | index, r :: rest => r.answer index :: answers (r.after index) rest

def afterAll (index : PendingIndex) (requests : List PendingRequest) : PendingIndex :=
  requests.foldl after index

/-- Only keys that occur in the loaded ranges are dropped. -/
def IsLoaded : PendingRequest → Prop
  | drop _ keys loaded => ∀ key ∈ keys, key ∈ loaded
  | store _ | load _ | count => True

/-- A call keeps every range under its first block and no level without one. -/
theorem isFiled_after {index : PendingIndex} (isFiled : index.IsFiled) (r : PendingRequest) :
    (r.after index).IsFiled := by
  cases r with
  | store blocks => exact isFiled.filing blocks
  | drop level keys loaded => exact isFiled.remove level keys
  | load level => exact isFiled
  | count => exact isFiled

/-- Calls keep every range under its first block and no level without one. -/
theorem isFiled_afterAll {index : PendingIndex} (isFiled : index.IsFiled)
    (requests : List PendingRequest) : (afterAll index requests).IsFiled := by
  induction requests generalizing index with
  | nil => exact isFiled
  | cons r rest ih => exact ih (isFiled_after isFiled r)

end PendingRequest

namespace LogFile

/-- Appending to a file does not change how far it may grow. -/
theorem capacity_append (f : LogFile) (r : LogRecord) : (f.append r).2.capacity = f.capacity := by
  cases hcapacity : f.capacity with
  | unlimited => simp [append, write, hcapacity]
  | exhausted => simp [append, write, hcapacity, truncate]
  | upTo size =>
    simp only [append, write, hcapacity]
    by_cases hroom : r.encode.length ≤ size - f.bytes.length
    · simp [hroom]
    · simp [hroom, truncate]

theorem append_ne_error {f : LogFile} (hcapacity : f.capacity = .unlimited) (r : LogRecord)
    (e : StoreError) : (f.append r).1 ≠ .error e := by
  simp [append, write, hcapacity]

end LogFile

namespace PendingStore

open PendingRequest

def ask (p : PendingStore) : PendingRequest → Except StoreError PendingAnswer × PendingStore
  | .store blocks =>
    let (answer, p) := p.store blocks
    (answer.map .written, p)
  | .load level =>
    let (answer, p) := p.load level
    (answer.map .ranges, p)
  | .drop level keys loaded =>
    let (answer, p) := p.drop level keys loaded
    (answer.map fun _ ↦ .dropped, p)
  | .count => (.ok (.counted p.count), p)

def askAll (p : PendingStore) :
    List PendingRequest → List (Except StoreError PendingAnswer) × PendingStore
  | [] => ([], p)
  | r :: rest => ((p.ask r).1 :: ((p.ask r).2.askAll rest).1, ((p.ask r).2.askAll rest).2)

/-- The first of more calls answer as they do alone. -/
theorem askAll_append (p : PendingStore) (left right : List PendingRequest) :
    (p.askAll (left ++ right)).1 = (p.askAll left).1 ++ ((p.askAll left).2.askAll right).1 := by
  induction left generalizing p with
  | nil => rfl
  | cons r rest ih =>
    simp only [List.cons_append, askAll]
    rw [ih]

/-! ### In memory -/

def holding (index : PendingIndex) : PendingStore := ⟨.memory index, none⟩

@[simp] theorem index_holding (index : PendingIndex) : (holding index).index = index := rfl

/-- A call of a store in memory answers from the ranges it holds, and changes them. -/
theorem ask_holding (index : PendingIndex) (r : PendingRequest) :
    (holding index).ask r = (.ok (r.answer index), holding (r.after index)) := by
  cases r with
  | store blocks =>
    cases h : index.insert blocks <;>
      simp [ask, holding, store, takeFailure, answer, after, PendingIndex.filing, Except.map, h]
  | load level => rfl
  | drop level keys loaded => rfl
  | count => rfl

/-- Calls of a store in memory answer from the ranges it holds, and change them. -/
theorem askAll_holding (index : PendingIndex) (requests : List PendingRequest) :
    (holding index).askAll requests =
      ((answers index requests).map .ok, holding (afterAll index requests)) := by
  induction requests generalizing index with
  | nil => rfl
  | cons r rest ih =>
    rw [askAll, ask_holding, ih]
    rfl

/-! ### On disk -/

@[simp] theorem opened_withStore (slot : DiskSlot) (s : DiskStore) :
    (slot.withStore s).opened = some s := rfl

theorem index_onDisk {slot : DiskSlot} {s : DiskStore} (hopen : slot.opened = some s) :
    (onDisk slot).index = s.index := by
  simp [index, onDisk, hopen]

/-- Storing a range on disk answers from the ranges that are held, or its record is not appended. -/
theorem exists_store_eq (s : DiskStore) (blocks : List Block) :
    (∃ file, s.store blocks = (.ok (if (s.index.insert blocks).isSome then blocks.length else 0),
        ⟨s.index.filing blocks, file⟩) ∧ file.capacity = s.file.capacity) ∨
      s.file.capacity ≠ .unlimited ∧ ∃ e, (s.store blocks).1 = .error e := by
  cases hinsert : s.index.insert blocks with
  | none =>
    left
    exact ⟨s.file, by simp [DiskStore.store, PendingIndex.filing, hinsert], rfl⟩
  | some filed =>
    obtain ⟨level, filed⟩ := filed
    have hcapacity := s.file.capacity_append ((LogEntry.put blocks).record level)
    cases happend : s.file.append ((LogEntry.put blocks).record level) with
    | mk outcome file =>
      rw [happend] at hcapacity
      cases outcome with
      | ok _ =>
        left
        refine ⟨file, ?_, hcapacity⟩
        simp [DiskStore.store, PendingIndex.filing, hinsert, happend]
      | error e =>
        right
        constructor
        · intro hunlimited
          apply LogFile.append_ne_error hunlimited
          rw [happend]
        · exact ⟨e, by simp [DiskStore.store, hinsert, happend]⟩

/-- Dropping loaded ranges on disk removes them, or its record is not appended. -/
theorem exists_drop_eq {s : DiskStore} (full : s.index.IsFull) (level : UInt64)
    {keys : List Digest} {loaded : PendingQueues} (hloaded : ∀ key ∈ keys, key ∈ loaded) :
    (∃ file, s.drop level keys loaded = (.ok (), ⟨s.index.remove level keys, file⟩) ∧
        file.capacity = s.file.capacity) ∨
      s.file.capacity ≠ .unlimited ∧ ∃ e, (s.drop level keys loaded).1 = .error e := by
  have hkeys : keys.filter (fun key ↦ loaded.contains key) = keys := by
    rw [List.filter_eq_self]
    exact hloaded
  cases keys with
  | nil =>
    -- Nothing is written for no key, and removing no key does nothing either.
    left
    exact ⟨s.file, by simp [DiskStore.drop, full.remove_nil], rfl⟩
  | cons key rest =>
    have hcapacity := s.file.capacity_append ((LogEntry.drop (key :: rest)).record level)
    cases happend : s.file.append ((LogEntry.drop (key :: rest)).record level) with
    | mk outcome file =>
      rw [happend] at hcapacity
      cases outcome with
      | ok _ =>
        left
        refine ⟨file, ?_, hcapacity⟩
        simp [DiskStore.drop, hkeys, happend]
      | error e =>
        right
        constructor
        · intro hunlimited
          apply LogFile.append_ne_error hunlimited
          rw [happend]
        · exact ⟨e, by simp [DiskStore.drop, hkeys, happend]⟩

/-- A call of an open store on disk that drops only loaded ranges answers from the ranges it holds
and changes them, or it fails to append its record to a file with a limit. -/
theorem exists_ask_onDisk {slot : DiskSlot} {s : DiskStore} (hopen : slot.opened = some s)
    (full : s.index.IsFull) {r : PendingRequest} (hloaded : r.IsLoaded) :
    (∃ slot' file, (onDisk slot).ask r = (.ok (r.answer s.index), onDisk slot') ∧
        slot'.opened = some ⟨r.after s.index, file⟩ ∧ file.capacity = s.file.capacity) ∨
      s.file.capacity ≠ .unlimited ∧ ∃ e, ((onDisk slot).ask r).1 = .error e := by
  cases r with
  | load level =>
    left
    exact ⟨slot, s.file, by simp [ask, load, onDisk, takeFailure, hopen, answer, Except.map], hopen,
      rfl⟩
  | count =>
    left
    exact ⟨slot, s.file, by rw [ask, PendingStore.count, index_onDisk hopen]; rfl, hopen, rfl⟩
  | store blocks =>
    have hask : (onDisk slot).ask (.store blocks) =
        ((s.store blocks).1.map .written, onDisk (slot.withStore (s.store blocks).2)) := by
      simp only [ask, store, onDisk, takeFailure, hopen]
    rw [hask]
    rcases exists_store_eq s blocks with ⟨file, hstore, hcapacity⟩ | ⟨hlimit, e, hfail⟩
    · left
      rw [hstore]
      exact ⟨_, file, rfl, opened_withStore slot _, hcapacity⟩
    · right
      rw [hfail]
      exact ⟨hlimit, e, rfl⟩
  | drop level keys loaded =>
    have hask : (onDisk slot).ask (.drop level keys loaded) =
        ((s.drop level keys loaded).1.map fun _ ↦ .dropped,
          onDisk (slot.withStore (s.drop level keys loaded).2)) := by
      simp only [ask, drop, onDisk, takeFailure, hopen]
    rw [hask]
    rcases exists_drop_eq full level hloaded with ⟨file, hdrop, hcapacity⟩ | ⟨hlimit, e, hfail⟩
    · left
      rw [hdrop]
      exact ⟨_, file, rfl, opened_withStore slot _, hcapacity⟩
    · right
      rw [hfail]
      exact ⟨hlimit, e, rfl⟩

/-- Calls of an open store on disk that drop only loaded ranges, none of which fails, answer from
the ranges it holds and change them. -/
theorem exists_askAll_onDisk {requests : List PendingRequest}
    (hloaded : ∀ r ∈ requests, r.IsLoaded) {slot : DiskSlot} {s : DiskStore}
    (hopen : slot.opened = some s) (isFiled : s.index.IsFiled)
    (hfree : ∀ e, .error e ∉ ((onDisk slot).askAll requests).1) :
    ∃ slot' file, (onDisk slot).askAll requests =
        ((answers s.index requests).map .ok, onDisk slot') ∧
      slot'.opened = some ⟨afterAll s.index requests, file⟩ := by
  induction requests generalizing slot s with
  | nil => exact ⟨slot, s.file, rfl, hopen⟩
  | cons r rest ih =>
    simp only [askAll, List.mem_cons, not_or] at hfree
    rcases exists_ask_onDisk hopen isFiled.full (hloaded r List.mem_cons_self) with
      ⟨slot', file, hask, hopen', -⟩ | ⟨-, e, hfail⟩
    · rw [hask] at hfree
      obtain ⟨slot'', file', hrest, hopen''⟩ :=
        ih (fun r hr ↦ hloaded r (List.mem_cons_of_mem _ hr)) hopen' (isFiled_after isFiled r)
          fun e ↦ (hfree e).2
      refine ⟨slot'', file', ?_, hopen''⟩
      rw [askAll, hask, hrest]
      rfl
    · exact absurd hfail.symm (hfree e).1

/-- Over a file without a limit no call fails that drops only loaded ranges. -/
theorem error_notMem_askAll_onDisk {requests : List PendingRequest}
    (hloaded : ∀ r ∈ requests, r.IsLoaded) {slot : DiskSlot} {s : DiskStore}
    (hopen : slot.opened = some s) (isFiled : s.index.IsFiled)
    (hcapacity : s.file.capacity = .unlimited) (e : StoreError) :
    .error e ∉ ((onDisk slot).askAll requests).1 := by
  induction requests generalizing slot s with
  | nil => simp [askAll]
  | cons r rest ih =>
    rcases exists_ask_onDisk hopen isFiled.full (hloaded r List.mem_cons_self) with
      ⟨slot', file, hask, hopen', hsame⟩ | ⟨hlimit, -⟩
    · rw [askAll, hask, List.mem_cons, not_or]
      constructor
      · simp
      · apply ih (fun r hr ↦ hloaded r (List.mem_cons_of_mem _ hr)) hopen'
        · exact isFiled_after isFiled r
        · exact hsame.trans hcapacity
    · exact absurd hcapacity hlimit

/-! ### Agreement -/

/-- The same calls are made of a store in memory and of an open one on disk, both without ranges,
and only loaded ranges are dropped. When no call of the disk store fails, both answer each call
alike. After each of the calls both hold the same ranges, every one filed under its first block, and
no level is without a range. -/
theorem askAll_inMemory_eq_askAll_onDisk {requests : List PendingRequest}
    (hloaded : ∀ r ∈ requests, r.IsLoaded) {slot : DiskSlot} {file : LogFile}
    (hopen : slot.opened = some ⟨.empty, file⟩)
    (hfree : ∀ e, .error e ∉ ((onDisk slot).askAll requests).1) :
    (inMemory.askAll requests).1 = ((onDisk slot).askAll requests).1 ∧
      ∀ n, (inMemory.askAll (requests.take n)).2.index =
          ((onDisk slot).askAll (requests.take n)).2.index ∧
        (inMemory.askAll (requests.take n)).2.index.IsFiled := by
  have hmemory (requests : List PendingRequest) : inMemory.askAll requests =
      ((answers .empty requests).map .ok, holding (afterAll .empty requests)) :=
    askAll_holding .empty requests
  obtain ⟨_, _, hdisk, _⟩ := exists_askAll_onDisk hloaded hopen PendingIndex.isFiled_empty hfree
  refine ⟨by rw [hmemory, hdisk], ?_⟩
  intro n
  have hfirst : ∀ e, .error e ∉ ((onDisk slot).askAll (requests.take n)).1 := by
    intro e he
    apply hfree e
    rw [← List.take_append_drop n requests, askAll_append]
    exact List.mem_append_left _ he
  obtain ⟨slot', file', htake, hopen'⟩ := exists_askAll_onDisk
    (fun r hr ↦ hloaded r (List.mem_of_mem_take hr)) hopen PendingIndex.isFiled_empty hfirst
  rw [hmemory, htake, index_onDisk hopen', index_holding]
  exact ⟨rfl, isFiled_afterAll PendingIndex.isFiled_empty _⟩

/-- A block is stored, loaded and dropped, and the ranges are counted. -/
def roundTrip (b : Block) : List PendingRequest :=
  [.store [b], .load b.number, .drop b.number [b.hash] ((∅ : PendingQueues).insert b.hash [b]),
    .count]

/-- A store opened in an empty directory and one in memory answer alike when a block is stored,
loaded and dropped, and both hold it after the first of these calls. -/
theorem askAll_inMemory_eq_askAll_onDisk_roundTrip :
    ∃ slot, openIn (.present .missing .missing) = .ok (onDisk slot) ∧
      (inMemory.askAll (roundTrip .genesis)).1 = ((onDisk slot).askAll (roundTrip .genesis)).1 ∧
      ((onDisk slot).askAll ((roundTrip .genesis).take 1)).2.index.range? 0 Block.genesis.hash =
        some [.genesis] := by
  generalize hb : Block.genesis = b
  have hnumber : b.number = 0 := by rw [← hb]; rfl
  have hloaded : ∀ r ∈ roundTrip b, r.IsLoaded := by
    simp [roundTrip, IsLoaded]
  let slot : DiskSlot := ⟨.present (.file []) .missing, some ⟨.empty, ⟨[], .unlimited⟩⟩, true⟩
  have hopen : slot.opened = some ⟨.empty, ⟨[], .unlimited⟩⟩ := rfl
  have hfree := error_notMem_askAll_onDisk hloaded hopen PendingIndex.isFiled_empty rfl
  obtain ⟨halike, hafter⟩ := askAll_inMemory_eq_askAll_onDisk hloaded hopen hfree
  refine ⟨slot, openIn_empty, halike, ?_⟩
  obtain ⟨filed, hinsert, hrange⟩ := PendingIndex.exists_insert_empty b []
  have hfirst : inMemory.askAll ((roundTrip b).take 1) = _ := askAll_holding .empty [.store [b]]
  rw [← (hafter 1).1, hfirst, ← hnumber]
  simp [afterAll, after, PendingIndex.filing, hinsert, hrange]

end PendingStore
end ChainSync
