import ChainSync.Pending.Place
import ChainSync.Proofs.Pending.Replay
import Mathlib.Data.Nat.Find
import Mathlib.Order.Bounds.Defs
import Mathlib.Tactic.ByContra

/-!
# Opening a cut log

Ranges are stored and dropped in any order on a store that was opened in an empty directory, and
the log of that store is cut anywhere. Main statement: opening what is left restores the ranges
after the last of the calls before which the log was not cut, and so does opening it once more.
-/

namespace ChainSync

/-- A call that changes pending ranges. -/
inductive PendingChange where
  /-- A range is stored. -/
  | store (blocks : List Block)
  /-- Ranges of a level are dropped that were loaded from it. -/
  | drop (level : UInt64) (keys : List Digest) (loaded : PendingQueues)

open LogRecord DiskStore

namespace PendingChange

/-- The keys that are dropped: those that were loaded. -/
def dropped (keys : List Digest) (loaded : PendingQueues) : List Digest :=
  keys.filter fun key ↦ loaded.contains key

/-- The record that is appended for a call, if one is. -/
def record? (index : PendingIndex) : PendingChange → Option LogRecord
  | store blocks => (index.insert blocks).map fun filed ↦ (LogEntry.put blocks).record filed.1
  | drop level keys loaded =>
    if (dropped keys loaded).isEmpty then none
    else some ((LogEntry.drop (dropped keys loaded)).record level)

def apply (index : PendingIndex) : PendingChange → PendingIndex
  | store blocks => index.filing blocks
  | drop level keys loaded =>
    if (dropped keys loaded).isEmpty then index else index.remove level (dropped keys loaded)

/-- Makes a call at a store that has these operations. -/
def run {σ : Type} (store : List Block → σ → Except StoreError Nat × σ)
    (drop : UInt64 → List Digest → PendingQueues → σ → Except StoreError Unit × σ) (s : σ) :
    PendingChange → Except StoreError Unit × σ
  | .store blocks => ((store blocks s).1.map fun _ ↦ (), (store blocks s).2)
  | .drop level keys loaded => drop level keys loaded s

/-- The records that are appended for calls one after the other. -/
def journal : PendingIndex → List PendingChange → List LogRecord
  | _, [] => []
  | index, change :: rest => (change.record? index).toList ++ journal (change.apply index) rest

def applyAll (index : PendingIndex) (changes : List PendingChange) : PendingIndex :=
  changes.foldl apply index

/-- The records of more calls come after those of the first ones. -/
theorem journal_append (left right : List PendingChange) :
    ∀ index : PendingIndex, journal index (left ++ right) =
      journal index left ++ journal (applyAll index left) right := by
  induction left with
  | nil => exact fun _ ↦ rfl
  | cons c rest ih =>
    intro index
    rw [List.cons_append, journal, ih, journal, List.append_assoc]
    rfl

/-- A record of a call is replayed as the call changes the index. -/
theorem replayRecord_record? {index : PendingIndex} {c : PendingChange} {r : LogRecord}
    (h : c.record? index = some r) (hshort : r.IsShort) :
    LogEntry.Writes r ∧ (replayRecord index r).1 = c.apply index := by
  cases c with
  | store blocks =>
    cases hfiled : index.insert blocks with
    | none => simp [record?, hfiled] at h
    | some filed =>
      simp only [record?, hfiled, Option.map_some, Option.some.injEq] at h
      subst h
      exact ⟨⟨.put blocks, filed.1, rfl, hshort⟩, by rw [replayRecord_put _ _ hshort]; rfl⟩
  | drop level keys loaded =>
    simp only [record?] at h
    split at h
    · cases h
    · next hne =>
      cases h
      refine ⟨⟨.drop _, level, rfl, hshort⟩, ?_⟩
      rw [replayRecord_drop _ _ hshort, apply, if_neg hne]

/-- A call without a record leaves the index alone. -/
theorem apply_of_record?_eq_none {index : PendingIndex} {c : PendingChange}
    (h : c.record? index = none) : c.apply index = index := by
  cases c with
  | store blocks =>
    rw [record?, Option.map_eq_none_iff] at h
    rw [apply, PendingIndex.filing, h]
    rfl
  | drop level keys loaded =>
    simp only [record?] at h
    split at h
    · next hempty => rw [apply, if_pos hempty]
    · cases h

/-- The records of calls were written, and replaying them leads to the index after the calls. -/
theorem replay_journal (changes : List PendingChange) :
    ∀ (records : List LogRecord) {index : PendingIndex}, (replay records).1 = index →
      (∀ r ∈ journal index changes, r.IsShort) →
      (∀ r ∈ journal index changes, LogEntry.Writes r) ∧
        (replay (records ++ journal index changes)).1 = applyAll index changes := by
  induction changes with
  | nil =>
    intro records index hreplay _
    rw [journal, List.append_nil, hreplay]
    refine ⟨?_, rfl⟩
    intro r hr
    cases hr
  | cons c rest ih =>
    intro records index hreplay hshort
    rw [journal] at hshort ⊢
    change _ ∧ _ = applyAll (c.apply index) rest
    cases hrecord : c.record? index with
    | none =>
      rw [hrecord, apply_of_record?_eq_none hrecord] at hshort
      rw [apply_of_record?_eq_none hrecord]
      exact ih records hreplay hshort
    | some r =>
      rw [hrecord] at hshort
      obtain ⟨hwrites, hnext⟩ := replayRecord_record? hrecord (hshort r (by simp))
      have hreplay' : (replay (records ++ [r])).1 = c.apply index := by
        rw [replay_append_singleton, hreplay, hnext]
      obtain ⟨hwrites', hlast⟩ := ih _ hreplay' fun r' hr ↦ hshort r' (List.mem_append_right _ hr)
      refine ⟨?_, ?_⟩
      · intro r' hr
        rcases List.mem_append.mp hr with hfirst | hrest
        · rw [Option.toList_some, List.mem_singleton] at hfirst
          exact hfirst ▸ hwrites
        · exact hwrites' r' hrest
      · rw [Option.toList_some, ← List.append_assoc]
        exact hlast

/-- Of all numbers of calls whose records lie in the first bytes of the log there is a greatest. -/
theorem exists_isGreatest_fits (changes : List PendingChange) (k : Nat) :
    ∃ n, IsGreatest {m | m ≤ changes.length ∧
      (encodeAll (journal .empty (changes.take m))).length ≤ k} n := by
  have hfits := Nat.findGreatest_spec
    (P := fun m ↦ (encodeAll (journal .empty (changes.take m))).length ≤ k)
    (Nat.zero_le changes.length) (Nat.zero_le k)
  exact ⟨_, ⟨Nat.findGreatest_le _, hfits⟩, fun m hm ↦ Nat.le_findGreatest hm.1 hm.2⟩

/-- The record after those of the greatest number of calls does not lie in the first bytes. -/
theorem lt_of_isGreatest_fits {changes : List PendingChange} {k n : Nat}
    (hn : IsGreatest {m | m ≤ changes.length ∧
      (encodeAll (journal .empty (changes.take m))).length ≤ k} n) :
    ∀ r ∈ (journal (applyAll .empty (changes.take n)) (changes.drop n)).head?,
      k < (encodeAll (journal .empty (changes.take n))).length + r.encode.length := by
  intro r hr
  by_contra hle
  cases hdrop : changes.drop n with
  | nil =>
    rw [hdrop] at hr
    cases hr
  | cons c rest =>
    have hlt : n < changes.length := by
      have := congrArg List.length hdrop
      rw [List.length_drop, List.length_cons] at this
      omega
    have htake : changes.take (n + 1) = changes.take n ++ [c] := by
      rw [List.take_add, hdrop]
      rfl
    have hjournal : journal .empty (changes.take (n + 1)) = journal .empty (changes.take n) ++
        (c.record? (applyAll .empty (changes.take n))).toList := by
      rw [htake, journal_append, journal, journal, List.append_nil]
    have hmore : n + 1 ∈ {m | m ≤ changes.length ∧
        (encodeAll (journal .empty (changes.take m))).length ≤ k} := by
      refine ⟨hlt, ?_⟩
      rw [hdrop, journal] at hr
      rw [hjournal, encodeAll_append, List.length_append]
      cases hrecord : c.record? (applyAll .empty (changes.take n)) with
      | none =>
        have hfits := hn.1.2
        simpa using hfits
      | some r' =>
        rw [hrecord] at hr
        cases hr
        simp
        omega
    have := hn.2 hmore
    omega

end PendingChange

namespace PendingStore

open PendingChange

def change (p : PendingStore) : PendingChange → Except StoreError Unit × PendingStore :=
  run store drop p

def changeAll (p : PendingStore) : List PendingChange → Except StoreError Unit × PendingStore
  | [] => (.ok (), p)
  | c :: rest =>
    match p.change c with
    | (.ok (), p) => p.changeAll rest
    | (.error e, p) => (.error e, p)

def dir (p : PendingStore) : PendingDir := (p.slot?.map DiskSlot.dir).getD .missing

def log (p : PendingStore) : Bytes := p.dir.log.bytes?.getD []

/-- The store with these ranges over a directory with this log. -/
def opened (index : PendingIndex) (bytes : Bytes) : PendingStore :=
  onDisk ⟨.present (.file bytes) .missing, some ⟨index, ⟨bytes, .unlimited⟩⟩, true⟩

@[simp] theorem index_opened (index : PendingIndex) (bytes : Bytes) :
    (opened index bytes).index = index := rfl

@[simp] theorem log_opened (index : PendingIndex) (bytes : Bytes) :
    (opened index bytes).log = bytes := rfl

/-! ### Calls -/

/-- A store over a directory changes the directory's log with its own. -/
theorem withStore_opened (index index' : PendingIndex) (bytes bytes' : Bytes) :
    DiskSlot.withStore ⟨.present (.file bytes) .missing, some ⟨index, ⟨bytes, .unlimited⟩⟩, true⟩
      ⟨index', ⟨bytes', .unlimited⟩⟩ =
      ⟨.present (.file bytes') .missing, some ⟨index', ⟨bytes', .unlimited⟩⟩, true⟩ := rfl

theorem append_unlimited (bytes : Bytes) (r : LogRecord) :
    LogFile.append ⟨bytes, .unlimited⟩ r = (.ok (), ⟨bytes ++ r.encode, .unlimited⟩) := rfl

/-- A call succeeds: it appends its record and changes the index. -/
theorem change_opened (index : PendingIndex) (bytes : Bytes) (c : PendingChange) :
    (opened index bytes).change c =
      (.ok (), opened (c.apply index) (bytes ++ encodeAll (c.record? index).toList)) := by
  cases c with
  | store blocks =>
    cases h : index.insert blocks <;>
      simp [change, run, opened, onDisk, PendingStore.store, takeFailure, DiskStore.store, record?,
        PendingChange.apply, PendingIndex.filing, append_unlimited, withStore_opened, Except.map, h]
  | drop level keys loaded =>
    have hkeys : keys.filter (fun key ↦ loaded.contains key) = dropped keys loaded := rfl
    cases h : (dropped keys loaded).isEmpty <;>
      simp [change, run, opened, onDisk, PendingStore.drop, takeFailure, DiskStore.drop, record?,
        PendingChange.apply, append_unlimited, withStore_opened, hkeys, h]

/-- Calls one after the other succeed: they append their records and change the index. -/
theorem changeAll_opened (changes : List PendingChange) :
    ∀ (index : PendingIndex) (bytes : Bytes), (opened index bytes).changeAll changes =
      (.ok (), opened (applyAll index changes) (bytes ++ encodeAll (journal index changes))) := by
  induction changes with
  | nil =>
    intro index bytes
    rw [journal, encodeAll_nil, List.append_nil]
    rfl
  | cons c rest ih =>
    intro index bytes
    rw [changeAll, change_opened]
    dsimp only
    rw [ih, journal, encodeAll_append, List.append_assoc]
    rfl

/-! ### Opening -/

/-- Opening an empty directory makes an empty log. -/
theorem openIn_empty : openIn (.present .missing .missing) = .ok (opened .empty []) := rfl

/-- A log opens with the ranges read from its bytes. -/
theorem openIn_file {bytes left : Bytes} {index : PendingIndex} {compacts : Bool}
    (h : PendingDir.openBytes bytes = (⟨index, ⟨left, .unlimited⟩⟩, compacts)) :
    openIn (.present (.file bytes) .missing) = .ok (opened index left) := by
  cases compacts <;>
    simp [openIn, DiskSlot.reopen, PendingDir.openStore, h, onDisk, DiskSlot.closed, opened,
      PendingStore.reopen, Except.map]

/-- A log of written records and a torn tail opens with the index that the records lead to, and
what is left is a log of written records that lead there too. -/
theorem exists_openIn_of_scan {bytes tail : Bytes} {records : List LogRecord}
    (hscan : scan bytes = (records, tail)) (hwrites : ∀ r ∈ records, LogEntry.Writes r) :
    ∃ kept, openIn (.present (.file bytes) .missing) =
        .ok (opened (replay records).1 (encodeAll kept)) ∧
      (∀ r ∈ kept, LogEntry.Writes r) ∧ (replay kept).1 = (replay records).1 := by
  by_cases hdropped : 0 < (replay records).2
  · -- Ranges had been dropped, and the log is written anew.
    have tidy := tidy_replay hwrites
    refine ⟨putRecords (replay records).1.toList, ?_, writes_putRecords tidy, ?_⟩
    · apply openIn_file
      rw [PendingDir.openBytes, hscan]
      dsimp only
      rw [if_pos hdropped, compacted_eq]
    · rw [replay_putRecords_toList tidy]
  · -- Only the tail is cut off.
    have hbytes := flatMap_encode_scan bytes
    rw [hscan] at hbytes
    have hkept : bytes.take (bytes.length - tail.length) = encodeAll records := by
      rw [← hbytes, List.length_append, Nat.add_sub_cancel, List.take_left' rfl]
      rfl
    refine ⟨records, ?_, hwrites, rfl⟩
    apply openIn_file
    rw [PendingDir.openBytes, hscan]
    dsimp only
    rw [if_neg hdropped, hkept]

/-! ### Cut logs -/

/-- Ranges are stored and dropped in any order on a store opened in an empty directory, each record
with a payload whose length has 32 bits. Every call succeeds and the log holds their records. When
the log is cut to its first bytes, opening it restores the ranges after the greatest number of calls
whose records lie in these bytes, which are all ranges when nothing is cut. Opening what that leaves
restores the same ranges. -/
theorem exists_openIn_cut (changes : List PendingChange)
    (hshort : ∀ r ∈ journal .empty changes, r.IsShort) (k : Nat) :
    ∃ start live n cut again, openIn (.present .missing .missing) = .ok start ∧
      start.changeAll changes = (.ok (), live) ∧ live.log = encodeAll (journal .empty changes) ∧
      IsGreatest {m | m ≤ changes.length ∧
        (start.changeAll (changes.take m)).2.log.length ≤ k} n ∧
      openIn (live.dir.withLog (live.log.take k)) = .ok cut ∧
      cut.index = (start.changeAll (changes.take n)).2.index ∧
      (live.log.length ≤ k → cut.index = live.index) ∧
      openIn cut.dir = .ok again ∧ again.index = cut.index := by
  have hrun (changes : List PendingChange) : (opened .empty []).changeAll changes =
      (.ok (), opened (applyAll .empty changes) (encodeAll (journal .empty changes))) :=
    changeAll_opened changes .empty []
  obtain ⟨n, hn⟩ := exists_isGreatest_fits changes k
  have hjournal : journal .empty changes = journal .empty (changes.take n) ++
      journal (applyAll .empty (changes.take n)) (changes.drop n) := by
    rw [← journal_append, List.take_append_drop]
  have hscan := scan_take_encodeAll (hjournal ▸ hshort) hn.1.2 (lt_of_isGreatest_fits hn)
  rw [← hjournal] at hscan
  obtain ⟨hwrites, hreplay⟩ := replay_journal (changes.take n) [] rfl
    fun r hr ↦ hshort r (hjournal ▸ List.mem_append_left _ hr)
  obtain ⟨kept, hopen, hwrites', hkept⟩ := exists_openIn_of_scan hscan hwrites
  have hscan' := scan_encodeAll fun r hr ↦ (hwrites' r hr).isShort
  obtain ⟨kept', hopen', -, -⟩ := exists_openIn_of_scan hscan' hwrites'
  refine ⟨_, _, n, _, _, openIn_empty, hrun changes, rfl, ?_, hopen, ?_, ?_, hopen', hkept⟩
  · simp only [hrun]
    exact hn
  · rw [hrun]
    exact hreplay
  · intro hall
    have hlast : n = changes.length := by
      apply Nat.le_antisymm hn.1.1
      apply hn.2
      refine ⟨Nat.le_refl _, ?_⟩
      rwa [List.take_length]
    rw [hlast, List.take_length] at hreplay
    rw [hlast, List.take_length]
    exact hreplay

/-- A block is stored and dropped again. -/
def storedAndDropped (b : Block) : List PendingChange :=
  [.store [b], .drop b.number [b.hash] ((∅ : PendingQueues).insert b.hash [b])]

/-- A cut in the record of the drop leaves the block stored. -/
theorem exists_openIn_cut_storedAndDropped :
    ∃ start live cut, openIn (.present .missing .missing) = .ok start ∧
      start.changeAll (storedAndDropped .genesis) = (.ok (), live) ∧ live.log.length = 320 ∧
      openIn (live.dir.withLog (live.log.take 300)) = .ok cut ∧
      cut.index.range? 0 Block.genesis.hash = some [.genesis] := by
  generalize hb : Block.genesis = b
  have hnumber : b.number = 0 := by rw [← hb]; rfl
  have htransactions : b.body.transactions = [] := by rw [← hb]; rfl
  obtain ⟨filed, hinsert, hrange⟩ := PendingIndex.exists_insert_empty b []
  have hdropped : dropped [b.hash] ((∅ : PendingQueues).insert b.hash [b]) = [b.hash] := by
    simp [dropped]
  have hput : (LogEntry.put [b]).encode.length = 236 := by
    simp [LogEntry.encode, Binary.list, Binary.variant, Binary.length_block, htransactions]
  have hdrop : (LogEntry.drop [b.hash]).encode.length = 52 := by
    simp [LogEntry.encode, Binary.variant, Binary.length_digests]
  have hfirst : journal .empty [.store [b]] = [(LogEntry.put [b]).record b.number] := by
    simp [journal, record?, hinsert]
  have hjournal : journal .empty (storedAndDropped b) =
      [(LogEntry.put [b]).record b.number, (LogEntry.drop [b.hash]).record b.number] := by
    simp [storedAndDropped, journal, record?, hinsert, hdropped]
  have hshort : ∀ r ∈ journal .empty (storedAndDropped b), r.IsShort := by
    simp [hjournal, LogRecord.IsShort, LogEntry.record, hput, hdrop]
  obtain ⟨start, live, n, cut, again, hstart, hrun, hlog, hn, hopen, hcut, -, -, -⟩ :=
    exists_openIn_cut (storedAndDropped b) hshort 300
  obtain rfl : opened .empty [] = start := Except.ok.inj (openIn_empty.symm.trans hstart)
  refine ⟨_, live, cut, hstart, hrun, ?_, hopen, ?_⟩
  · rw [hlog, hjournal]
    simp [LogRecord.length_encode, LogEntry.record, hput, hdrop]
  · simp only [changeAll_opened, log_opened, index_opened, List.nil_append] at hn hcut
    have hone : (storedAndDropped b).take 1 = [.store [b]] := rfl
    have htwo : (storedAndDropped b).take 2 = storedAndDropped b := rfl
    have hfits : (encodeAll (journal .empty ((storedAndDropped b).take 1))).length ≤ 300 := by
      simp [hone, hfirst, LogRecord.length_encode, LogEntry.record, hput]
    have hspills : ¬ (encodeAll (journal .empty ((storedAndDropped b).take 2))).length ≤ 300 := by
      simp [htwo, hjournal, LogRecord.length_encode, LogEntry.record, hput, hdrop]
    have hle : 1 ≤ n := hn.2 ⟨Nat.le_succ 1, hfits⟩
    have hlength : n ≤ 2 := hn.1.1
    have hne : n ≠ 2 := by
      rintro rfl
      exact hspills hn.1.2
    obtain rfl : n = 1 := by omega
    rw [hcut, hone, ← hnumber]
    simp [applyAll, PendingChange.apply, PendingIndex.filing, hinsert, hrange]

end PendingStore
end ChainSync
