import ChainSync.Proofs.Chain.Promotion
import ChainSync.Proofs.Pending.Recovery

/-!
# Records that cannot be appended

A call changes the index and appends a record of the change; when the append fails, the file is cut
back and the key of a range that was to be stored is removed again. Main statement: the log stays as
it was, and so do all other ranges, but where a shorter range was held under the same key that one
is gone too, so that the index is the replay of the log no longer.
-/

namespace ChainSync

namespace LogFile

theorem append_eq_of_error {f : LogFile} {r : LogRecord} {e : StoreError}
    (h : (f.append r).1 = .error e) : f.append r = (.error e, f) := by
  obtain ⟨bytes, capacity⟩ := f
  cases capacity with
  | unlimited => simp [append, write] at h
  | exhausted =>
    simp only [append, write] at h ⊢
    cases h
    simp [truncate]
  | upTo size =>
    by_cases hroom : r.encode.length ≤ size - bytes.length
    · simp [append, write, hroom] at h
    · -- The bytes that were written are those that are cut off.
      simp only [append, write, hroom, if_false] at h ⊢
      cases h
      simp [truncate]

/-- A record is not appended when it does not fit. -/
theorem exists_append_eq_error {f : LogFile} {size : Nat} (hcapacity : f.capacity = .upTo size)
    {r : LogRecord} (hlong : ¬ r.encode.length ≤ size - f.bytes.length) :
    ∃ e, (f.append r).1 = .error e :=
  ⟨_, by simp only [append, write, hcapacity, if_neg hlong]; rfl⟩

end LogFile

namespace PendingChange

/-- The place where a range is to be stored, if another one is held there. -/
def occupied? (index : PendingIndex) : PendingChange → Option (UInt64 × Digest)
  | store (first :: _) =>
    if (index.range? first.number first.hash).isSome then some (first.number, first.hash) else none
  | store [] | drop .. => none

/-- A range is held at an occupied place. -/
theorem isSome_range?_of_occupied? {index : PendingIndex} {c : PendingChange} {level : UInt64}
    {key : Digest} (h : c.occupied? index = some (level, key)) :
    (index.range? level key).isSome := by
  cases c with
  | drop level keys loaded => cases h
  | store blocks =>
    cases blocks with
    | nil => cases h
    | cons first rest =>
      rw [occupied?] at h
      split at h
      · next hheld =>
        cases h
        exact hheld
      · cases h

end PendingChange

open LogRecord

namespace DiskStore

open PendingChange

def change (s : DiskStore) : PendingChange → Except StoreError Unit × DiskStore :=
  run (fun blocks s ↦ s.store blocks) (fun level keys loaded s ↦ s.drop level keys loaded) s

/-- The index is what the log leads to. -/
def InStep (s : DiskStore) : Prop := (replay (scan s.file.bytes).1).1 = s.index

/-- Replaying a record leaves no level without a range. -/
theorem isFull_replayRecord {index : PendingIndex} (full : index.IsFull) (r : LogRecord) :
    (replayRecord index r).1.IsFull := by
  unfold replayRecord
  split
  · exact full.filing _
  · exact full.remove _ _
  · exact full

/-- Replaying a log leaves no level without a range, whatever its records say. -/
theorem isFull_replay (records : List LogRecord) : (replay records).1.IsFull := by
  induction records using List.reverseRecOn with
  | nil => exact PendingIndex.isFull_empty
  | append_singleton records r ih =>
    rw [replay_append_singleton]
    exact isFull_replayRecord ih r

section

variable {s : DiskStore} {c : PendingChange} {r : LogRecord} {e : StoreError}
  (hrecord : c.record? s.index = some r) (hfail : (s.file.append r).1 = .error e)

include hrecord hfail

/-- A call whose record is not appended answers the error and leaves the file. A range that was to
be stored is removed, and the range that was held in its place is lost. -/
theorem change_of_append_error : (s.change c).1 = .error e ∧ (s.change c).2.file = s.file ∧
    (s.index.IsFull → (s.change c).2.index.IsFull) ∧
    ∀ level key, (s.change c).2.index.range? level key =
      if c.occupied? s.index = some (level, key) then none else s.index.range? level key := by
  have happend := LogFile.append_eq_of_error hfail
  cases c with
  | drop level keys loaded =>
    simp only [record?] at hrecord
    split at hrecord
    · cases hrecord
    · next hne =>
      cases hrecord
      have hchange : s.change (.drop level keys loaded) = (.error e, s) := by
        rw [change, run, drop]
        simp only [dropped] at hne happend
        rw [if_neg hne, happend]
      rw [hchange]
      exact ⟨rfl, rfl, id, fun l k ↦ by simp [occupied?]⟩
  | store blocks =>
    cases blocks with
    | nil => simp [record?, PendingIndex.insert] at hrecord
    | cons first rest =>
      cases hinsert : s.index.insert (first :: rest) with
      | none => simp [record?, hinsert] at hrecord
      | some filed =>
        obtain ⟨level, filed⟩ := filed
        simp only [record?, hinsert, Option.map_some, Option.some.injEq] at hrecord
        subst hrecord
        obtain ⟨rfl, hrange⟩ := PendingIndex.range?_insert hinsert
        have hchange : s.change (.store (first :: rest)) =
            (.error e, ⟨filed.remove first.number [first.hash], s.file⟩) := by
          simp [change, run, store, hinsert, happend, Except.map]
        rw [hchange]
        refine ⟨rfl, rfl, fun full ↦ (full.insert hinsert).remove _ _, ?_⟩
        intro l k
        rw [PendingIndex.range?_remove, hrange]
        simp only [List.mem_singleton]
        by_cases hat : l = first.number ∧ k = first.hash
        · obtain ⟨rfl, rfl⟩ := hat
          cases hheld : s.index.range? first.number first.hash <;> simp [occupied?, hheld]
        · have hother : ¬ (first.number = l ∧ first.hash = k) := fun h ↦ hat ⟨h.1.symm, h.2.symm⟩
          rw [if_neg hat, if_neg hat, occupied?]
          split <;> simp [hother]

/-- The places of ranges are those that are left and the one that is lost. -/
theorem perm_places_of_append_error :
    s.index.places.Perm ((c.occupied? s.index).toList ++ (s.change c).2.index.places) := by
  obtain ⟨-, -, -, hrange⟩ := change_of_append_error hrecord hfail
  have hlost {place : UInt64 × Digest} (h : c.occupied? s.index = some place) :
      place ∉ (s.change c).2.index.places := by
    rw [PendingIndex.mem_places, hrange, if_pos h]
    exact Bool.false_ne_true
  rw [List.perm_ext_iff_of_nodup s.index.nodup_places]
  · rintro ⟨level, key⟩
    rw [List.mem_append, Option.mem_toList, PendingIndex.mem_places, PendingIndex.mem_places,
      hrange]
    by_cases h : c.occupied? s.index = some (level, key)
    · simp [h, isSome_range?_of_occupied? h]
    · simp [h]
  · cases h : c.occupied? s.index with
    | none => exact PendingIndex.nodup_places _
    | some place =>
      rw [Option.toList_some, List.singleton_append, List.nodup_cons]
      exact ⟨hlost h, PendingIndex.nodup_places _⟩

/-- A store whose index is what the log leads to stays so unless a range is lost. -/
theorem inStep_iff_of_append_error (inStep : s.InStep) :
    (s.change c).2.InStep ↔ c.occupied? s.index = none := by
  obtain ⟨-, hfile, hfull, hrange⟩ := change_of_append_error hrecord hfail
  rw [InStep, hfile, inStep]
  constructor
  · intro hsame
    rw [Option.eq_none_iff_forall_ne_some]
    rintro ⟨level, key⟩ h
    have hheld := isSome_range?_of_occupied? h
    rw [hsame, hrange, if_pos h] at hheld
    exact Bool.false_ne_true hheld
  · intro hfree
    have full : s.index.IsFull := inStep ▸ isFull_replay _
    apply PendingIndex.ext_range? full (hfull full)
    intro level key
    rw [hrange, hfree, if_neg (by simp)]

/-- A call whose record is not appended answers the error and leaves the file. It leaves the ranges
of every level exactly when no range is held in the place of one that was to be stored; such a range
is lost, and no other one. The number of ranges is less by the lost one, and an index that was what
the log leads to stays so exactly when none is lost. -/
theorem load_eq_iff_of_append_error : (s.change c).1 = .error e ∧ (s.change c).2.file = s.file ∧
    ((∀ level, (s.change c).2.index.load level = s.index.load level) ↔
      c.occupied? s.index = none) ∧
    (∀ level key, c.occupied? s.index ≠ some (level, key) →
      (s.change c).2.index.range? level key = s.index.range? level key) ∧
    (s.change c).2.index.count + (c.occupied? s.index).toList.length = s.index.count ∧
    (s.InStep → ((s.change c).2.InStep ↔ c.occupied? s.index = none)) := by
  obtain ⟨herror, hfile, -, hrange⟩ := change_of_append_error hrecord hfail
  refine ⟨herror, hfile, ⟨?_, ?_⟩, ?_, ?_, inStep_iff_of_append_error hrecord hfail⟩
  · intro hload
    rw [Option.eq_none_iff_forall_ne_some]
    rintro ⟨level, key⟩ h
    have hheld := isSome_range?_of_occupied? h
    rw [PendingIndex.range?, ← hload, ← PendingIndex.range?, hrange, if_pos h] at hheld
    exact Bool.false_ne_true hheld
  · intro hfree level
    apply Std.ExtTreeMap.ext_getElem?
    intro key
    have hkept := hrange level key
    rwa [hfree, if_neg (by simp)] at hkept
  · intro level key hother
    rw [hrange, if_neg hother]
  · have hlength := (perm_places_of_append_error hrecord hfail).length_eq
    rw [List.length_append, PendingIndex.length_places, PendingIndex.length_places] at hlength
    rw [hlength, Nat.add_comm]

end

/-! ### A range that is lengthened -/

/-- The store in which a block was stored, and whose log has twelve bytes more of room. -/
def cramped (b : Block) : DiskStore :=
  let s := (change ⟨.empty, ⟨[], .unlimited⟩⟩ (.store [b])).2
  { s with file := s.file.limit (.upTo (s.file.bytes.length + 12)) }

/-- The store holds its block, as its log says, and takes no further record. -/
theorem cramped_spec {b : Block} (hshort : (LogEntry.put [b]).encode.length < 2 ^ 32) :
    (cramped b).InStep ∧ (cramped b).index.range? b.number b.hash = some [b] ∧
      ∀ r, ∃ e, ((cramped b).file.append r).1 = .error e := by
  obtain ⟨filed, hinsert, hrange⟩ := PendingIndex.exists_insert_empty b []
  let r := (LogEntry.put [b]).record b.number
  have hchange : change ⟨.empty, ⟨[], .unlimited⟩⟩ (.store [b]) =
      (.ok (), ⟨filed, ⟨r.encode, .unlimited⟩⟩) := by
    simp [change, run, store, hinsert, PendingStore.append_unlimited, Except.map, r]
  have hcramped : cramped b = ⟨filed, ⟨r.encode, .upTo (r.encode.length + 12)⟩⟩ := by
    rw [cramped, hchange]
    rfl
  rw [hcramped]
  refine ⟨?_, hrange, ?_⟩
  · have hscan : scan r.encode = ([r], []) := by
      have hscan : scan (encodeAll [r]) = ([r], []) :=
        scan_encodeAll fun r' hr ↦ List.mem_singleton.mp hr ▸ hshort
      rwa [encodeAll_cons, encodeAll_nil, List.append_nil] at hscan
    have hreplay : (replay [r]).1 = filed := by
      rw [← List.nil_append [r], replay_append_singleton, replayRecord_put _ _ hshort]
      change PendingIndex.filing .empty [b] = filed
      rw [PendingIndex.filing, hinsert]
      rfl
    rw [InStep, hscan]
    exact hreplay
  · intro r'
    apply LogFile.exists_append_eq_error rfl
    dsimp only
    rw [length_encode]
    omega

/-- The first block is stored together with a child of it. -/
def lengthened : PendingChange := .store [.genesis, Chain.sprout 0]

/-- A record is to be appended for the longer range, and its place is occupied by the shorter
one. -/
theorem lengthened_spec : ∃ r e, (cramped .genesis).InStep ∧
    lengthened.record? (cramped .genesis).index = some r ∧
    ((cramped .genesis).file.append r).1 = .error e ∧
    lengthened.occupied? (cramped .genesis).index = some (0, Block.genesis.hash) := by
  generalize hb : Block.genesis = b
  have hnumber : b.number = 0 := by rw [← hb]; rfl
  have htransactions : b.body.transactions = [] := by rw [← hb]; rfl
  have hshort : (LogEntry.put [b]).encode.length < 2 ^ 32 := by
    simp [LogEntry.encode, Binary.list, Binary.variant, Binary.length_block, htransactions]
  obtain ⟨inStep, hrange, hfull⟩ := cramped_spec hshort
  have hrecord : (lengthened.record? (cramped b).index).isSome := by
    rw [lengthened, hb, record?, Option.isSome_map, Option.isSome_iff_ne_none]
    intro hnone
    obtain ⟨held, hheld, hle⟩ := PendingIndex.insert_eq_none_iff.mp hnone
    rw [hrange] at hheld
    cases hheld
    simp at hle
  obtain ⟨r, hr⟩ := Option.isSome_iff_exists.mp hrecord
  obtain ⟨e, he⟩ := hfull r
  refine ⟨r, e, inStep, hr, he, ?_⟩
  rw [lengthened, hb, occupied?, hrange, hnumber]
  rfl

/-- A range is not lengthened on a full disk, and then the range is gone that was held before. -/
theorem load_eq_iff_of_append_error_lengthened : ∃ e,
    ((cramped .genesis).change lengthened).1 = .error e ∧
      ((cramped .genesis).change lengthened).2.index.count + 1 = (cramped .genesis).index.count ∧
      ¬ ((cramped .genesis).change lengthened).2.InStep := by
  obtain ⟨r, e, inStep, hrecord, hfail, hoccupied⟩ := lengthened_spec
  obtain ⟨herror, -, -, -, hcount, hstep⟩ := load_eq_iff_of_append_error hrecord hfail
  rw [hoccupied] at hcount hstep
  exact ⟨e, herror, hcount, fun h ↦ nomatch (hstep inStep).mp h⟩

/-- Not every call whose record is not appended leaves the ranges as they were. -/
theorem not_forall_load_eq_of_append_error :
    ¬ ∀ (s : DiskStore) (c : PendingChange) (r : LogRecord) (e : StoreError), s.InStep →
      c.record? s.index = some r → (s.file.append r).1 = .error e →
      ∀ level, (s.change c).2.index.load level = s.index.load level := by
  intro hall
  obtain ⟨r, e, inStep, hrecord, hfail, hoccupied⟩ := lengthened_spec
  have hload := hall _ _ r e inStep hrecord hfail 0
  obtain ⟨-, -, -, hrange⟩ := change_of_append_error hrecord hfail
  have hheld := isSome_range?_of_occupied? hoccupied
  rw [PendingIndex.range?, ← hload, ← PendingIndex.range?, hrange, if_pos hoccupied] at hheld
  exact Bool.false_ne_true hheld

end DiskStore
end ChainSync
