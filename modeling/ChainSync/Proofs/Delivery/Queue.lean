import ChainSync.Proofs.Delivery.Drain

/-!
# Batches that wait

What pushing and popping do to the batches of the queue. Of two segments with the same first block
the longer one waits and has the blocks of the other, so no block is lost.
-/

namespace ChainSync

/-- The entry with the least key is the first one of the list. -/
theorem minEntry?_eq_head?_toList {α β : Type} [Ord α] [Std.TransOrd α]
    (t : Std.ExtTreeMap α β) : t.minEntry? = t.toList.head? := by
  have himpl (m : Std.DTreeMap.Internal.Impl α fun _ ↦ β) :
      Std.DTreeMap.Internal.Impl.Const.minEntry? m =
        (Std.DTreeMap.Internal.Impl.Const.toList m).head? := by
    rw [Std.DTreeMap.Internal.Impl.Const.toList_eq_toListModel_map]
    induction m using Std.DTreeMap.Internal.Impl.Const.minEntry?.induct_unfolding with
    | case1 => rfl
    | case2 => rfl
    | case3 _ _ _ _ _ _ _ _ _ ih =>
      rw [ih]
      simp [Std.DTreeMap.Internal.Impl.toListModel]
  obtain ⟨⟨q⟩⟩ := t
  induction q using Quotient.ind with
  | _ m => exact himpl m.inner

namespace ImportQueue

def Has (q : ImportQueue) (block : Block) : Prop :=
  ∃ (n : UInt64) (batch : BlockBatch), q.batches[n]? = some batch ∧ block ∈ batch.blocks

def without (q : ImportQueue) (n : UInt64) : ImportQueue :=
  { q with batches := q.batches.erase n }

theorem batches_without (q : ImportQueue) (n m : UInt64) :
    (q.without n).batches[m]? = if n = m then none else q.batches[m]? := by
  simp [without, Std.ExtTreeMap.getElem?_erase]

theorem size_without {q : ImportQueue} {n : UInt64} {batch : BlockBatch}
    (h : q.batches[n]? = some batch) : (q.without n).size = q.size - 1 := by
  have hmem : n ∈ q.batches := Std.ExtTreeMap.mem_iff_isSome_getElem?.mpr (by simp [h])
  simp [size, without, Std.ExtTreeMap.size_erase, hmem]

/-- The queue with a batch under a number, its consumer woken. -/
def holding (q : ImportQueue) (n : UInt64) (batch : BlockBatch) : ImportQueue :=
  { q with batches := q.batches.insert n batch }.wake

theorem batches_holding (q : ImportQueue) (n m : UInt64) (batch : BlockBatch) :
    (q.holding n batch).batches[m]? = if n = m then some batch else q.batches[m]? := by
  simp [holding, wake, Std.ExtTreeMap.getElem?_insert]

/-- A batch takes its place unless one as long is there, and then nothing changes. -/
theorem hold_cases (q : ImportQueue) (n : UInt64) (batch : BlockBatch) :
    (∃ other, q.batches[n]? = some other ∧ batch.size ≤ other.size ∧ (q.hold n batch).2 = q) ∨
      (∀ other, q.batches[n]? = some other → other.size < batch.size) ∧
        (q.hold n batch).2 = q.holding n batch := by
  cases h : q.batches[n]? with
  | none =>
    refine .inr ⟨?_, by simp only [hold, h, holding]⟩
    intro other hother
    cases hother
  | some other =>
    by_cases hle : batch.size ≤ other.size
    · exact .inl ⟨other, rfl, hle, by simp only [hold, h, if_pos hle]⟩
    · refine .inr ⟨?_, by simp only [hold, h, if_neg hle, holding]⟩
      intro other' hother
      cases hother
      omega

/-- Letting a batch wait does not change what is far ahead. -/
theorem slack_hold (q : ImportQueue) (n : UInt64) (batch : BlockBatch) :
    (q.hold n batch).2.slack = q.slack := by
  rcases q.hold_cases n batch with ⟨other, -, -, h⟩ | ⟨-, h⟩
  · rw [h]
  · rw [h]
    rfl

theorem size_hold_le (q : ImportQueue) (n : UInt64) (batch : BlockBatch) :
    (q.hold n batch).2.size ≤ q.size + 1 := by
  rcases q.hold_cases n batch with ⟨other, -, -, h⟩ | ⟨-, h⟩
  · rw [h]
    exact Nat.le_succ _
  · rw [h]
    exact Std.ExtTreeMap.size_insert_le

/-- After a batch was to wait, every waiting batch is this one or waited before. -/
theorem batches_hold {q : ImportQueue} {n m : UInt64} {batch b : BlockBatch}
    (h : (q.hold n batch).2.batches[m]? = some b) :
    n = m ∧ b = batch ∨ q.batches[m]? = some b := by
  rcases q.hold_cases n batch with ⟨other, -, -, hold⟩ | ⟨-, hold⟩
  · rw [hold] at h
    exact .inr h
  · rw [hold, batches_holding] at h
    split at h
    · next hn =>
      cases h
      exact .inl ⟨hn, rfl⟩
    · exact .inr h

/-- Popping takes nothing from an empty queue, and else removes the batch it answers. -/
theorem pop_cases (q : ImportQueue) :
    q.size = 0 ∧ q.pop = (none, q) ∨
      ∃ (n : UInt64) (batch : BlockBatch), q.batches[n]? = some batch ∧
        q.pop = (some batch, q.without n) := by
  unfold pop
  cases h : q.batches.minEntry? with
  | none =>
    rw [minEntry?_eq_head?_toList, List.head?_eq_none_iff] at h
    refine .inl ⟨?_, rfl⟩
    rw [size, ← Std.ExtTreeMap.length_toList, h]
    rfl
  | some entry =>
    obtain ⟨n, batch⟩ := entry
    refine .inr ⟨n, batch, ?_, rfl⟩
    rw [minEntry?_eq_head?_toList] at h
    exact Std.ExtTreeMap.mem_toList_iff_getElem?_eq_some.mp (List.mem_of_head? h)

end ImportQueue

/-- Letting a segment wait loses none of its blocks, and none that waited before. -/
theorem ImportQueue.has_hold_segment {c : Nat → Block} {top first last : Nat} {P : Nat → Prop}
    (line : Line c top) {q : ImportQueue}
    (queued : ∀ (n : UInt64) (batch : BlockBatch), q.batches[n]? = some batch →
      Piece c top P n.toNat batch.blocks)
    (hle : first ≤ last) (hlast : last ≤ top) (batch : BlockBatch)
    (hblocks : batch.blocks = segment c first last) {i : Nat} (hi : i ≤ top)
    (h : c i ∈ segment c first last ∨ q.Has (c i)) :
    (q.hold (c first).number batch).2.Has (c i) := by
  have hfirst : (c first).number.toNat = first := line.toNat_number (by omega)
  rcases q.hold_cases (c first).number batch with ⟨other, hother, hlength, hold⟩ | ⟨hshort, hold⟩
  · -- The batch that waits under this number has the blocks of the segment.
    rw [hold]
    rcases h with hmem | hhas
    · obtain ⟨last', hle', hlast', hblocks', -⟩ := queued _ _ hother
      rw [hfirst] at hle' hblocks'
      rw [BlockBatch.size, BlockBatch.size, hblocks, hblocks'] at hlength
      refine ⟨_, other, hother, ?_⟩
      rw [hblocks']
      exact mem_segment_of_length_le line hle hle' hlast hlast' hlength hi hmem
    · exact hhas
  · -- The segment has the blocks of the batch whose place it takes.
    rw [hold]
    have htaken : (q.holding (c first).number batch).batches[(c first).number]? = some batch := by
      rw [batches_holding, if_pos rfl]
    rcases h with hmem | ⟨n, other, hother, hmem⟩
    · exact ⟨_, batch, htaken, hblocks ▸ hmem⟩
    · by_cases hn : (c first).number = n
      · subst hn
        have hlength := Nat.le_of_lt (hshort other hother)
        obtain ⟨last', hle', hlast', hblocks', -⟩ := queued _ _ hother
        rw [hfirst] at hle' hblocks'
        rw [BlockBatch.size, BlockBatch.size, hblocks, hblocks'] at hlength
        rw [hblocks'] at hmem
        refine ⟨_, batch, htaken, ?_⟩
        rw [hblocks]
        exact mem_segment_of_length_le line hle' hle hlast' hlast hlength hi hmem
      · exact ⟨n, other, by rw [batches_holding, if_neg hn, hother], hmem⟩

end ChainSync
