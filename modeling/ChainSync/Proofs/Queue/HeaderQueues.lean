import ChainSync.Proofs.Step
import ChainSync.Sync.HeaderStore

/-!
# The queues of header batches

What each operation does to the queue of a peer and a number of headers, and which peers are filed
after it. No queue and no peer is kept empty, whatever is stored and dropped, so a peer is filed
exactly when one of its batches waits.
-/

namespace ChainSync

namespace HeaderQueues

variable {q : HeaderQueues} {keeps : HeaderBatch → Bool} {size other : Nat}
  {batches : List HeaderBatch}

theorem getElem?_put (q : HeaderQueues) (size other : Nat) (batches : List HeaderBatch) :
    (q.put size batches)[other]?.getD [] =
      if size = other then batches else q[other]?.getD [] := by
  unfold put
  by_cases hnone : batches = []
  · simp only [hnone, List.isEmpty_nil, if_true, Std.ExtTreeMap.getElem?_erase,
      Std.LawfulEqOrd.compare_eq_iff_eq]
    split <;> rfl
  · have hsome : ¬ batches.isEmpty = true := by simpa using hnone
    simp only [if_neg hsome, Std.ExtTreeMap.getElem?_insert, Std.LawfulEqOrd.compare_eq_iff_eq]
    split <;> rfl

theorem getElem?_retain (q : HeaderQueues) (keeps : HeaderBatch → Bool) (size : Nat) :
    (q.retain keeps)[size]?.getD [] = (q[size]?.getD []).filter keeps := by
  simp only [retain, Std.ExtTreeMap.getElem?_filterMap']
  cases q[size]? with
  | none => rfl
  | some batches =>
    simp only [Option.bind_some, Option.getD_some]
    split
    · next hnone => exact (List.isEmpty_iff.mp hnone).symm
    · rfl

/-- No queue is empty. -/
def Tidy (q : HeaderQueues) : Prop := ∀ size : Nat, q[size]? ≠ some []

namespace Tidy

theorem empty : Tidy ∅ := by
  intro size h
  simp at h

theorem insert (tidy : q.Tidy) (size : Nat) (nonempty : batches ≠ []) :
    Tidy (Std.ExtTreeMap.insert q size batches) := by
  intro other h
  rw [Std.ExtTreeMap.getElem?_insert] at h
  split at h
  · exact nonempty (Option.some.inj h)
  · exact tidy other h

theorem put (tidy : q.Tidy) (size : Nat) (batches : List HeaderBatch) :
    (q.put size batches).Tidy := by
  unfold HeaderQueues.put
  split
  · intro other h
    rw [Std.ExtTreeMap.getElem?_erase] at h
    split at h
    · cases h
    · exact tidy other h
  · next hsome => exact tidy.insert size (by simpa using hsome)

theorem retain (q : HeaderQueues) (keeps : HeaderBatch → Bool) : (q.retain keeps).Tidy := by
  intro size h
  simp only [HeaderQueues.retain, Std.ExtTreeMap.getElem?_filterMap', Option.bind_eq_some_iff] at h
  obtain ⟨batches, -, h⟩ := h
  split at h
  · cases h
  · next hsome =>
    simp only [Option.some.injEq] at h
    simp [h] at hsome

end Tidy

end HeaderQueues

namespace HeaderStore

variable {s : HeaderStore} {peer other : PeerId} {size : Nat} {batch : HeaderBatch}

/-! ### One queue -/

theorem queue_empty (expiry : Millis) (peer : PeerId) (size : Nat) :
    (empty expiry).queue peer size = [] := by
  simp [empty, queue, queuesOf]

theorem mem_waiting_iff : batch ∈ s.waiting peer ↔ ∃ size, batch ∈ s.queue peer size := by
  unfold waiting queue
  rw [List.mem_flatMap]
  constructor
  · rintro ⟨⟨size, batches⟩, hentry, hbatch⟩
    refine ⟨size, ?_⟩
    rw [Std.ExtTreeMap.mem_toList_iff_getElem?_eq_some.mp hentry]
    exact hbatch
  · rintro ⟨size, hbatch⟩
    cases hfiled : (s.queuesOf peer)[size]? with
    | none => simp [hfiled] at hbatch
    | some batches =>
      rw [hfiled] at hbatch
      exact ⟨(size, batches), Std.ExtTreeMap.mem_toList_iff_getElem?_eq_some.mpr hfiled, hbatch⟩

theorem queue_store (nonempty : batch.headers ≠ []) (peer : PeerId) (size : Nat) :
    (s.store batch).queue peer size =
      if batch.peer = peer ∧ batch.size = size then s.queue peer size ++ [batch]
      else s.queue peer size := by
  rw [store, if_neg (by simpa using nonempty)]
  by_cases hpeer : batch.peer = peer
  · by_cases hsize : batch.size = size <;>
      simp [queue, queuesOf, Std.ExtTreeMap.getElem?_insert, hpeer, hsize]
  · simp [queue, queuesOf, Std.ExtTreeMap.getElem?_insert, hpeer]

theorem expiry_store (s : HeaderStore) (batch : HeaderBatch) :
    (s.store batch).expiry = s.expiry := by
  unfold store
  split <;> rfl

theorem expiry_take (s : HeaderStore) (peer : PeerId) (size : Nat) :
    (s.take peer size).2.expiry = s.expiry := by
  unfold take
  split
  · rfl
  · split <;> rfl

theorem take_fst (s : HeaderStore) (peer : PeerId) (size : Nat) :
    (s.take peer size).1 = (s.queue peer size).head? := by
  unfold take queue queuesOf
  cases s.queues[peer]? with
  | none => simp
  | some queues => cases h : queues[size]? <;> simp [h]

theorem queuesOf_insert (filed : Std.ExtTreeMap PeerId HeaderQueues) (expiry : Millis)
    (left : HeaderQueues) :
    queuesOf ⟨if left.isEmpty then filed.erase other else filed.insert other left, expiry⟩ peer =
      if other = peer then left else queuesOf ⟨filed, expiry⟩ peer := by
  unfold queuesOf
  by_cases hnone : left = ∅
  · simp only [hnone, Std.ExtTreeMap.isEmpty_empty, if_true, Std.ExtTreeMap.getElem?_erase,
      Std.LawfulEqOrd.compare_eq_iff_eq]
    split <;> rfl
  · have hsome : ¬ left.isEmpty = true := by simpa using hnone
    simp only [if_neg hsome, Std.ExtTreeMap.getElem?_insert, Std.LawfulEqOrd.compare_eq_iff_eq]
    split <;> rfl

theorem queue_take (s : HeaderStore) (other peer : PeerId) (count size : Nat) :
    (s.take other count).2.queue peer size =
      if other = peer ∧ count = size then (s.queue peer size).tail else s.queue peer size := by
  unfold take
  cases hother : s.queues[other]? with
  | none =>
    by_cases he : other = peer
    · simp [queue, queuesOf, ← he, hother]
    · simp [he]
  | some queues =>
    dsimp only
    cases hcount : queues[count]? with
    | none =>
      by_cases he : other = peer ∧ count = size
      · simp [queue, queuesOf, ← he.1, ← he.2, hother, hcount]
      · simp only [if_neg he]
    | some batches =>
      dsimp only
      rw [queue, queuesOf_insert]
      by_cases hpeer : other = peer
      · subst hpeer
        rw [if_pos rfl, HeaderQueues.getElem?_put, queue, queuesOf, hother, Option.getD_some]
        by_cases hsize : count = size
        · simp [← hsize, hcount]
        · simp [hsize]
      · rw [if_neg hpeer, if_neg fun he ↦ hpeer he.1]
        rfl

theorem queue_removePeer (s : HeaderStore) (other peer : PeerId) (size : Nat) :
    (s.removePeer other).2.queue peer size = if other = peer then [] else s.queue peer size := by
  simp only [removePeer, queue, queuesOf, Std.ExtTreeMap.getElem?_erase,
    Std.LawfulEqOrd.compare_eq_iff_eq]
  split
  · simp
  · rfl

theorem queue_prune (s : HeaderStore) (now : Millis) (peer : PeerId) (size : Nat) :
    (s.prune now).2.queue peer size = (s.queue peer size).filter (s.isFresh now) := by
  simp only [prune, queue, queuesOf, Std.ExtTreeMap.getElem?_filterMap']
  cases s.queues[peer]? with
  | none => simp
  | some queues =>
    have hleft := queues.getElem?_retain (s.isFresh now) size
    simp only [Option.bind_some, Option.getD_some]
    split
    · next hnone =>
      rw [Std.ExtTreeMap.isEmpty_iff.mp hnone] at hleft
      simpa using hleft
    · exact hleft

/-! ### Peers that are filed -/

theorem mem_store (h : peer ∈ (s.store batch).queues) : batch.peer = peer ∨ peer ∈ s.queues := by
  unfold store at h
  split at h
  · exact .inr h
  · exact (Std.ExtTreeMap.mem_insert.mp h).imp_left Std.LawfulEqOrd.eq_of_compare

theorem mem_take (h : peer ∈ (s.take other size).2.queues) : peer ∈ s.queues := by
  unfold take at h
  cases hother : s.queues[other]? with
  | none => simpa [hother] using h
  | some queues =>
    have hfiled : other ∈ s.queues := by
      rw [Std.ExtTreeMap.mem_iff_isSome_getElem?, hother]
      rfl
    rw [hother] at h
    cases hsize : queues[size]? with
    | none => simpa [hsize] using h
    | some batches =>
      simp only [hsize] at h
      split at h
      · exact (Std.ExtTreeMap.mem_erase.mp h).2
      · rcases Std.ExtTreeMap.mem_insert.mp h with he | h
        · rwa [Std.LawfulEqOrd.eq_of_compare he] at hfiled
        · exact h

theorem mem_prune {now : Millis} (h : peer ∈ (s.prune now).2.queues) : peer ∈ s.queues := by
  rw [Std.ExtTreeMap.mem_iff_isSome_getElem?] at h ⊢
  simp only [prune, Std.ExtTreeMap.getElem?_filterMap'] at h
  cases hq : s.queues[peer]? with
  | none => simp [hq] at h
  | some _ => rfl

theorem mem_of_mem_queue (h : batch ∈ s.queue peer size) : peer ∈ s.queues := by
  rw [Std.ExtTreeMap.mem_iff_isSome_getElem?]
  unfold queue queuesOf at h
  cases hq : s.queues[peer]? with
  | none => simp [hq] at h
  | some _ => rfl

theorem mem_of_mem_waiting (h : batch ∈ s.waiting peer) : peer ∈ s.queues := by
  obtain ⟨size, h⟩ := mem_waiting_iff.mp h
  exact mem_of_mem_queue h

/-! ### Nothing is kept empty -/

/-- No peer is filed without queues, and no queue is empty. -/
def Tidy (s : HeaderStore) : Prop :=
  ∀ (peer : PeerId) (queues : HeaderQueues),
    s.queues[peer]? = some queues → queues ≠ ∅ ∧ queues.Tidy

namespace Tidy

theorem queuesOf (tidy : s.Tidy) (peer : PeerId) : (s.queuesOf peer).Tidy := by
  unfold HeaderStore.queuesOf
  cases hq : s.queues[peer]? with
  | none => exact .empty
  | some queues => exact (tidy peer queues hq).2

theorem empty (expiry : Millis) : (HeaderStore.empty expiry).Tidy := by
  intro peer queues h
  simp [HeaderStore.empty] at h

theorem insert (tidy : s.Tidy) (peer : PeerId) {queues : HeaderQueues} (nonempty : queues ≠ ∅)
    (tidies : queues.Tidy) : Tidy { s with queues := s.queues.insert peer queues } := by
  intro other queues' h
  simp only [Std.ExtTreeMap.getElem?_insert] at h
  split at h
  · cases h
    exact ⟨nonempty, tidies⟩
  · exact tidy other queues' h

theorem erase (tidy : s.Tidy) (peer : PeerId) : Tidy { s with queues := s.queues.erase peer } := by
  intro other queues h
  simp only [Std.ExtTreeMap.getElem?_erase] at h
  split at h
  · cases h
  · exact tidy other queues h

theorem store (tidy : s.Tidy) (batch : HeaderBatch) : (s.store batch).Tidy := by
  unfold HeaderStore.store
  split
  · exact tidy
  · refine tidy.insert _ ?_ ((tidy.queuesOf _).insert _ (by simp))
    intro hnone
    have hmem : batch.size ∈ (∅ : HeaderQueues) := by
      rw [← hnone]
      exact Std.ExtTreeMap.mem_insert_self
    simp at hmem

theorem take (tidy : s.Tidy) (peer : PeerId) (size : Nat) : (s.take peer size).2.Tidy := by
  unfold HeaderStore.take
  cases hpeer : s.queues[peer]? with
  | none => exact tidy
  | some queues =>
    dsimp only
    cases queues[size]? with
    | none => exact tidy
    | some batches =>
      dsimp only
      split
      · exact tidy.erase peer
      · next hsome =>
        exact tidy.insert peer (by simpa using hsome) (.put (tidy peer queues hpeer).2 size _)

theorem prune (s : HeaderStore) (now : Millis) : (s.prune now).2.Tidy := by
  intro peer queues h
  simp only [HeaderStore.prune, Std.ExtTreeMap.getElem?_filterMap', Option.bind_eq_some_iff] at h
  obtain ⟨before, -, h⟩ := h
  split at h
  · cases h
  · next hsome =>
    cases h
    exact ⟨by simpa using hsome, .retain before _⟩

theorem mem_iff (tidy : s.Tidy) : peer ∈ s.queues ↔ ∃ size, s.queue peer size ≠ [] := by
  constructor
  · intro h
    rw [Std.ExtTreeMap.mem_iff_isSome_getElem?] at h
    obtain ⟨queues, hq⟩ := Option.isSome_iff_exists.mp h
    obtain ⟨hne, hfull⟩ := tidy peer queues hq
    rw [ne_eq, Std.ExtTreeMap.eq_empty_iff_forall_not_mem, Classical.not_forall] at hne
    obtain ⟨size, hsize⟩ := hne
    rw [Classical.not_not, Std.ExtTreeMap.mem_iff_isSome_getElem?] at hsize
    obtain ⟨batches, hb⟩ := Option.isSome_iff_exists.mp hsize
    refine ⟨size, ?_⟩
    rw [queue, HeaderStore.queuesOf, hq, Option.getD_some, hb, Option.getD_some]
    rintro rfl
    exact hfull size hb
  · rintro ⟨size, h⟩
    obtain ⟨batch, hbatch⟩ := List.exists_mem_of_ne_nil _ h
    exact mem_of_mem_queue hbatch

end Tidy

/-! ### A store without batches -/

theorem take_store (idle : s.queues = ∅) (nonempty : batch.headers ≠ []) :
    (s.store batch).take batch.peer batch.size = (some batch, s) := by
  have hqueues : (s.store batch).queues =
      Std.ExtTreeMap.insert ∅ batch.peer (Std.ExtTreeMap.insert ∅ batch.size [batch]) := by
    rw [store, if_neg (by simpa using nonempty)]
    simp [queue, queuesOf, idle]
  have hleft : HeaderQueues.put (Std.ExtTreeMap.insert ∅ batch.size [batch]) batch.size [] = ∅ := by
    apply Std.ExtTreeMap.ext_getElem?
    intro size
    simp only [HeaderQueues.put, List.isEmpty_nil, if_true, Std.ExtTreeMap.getElem?_erase,
      Std.ExtTreeMap.getElem?_insert]
    split <;> simp
  have hfiled : (Std.ExtTreeMap.insert ∅ batch.peer
      (Std.ExtTreeMap.insert ∅ batch.size [batch] : HeaderQueues)).erase batch.peer = s.queues := by
    apply Std.ExtTreeMap.ext_getElem?
    intro other
    simp only [Std.ExtTreeMap.getElem?_erase, Std.ExtTreeMap.getElem?_insert, idle]
    split <;> simp
  rw [take, hqueues]
  simp [hleft, hfiled, expiry_store]

/-- Where no batch waits none is dropped. -/
theorem prune_of_idle (idle : s.queues = ∅) (now : Millis) : (s.prune now).2 = s := by
  have hkept : (s.prune now).2.queues = s.queues := by
    apply Std.ExtTreeMap.ext_getElem?
    intro peer
    simp [prune, idle]
  exact congrArg (fun queues ↦ ({ s with queues } : HeaderStore)) hkept

/-! ### Batches that are left -/

/-- The batches of a peer that wait are its own. -/
def Own (s : HeaderStore) (peer : PeerId) : Prop := ∀ batch ∈ s.waiting peer, batch.peer = peer

namespace Own

/-- A peer without batches has no others. -/
theorem of_notMem (h : peer ∉ s.queues) : s.Own peer :=
  fun _ hbatch ↦ absurd (mem_of_mem_waiting hbatch) h

/-- What is left of each queue is left of all. -/
theorem of_subset {t : HeaderStore} (own : s.Own peer)
    (left : ∀ size, t.queue peer size ⊆ s.queue peer size) : t.Own peer := by
  intro b hb
  obtain ⟨size, hb⟩ := mem_waiting_iff.mp hb
  exact own b (mem_waiting_iff.mpr ⟨size, left size hb⟩)

theorem store (own : s.Own peer) (batch : HeaderBatch) : (s.store batch).Own peer := by
  by_cases hempty : batch.headers = []
  · rw [HeaderStore.store, if_pos (by simpa using hempty)]
    exact own
  · intro b hb
    obtain ⟨size, hb⟩ := mem_waiting_iff.mp hb
    rw [queue_store hempty] at hb
    split at hb
    · next he =>
      rcases List.mem_append.mp hb with hb | hb
      · exact own b (mem_waiting_iff.mpr ⟨size, hb⟩)
      · rw [List.mem_singleton.mp hb]
        exact he.1
    · exact own b (mem_waiting_iff.mpr ⟨size, hb⟩)

theorem take (own : s.Own peer) (other : PeerId) (size : Nat) : (s.take other size).2.Own peer := by
  apply own.of_subset
  intro count
  rw [queue_take]
  split
  · exact (List.tail_sublist _).subset
  · exact List.Subset.refl _

theorem prune (own : s.Own peer) (now : Millis) : (s.prune now).2.Own peer := by
  apply own.of_subset
  intro count
  rw [queue_prune]
  exact List.filter_sublist.subset

theorem removePeer (own : s.Own peer) (other : PeerId) : (s.removePeer other).2.Own peer := by
  apply own.of_subset
  intro count
  rw [queue_removePeer]
  split
  · exact List.nil_subset _
  · exact List.Subset.refl _

end Own

end HeaderStore
end ChainSync
