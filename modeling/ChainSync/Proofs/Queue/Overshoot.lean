import ChainSync.Proofs.Queue.History
import Mathlib.Data.Finset.Card

/-!
# How far the import queue overshoots

A full queue takes a batch only when it starts no further ahead of the local best block than the
slack. So while the local best block does not fall, the batches that start further ahead came when
there was room for them. Main statement: of these no more wait than the queue prefers, and of the
others no more than there are heights up to the horizon.
-/

namespace ChainSync

def BlockBatch.startsAbove (horizon : Nat) (b : BlockBatch) : Bool :=
  b.firstNumber?.any fun first ↦ horizon < first.toNat

/-- The local best block over which a call pushes a batch. -/
def QueueCall.localBest? : QueueCall → Option UInt64
  | push _ localBest _ => some localBest
  | pop => none

namespace ImportQueue

/-- The batches that wait, in order of their first numbers. -/
def waiting (q : ImportQueue) : List BlockBatch := q.batches.toList.map Prod.snd

def numbers (q : ImportQueue) : Finset UInt64 := q.batches.keys.toFinset

def numbersAbove (q : ImportQueue) (horizon : Nat) : Finset UInt64 :=
  q.numbers.filter fun n ↦ horizon < n.toNat

/-- The local best blocks over which batches were pushed, in order. -/
def localBests (calls : List QueueCall) : List UInt64 := calls.filterMap QueueCall.localBest?

/-- The local best block of the latest push; zero when there was none. -/
def latestBest (calls : List QueueCall) : UInt64 := (localBests calls).getLast?.getD 0

/-! ### The first numbers -/

section

variable {q : ImportQueue} {n m : UInt64} {batch : BlockBatch} {horizon : Nat}

@[simp] theorem mem_numbers : n ∈ q.numbers ↔ (q.batches[n]?).isSome := by
  rw [numbers, List.mem_toFinset, Std.ExtTreeMap.mem_keys, Std.ExtTreeMap.mem_iff_isSome_getElem?]

@[simp] theorem mem_numbersAbove :
    n ∈ q.numbersAbove horizon ↔ (q.batches[n]?).isSome ∧ horizon < n.toNat := by
  simp [numbersAbove]

theorem card_numbers (q : ImportQueue) : q.numbers.card = q.size := by
  rw [numbers, List.toFinset_card_of_nodup q.batches.nodup_keys, Std.ExtTreeMap.length_keys, size]

theorem card_numbersAbove_le_size : (q.numbersAbove horizon).card ≤ q.size := by
  rw [← card_numbers]
  exact Finset.card_filter_le ..

theorem card_numbersAbove_anti {lower : Nat} (h : lower ≤ horizon) :
    (q.numbersAbove horizon).card ≤ (q.numbersAbove lower).card := by
  apply Finset.card_le_card
  intro n hn
  rw [mem_numbersAbove] at hn ⊢
  exact ⟨hn.1, by omega⟩

theorem card_numbersAbove_without_le :
    ((q.without n).numbersAbove horizon).card ≤ (q.numbersAbove horizon).card := by
  apply Finset.card_le_card
  intro m hm
  rw [mem_numbersAbove, batches_without] at hm
  rw [mem_numbersAbove]
  split at hm
  · simp at hm
  · exact hm

/-- A batch that starts no further than a height adds no first number above it. -/
theorem card_numbersAbove_holding_le (near : n.toNat ≤ horizon) :
    ((q.holding n batch).numbersAbove horizon).card ≤ (q.numbersAbove horizon).card := by
  apply Finset.card_le_card
  intro m hm
  rw [mem_numbersAbove, batches_holding] at hm
  rw [mem_numbersAbove]
  split at hm
  · next he =>
    subst he
    omega
  · exact hm

/-- There are no more first numbers than those above a height and the heights up to it. -/
theorem size_le_card_numbersAbove (q : ImportQueue) (horizon : Nat) :
    q.size ≤ (q.numbersAbove horizon).card + (horizon + 1) := by
  have hlow : (q.numbers.filter fun n ↦ ¬ horizon < n.toNat).card ≤ horizon + 1 := by
    rw [← Finset.card_range (horizon + 1)]
    apply Finset.card_le_card_of_injOn UInt64.toNat
    · intro n hn
      have := (Finset.mem_filter.mp hn).2
      simp only [Finset.coe_range, Set.mem_Iio]
      omega
    · exact fun n _ m _ h ↦ UInt64.toNat_inj.mp h
  have hsplit := Finset.card_filter_add_card_filter_not
    (s := q.numbers) fun n ↦ horizon < n.toNat
  rw [card_numbers] at hsplit
  rw [numbersAbove]
  omega

/-- Where batches wait under their first numbers, those that start above a height are counted by
their first numbers. -/
theorem countP_waiting
    (named : ∀ {n : UInt64} {b : BlockBatch}, q.batches[n]? = some b → b.firstNumber? = some n)
    (horizon : Nat) :
    q.waiting.countP (BlockBatch.startsAbove horizon) = (q.numbersAbove horizon).card := by
  have habove : q.numbersAbove horizon =
      (q.batches.keys.filter fun n ↦ horizon < n.toNat).toFinset := by
    ext n
    simp [numbersAbove, numbers]
  have hkeys : (q.numbersAbove horizon).card =
      q.batches.keys.countP fun n ↦ horizon < n.toNat := by
    rw [habove, List.toFinset_card_of_nodup (q.batches.nodup_keys.filter _),
      List.countP_eq_length_filter]
  rw [hkeys, waiting, List.countP_map, ← Std.ExtTreeMap.map_fst_toList_eq_keys, List.countP_map]
  apply List.countP_congr
  rintro ⟨n, b⟩ hmem
  have := named (Std.ExtTreeMap.mem_toList_iff_getElem?_eq_some.mp hmem)
  simp [BlockBatch.startsAbove, this]

/-! ### Runs of calls -/

theorem leaves_frame (q : ImportQueue) (call : QueueCall) :
    (call.leaves q).preferredSize = q.preferredSize ∧ (call.leaves q).slack = q.slack := by
  cases call with
  | push batch localBest pending =>
    have hpushed := q.pushed_push pending batch localBest
    rw [QueueCall.leaves, Step.leaves]
    cases hrun : (push batch localBest).exec (q, pending) with
    | mk answer left =>
      rw [hrun] at hpushed
      cases hpushed <;> exact ⟨rfl, rfl⟩
  | pop =>
    have hpopped := q.popped_pop
    rw [QueueCall.leaves]
    cases hrun : q.pop with
    | mk answer left =>
      rw [hrun] at hpopped
      cases hpopped <;> exact ⟨rfl, rfl⟩

theorem afterCalls_frame (q : ImportQueue) (calls : List QueueCall) :
    (q.afterCalls calls).preferredSize = q.preferredSize ∧ (q.afterCalls calls).slack = q.slack :=
  List.foldlRecOn
    (motive := fun t : ImportQueue ↦ t.preferredSize = q.preferredSize ∧ t.slack = q.slack)
    calls _ ⟨rfl, rfl⟩ fun t ht call _ ↦
      ⟨(t.leaves_frame call).1.trans ht.1, (t.leaves_frame call).2.trans ht.2⟩

theorem card_numbersAbove_holding (wait : q.MayWait n m)
    (h : (q.numbersAbove (m.toNat + q.slack.toNat)).card ≤ q.preferredSize) :
    ((q.holding n batch).numbersAbove (m.toNat + q.slack.toNat)).card ≤ q.preferredSize := by
  rcases wait with hfree | hnear
  · have hsize : (q.holding n batch).size ≤ q.size + 1 := Std.ExtTreeMap.size_insert_le
    calc ((q.holding n batch).numbersAbove (m.toNat + q.slack.toNat)).card
        ≤ (q.holding n batch).size := card_numbersAbove_le_size
      _ ≤ q.size + 1 := hsize
      _ ≤ q.preferredSize := hfree
  · exact Nat.le_trans (card_numbersAbove_holding_le hnear) h

/-- A push leaves no more batches far ahead than the queue prefers, when there were no more. -/
theorem card_numbersAbove_push {pending : PendingStore} {localBest : UInt64}
    (h : (q.numbersAbove (localBest.toNat + q.slack.toNat)).card ≤ q.preferredSize) :
    (((QueueCall.push batch localBest pending).leaves q).numbersAbove
      (localBest.toNat + q.slack.toNat)).card ≤ q.preferredSize := by
  have hpushed := q.pushed_push pending batch localBest
  rw [QueueCall.leaves, Step.leaves]
  cases hrun : (push batch localBest).exec (q, pending) with
  | mk answer left =>
    rw [hrun] at hpushed
    cases hpushed with
    | empty _ | overflow _ _ _ | diverted _ _ _ | superseded _ _ _ _ => exact h
    | queued _ wait _ => exact card_numbersAbove_holding wait h
    | replaced _ wait _ _ => exact card_numbersAbove_holding wait h

theorem card_numbersAbove_pop :
    ((QueueCall.pop.leaves q).numbersAbove horizon).card ≤ (q.numbersAbove horizon).card := by
  have hpopped := q.popped_pop
  rw [QueueCall.leaves]
  cases hrun : q.pop with
  | mk answer left =>
    rw [hrun] at hpopped
    cases hpopped with
    | nothing _ => exact Nat.le_refl _
    | least _ _ => exact card_numbersAbove_without_le

end

section

variable {preferredSize : Nat} {slack : UInt64} {calls : List QueueCall}

/-- While the local best block does not fall, no more batches are far ahead than the queue prefers.
-/
theorem card_numbersAbove_afterCalls (rising : (localBests calls).Pairwise (· ≤ ·)) :
    (((new preferredSize slack).afterCalls calls).numbersAbove
      ((latestBest calls).toNat + slack.toNat)).card ≤ max preferredSize 1 := by
  induction calls using List.reverseRecOn with
  | nil =>
    have hempty : ((new preferredSize slack).afterCalls []).size = 0 := rfl
    exact (card_numbersAbove_le_size.trans_eq hempty).trans (Nat.zero_le _)
  | append_singleton calls call ih =>
    have hbests : localBests (calls ++ [call]) = localBests calls ++ call.localBest?.toList := by
      rw [localBests, List.filterMap_append]
      cases h : call.localBest? <;> simp [localBests, h]
    rw [hbests, List.pairwise_append] at rising
    have hbefore := ih rising.1
    obtain ⟨hsize, hslack⟩ : ((new preferredSize slack).afterCalls calls).preferredSize =
        max preferredSize 1 ∧ ((new preferredSize slack).afterCalls calls).slack = slack :=
      (new preferredSize slack).afterCalls_frame calls
    have hlast : (new preferredSize slack).afterCalls (calls ++ [call]) =
        call.leaves ((new preferredSize slack).afterCalls calls) := List.foldl_concat ..
    rw [hlast, latestBest, hbests]
    generalize (new preferredSize slack).afterCalls calls = q at hbefore hsize hslack ⊢
    cases call with
    | pop =>
      simp only [QueueCall.localBest?, Option.toList_none, List.append_nil]
      exact Nat.le_trans card_numbersAbove_pop hbefore
    | push batch localBest pending =>
      simp only [QueueCall.localBest?, Option.toList_some, List.getLast?_concat, Option.getD_some]
      -- The horizon rises with the local best block, so fewer of the batches before are above it.
      have hle : latestBest calls ≤ localBest := by
        rw [latestBest]
        cases hlatest : (localBests calls).getLast? with
        | none => exact UInt64.zero_le
        | some best =>
          exact rising.2.2 best (List.mem_of_getLast? hlatest) localBest
            (by simp [QueueCall.localBest?])
      have hle := UInt64.le_iff_toNat_le.mp hle
      have hanti := card_numbersAbove_anti (q := q) (Nat.add_le_add_right hle slack.toNat)
      rw [← hsize, ← hslack] at hbefore ⊢
      rw [← hslack] at hanti
      exact card_numbersAbove_push (Nat.le_trans hanti hbefore)

/-- While the local best block does not fall, at most as many batches as the queue prefers start
above the horizon of the latest push, so no more wait than these and the heights up to the horizon.
A push whose horizon fits in a word answers, and a batch that it hands to the pending store, which
may fail, starts above the horizon. -/
theorem overshoot_afterCalls (rising : (localBests calls).Pairwise (· ≤ ·)) :
    ((new preferredSize slack).afterCalls calls).waiting.countP
        (BlockBatch.startsAbove ((latestBest calls).toNat + slack.toNat)) ≤ max preferredSize 1 ∧
      ((new preferredSize slack).afterCalls calls).size ≤
        max preferredSize 1 + (latestBest calls).toNat + slack.toNat + 1 ∧
      ∀ (batch : BlockBatch) (localBest : UInt64) (pending : PendingStore),
        localBest.toNat + slack.toNat < UInt64.size →
        ∃ answer left, (push batch localBest).exec
            ((new preferredSize slack).afterCalls calls, pending) = (.ok answer, left) ∧
          ∀ stored : Except StoreError Nat, answer = stored.map .diverted →
            batch.startsAbove (localBest.toNat + slack.toNat) := by
  have hfar : (((new preferredSize slack).afterCalls calls).numbersAbove
      ((latestBest calls).toNat + slack.toNat)).card ≤ max preferredSize 1 :=
    card_numbersAbove_afterCalls rising
  have hframe := (new preferredSize slack).afterCalls_frame calls
  have hwaits := (waits_new preferredSize slack).afterCalls calls
  generalize (new preferredSize slack).afterCalls calls = q at hfar hframe hwaits ⊢
  refine ⟨?_, ?_, ?_⟩
  · rw [countP_waiting hwaits.named]
    exact hfar
  · have := q.size_le_card_numbersAbove ((latestBest calls).toNat + slack.toNat)
    omega
  · intro batch localBest pending room
    have hpushed := q.pushed_push pending batch localBest
    cases hrun : (push batch localBest).exec (q, pending) with
    | mk answer left =>
      rw [hrun] at hpushed
      have hslack : q.slack = slack := hframe.2
      cases hpushed with
      | overflow _ _ wide =>
        rw [hslack] at wide
        omega
      | diverted named _ far =>
        refine ⟨_, _, rfl, ?_⟩
        intro _ _
        rw [hslack] at far
        simp [BlockBatch.startsAbove, named, far]
      | empty _ | queued _ _ _ | replaced _ _ _ _ | superseded _ _ _ _ =>
        refine ⟨_, _, rfl, ?_⟩
        intro stored hstored
        cases stored <;> cases hstored

def singleBatch (number : UInt64) : BlockBatch :=
  ⟨.ofNat 1, "peer-1", [.make number .zero 1 0 [] .zero]⟩

/-- A queue for one batch takes one near the local best block besides, and diverts one far ahead. -/
def crowding : List QueueCall :=
  [.push (singleBatch 1) 0 .inMemory, .push (singleBatch 5) 0 .inMemory,
    .push (singleBatch 40) 3 .inMemory]

/-- Two batches wait in a queue for one; both start no more than ten heights ahead. -/
theorem overshoot_afterCalls_crowding :
    (localBests crowding).Pairwise (· ≤ ·) ∧
      ((new 1 10).afterCalls crowding).waiting.countP
        (BlockBatch.startsAbove ((latestBest crowding).toNat + (10 : UInt64).toNat)) ≤ max 1 1 ∧
      ((new 1 10).afterCalls crowding).size = 2 ∧
      2 ≤ max 1 1 + (latestBest crowding).toNat + (10 : UInt64).toNat + 1 := by
  have rising : (localBests crowding).Pairwise (· ≤ ·) := by decide
  obtain ⟨hfar, hsize, -⟩ :=
    @overshoot_afterCalls 1 10 crowding rising
  have htwo : ((new 1 10).afterCalls crowding).size = 2 := by decide +kernel
  rw [htwo] at hsize
  exact ⟨rising, hfar, htwo, hsize⟩

end

end ImportQueue
end ChainSync
