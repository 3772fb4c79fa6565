import ChainSync.Proofs.Delivery.Queue

/-!
# The import queue told from its past

A push lets its batch wait, or leaves the queue as it is; a pop takes the batch with the least first
number. What waits under a number is therefore told by the batches that came with that number since
one with it was last given: it is the earliest of the longest of them. Main statement: this holds
after every sequence of pushes and pops, whatever the pending store answered in between, and what a
push or a pop then answers is what it does.
-/

namespace ChainSync

/-- A call of an import queue. -/
inductive QueueCall where
  /-- A batch is pushed over a local best block and a pending store. -/
  | push (batch : BlockBatch) (localBest : UInt64) (pending : PendingStore)
  /-- The next batch is popped. -/
  | pop

/-- What a call did to the batches that wait. -/
inductive QueueNote where
  /-- A batch was taken: it waits, or another one that is as long does. -/
  | taken (batch : BlockBatch)
  /-- A batch was given. -/
  | given (batch : BlockBatch)

namespace QueueNote

/-- The batches with a first number that were taken since one with it was last given, after one more
note. -/
def carry (n : UInt64) : QueueNote → List BlockBatch → List BlockBatch
  | taken batch, batches => if batch.firstNumber? = some n then batches ++ [batch] else batches
  | given batch, batches => if batch.firstNumber? = some n then [] else batches

/-- The batches with a first number that were taken since one with it was last given, earliest
first. -/
def takenSince (n : UInt64) (notes : List QueueNote) : List BlockBatch :=
  notes.foldl (fun batches note ↦ note.carry n batches) []

end QueueNote

/-- The earliest of the longest batches of a list. -/
def EarliestLongest (b : BlockBatch) (batches : List BlockBatch) : Prop :=
  ∃ before after, batches = before ++ b :: after ∧ (∀ a ∈ before, a.size < b.size) ∧
    ∀ a ∈ after, a.size ≤ b.size

namespace ImportQueue

/-- A batch that starts here may wait: the queue is not full, or the batch is not far ahead. -/
def MayWait (q : ImportQueue) (first localBest : UInt64) : Prop :=
  q.size < q.preferredSize ∨ first.toNat ≤ localBest.toNat + q.slack.toNat

/-- How a push ends, and the queue and the pending store that it leaves. -/
inductive Pushed (q : ImportQueue) (pending : PendingStore) (batch : BlockBatch)
    (localBest : UInt64) :
    Except Fault (Except StoreError PushOutcome) → ImportQueue × PendingStore → Prop
  /-- The batch has no blocks. -/
  | empty (unnamed : batch.firstNumber? = none) :
    Pushed q pending batch localBest (.ok (.ok .empty)) (q, pending)
  /-- The queue is full, and there is no number as far ahead as the slack. -/
  | overflow {first : UInt64} (named : batch.firstNumber? = some first)
      (full : q.preferredSize ≤ q.size)
      (wide : UInt64.size ≤ localBest.toNat + q.slack.toNat) :
    Pushed q pending batch localBest (.error .additionOverflow) (q, pending)
  /-- The queue is full and the batch is far ahead: it goes to the pending store, which may fail. -/
  | diverted {first : UInt64} (named : batch.firstNumber? = some first)
      (full : q.preferredSize ≤ q.size) (far : localBest.toNat + q.slack.toNat < first.toNat) :
    Pushed q pending batch localBest (.ok ((pending.store batch.blocks).1.map .diverted))
      (q, (pending.store batch.blocks).2)
  /-- No batch with this first number waits: this one does now. -/
  | queued {first : UInt64} (named : batch.firstNumber? = some first)
      (mayWait : q.MayWait first localBest) (free : q.batches[first]? = none) :
    Pushed q pending batch localBest (.ok (.ok .queued)) (q.holding first batch, pending)
  /-- A shorter batch waits: this one takes its place. -/
  | replaced {first : UInt64} {other : BlockBatch} (named : batch.firstNumber? = some first)
      (mayWait : q.MayWait first localBest) (waits : q.batches[first]? = some other)
      (shorter : other.size < batch.size) :
    Pushed q pending batch localBest (.ok (.ok .replaced)) (q.holding first batch, pending)
  /-- A batch as long waits: it stays. -/
  | superseded {first : UInt64} {other : BlockBatch} (named : batch.firstNumber? = some first)
      (mayWait : q.MayWait first localBest) (waits : q.batches[first]? = some other)
      (covers : batch.size ≤ other.size) :
    Pushed q pending batch localBest (.ok (.ok .superseded)) (q, pending)

/-- What a pop answers, and the queue that it leaves. -/
inductive Popped (q : ImportQueue) : Option BlockBatch → ImportQueue → Prop
  /-- No batch waits. -/
  | nothing (free : ∀ n : UInt64, q.batches[n]? = none) : Popped q none q
  /-- The batch with the least first number is given, and the others stay. -/
  | least {n : UInt64} {batch : BlockBatch} (waits : q.batches[n]? = some batch)
      (least : ∀ (m : UInt64) (other : BlockBatch), q.batches[m]? = some other → n ≤ m) :
    Popped q (some batch) (q.without n)

end ImportQueue

def QueueCall.leaves : QueueCall → ImportQueue → ImportQueue
  | push batch localBest pending, q => ((ImportQueue.push batch localBest).leaves (q, pending)).1
  | pop, q => q.pop.2

/-- What is noted of a call. A batch that was diverted, that has no blocks, or whose push failed is
not taken. -/
def QueueCall.note? : QueueCall → ImportQueue → Option QueueNote
  | push batch localBest pending, q =>
    match ((ImportQueue.push batch localBest).exec (q, pending)).1 with
    | .ok (.ok .queued) | .ok (.ok .replaced) | .ok (.ok .superseded) => some (.taken batch)
    | _ => none
  | pop, q => q.pop.1.map .given

namespace ImportQueue

def afterCalls (q : ImportQueue) (calls : List QueueCall) : ImportQueue :=
  calls.foldl (fun q call ↦ call.leaves q) q

def notes : ImportQueue → List QueueCall → List QueueNote
  | _, [] => []
  | q, call :: calls => (call.note? q).toList ++ notes (call.leaves q) calls

/-- The queue is told by what was noted of its past. -/
structure Told (q : ImportQueue) (past : List QueueNote) : Prop where
  /-- Under a number waits the earliest of the longest batches taken since one was last given. -/
  waits_iff (n : UInt64) (b : BlockBatch) :
    q.batches[n]? = some b ↔ EarliestLongest b (QueueNote.takenSince n past)
  /-- A batch waits under a number exactly when one was taken since. -/
  isSome_iff (n : UInt64) : (q.batches[n]?).isSome ↔ QueueNote.takenSince n past ≠ []
  /-- What waits under a number starts at it. -/
  named {n : UInt64} {b : BlockBatch} : q.batches[n]? = some b → b.firstNumber? = some n
  /-- A pop gives the batch with the least first number and removes only it, and gives none only
  when none waits. -/
  pops : Popped q q.pop.1 q.pop.2
  /-- A push does what it answers. -/
  pushes (pending : PendingStore) (batch : BlockBatch) (localBest : UInt64) :
    Pushed q pending batch localBest ((push batch localBest).exec (q, pending)).1
      ((push batch localBest).exec (q, pending)).2

end ImportQueue

/-! ### The earliest of the longest -/

namespace EarliestLongest

variable {b a : BlockBatch} {batches : List BlockBatch}

theorem mem (h : EarliestLongest b batches) : b ∈ batches := by
  obtain ⟨before, after, rfl, -, -⟩ := h
  simp

theorem size_le (h : EarliestLongest b batches) (ha : a ∈ batches) : a.size ≤ b.size := by
  obtain ⟨before, after, rfl, hbefore, hafter⟩ := h
  simp only [List.mem_append, List.mem_cons] at ha
  rcases ha with ha | rfl | ha
  · exact Nat.le_of_lt (hbefore a ha)
  · exact Nat.le_refl _
  · exact hafter a ha

/-- One more batch is the earliest of the longest when it is longer than all before it. -/
theorem append_singleton_iff :
    EarliestLongest b (batches ++ [a]) ↔
      EarliestLongest b batches ∧ a.size ≤ b.size ∨ b = a ∧ ∀ x ∈ batches, x.size < a.size := by
  constructor
  · rintro ⟨before, after, hsplit, hbefore, hafter⟩
    rcases List.eq_nil_or_concat after with rfl | ⟨init, last, rfl⟩
    · obtain ⟨rfl, hlast⟩ := List.append_inj' hsplit rfl
      cases hlast
      exact .inr ⟨rfl, hbefore⟩
    · rw [List.concat_eq_append, ← List.cons_append, ← List.append_assoc] at hsplit
      obtain ⟨rfl, hlast⟩ := List.append_inj' hsplit rfl
      cases hlast
      exact .inl ⟨⟨before, init, rfl, hbefore, fun x hx ↦ hafter x (by simp [hx])⟩,
        hafter a (by simp)⟩
  · rintro (⟨⟨before, after, rfl, hbefore, hafter⟩, hle⟩ | ⟨rfl, hlt⟩)
    · refine ⟨before, after ++ [a], by simp, hbefore, ?_⟩
      intro x hx
      rcases List.mem_append.mp hx with hx | hx
      · exact hafter x hx
      · rw [List.mem_singleton.mp hx]
        exact hle
    · exact ⟨batches, [], rfl, hlt, by simp⟩

theorem unique (h : EarliestLongest b batches) (h' : EarliestLongest a batches) : b = a := by
  induction batches using List.reverseRecOn with
  | nil => cases h.mem
  | append_singleton init last ih =>
    rw [append_singleton_iff] at h h'
    rcases h with ⟨h, hle⟩ | ⟨rfl, hlt⟩ <;> rcases h' with ⟨h', hle'⟩ | ⟨rfl, hlt'⟩
    · exact ih h h'
    · exact absurd (hlt' b h.mem) (Nat.not_lt.mpr hle)
    · exact absurd (hlt a h'.mem) (Nat.not_lt.mpr hle')
    · rfl

theorem exists_of_ne_nil (h : batches ≠ []) : ∃ b, EarliestLongest b batches := by
  induction batches using List.reverseRecOn with
  | nil => exact absurd rfl h
  | append_singleton init last ih =>
    by_cases hinit : init = []
    · subst hinit
      exact ⟨last, append_singleton_iff.mpr (.inr ⟨rfl, by simp⟩)⟩
    · obtain ⟨b, hb⟩ := ih hinit
      by_cases hle : last.size ≤ b.size
      · exact ⟨b, append_singleton_iff.mpr (.inl ⟨hb, hle⟩)⟩
      · refine ⟨last, append_singleton_iff.mpr (.inr ⟨rfl, ?_⟩)⟩
        intro x hx
        have := hb.size_le hx
        omega

end EarliestLongest

namespace QueueNote

variable {n : UInt64} {notes : List QueueNote}

theorem takenSince_append_singleton (n : UInt64) (notes : List QueueNote) (note : QueueNote) :
    takenSince n (notes ++ [note]) = note.carry n (takenSince n notes) := by
  simp [takenSince]

/-- Batches taken with a first number have it. -/
theorem firstNumber?_of_mem_takenSince {b : BlockBatch} (h : b ∈ takenSince n notes) :
    b.firstNumber? = some n := by
  induction notes using List.reverseRecOn with
  | nil => cases h
  | append_singleton init note ih =>
    rw [takenSince_append_singleton] at h
    cases note with
    | taken batch =>
      rw [carry] at h
      split at h
      · next hbatch =>
        rcases List.mem_append.mp h with h | h
        · exact ih h
        · rw [List.mem_singleton.mp h]
          exact hbatch
      · exact ih h
    | given batch =>
      rw [carry] at h
      split at h
      · cases h
      · exact ih h

end QueueNote

/-! ### One call -/

namespace ImportQueue

variable {q : ImportQueue}

/-- Whether a batch is far ahead is asked of a full queue only. -/
theorem isFarAhead_cases (q : ImportQueue) (first localBest : UInt64) :
    q.isFarAhead first localBest = .ok false ∧ q.MayWait first localBest ∨
      q.preferredSize ≤ q.size ∧
        (q.isFarAhead first localBest = .ok true ∧
            localBest.toNat + q.slack.toNat < first.toNat ∨
          q.isFarAhead first localBest = .error .additionOverflow ∧
            UInt64.size ≤ localBest.toNat + q.slack.toNat) := by
  unfold isFarAhead
  split
  · next hfree => exact .inl ⟨rfl, .inl hfree⟩
  · next hfull =>
    cases hsum : checkedAdd localBest q.slack with
    | error e =>
      obtain ⟨hwide, rfl⟩ := checkedAdd_eq_error_iff.mp hsum
      exact .inr ⟨Nat.not_lt.mp hfull, .inr ⟨rfl, hwide⟩⟩
    | ok horizon =>
      have hhorizon := checkedAdd_eq_ok_iff.mp hsum
      by_cases hfar : horizon < first
      · have hlt := UInt64.lt_iff_toNat_lt.mp hfar
        rw [hhorizon] at hlt
        exact .inr ⟨Nat.not_lt.mp hfull, .inl ⟨by simp [Except.map, hfar], hlt⟩⟩
      · have hle := UInt64.le_iff_toNat_le.mp (UInt64.not_lt.mp hfar)
        rw [hhorizon] at hle
        exact .inl ⟨by simp [Except.map, hfar], .inr hle⟩

/-- Every push ends in one of the cases. -/
theorem pushed_push (q : ImportQueue) (pending : PendingStore) (batch : BlockBatch)
    (localBest : UInt64) :
    Pushed q pending batch localBest ((push batch localBest).exec (q, pending)).1
      ((push batch localBest).exec (q, pending)).2 := by
  unfold push
  simp only [Step.exec_bind, Step.exec_get]
  cases hnamed : batch.firstNumber? with
  | none => exact .empty hnamed
  | some first =>
    simp only [Step.exec_bind, Step.exec_lift]
    rcases q.isFarAhead_cases first localBest with
      ⟨hfar, hwait⟩ | ⟨hfull, ⟨hfar, hlt⟩ | ⟨hfar, hwide⟩⟩
    · simp only [hfar, Bool.false_eq_true, if_false, Step.exec_bind, Step.exec_set, Step.exec_pure]
      cases hwaits : q.batches[first]? with
      | none =>
        simp only [hold, hwaits]
        exact .queued hnamed hwait hwaits
      | some other =>
        simp only [hold, hwaits]
        split
        · next hle => exact .superseded hnamed hwait hwaits hle
        · next hgt => exact .replaced hnamed hwait hwaits (Nat.not_le.mp hgt)
    · simp only [hfar, if_true, Step.exec_bind, Step.exec_set, Step.exec_pure]
      exact .diverted hnamed hfull hlt
    · simp only [hfar]
      exact .overflow hnamed hfull hwide

/-- Every pop is one of the two. -/
theorem popped_pop (q : ImportQueue) : Popped q q.pop.1 q.pop.2 := by
  unfold pop
  cases h : q.batches.minEntry? with
  | none =>
    rw [minEntry?_eq_head?_toList, List.head?_eq_none_iff, Std.ExtTreeMap.toList_eq_nil_iff] at h
    exact .nothing (by simp [h])
  | some entry =>
    obtain ⟨n, batch⟩ := entry
    rw [minEntry?_eq_head?_toList] at h
    obtain ⟨rest, hlist⟩ := List.head?_eq_some_iff.mp h
    have hordered := q.batches.ordered_keys_toList
    rw [hlist, List.pairwise_cons] at hordered
    refine .least (Std.ExtTreeMap.mem_toList_iff_getElem?_eq_some.mp (List.mem_of_head? h)) ?_
    intro m other hother
    have hmem := Std.ExtTreeMap.mem_toList_iff_getElem?_eq_some.mpr hother
    rw [hlist, List.mem_cons] at hmem
    rcases hmem with heq | hmem
    · cases heq
      exact UInt64.le_refl n
    · exact UInt64.le_of_lt (Std.compare_eq_lt.mp (hordered.1 _ hmem))

/-! ### Runs of calls -/

/-- Under each number waits the earliest of the longest batches taken since one was last given. -/
def Waits (q : ImportQueue) (past : List QueueNote) : Prop :=
  ∀ (n : UInt64) (b : BlockBatch),
    q.batches[n]? = some b ↔ EarliestLongest b (QueueNote.takenSince n past)

namespace Waits

variable {past : List QueueNote} {first : UInt64} {batch other : BlockBatch}

/-- The batches under one number are those taken with it; the other numbers keep theirs. -/
theorem taken {next : ImportQueue} (h : q.Waits past) (named : batch.firstNumber? = some first)
    (kept : ∀ n : UInt64, first ≠ n → next.batches[n]? = q.batches[n]?)
    (here : ∀ b, next.batches[first]? = some b ↔
      EarliestLongest b (QueueNote.takenSince first past ++ [batch])) :
    next.Waits (past ++ [.taken batch]) := by
  intro n b
  rw [QueueNote.takenSince_append_singleton, QueueNote.carry, named]
  by_cases hn : first = n
  · subst hn
    rw [if_pos rfl]
    exact here b
  · rw [if_neg (fun he ↦ hn (Option.some.inj he)), kept n hn]
    exact h n b

/-- A batch that is longer than all before it waits now. -/
theorem holding (h : q.Waits past) (named : batch.firstNumber? = some first)
    (longest : ∀ x ∈ QueueNote.takenSince first past, x.size < batch.size) :
    (q.holding first batch).Waits (past ++ [.taken batch]) := by
  apply h.taken named
  · intro n hn
    rw [batches_holding, if_neg hn]
  · intro b
    rw [batches_holding, if_pos rfl, EarliestLongest.append_singleton_iff]
    constructor
    · intro hb
      cases hb
      exact .inr ⟨rfl, longest⟩
    · rintro (⟨hb, hle⟩ | ⟨rfl, -⟩)
      · exact absurd (longest b hb.mem) (Nat.not_lt.mpr hle)
      · rfl

/-- A batch that is no longer than the one that waits changes nothing. -/
theorem superseded (h : q.Waits past) (named : batch.firstNumber? = some first)
    (waits : q.batches[first]? = some other) (covers : batch.size ≤ other.size) :
    q.Waits (past ++ [.taken batch]) := by
  have hother := (h first other).mp waits
  apply h.taken named (fun n _ ↦ rfl)
  intro b
  rw [h first b, EarliestLongest.append_singleton_iff]
  constructor
  · intro hb
    rw [hb.unique hother]
    exact .inl ⟨hother, covers⟩
  · rintro (⟨hb, -⟩ | ⟨rfl, hlt⟩)
    · exact hb
    · exact absurd (hlt other hother.mem) (Nat.not_lt.mpr covers)

/-- What waits under a number starts at it. -/
theorem named (h : q.Waits past) (waits : q.batches[first]? = some batch) :
    batch.firstNumber? = some first :=
  QueueNote.firstNumber?_of_mem_takenSince ((h first batch).mp waits).mem

/-- After a batch was given none waits under its number. -/
theorem without (h : q.Waits past) (waits : q.batches[first]? = some batch) :
    (q.without first).Waits (past ++ [.given batch]) := by
  intro n b
  rw [batches_without, QueueNote.takenSince_append_singleton, QueueNote.carry, h.named waits]
  by_cases hn : first = n
  · subst hn
    rw [if_pos rfl, if_pos rfl]
    constructor
    · intro hb
      cases hb
    · intro hb
      cases hb.mem
  · rw [if_neg hn, if_neg (fun he ↦ hn (Option.some.inj he))]
    exact h n b

theorem leaves (h : q.Waits past) (call : QueueCall) :
    (call.leaves q).Waits (past ++ (call.note? q).toList) := by
  cases call with
  | push batch localBest pending =>
    have hpushed := q.pushed_push pending batch localBest
    rw [QueueCall.leaves, QueueCall.note?, Step.leaves]
    cases hrun : (push batch localBest).exec (q, pending) with
    | mk answer left =>
      rw [hrun] at hpushed
      cases hpushed with
      | empty _ => simpa using h
      | overflow _ _ _ => simpa using h
      | diverted _ _ _ =>
        cases (pending.store batch.blocks).1 with
        | error _ => simpa [Except.map] using h
        | ok _ => simpa [Except.map] using h
      | @queued first named _ free =>
        apply h.holding named
        intro x hx
        obtain ⟨b, hb⟩ := EarliestLongest.exists_of_ne_nil (List.ne_nil_of_mem hx)
        rw [(h first b).mpr hb] at free
        cases free
      | replaced named _ waits shorter =>
        apply h.holding named
        intro x hx
        exact Nat.lt_of_le_of_lt (((h _ _).mp waits).size_le hx) shorter
      | superseded named _ waits covers => exact h.superseded named waits covers
  | pop =>
    have hpopped := q.popped_pop
    rw [QueueCall.leaves, QueueCall.note?]
    cases hrun : q.pop with
    | mk answer left =>
      rw [hrun] at hpopped
      cases hpopped with
      | nothing _ => simpa using h
      | least waits _ => exact h.without waits

theorem afterCalls (h : q.Waits past) (calls : List QueueCall) :
    (q.afterCalls calls).Waits (past ++ q.notes calls) := by
  induction calls generalizing q past with
  | nil => simpa [ImportQueue.afterCalls, notes] using h
  | cons call calls ih =>
    have := ih (h.leaves call)
    rwa [List.append_assoc] at this

/-- A queue whose past tells what waits is told by it in all other respects. -/
theorem told (h : q.Waits past) : q.Told past where
  waits_iff := h
  isSome_iff n := by
    rw [Option.isSome_iff_exists]
    constructor
    · rintro ⟨b, hb⟩
      exact List.ne_nil_of_mem ((h n b).mp hb).mem
    · intro hne
      obtain ⟨b, hb⟩ := EarliestLongest.exists_of_ne_nil hne
      exact ⟨b, (h n b).mpr hb⟩
  named := h.named
  pops := q.popped_pop
  pushes := q.pushed_push

end Waits

/-- In an empty queue nothing waits, and nothing was taken. -/
theorem waits_new (preferredSize : Nat) (slack : UInt64) : (new preferredSize slack).Waits [] := by
  intro n b
  constructor
  · intro hb
    simp [new] at hb
  · intro hb
    cases hb.mem

/-- Through every sequence of pushes and pops, over whatever local best blocks and pending stores,
the earliest of the longest batches taken with a first number since one was last given waits under
it. Batches that were diverted, had no blocks or failed do not count. -/
theorem told_afterCalls (preferredSize : Nat) (slack : UInt64) (calls : List QueueCall) :
    ((new preferredSize slack).afterCalls calls).Told ((new preferredSize slack).notes calls) :=
  ((waits_new preferredSize slack).afterCalls calls).told

end ImportQueue
end ChainSync
