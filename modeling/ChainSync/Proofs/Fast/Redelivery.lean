import ChainSync.Proofs.Fast.Importer
import ChainSync.Proofs.RecentSet

/-!
# Batches that are delivered again

A batch of blocks waits for the walk down from the pivot, unless the hash of its top block is among
those noted. The hash is noted when a batch is delivered and stays noted when the batch is gone:
taken for a walk that stored nothing, or pushed out by later ones. Main statement: a batch with a
missing block on top waits exactly when the hash of that block is not among the ones noted last.
-/

namespace ChainSync
namespace FastSync

/-! ### The top block -/

theorem topBlock_append_singleton (blocks : List Block) (b : Block) :
    topBlock (blocks ++ [b]) = match topBlock blocks with
      | some held => if held.number ≤ b.number then some b else some held
      | none => some b := by
  rw [topBlock, List.foldl_append]
  rfl

theorem mem_of_topBlock {blocks : List Block} {top : Block} (h : topBlock blocks = some top) :
    top ∈ blocks := by
  induction blocks using List.reverseRecOn with
  | nil => cases h
  | append_singleton rest b ih =>
    rw [topBlock_append_singleton] at h
    rw [List.mem_append, List.mem_singleton]
    cases hrest : topBlock rest with
    | none =>
      rw [hrest] at h
      cases h
      exact .inr rfl
    | some held =>
      rw [hrest] at h ih
      dsimp only at h
      split at h
      · cases h
        exact .inr rfl
      · exact .inl (ih h)

/-- A block above all others is the top block. -/
theorem topBlock_eq {blocks : List Block} {r : Block} (hmem : r ∈ blocks)
    (highest : ∀ b ∈ blocks, b ≠ r → b.number < r.number) : topBlock blocks = some r := by
  induction blocks using List.reverseRecOn with
  | nil => cases hmem
  | append_singleton rest b ih =>
    have hbelow : ∀ b ∈ rest, b ≠ r → b.number < r.number :=
      fun b hb ↦ highest b (List.mem_append_left _ hb)
    rw [topBlock_append_singleton]
    by_cases hb : b = r
    · subst hb
      cases hrest : topBlock rest with
      | none => rfl
      | some held =>
        have hle : held.number ≤ b.number := by
          by_cases hsame : held = b
          · rw [hsame]
            exact UInt64.le_refl _
          · exact UInt64.le_of_lt (hbelow held (mem_of_topBlock hrest) hsame)
        dsimp only
        rw [if_pos hle]
    · have hrest : r ∈ rest := by
        rcases List.mem_append.mp hmem with h | h
        · exact h
        · exact absurd (List.mem_singleton.mp h).symm hb
      rw [ih hrest hbelow]
      dsimp only
      rw [if_neg (UInt64.not_le.mpr (highest b (by simp) hb))]

/-! ### Delivery -/

def unimported (f : FastSync) (batch : BlockBatch) : List Block :=
  batch.blocks.filter fun block ↦ !f.importedBlocks.contains block.hash

def noted? (f : FastSync) (batch : BlockBatch) : Option Digest :=
  (topBlock (f.unimported batch)).map Block.hash

/-- The state in which the new blocks of a batch wait behind the other batches, the earliest of
which gives way when there are too many. -/
def withBatch (f : FastSync) (batch : BlockBatch) (top : Block) : FastSync :=
  { f with
    receivedBlocks := f.receivedBlocks.insert top.hash
    buffer := (if f.buffer.length < bufferLimit then f.buffer else f.buffer.drop 1) ++
      [{ batch with blocks := f.unimported batch }]
    signal := f.signal.raise }

/-- A batch is dropped if the hash of its top block is noted, and waits otherwise. -/
theorem bufferBlocks_eq {f : FastSync} {batch : BlockBatch} {top : Block}
    (htop : topBlock (f.unimported batch) = some top) :
    f.bufferBlocks batch =
      if f.receivedBlocks.contains top.hash then f else f.withBatch batch top := by
  rw [withBatch]
  unfold unimported at *
  simp only [bufferBlocks, htop, RecentSet.checkInsert, Bool.not_not]

theorem bufferBlocks_of_none {f : FastSync} {batch : BlockBatch}
    (htop : topBlock (f.unimported batch) = none) : f.bufferBlocks batch = f := by
  unfold unimported at htop
  simp only [bufferBlocks, htop]

/-- The hash of a delivered batch is noted, and nothing is noted as imported. -/
theorem notes_bufferBlocks (f : FastSync) (batch : BlockBatch) :
    (f.bufferBlocks batch).receivedBlocks = f.receivedBlocks.insertAll (f.noted? batch).toList ∧
      (f.bufferBlocks batch).importedBlocks = f.importedBlocks := by
  unfold noted?
  cases htop : topBlock (f.unimported batch) with
  | none =>
    rw [bufferBlocks_of_none htop]
    exact ⟨rfl, rfl⟩
  | some top =>
    rw [bufferBlocks_eq htop]
    by_cases hseen : f.receivedBlocks.contains top.hash
    · rw [if_pos hseen]
      refine ⟨?_, rfl⟩
      change f.receivedBlocks = f.receivedBlocks.insert top.hash
      rw [RecentSet.insert, if_pos hseen]
    · rw [if_neg hseen]
      exact ⟨rfl, rfl⟩

/-- The earliest batch that holds the hash is taken. -/
theorem takeContaining_of_find? {f : FastSync} {hash : Digest} {batch : BlockBatch}
    (h : f.buffer.find? (holds hash) = some batch) :
    f.takeContaining hash =
      some ({ batch with blocks := batch.blocks.mergeSort fun a b ↦ b.number ≤ a.number },
        { f with buffer := f.buffer.eraseP (holds hash) }) := by
  simp only [takeContaining, h]

/-- No batch is taken when none holds the hash. -/
theorem takeContaining_eq_none {f : FastSync} {hash : Digest}
    (absent : ∀ waiting ∈ f.buffer, holds hash waiting = false) :
    f.takeContaining hash = none := by
  have h : f.buffer.find? (holds hash) = none := by
    rw [List.find?_eq_none]
    intro waiting hwaiting
    rw [absent waiting hwaiting]
    exact Bool.false_ne_true
  simp only [takeContaining, h]

/-- The batch that was added is found under the hash of its top block, if no other one holds it. -/
theorem find?_withBatch {f : FastSync} {batch : BlockBatch} {top : Block}
    (htop : topBlock (f.unimported batch) = some top)
    (absent : ∀ waiting ∈ f.buffer, holds top.hash waiting = false) :
    (f.withBatch batch top).buffer.find? (holds top.hash) =
      some { batch with blocks := f.unimported batch } := by
  have hothers : (if f.buffer.length < bufferLimit then f.buffer
      else f.buffer.drop 1).find? (holds top.hash) = none := by
    rw [List.find?_eq_none]
    intro waiting hwaiting
    rw [absent waiting]
    · exact Bool.false_ne_true
    · split at hwaiting
      · exact hwaiting
      · exact List.mem_of_mem_drop hwaiting
  have hholds : holds top.hash { batch with blocks := f.unimported batch } = true := by
    simp only [holds, List.any_eq_true, decide_eq_true_eq]
    exact ⟨top, mem_of_topBlock htop, rfl⟩
  rw [withBatch, List.find?_append, hothers, Option.none_or, List.find?_cons, hholds]

/-- A delivered batch with a block on top is found under the hash of that block if the hash was not
noted, and no batch is if it was, given that none was before. -/
theorem takeContaining_bufferBlocks {f : FastSync} {batch : BlockBatch} {r : Block}
    (htop : topBlock (f.unimported batch) = some r)
    (absent : ∀ waiting ∈ f.buffer, holds r.hash waiting = false) :
    (r.hash ∉ f.receivedBlocks.keys → ∃ taken g,
        (f.bufferBlocks batch).takeContaining r.hash = some (taken, g) ∧ r ∈ taken.blocks) ∧
      (r.hash ∈ f.receivedBlocks.keys → (f.bufferBlocks batch).takeContaining r.hash = none) := by
  rw [bufferBlocks_eq htop, ← RecentSet.contains_iff]
  constructor
  · intro hnew
    rw [if_neg hnew]
    exact ⟨_, _, takeContaining_of_find? (find?_withBatch htop absent),
      List.mem_mergeSort.mpr (mem_of_topBlock htop)⟩
  · intro hseen
    rw [if_pos hseen]
    exact takeContaining_eq_none absent

end FastSync

namespace Seat

/-! ### Runs -/

/-- Blocks are only added to the chain, and no hash is noted. -/
structure KeepsNotes (s t : Seat) : Prop where
  /-- The hashes noted with deliveries stay. -/
  received : t.engine.fast.receivedBlocks = s.engine.fast.receivedBlocks
  /-- The hashes of imported blocks stay. -/
  imported : t.engine.fast.importedBlocks = s.engine.fast.importedBlocks
  /-- No block is lost. -/
  within : s.node.chain.Within t.node.chain

/-- A part of a turn that is no walk notes no hash. -/
theorem Steady.keepsNotes {named : Digest → Prop} {s t : Seat} (h : Steady named s t) :
    KeepsNotes s t :=
  ⟨h.received, h.imported, h.within⟩

/-- The seats reached from one by deliveries of batches, walks and whatever else happens, with the
hashes that were noted with the deliveries, earliest first. -/
inductive Fetches (start : Seat) : List Digest → Seat → Prop
  /-- Nothing happened yet. -/
  | start : Fetches start [] start
  /-- A batch is delivered. -/
  | deliver {noted : List Digest} {s : Seat} (run : Fetches start noted s) (batch : BlockBatch) :
    Fetches start (noted ++ (s.engine.fast.noted? batch).toList)
      ((onFast fun f ↦ f.bufferBlocks batch).leaves s)
  /-- A batch is walked down. -/
  | walk {noted : List Digest} {s : Seat} (run : Fetches start noted s) (target : BlockId)
    (batch : BlockBatch) : Fetches start noted ((walkPivotChain target batch).leaves s)
  /-- Something else happens. -/
  | other {noted : List Digest} {s t : Seat} (run : Fetches start noted s)
    (keeps : KeepsNotes s t) : Fetches start noted t

section

variable {start s : Seat} {noted : List Digest}

/-- A part of a turn that is no walk leads from reached seats to reached ones. -/
theorem keeps_fetches {α : Type} {step : Step Seat α}
    (h : ∀ s, Steady (fun _ ↦ True) s (step.leaves s)) : Step.Keeps (Fetches start noted) step :=
  fun s run ↦ run.other (h s).keepsNotes

/-- A turn of the importer leads from a reached seat to a reached one. -/
theorem Fetches.turnPivotBlocks (run : Fetches start noted s) (t : Turn) (p : PivotProgress) :
    Fetches start noted ((turnPivotBlocks t p).leaves s) := by
  have hturn : Step.Keeps (Fetches start noted) (Seat.turnPivotBlocks t p) := by
    apply keeps_turnPivotBlocks
    · exact keeps_fetches steady_isBlockDataComplete
    · exact fun hash ↦ keeps_fetches (steady_takeContaining hash)
    · exact fun target batch _ run ↦ run.walk target batch
    · exact fun target ↦ keeps_fetches (steady_requestPivotBlocks target trivial)
    · exact keeps_fetches steady_requestWantedReceipts
    · exact fun task ↦ keeps_fetches (steady_settle task)
  exact hturn run

end

/-! ### The hashes noted -/

/-- These hashes are noted with deliveries, and imported blocks are stored. -/
structure Recalls (received : RecentSet Digest) (s : Seat) : Prop where
  /-- The hashes noted with deliveries. -/
  received : s.engine.fast.receivedBlocks = received
  /-- A block that was imported is stored. -/
  stored {h : Digest} : h ∈ s.engine.fast.importedBlocks.keys → (s.node.chain.block? h).isSome

/-- A stored block is stored in a chain that lost none. -/
theorem isSome_of_within {c d : Chain} (hwithin : c.Within d) {h : Digest}
    (stored : (c.block? h).isSome) : (d.block? h).isSome := by
  obtain ⟨b, hb⟩ := Option.isSome_iff_exists.mp stored
  rw [hwithin hb]
  rfl

theorem Recalls.keepsNotes {received : RecentSet Digest} {s t : Seat} (h : Recalls received s)
    (keeps : KeepsNotes s t) : Recalls received t where
  received := keeps.received.trans h.received
  stored hk := isSome_of_within keeps.within (h.stored (keeps.imported ▸ hk))

theorem keeps_recalls_walkBlocks {received : RecentSet Digest} (blocks : List Block)
    (w : PivotWalk) : Step.Keeps (Recalls received) (walkBlocks blocks w) := by
  apply keeps_walkBlocks
  · intro s block answer c h hattempt
    exact h.keepsNotes ⟨rfl, rfl, hattempt.stores.within⟩
  · intro s block h new
    refine ⟨h.received, ?_⟩
    intro k hk
    change ((s.node.chain.withLoose block).block? k).isSome
    rw [Chain.block?_withLoose]
    split
    · rfl
    · next hne =>
      rcases RecentSet.mem_of_mem_insertAll [block.hash] hk with hold | hnew
      · exact h.stored hold
      · exact absurd (List.mem_singleton.mp hnew).symm hne
  · intro s e h
    refine h.keepsNotes ⟨rfl, rfl, ?_⟩
    rw [chain_reportChainError]
    exact .refl _

theorem keeps_recalls_walkPivotChain {received : RecentSet Digest} (target : BlockId)
    (batch : BlockBatch) : Step.Keeps (Recalls received) (walkPivotChain target batch) := by
  apply keeps_walkPivotChain
  · exact keeps_recalls_walkBlocks _
  · exact fun _ _ h ↦ ⟨h.received, h.stored⟩
  · exact fun _ _ h ↦ ⟨h.received, h.stored⟩

section

variable {start s : Seat} {noted : List Digest}

/-- In a reached seat the hashes of all deliveries were noted, and imported blocks are stored. -/
theorem Fetches.recalls (run : Fetches start noted s)
    (himported : start.engine.fast.importedBlocks.keys = []) :
    Recalls (start.engine.fast.receivedBlocks.insertAll noted) s := by
  induction run with
  | start =>
    refine ⟨rfl, ?_⟩
    intro h hk
    rw [himported] at hk
    cases hk
  | @deliver noted s run batch ih =>
    obtain ⟨hreceived, himported⟩ := s.engine.fast.notes_bufferBlocks batch
    constructor
    · change (s.engine.fast.bufferBlocks batch).receivedBlocks = _
      rw [hreceived, ih.received, RecentSet.insertAll, RecentSet.insertAll, RecentSet.insertAll,
        List.foldl_append]
    · intro h hk
      change h ∈ (s.engine.fast.bufferBlocks batch).importedBlocks.keys at hk
      rw [himported] at hk
      exact ih.stored hk
  | walk run target batch ih => exact keeps_recalls_walkPivotChain target batch ih
  | other run keeps ih => exact ih.keepsNotes keeps

/-- From a fresh state batches were delivered and walked down, whatever else happened. A batch comes
whose greatest number is that of a block which is not stored and in no batch that waits. The batch
then waits exactly when the hash of the block is not among the hashes noted last: always when the
hash was not noted with any delivery, and never when it was and there was room for all of them. -/
theorem exists_takeContaining_iff (run : Fetches start noted s) {enabled : Bool} {cacheSize : Nat}
    (fresh : start.engine.fast = .new enabled cacheSize) {r : Block} {batch : BlockBatch}
    (unstored : s.node.chain.block? r.hash = none)
    (absent : ∀ waiting ∈ s.engine.fast.buffer, FastSync.holds r.hash waiting = false)
    (hmem : r ∈ batch.blocks) (highest : ∀ b ∈ batch.blocks, b ≠ r → b.number < r.number) :
    ((∃ taken rest, (s.engine.fast.bufferBlocks batch).takeContaining r.hash = some (taken, rest) ∧
          r ∈ taken.blocks) ↔
        r.hash ∉ ((RecentSet.empty cacheSize).insertAll noted).keys) ∧
      (r.hash ∉ noted → ∃ taken rest,
        (s.engine.fast.bufferBlocks batch).takeContaining r.hash = some (taken, rest) ∧
          r ∈ taken.blocks) ∧
      (r.hash ∈ noted → noted.toFinset.card ≤ max cacheSize 1 →
        (s.engine.fast.bufferBlocks batch).takeContaining r.hash = none) := by
  have hrecalls := run.recalls (by rw [fresh]; rfl)
  rw [fresh] at hrecalls
  have hreceived : s.engine.fast.receivedBlocks = (RecentSet.empty cacheSize).insertAll noted :=
    hrecalls.received
  have hnew : r ∈ s.engine.fast.unimported batch := by
    rw [FastSync.unimported, List.mem_filter, Bool.not_eq_true']
    refine ⟨hmem, ?_⟩
    by_contra himported
    have hstored := hrecalls.stored (RecentSet.contains_iff.mp (by simpa using himported))
    rw [unstored] at hstored
    cases hstored
  have htop : FastSync.topBlock (s.engine.fast.unimported batch) = some r :=
    FastSync.topBlock_eq hnew fun b hb ↦ highest b (List.mem_filter.mp hb).1
  obtain ⟨htaken, hdropped⟩ := FastSync.takeContaining_bufferBlocks htop absent
  rw [hreceived] at htaken hdropped
  refine ⟨⟨?_, htaken⟩, ?_, ?_⟩
  · rintro ⟨taken, rest, hsome, -⟩ hseen
    rw [hdropped hseen] at hsome
    cases hsome
  · intro hunnoted
    apply htaken
    intro hseen
    rcases RecentSet.mem_of_mem_insertAll noted hseen with h | h
    · cases h
    · exact hunnoted h
  · intro hnoted room
    apply hdropped
    have hempty : (RecentSet.empty cacheSize).Holds ([] : List Digest) := RecentSet.holds_nil rfl
    have hall : ((RecentSet.empty cacheSize).insertAll noted).Holds ([] ++ noted) :=
      hempty.insertAll room
    exact hall.mem_iff.mpr hnoted

end

/-! ### A walk that failed -/

open Chain (sprout)

def fetching (c : Chain) : Seat := fresh c Header.isAcceptable { fastSync := true } .opened .empty

def sproutBatch : BlockBatch := ⟨.ofNat 1, "peer-1", [sprout 0]⟩

/-- The seat whose pivot is that block. -/
def pursuing (c : Chain) : Seat := (choosePivot (sprout 0)).leaves (fetching c)

/-- The seat to which the batch was delivered, and whose chain fails once from here on. -/
def troubled (c : Chain) : Seat :=
  let s := (onFast fun f ↦ f.bufferBlocks sproutBatch).leaves (pursuing c)
  s.withChain { s.node.chain with nextFailure := some (.storage "busy") }

/-- The seat after the importer had a turn and met the failure. -/
def thwarted (c : Chain) : Seat := (turnPivotBlocks ⟨0, 0, 0, false⟩ .start).leaves (troubled c)

/-- Choosing a pivot notes no hash. -/
theorem keepsNotes_choosePivot (block : Block) (s : Seat) :
    KeepsNotes s ((choosePivot block).leaves s) := by
  have hforget : s.engine.fast.forgetPivot.receivedBlocks = s.engine.fast.receivedBlocks ∧
      s.engine.fast.forgetPivot.importedBlocks = s.engine.fast.importedBlocks := by
    unfold FastSync.forgetPivot
    cases s.engine.fast.pivot <;> exact ⟨rfl, rfl⟩
  have hupdate : (s.engine.fast.updatePivot block).2.receivedBlocks =
        s.engine.fast.receivedBlocks ∧
      (s.engine.fast.updatePivot block).2.importedBlocks = s.engine.fast.importedBlocks := by
    unfold FastSync.updatePivot
    split
    · exact ⟨rfl, rfl⟩
    · dsimp only
      split <;> exact hforget
  exact ⟨hupdate.1, hupdate.2, .refl _⟩

theorem fetches_pursuing (c : Chain) : Fetches (fetching c) [] (pursuing c) :=
  .other .start (keepsNotes_choosePivot _ _)

/-- The hash of the block was noted. -/
theorem fetches_thwarted (c : Chain) :
    Fetches (fetching c) [(sprout 0).hash] (thwarted c) := by
  have hnoted : (pursuing c).engine.fast.noted? sproutBatch = some (sprout 0).hash := by
    have himported : (pursuing c).engine.fast.importedBlocks.keys = [] := by
      rw [pursuing, (keepsNotes_choosePivot _ _).imported]
      rfl
    simp [FastSync.noted?, FastSync.unimported, sproutBatch, RecentSet.contains, himported,
      FastSync.topBlock]
  have hdelivered := (fetches_pursuing c).deliver sproutBatch
  rw [hnoted] at hdelivered
  have htroubled : Fetches (fetching c) [(sprout 0).hash] (troubled c) :=
    hdelivered.other ⟨rfl, rfl, fun _ _ h ↦ h⟩
  exact htroubled.turnPivotBlocks _ _

/-- What the seats are over the chain of the first block of every chain. -/
theorem exists_thwarted : ∃ c, Chain.new .genesis = .ok c ∧
    ((pursuing c).node.chain.block? (sprout 0).hash = none ∧
      (pursuing c).engine.fast.buffer = []) ∧
    ((thwarted c).node.chain.block? (sprout 0).hash = none ∧
      (thwarted c).engine.fast.buffer = []) ∧
    (thwarted c).engine.fast.pivot = some (sprout 0) ∧
    (thwarted c).engine.fast.blocksComplete = false ∧
    (thwarted c).node.chain.nextFailure = none ∧
    (thwarted c).engine.fast.receivedBlocks.contains (sprout 0).hash = true ∧
    (thwarted c).engine.fast.importedBlocks.keys = [] := by
  obtain ⟨c, hnew, hrun⟩ := exists_genesis_of_any (fun c ↦
    decide (((pursuing c).node.chain.block? (sprout 0).hash = none ∧
        (pursuing c).engine.fast.buffer = []) ∧
      ((thwarted c).node.chain.block? (sprout 0).hash = none ∧
        (thwarted c).engine.fast.buffer = []) ∧
      (thwarted c).engine.fast.pivot = some (sprout 0) ∧
      (thwarted c).engine.fast.blocksComplete = false ∧
      (thwarted c).node.chain.nextFailure = none ∧
      (thwarted c).engine.fast.receivedBlocks.contains (sprout 0).hash = true ∧
      (thwarted c).engine.fast.importedBlocks.keys = [])) (by decide +kernel)
  exact ⟨c, hnew, of_decide_eq_true hrun⟩

/-- The batch waits when it comes first, and is dropped when it comes again after the failure. -/
theorem exists_takeContaining_iff_sprout : ∃ c, Chain.new .genesis = .ok c ∧
    (∃ taken rest, ((pursuing c).engine.fast.bufferBlocks sproutBatch).takeContaining
      (sprout 0).hash = some (taken, rest) ∧ sprout 0 ∈ taken.blocks) ∧
    ((thwarted c).engine.fast.bufferBlocks sproutBatch).takeContaining (sprout 0).hash = none := by
  obtain ⟨c, hnew, ⟨hunstored, hbuffer⟩, ⟨hunstored', hbuffer'⟩, -⟩ := exists_thwarted
  have hmem : sprout 0 ∈ sproutBatch.blocks := List.mem_singleton_self _
  have highest : ∀ b ∈ sproutBatch.blocks, b ≠ sprout 0 → b.number < (sprout 0).number :=
    fun b hb hne ↦ absurd (List.mem_singleton.mp hb) hne
  have hfirst := exists_takeContaining_iff (fetches_pursuing c) rfl hunstored
    (by rw [hbuffer]; exact List.forall_mem_nil _) hmem highest
  have hagain := exists_takeContaining_iff (fetches_thwarted c) rfl hunstored'
    (by rw [hbuffer']; exact List.forall_mem_nil _) hmem highest
  refine ⟨c, hnew, hfirst.2.1 List.not_mem_nil, hagain.2.2 (List.mem_singleton_self _) ?_⟩
  exact le_max_right _ _

/-- A sealed block is the pivot, block data is not complete, the block is not stored and no batch
waits; the chain is well again, and yet the batch of the block is dropped when it comes again. -/
theorem exists_dropped_of_failed_walk : ∃ c, Chain.new .genesis = .ok c ∧
    Fetches (fetching c) [(sprout 0).hash] (thwarted c) ∧
    (thwarted c).engine.fast.pivot = some (sprout 0) ∧
    (thwarted c).engine.fast.blocksComplete = false ∧
    (thwarted c).node.chain.nextFailure = none ∧ (sprout 0).header.isSealed = true ∧
    (thwarted c).node.chain.block? (sprout 0).hash = none ∧
    (thwarted c).engine.fast.buffer = [] ∧
    ((thwarted c).engine.fast.bufferBlocks sproutBatch).takeContaining (sprout 0).hash = none := by
  obtain ⟨c, hnew, -, ⟨hunstored, hbuffer⟩, hpivot, hincomplete, hwell, hseen, himported⟩ :=
    exists_thwarted
  have htop : FastSync.topBlock ((thwarted c).engine.fast.unimported sproutBatch) =
      some (sprout 0) := by
    simp [FastSync.unimported, sproutBatch, RecentSet.contains, himported, FastSync.topBlock]
  have habsent : ∀ waiting ∈ (thwarted c).engine.fast.buffer,
      FastSync.holds (sprout 0).hash waiting = false := by
    rw [hbuffer]
    exact List.forall_mem_nil _
  exact ⟨c, hnew, fetches_thwarted c, hpivot, hincomplete, hwell, Header.isSealed_sealed _,
    hunstored, hbuffer,
    (FastSync.takeContaining_bufferBlocks htop habsent).2 (RecentSet.contains_iff.mp hseen)⟩

end Seat
end ChainSync
