import ChainSync.Proofs.Chain.Promotion
import ChainSync.Proofs.Import.Overflow
import ChainSync.Proofs.Import.Watch
import ChainSync.Proofs.RecentSet

/-!
# No block is imported twice

A list handed to the chain has no block that is remembered, and what the chain reports of a list is
remembered before the next list is made. So as long as the set of remembered hashes has room for
all that was ever remembered, a hash that was reported once is never handed to the chain again,
whether the lists come from batches or from pending ranges, and whatever errors are set.
-/

namespace ChainSync

namespace Watched

open Chain (sprout shoot)

def importAll : List (BlockBatch × List (Option ChainError)) → Watched → Watched
  | [], w => w
  | (batch, errors) :: rest, w => importAll rest ((processBatch batch).leaves { w with errors })

/-- What was reported is noted as remembered, and with room for all that was remembered it is still
remembered and was not handed over again. -/
structure Unrepeated (capacity : Nat) (w : Watched) : Prop where
  /-- There is so much room. -/
  sized : w.seat.engine.imported.capacity = capacity
  /-- What was reported is noted. -/
  noted {call : Call} {h : Digest} : call ∈ w.calls → h ∈ call.reported → h ∈ w.remembered
  /-- With room for all that was noted it is remembered, and nothing else is. -/
  holds : w.remembered.toFinset.card ≤ capacity → w.seat.engine.imported.Holds w.remembered
  /-- With room for all that was noted nothing reported was handed over again. -/
  spent : w.remembered.toFinset.card ≤ capacity →
    w.calls.Pairwise fun earlier later ↦ ∀ h ∈ earlier.reported, h ∉ later.hashes

theorem card_remembered_le {first second : List Digest} {n : Nat}
    (room : (first ++ second).toFinset.card ≤ n) : first.toFinset.card ≤ n := by
  refine le_trans (Finset.card_le_card fun h hh ↦ ?_) room
  rw [List.mem_toFinset] at hh ⊢
  exact List.mem_append_left _ hh

namespace Unrepeated

variable {capacity : Nat} {w v : Watched}

theorem of_eq (h : Unrepeated capacity w)
    (himported : v.seat.engine.imported = w.seat.engine.imported)
    (hremembered : v.remembered = w.remembered) (hcalls : v.calls = w.calls) :
    Unrepeated capacity v := by
  refine ⟨?_, fun hc hh ↦ ?_, fun room ↦ ?_, fun room ↦ ?_⟩
  · rw [himported]
    exact h.sized
  · rw [hcalls] at hc
    rw [hremembered]
    exact h.noted hc hh
  · rw [hremembered] at room ⊢
    rw [himported]
    exact h.holds room
  · rw [hremembered] at room
    rw [hcalls]
    exact h.spent room

/-- Handing over blocks that are not remembered repeats none. -/
theorem handsOver (h : Unrepeated capacity w) {call : Call}
    (fresh : ∀ b ∈ call.blocks, b.hash ∉ w.seat.engine.imported.keys)
    (hover : HandsOver w call v) : Unrepeated capacity v := by
  have hcapacity : v.seat.engine.imported.capacity = capacity := by
    rw [hover.imported, RecentSet.capacity_insertAll, h.sized]
  refine ⟨hcapacity, fun {c x} hc hx ↦ ?_, fun room ↦ ?_, fun room ↦ ?_⟩
  · rw [hover.remembered, List.mem_append]
    rw [hover.calls, List.mem_append, List.mem_singleton] at hc
    rcases hc with hc | rfl
    · exact .inl (h.noted hc hx)
    · exact .inr hx
  · rw [hover.remembered] at room ⊢
    rw [hover.imported]
    exact (h.holds (card_remembered_le room)).insertAll (h.sized.symm ▸ room)
  · rw [hover.remembered] at room
    have holds := h.holds (card_remembered_le room)
    rw [hover.calls, List.pairwise_append]
    refine ⟨h.spent (card_remembered_le room), List.pairwise_singleton _ _, ?_⟩
    -- What an earlier list reported is remembered, and no block of this list is.
    intro earlier hearlier later hlater x hx hmem
    obtain rfl := List.mem_singleton.mp hlater
    obtain ⟨b, hb, rfl⟩ := List.mem_map.mp hmem
    exact fresh b hb (holds.mem_iff.mpr (h.noted hearlier hx))

theorem remembered (h : Unrepeated capacity w) (hash : Digest) :
    Unrepeated capacity ((remember [hash]).leaves w) := by
  have hcapacity : (w.seat.engine.imported.insertAll [hash]).capacity = capacity := by
    rw [RecentSet.capacity_insertAll, h.sized]
  refine ⟨hcapacity, fun hc hx ↦ List.mem_append_left _ (h.noted hc hx), fun room ↦ ?_,
    fun room ↦ h.spent (card_remembered_le room)⟩
  exact (h.holds (card_remembered_le room)).insertAll (h.sized.symm ▸ room)

/-- Every edit of an import repeats none. -/
theorem keptByBatches (capacity : Nat) : KeptByBatches (Unrepeated capacity) where
  sparesAll h spares := h.of_eq spares.imported rfl rfl
  spares h spares := h.of_eq spares.imported rfl rfl
  handsOver h fresh hover := h.handsOver fresh hover
  remembered h _ := h.remembered _

/-- Importing batches repeats none. -/
theorem importAll (batches : List (BlockBatch × List (Option ChainError))) :
    ∀ {w : Watched}, Unrepeated capacity w → Unrepeated capacity (importAll batches w) := by
  induction batches with
  | nil => exact fun h ↦ h
  | cons entry rest ih =>
    obtain ⟨batch, errors⟩ := entry
    intro w h
    have hset : Unrepeated capacity { w with errors } := h.of_eq rfl rfl rfl
    exact ih ((keptByBatches capacity).processBatch batch hset)

end Unrepeated

/-- Without errors set for their lists, batches are imported as they are at the seat. -/
theorem seat_importAll (batches : List BlockBatch) :
    ∀ w : Watched, (importAll (batches.map fun batch ↦ (batch, [])) w).seat =
      batches.foldl (fun s batch ↦ (Seat.processBatch batch).leaves s) w.seat := by
  induction batches with
  | nil => exact fun _ ↦ rfl
  | cons batch rest ih =>
    intro w
    rw [List.map_cons, importAll, ih, List.foldl_cons]
    rw [(mirrors_processBatch batch { w with errors := [] } rfl).2.1]

/-- A new engine imports batches, whatever errors are set for the lists that it hands to the chain.
If there is room for all hashes that it ever remembers, then no list, be it from a batch or from a
pending range, has a block that the chain reported as imported of an earlier list. -/
theorem pairwise_importAll {s : Seat} (fresh : s.engine.imported.keys = [])
    (batches : List (BlockBatch × List (Option ChainError)))
    (room : (importAll batches (on s [])).remembered.toFinset.card ≤
      s.engine.imported.capacity) :
    (importAll batches (on s [])).calls.Pairwise fun earlier later ↦
      ∀ h ∈ earlier.reported, h ∉ later.hashes := by
  have hstart : Unrepeated s.engine.imported.capacity (on s []) :=
    ⟨rfl, fun h ↦ (by cases h), fun _ ↦ RecentSet.holds_nil fresh, fun _ ↦ .nil⟩
  exact (hstart.importAll batches).spent room

/-- A block, its parent, and both of them again. -/
def sproutBatches : List (BlockBatch × List (Option ChainError)) :=
  [(⟨.ofNat 1, "peer-1", [shoot]⟩, []), (⟨.ofNat 2, "peer-2", [sprout 0]⟩, []),
    (⟨.ofNat 1, "peer-1", [sprout 0, shoot]⟩, [])]

/-- Over the first block of every chain, a block whose parent is missing is drained after its
parent, and both are passed over when they come again. -/
theorem pairwise_importAll_sproutBatches :
    ∃ c, Chain.new .genesis = .ok c ∧ (Seat.genesisSeat c).engine.imported.keys = [] ∧
      (importAll sproutBatches (on (Seat.genesisSeat c) [])).remembered.toFinset.card ≤
        (Seat.genesisSeat c).engine.imported.capacity ∧
      (importAll sproutBatches (on (Seat.genesisSeat c) [])).calls.map Call.reported =
        [[], [(sprout 0).hash], [shoot.hash]] ∧
      (importAll sproutBatches (on (Seat.genesisSeat c) [])).calls.Pairwise
        fun earlier later ↦ ∀ h ∈ earlier.reported, h ∉ later.hashes := by
  obtain ⟨c, hnew, hrun⟩ := Seat.exists_genesis_of_any (fun c ↦
    let w := importAll sproutBatches (on (Seat.genesisSeat c) [])
    decide (w.remembered.toFinset.card ≤ (Seat.genesisSeat c).engine.imported.capacity ∧
      w.calls.map Call.reported = [[], [(sprout 0).hash], [shoot.hash]])) (by decide +kernel)
  obtain ⟨room, hcalls⟩ := of_decide_eq_true hrun
  exact ⟨c, hnew, rfl, room, hcalls, pairwise_importAll rfl _ room⟩

end Watched
end ChainSync
