import ChainSync.Proofs.Delivery.Line
import ChainSync.Proofs.Round.Exchange
import Mathlib.Data.List.Basic

/-!
# A peer that serves a line

What the answers of a peer that holds a line come to: the blocks of the line in the range that is
asked for, as far as the line goes, without those that are remembered as imported. Main statement:
these blocks, if there are any, are the batch that is fetched.
-/

namespace ChainSync

/-- Blocks are put together from their own headers and bodies. -/
theorem HeaderBatch.assembleAll_of_matching (blocks : List Block)
    (matching : ∀ b ∈ blocks, b.hasMatchingBody = true) :
    assembleAll (blocks.map Block.header) (blocks.map Block.body) = some blocks := by
  induction blocks with
  | nil => rfl
  | cons block rest ih =>
    have hroot := of_decide_eq_true (matching block List.mem_cons_self)
    have hblock : Block.assemble block.header block.body = some block :=
      Block.assemble_eq_some_iff.mpr ⟨rfl, hroot⟩
    rw [List.map_cons, List.map_cons, assembleAll, hblock,
      ih fun b hb ↦ matching b (List.mem_cons_of_mem _ hb)]
    rfl

/-- The heights from one on of the blocks of a line that are not remembered, of `count` heights
and none above the last block. -/
def lacking (c : Nat → Block) (top : Nat) (imported : RecentSet Digest) (first count : Nat) :
    List Nat :=
  (List.range' first (min count (top + 1 - first))).filter fun i ↦ !imported.contains (c i).hash

/-- The heights are those in the range of the blocks that are not remembered. -/
theorem mem_lacking {c : Nat → Block} {top : Nat} {imported : RecentSet Digest}
    {first count i : Nat} : i ∈ lacking c top imported first count ↔
      first ≤ i ∧ i < first + count ∧ i ≤ top ∧ imported.contains (c i).hash = false := by
  simp only [lacking, List.mem_filter, List.mem_range'_1, Bool.not_eq_true']
  constructor
  · rintro ⟨⟨hfirst, hlast⟩, hnew⟩
    exact ⟨hfirst, by omega, by omega, hnew⟩
  · rintro ⟨hfirst, hlast, htop, hnew⟩
    exact ⟨⟨hfirst, by omega⟩, hnew⟩

theorem length_lacking_le (c : Nat → Block) (top : Nat) (imported : RecentSet Digest)
    (first count : Nat) : (lacking c top imported first count).length ≤ count := by
  have := List.length_filter_le (fun i ↦ !imported.contains (c i).hash)
    (List.range' first (min count (top + 1 - first)))
  rw [List.length_range'] at this
  exact Nat.le_trans this (Nat.min_le_left ..)

/-- Without pruned heights all of these blocks are wanted. -/
theorem Seat.wanted_lacking {s : Seat} (unpruned : s.node.chain.pruneFloor = none)
    (c : Nat → Block) (top first count : Nat) :
    s.wanted ((lacking c top s.engine.imported first count).map c) =
      (lacking c top s.engine.imported first count).map c := by
  rw [wanted_of_unpruned unpruned, List.filter_eq_self]
  intro b hb
  obtain ⟨i, hi, rfl⟩ := List.mem_map.mp hb
  rw [(mem_lacking.mp hi).2.2.2]
  rfl

namespace Remote

def serving (c : Nat → Block) (top : Nat) : Remote where
  blocks := (List.range (top + 1)).map c
  mute := []
  lostReceipts := 0
  fastSeat := .manager

/-- The line is accepted when its blocks above the first one are. -/
def Welcome (c : Nat → Block) (top : Nat) (accepts : Header → Bool) : Prop :=
  ∀ i, 1 ≤ i → i ≤ top → accepts (c i).header = true

variable {c : Nat → Block} {top : Nat}

theorem mem_blocks_serving {block : Block} :
    block ∈ (serving c top).blocks ↔ ∃ i ≤ top, c i = block := by
  simp only [serving, List.mem_map, List.mem_range, Nat.lt_succ_iff]

/-- The block at a height is that of the line, if the line goes up to there. -/
theorem blockAt?_serving (line : Line c top) (number : UInt64) :
    (serving c top).blockAt? number =
      if number.toNat ≤ top then some (c number.toNat) else none := by
  have hnumber {i : Nat} (hi : i ≤ top) (h : (c i).number = number) : i = number.toNat := by
    rw [← h, line.toNat_number hi]
  cases hfind : (serving c top).blockAt? number with
  | none =>
    have hall := List.find?_eq_none.mp hfind
    rw [if_neg]
    intro hle
    refine hall _ (mem_blocks_serving.mpr ⟨_, hle, rfl⟩) (decide_eq_true ?_)
    exact UInt64.toNat_inj.mp (line.toNat_number hle)
  | some block =>
    obtain ⟨i, hi, rfl⟩ := mem_blocks_serving.mp (List.mem_of_find?_eq_some hfind)
    obtain rfl := hnumber hi (of_decide_eq_true (List.find?_some hfind :))
    rw [if_pos hi]

/-- The block with the hash of one of the line is that block. -/
theorem block?_serving (line : Line c top) {i : Nat} (hi : i ≤ top) :
    (serving c top).block? (c i).hash = some (c i) := by
  cases hfind : (serving c top).block? (c i).hash with
  | none =>
    have hall := List.find?_eq_none.mp hfind
    exact absurd (decide_eq_true rfl) (hall _ (mem_blocks_serving.mpr ⟨i, hi, rfl⟩))
  | some block =>
    obtain ⟨j, hj, rfl⟩ := mem_blocks_serving.mp (List.mem_of_find?_eq_some hfind)
    rw [line.hash_inj hj hi (of_decide_eq_true (List.find?_some hfind :))]

/-- The blocks from a number on are those of the line, as far as it goes. -/
theorem upFrom_serving (line : Line c top) (count : Nat) :
    ∀ first : UInt64, (serving c top).upFrom count first =
      (List.range' first.toNat (min count (top + 1 - first.toNat))).map c := by
  have hroom := line.room
  have hone : (1 : UInt64).toNat = 1 := rfl
  induction count with
  | zero =>
    intro first
    rw [Nat.zero_min]
    rfl
  | succ count ih =>
    intro first
    rw [upFrom, blockAt?_serving line]
    by_cases hle : first.toNat ≤ top
    · have hnext : (first + 1).toNat = first.toNat + 1 := by
        rw [UInt64.toNat_add, hone, Nat.mod_eq_of_lt]
        change _ < UInt64.size
        omega
      obtain ⟨n, hn⟩ : ∃ n, min (count + 1) (top + 1 - first.toNat) = n + 1 :=
        ⟨min count (top - first.toNat), by omega⟩
      rw [if_pos hle, hn, List.range'_succ, List.map_cons]
      dsimp only
      rw [ih, hnext]
      congr 3
      omega
    · have hnil : min (count + 1) (top + 1 - first.toNat) = 0 := by omega
      rw [if_neg hle, hnil]
      rfl

/-- Consecutive headers of the line are linked. -/
theorem isLinked_line (line : Line c top) (n : Nat) :
    ∀ {first : Nat}, first + n ≤ top + 1 →
      HeaderBatch.isLinked (((List.range' first n).map c).map Block.header) = .ok true := by
  have hroom := line.room
  have hone : (1 : UInt64).toNat = 1 := rfl
  induction n with
  | zero => exact fun _ ↦ rfl
  | succ n ih =>
    intro first hle
    cases n with
    | zero => rfl
    | succ n =>
      have hrest := ih (show first + 1 + (n + 1) ≤ top + 1 by omega)
      rw [List.range'_succ, List.map_cons, List.map_cons] at hrest ⊢
      rw [List.range'_succ, List.map_cons, List.map_cons, HeaderBatch.isLinked]
      have hnumber := line.toNat_number (show first ≤ top by omega)
      have hfollows := (line.follows (show first < top by omega)).number
      have hnext : checkedAdd (c first).header.number 1 = .ok (c (first + 1)).header.number := by
        rw [checkedAdd_eq_ok_iff, hone]
        exact hfollows.symm
      have hparent : (c (first + 1)).header.parent = (c first).header.hash :=
        line.parent (by omega)
      rw [hnext]
      change (if _ then _ else _) = _
      rw [if_pos ⟨rfl, hparent⟩]
      exact hrest

variable {accepts : Header → Bool}

/-- Of the headers that a peer with a line answers, those that are not remembered pass the
screen. -/
theorem screen_serving (line : Line c top) (welcome : Welcome c top accepts)
    (imported : RecentSet Digest) (peer : PeerId) (name : String) {first : UInt64}
    (hfirst : 1 ≤ first.toNat) (count : Nat) (now : Millis) :
    HeaderBatch.screen accepts imported
        ⟨peer, name, ((serving c top).upFrom count first).map Block.header, now⟩ =
      .ok (if lacking c top imported first.toNat count = [] then none
        else some ⟨peer, name,
          ((lacking c top imported first.toNat count).map c).map Block.header, now⟩) := by
  rw [upFrom_serving line]
  have hlacking : (((List.range' first.toNat (min count (top + 1 - first.toNat))).map c).map
      Block.header).filter (fun h ↦ !imported.contains h.hash) =
        ((lacking c top imported first.toNat count).map c).map Block.header := by
    rw [List.map_map, List.map_map, List.filter_map]
    rfl
  have haccepted : (((List.range' first.toNat (min count (top + 1 - first.toNat))).map c).map
      Block.header).all accepts = true := by
    simp only [List.all_map, List.all_eq_true, List.mem_range'_1]
    intro i hi
    exact welcome i (by omega) (by omega)
  unfold HeaderBatch.screen
  dsimp only
  rw [hlacking, haccepted]
  cases hn : min count (top + 1 - first.toNat) with
  | zero =>
    have hnil : lacking c top imported first.toNat count = [] := by
      rw [lacking, hn]
      rfl
    rw [if_pos hnil]
    rfl
  | succ n =>
    have hlinked := isLinked_line line (n + 1) (show first.toNat + (n + 1) ≤ top + 1 by omega)
    rw [hlinked, List.range'_succ]
    cases lacking c top imported first.toNat count <;> rfl

/-- A peer with a line brings those blocks of the range that are not remembered. -/
theorem fetch_serving (line : Line c top) (welcome : Welcome c top accepts)
    (imported : RecentSet Digest) (peer : PeerId) {first : UInt64} (hfirst : 1 ≤ first.toNat)
    (count : UInt32) (now : Millis) :
    (serving c top).fetch accepts imported peer first count now =
      .ok (if lacking c top imported first.toNat count.toNat = [] then none
        else some ⟨peer, (serving c top).nameOf peer,
          (lacking c top imported first.toNat count.toNat).map c⟩) := by
  have hscreen := screen_serving line welcome imported peer ((serving c top).nameOf peer) hfirst
    count.toNat now
  by_cases hnil : lacking c top imported first.toNat count.toNat = []
  · rw [if_pos hnil] at hscreen ⊢
    exact fetch_of_none hscreen
  · rw [if_neg hnil] at hscreen ⊢
    rw [fetch_of_some hscreen]
    have hbodies : (((((lacking c top imported first.toNat count.toNat).map c).map
        Block.header).map Header.hash).filterMap (serving c top).block?) =
          (lacking c top imported first.toNat count.toNat).map c := by
      rw [List.map_map, List.map_map, List.filterMap_map]
      exact List.filterMap_eq_map_iff_forall_eq_some.mpr fun i hi ↦
        block?_serving line (mem_lacking.mp hi).2.2.1
    have hblocks := HeaderBatch.assembleAll_of_matching
      ((lacking c top imported first.toNat count.toNat).map c) (by
        intro b hb
        obtain ⟨i, hi, rfl⟩ := List.mem_map.mp hb
        have hi := mem_lacking.mp hi
        obtain ⟨j, rfl⟩ : ∃ j, i = j + 1 := ⟨i - 1, by omega⟩
        exact (line.follows (by omega)).hasMatchingBody)
    rw [hbodies, HeaderBatch.assemble, hblocks]
    cases hlist : lacking c top imported first.toNat count.toNat with
    | nil => exact absurd hlist hnil
    | cons i rest => rfl

end Remote

def Seat.advertised (c : Nat → Block) (top : Nat) (name : String) : PeerInfo where
  bestNumber := (c top).number
  totalDifficulty := BitVec.ofNat 256 (weight c top)
  name

end ChainSync
