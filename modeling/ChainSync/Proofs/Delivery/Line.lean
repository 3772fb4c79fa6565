import ChainSync.Proofs.Chain.Growth
import Mathlib.Algebra.GroupWithZero.Nat
import Mathlib.Data.List.Nodup
import Mathlib.Tactic.ByContra

/-!
# Linking segments of a linear chain

A line is a sequence of blocks in which each one follows the one before. A chain that stores a line
up to a height links its next block as the head, finds the stored ones stored, and refuses those
further up for want of a parent. So a segment that starts at most one above that height is linked to
its end, whichever of its stored blocks were left out, and one that starts higher is not touched.
-/

namespace ChainSync

/-- The total difficulty of the blocks up to a height. -/
def weight (c : Nat → Block) : Nat → Nat
  | 0 => (c 0).header.difficulty.toNat
  | height + 1 => weight c height + (c (height + 1)).header.difficulty.toNat

def segment (c : Nat → Block) (first last : Nat) : List Block :=
  (List.range' first (last + 1 - first)).map c

/-- Each block up to a height follows the one before, all are told apart by their hashes, and no
sum over them leaves its range. -/
structure Line (c : Nat → Block) (top : Nat) : Prop where
  /-- The first block stands at height zero. -/
  number_zero : (c 0).number = 0
  /-- Each block names the one before as its parent. -/
  parent {i : Nat} : i < top → (c (i + 1)).parent = (c i).hash
  /-- Each block stands one above the one before, is sealed, and has its body. -/
  follows {i : Nat} : i < top → (c (i + 1)).Follows (c i)
  /-- No two blocks have the same hash. -/
  hash_inj {i j : Nat} : i ≤ top → j ≤ top → (c i).hash = (c j).hash → i = j
  /-- Every block has a difficulty. -/
  difficulty {i : Nat} : i ≤ top → 1 ≤ (c i).header.difficulty.toNat
  /-- The total difficulty does not wrap. -/
  total : weight c top < 2 ^ 256
  /-- There are two heights above the last block. -/
  room : top + 2 < UInt64.size

/-- The chain holds the blocks up to a height and no others, and the one there is the best. -/
structure StoresTo (c : Nat → Block) (height : Nat) (chain : Chain) : Prop where
  /-- The blocks up to the height are stored. -/
  stored {i : Nat} : i ≤ height → chain.block? (c i).hash = some (c i)
  /-- No others are stored. -/
  only {h : Digest} {b : Block} : chain.block? h = some b → ∃ i ≤ height, h = (c i).hash
  /-- Each block has its total difficulty. -/
  total {i : Nat} : i ≤ height →
    chain.totals[(c i).hash]? = some (BitVec.ofNat 256 (weight c i))
  /-- The block at the height is the best. -/
  best : chain.best = (c height).hash
  /-- No height is pruned. -/
  unpruned : chain.pruneFloor = none

namespace Line

variable {c : Nat → Block} {top : Nat}

theorem toNat_number (line : Line c top) {i : Nat} (hi : i ≤ top) : (c i).number.toNat = i := by
  induction i with
  | zero =>
    rw [line.number_zero]
    rfl
  | succ i ih =>
    have := (line.follows hi).number
    rw [ih (by omega)] at this
    omega

/-- The total difficulty up to a lower height is no greater. -/
theorem weight_le (c : Nat → Block) {i j : Nat} (hij : i ≤ j) : weight c i ≤ weight c j := by
  induction hij with
  | refl => exact Nat.le_refl _
  | step _ ih => exact Nat.le_trans ih (Nat.le_add_right _ _)

theorem toNat_weight (line : Line c top) {i : Nat} (hi : i ≤ top) :
    (BitVec.ofNat 256 (weight c i)).toNat = weight c i := by
  rw [BitVec.toNat_ofNat, Nat.mod_eq_of_lt]
  exact Nat.lt_of_le_of_lt (weight_le c hi) line.total

/-- Blocks without transactions that are made one above the other are a line. -/
theorem of_make {difficulty : Nat → Difficulty} (number_zero : (c 0).number = 0)
    (made : ∀ i, c (i + 1) =
      .make (UInt64.ofNat (i + 1)) (c i).hash (difficulty i) 0 [] .zero)
    (distinct : ((List.range (top + 1)).map fun i ↦ (c i).hash).Nodup)
    (positive : ∀ i ≤ top, 1 ≤ (c i).header.difficulty.toNat) (total : weight c top < 2 ^ 256)
    (room : top + 2 < UInt64.size) : Line c top where
  number_zero := number_zero
  parent {i} _ := by
    rw [made i]
    rfl
  follows {i} hi := by
    have hnumber (j : Nat) (hj : j ≤ top) : (c j).number.toNat = j := by
      cases j with
      | zero =>
        rw [number_zero]
        rfl
      | succ j =>
        rw [made j]
        exact UInt64.toNat_ofNat_of_lt' (by omega)
    refine ⟨by rw [hnumber i (by omega), hnumber (i + 1) hi], ?_, ?_⟩
    · rw [made i]
      exact Header.isSealed_sealed _
    · rw [made i]
      exact decide_eq_true rfl
  hash_inj {i j} hi hj he :=
    List.inj_on_of_nodup_map distinct (List.mem_range.mpr (by omega))
      (List.mem_range.mpr (by omega)) he
  difficulty {i} := positive i
  total := total
  room := room

end Line

theorem exists_segment_cons (c : Nat → Block) {first last : Nat} (hle : first ≤ last) :
    ∃ rest, segment c first last = c first :: rest := by
  obtain ⟨n, hn⟩ : ∃ n, last + 1 - first = n + 1 := ⟨last - first, by omega⟩
  exact ⟨_, by rw [segment, hn, List.range'_succ, List.map_cons]⟩

theorem mem_segment {c : Nat → Block} {top first last i : Nat} (line : Line c top)
    (hlast : last ≤ top) (hi : i ≤ top) :
    c i ∈ segment c first last ↔ first ≤ i ∧ i ≤ last := by
  rw [segment, List.mem_map]
  constructor
  · rintro ⟨j, hj, he⟩
    have hj' := List.mem_range'_1.mp hj
    obtain rfl := line.hash_inj (by omega) hi (congrArg Block.hash he)
    omega
  · rintro ⟨hfirst, hle⟩
    exact ⟨i, List.mem_range'_1.mpr (by omega), rfl⟩

/-- Of two segments with the same start the longer one has the blocks of the other. -/
theorem mem_segment_of_length_le {c : Nat → Block} {top first last last' i : Nat}
    (line : Line c top) (hle : first ≤ last) (hle' : first ≤ last') (hlast : last ≤ top)
    (hlast' : last' ≤ top)
    (hlength : (segment c first last).length ≤ (segment c first last').length)
    (hi : i ≤ top) (h : c i ∈ segment c first last) : c i ∈ segment c first last' := by
  simp only [segment, List.length_map, List.length_range'] at hlength
  have hbounds := (mem_segment line hlast hi).mp h
  exact (mem_segment line hlast' hi).mpr (by omega)

namespace StoresTo

variable {c : Nat → Block} {top height : Nat} {chain : Chain}

theorem withHanded (stores : StoresTo c height chain) (hash : Digest) :
    StoresTo c height (chain.withHanded hash) :=
  ⟨stores.stored, stores.only, stores.total, stores.best, stores.unpruned⟩

theorem bestBlock (stores : StoresTo c height chain) : chain.bestBlock = c height := by
  rw [Chain.bestBlock, stores.best, stores.stored (Nat.le_refl _)]
  rfl

/-- The best total difficulty is that of the line up to the height. -/
theorem totalDifficulty (stores : StoresTo c height chain) :
    chain.totalDifficulty = BitVec.ofNat 256 (weight c height) := by
  rw [Chain.totalDifficulty, stores.best, stores.total (Nat.le_refl _)]
  rfl

/-- A block above the height is not stored. -/
theorem block?_eq_none (line : Line c top) (stores : StoresTo c height chain) {i : Nat}
    (hlow : height < i) (hi : i ≤ top) : chain.block? (c i).hash = none := by
  cases hb : chain.block? (c i).hash with
  | none => rfl
  | some b =>
    obtain ⟨j, hj, hhash⟩ := stores.only hb
    have := line.hash_inj hi (by omega) hhash
    omega

/-- A hash that is stored is one of the blocks up to the height. -/
theorem exists_of_isStored (stores : StoresTo c height chain) {hash : Digest} {number : UInt64}
    (known : chain.isStored hash number = true) : ∃ i ≤ height, hash = (c i).hash := by
  unfold Chain.isStored at known
  cases hb : chain.block? hash with
  | none =>
    rw [hb] at known
    cases known
  | some b => exact stores.only hb

/-- A block up to the height is found stored. -/
theorem attempt_stored (stores : StoresTo c height chain) {i : Nat} (hi : i ≤ height)
    {r : Except Fault ImportOutcome} {chain' : Chain} (ha : Chain.Attempt chain (c i) r chain') :
    r = .ok .exist ∧ chain' = chain := by
  have hstored := stores.stored hi
  cases ha with
  | exist _ => exact ⟨rfl, rfl⟩
  | noParent new _ | noHeight new _ _ | invalid new _ _ _ | detached new _ _ _ | light new _ _ _ _
  | heavy new _ _ _ _ _ | lastHead new _ _ _ _ _ =>
    rw [hstored] at new
    cases new

/-- A block further up has no parent. -/
theorem attempt_orphan (line : Line c top) (stores : StoresTo c height chain) {i : Nat}
    (hlow : height < i) (hi : i < top) {r : Except Fault ImportOutcome} {chain' : Chain}
    (ha : Chain.Attempt chain (c (i + 1)) r chain') : r = .ok .noParent ∧ chain' = chain := by
  have horphan : chain.block? (c (i + 1)).parent = none := by
    rw [line.parent hi]
    exact stores.block?_eq_none line hlow (by omega)
  have hnew : chain.block? (c (i + 1)).hash = none := stores.block?_eq_none line (by omega) hi
  cases ha with
  | exist stored =>
    rw [hnew] at stored
    cases stored
  | noParent _ _ => exact ⟨rfl, rfl⟩
  | noHeight _ found _ | invalid _ found _ _ | detached _ found _ _ | light _ found _ _ _
  | heavy _ found _ _ _ _ | lastHead _ found _ _ _ _ =>
    rw [horphan] at found
    cases found

/-- With the next block as its head the chain stores the line one block further. -/
theorem withHead (line : Line c top) (stores : StoresTo c height chain) (hlow : height < top) :
    StoresTo c (height + 1) ((chain.withTotal (c (height + 1))
      (BitVec.ofNat 256 (weight c (height + 1)))).withHead (c (height + 1))) where
  stored := by
    intro i hi
    rw [Chain.block?_withHead, Chain.block?_withTotal]
    split
    · next he =>
      rw [line.hash_inj (by omega) (by omega) he]
    · next he =>
      have : i ≠ height + 1 := by
        rintro rfl
        exact he rfl
      exact stores.stored (by omega)
  only := by
    intro h b hb
    rw [Chain.block?_withHead, Chain.block?_withTotal] at hb
    split at hb
    · next he => exact ⟨height + 1, Nat.le_refl _, he.symm⟩
    · obtain ⟨i, hi, hhash⟩ := stores.only hb
      exact ⟨i, by omega, hhash⟩
  total := by
    intro i hi
    rw [Chain.totals_withHead, Chain.totals_withTotal]
    split
    · next he =>
      rw [line.hash_inj (by omega) (by omega) he]
    · next he =>
      have : i ≠ height + 1 := by
        rintro rfl
        exact he rfl
      exact stores.total (by omega)
  best := rfl
  unpruned := stores.unpruned

/-- The next block becomes the head. -/
theorem attempt_next (line : Line c top) (stores : StoresTo c height chain) (hlow : height < top)
    {r : Except Fault ImportOutcome} {chain' : Chain}
    (ha : Chain.Attempt chain (c (height + 1)) r chain') :
    r = .ok (.imported true) ∧ StoresTo c (height + 1) chain' := by
  have hnew : chain.block? (c (height + 1)).hash = none :=
    stores.block?_eq_none line (Nat.lt_succ_self _) hlow
  have hparent : chain.block? (c (height + 1)).parent = some (c height) := by
    rw [line.parent hlow]
    exact stores.stored (Nat.le_refl _)
  have htotal : chain.totals[(c (height + 1)).parent]? =
      some (BitVec.ofNat 256 (weight c height)) := by
    rw [line.parent hlow]
    exact stores.total (Nat.le_refl _)
  have hsum : BitVec.ofNat 256 (weight c height) + (c (height + 1)).header.difficulty =
      BitVec.ofNat 256 (weight c (height + 1)) := by
    rw [weight, BitVec.ofNat_add, BitVec.ofNat_toNat, BitVec.setWidth_eq]
  have hbest (t : Difficulty) : (chain.withTotal (c (height + 1)) t).totalDifficulty =
      BitVec.ofNat 256 (weight c height) := by
    have hne : (c (height + 1)).hash ≠ (chain.withTotal (c (height + 1)) t).best := by
      intro he
      have := line.hash_inj hlow (by omega) (he.trans stores.best)
      omega
    rw [Chain.totalDifficulty, Chain.totals_withTotal, if_neg hne]
    exact stores.totalDifficulty
  have hlt : BitVec.ofNat 256 (weight c height) < BitVec.ofNat 256 (weight c (height + 1)) := by
    rw [BitVec.lt_def, line.toNat_weight (by omega), line.toNat_weight hlow, weight]
    have := line.difficulty (i := height + 1) hlow
    omega
  have hroom := line.room
  cases ha with
  | exist stored =>
    rw [hnew] at stored
    cases stored
  | noParent _ orphan =>
    rw [hparent] at orphan
    cases orphan
  | noHeight _ found full =>
    rw [hparent] at found
    cases found
    rw [line.toNat_number (by omega)] at full
    omega
  | invalid _ found _ misfit =>
    rw [hparent] at found
    cases found
    exact absurd (line.follows hlow) misfit
  | detached _ _ _ loose =>
    rw [htotal] at loose
    cases loose
  | light _ _ _ linked light =>
    rw [htotal] at linked
    cases linked
    rw [hbest, hsum] at light
    exact absurd hlt light
  | heavy _ _ _ linked _ _ =>
    rw [htotal] at linked
    cases linked
    rw [hsum]
    exact ⟨rfl, stores.withHead line hlow⟩
  | lastHead _ _ _ _ _ full =>
    rw [line.toNat_number hlow] at full
    omega

end StoresTo

/-! ### Climbing a line -/

/-- The heights can be linked one after the other, each at most one above those before it. -/
def Climbs : Nat → List Nat → Prop
  | _, [] => True
  | height, i :: rest => i ≤ height + 1 ∧ Climbs (max height i) rest

/-- The heights of a segment climb when they start at most one above, whichever of those below are
left out, and they reach the end of the segment. -/
theorem climbs_filter_range' (keep : Nat → Bool) (n : Nat) :
    ∀ {a height : Nat}, a ≤ height + 1 → (∀ i, height < i → i < a + n → keep i = true) →
      Climbs height ((List.range' a n).filter keep) ∧
        ((List.range' a n).filter keep).foldl max height = max height (a + n - 1) := by
  induction n with
  | zero =>
    intro a height ha _
    refine ⟨trivial, ?_⟩
    change height = _
    omega
  | succ n ih =>
    intro a height ha hkeep
    rw [List.range'_succ]
    by_cases hk : keep a = true
    · rw [List.filter_cons_of_pos hk]
      obtain ⟨hclimbs, hreach⟩ := @ih (a + 1) (max height a) (by omega)
        fun i hi hn ↦ hkeep i (by omega) (by omega)
      refine ⟨⟨ha, hclimbs⟩, ?_⟩
      rw [List.foldl_cons, hreach]
      omega
    · rw [List.filter_cons_of_neg hk]
      have hlow : a ≤ height := by
        by_contra hlt
        exact hk (hkeep a (by omega) (by omega))
      obtain ⟨hclimbs, hreach⟩ := @ih (a + 1) height (by omega)
        fun i hi hn ↦ hkeep i hi (by omega)
      refine ⟨hclimbs, ?_⟩
      rw [hreach]
      omega

/-- Heights that climb are linked to the greatest of them. -/
theorem exists_importBlocks_of_climbs {c : Nat → Block} {top : Nat} (line : Line c top)
    (heights : List Nat) :
    ∀ {height : Nat} {chain : Chain} (last : ImportOutcome), StoresTo c height chain →
      (∀ i ∈ heights, i ≤ top) → Climbs height heights → last.isStored = true →
      ∃ imported outcome chain',
        (Chain.importBlocks (heights.map c) last).exec chain = (.ok (imported, outcome), chain') ∧
        outcome.isStored = true ∧ StoresTo c (heights.foldl max height) chain' ∧
        height + imported.length = heights.foldl max height ∧
        ∀ h ∈ imported, ∃ i ≤ heights.foldl max height, h = (c i).hash := by
  induction heights with
  | nil =>
    intro height chain last stores _ _ hlast
    exact ⟨[], last, chain, rfl, hlast, stores, rfl, fun h hh ↦ nomatch hh⟩
  | cons i rest ih =>
    intro height chain last stores hle hclimbs hlast
    have hrest : ∀ j ∈ rest, j ≤ top := fun j hj ↦ hle j (List.mem_cons_of_mem _ hj)
    have ha := Chain.attempt_importBlock (chain.withHanded (c i).hash) (c i)
    rw [List.map_cons, Chain.exec_importBlocks_cons, List.foldl_cons]
    cases hx : (Chain.importBlock (c i)).exec (chain.withHanded (c i).hash) with
    | mk r chain₁ =>
      rw [hx] at ha
      by_cases hlow : i ≤ height
      · obtain ⟨rfl, rfl⟩ := (stores.withHanded _).attempt_stored hlow ha
        rw [Nat.max_eq_left hlow]
        have hclimbs' := hclimbs.2
        rw [Nat.max_eq_left hlow] at hclimbs'
        exact ih .exist (stores.withHanded _) hrest hclimbs' rfl
      · have hi : i = height + 1 := by
          have := hclimbs.1
          omega
        subst hi
        have htop := hle (height + 1) List.mem_cons_self
        obtain ⟨rfl, stores₁⟩ := (stores.withHanded _).attempt_next line htop ha
        have hclimbs' := hclimbs.2
        rw [Nat.max_eq_right (by omega)] at hclimbs' ⊢
        obtain ⟨imported, outcome, chain₂, he, hstored, stores₂, hcount, hmem⟩ :=
          ih (.imported true) stores₁ hrest hclimbs' rfl
        refine ⟨(c (height + 1)).hash :: imported, outcome, chain₂, by simp only [he], hstored,
          stores₂, ?_, ?_⟩
        · rw [← hcount, List.length_cons]
          omega
        · intro h hh
          rcases List.mem_cons.mp hh with rfl | hh
          · exact ⟨height + 1, by omega, rfl⟩
          · exact hmem h hh

/-- A segment that starts further up is not touched. -/
theorem exec_importBlocks_of_high {c : Nat → Block} {top height first last : Nat}
    (line : Line c top) {chain : Chain} (stores : StoresTo c height chain)
    (hlow : height + 1 < first) (hfirst : first ≤ last) (hlast : last ≤ top)
    (outcome : ImportOutcome) :
    (Chain.importBlocks (segment c first last) outcome).exec chain =
      (.ok ([], .noParent), chain.withHanded (c first).hash) := by
  obtain ⟨n, hn⟩ : ∃ n, last + 1 - first = n + 1 := ⟨last - first, by omega⟩
  obtain ⟨below, rfl⟩ : ∃ below, first = below + 1 := ⟨first - 1, by omega⟩
  rw [segment, hn, List.range'_succ, List.map_cons, Chain.exec_importBlocks_cons]
  have ha := Chain.attempt_importBlock (chain.withHanded (c (below + 1)).hash) (c (below + 1))
  cases hx : (Chain.importBlock (c (below + 1))).exec
      (chain.withHanded (c (below + 1)).hash) with
  | mk r chain₁ =>
    rw [hx] at ha
    obtain ⟨rfl, rfl⟩ := (stores.withHanded _).attempt_orphan line (by omega) (by omega) ha
    rfl

/-- The chain of the first block of a line stores it up to there. -/
theorem exists_new_storesTo {c : Nat → Block} {top : Nat} (line : Line c top) :
    ∃ chain, Chain.new (c 0) = .ok chain ∧ StoresTo c 0 chain ∧ chain.nextFailure = none := by
  have hroom : (c 0).number.toNat + 1 < UInt64.size := by
    rw [line.number_zero]
    decide
  obtain ⟨chain, hnew, hblocks, htotals, -, hbest, hprune, hfail⟩ := Chain.exists_new hroom
  refine ⟨chain, hnew, ⟨?_, ?_, ?_, hbest, hprune⟩, hfail⟩
  · intro i hi
    obtain rfl := Nat.le_zero.mp hi
    simp [Chain.block?, hblocks]
  · intro h b hb
    rw [Chain.block?, hblocks, Chain.getElem?_insert_block] at hb
    split at hb
    · next he => exact ⟨0, Nat.le_refl _, he.symm⟩
    · simp at hb
  · intro i hi
    obtain rfl := Nat.le_zero.mp hi
    simp [htotals, weight]

end ChainSync
