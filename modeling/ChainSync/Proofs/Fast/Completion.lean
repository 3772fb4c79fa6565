import ChainSync.Engine.Exchange
import ChainSync.Fast.Completion
import ChainSync.Proofs.Chain.Promotion
import ChainSync.Proofs.Fast.Walk
import Mathlib.Data.Finset.Card
import Mathlib.Order.Iterate

/-!
# Where the branch of a promoted pivot ends

Until a pivot is promoted, a total difficulty is on record only for blocks whose branch reaches the
first block: a block that is linked or stored without its ancestors gets one from its parent. The
check for missing ancestors stops at a recorded total, but also at a block numbered zero, whichever
block that is. Main statement: when the check for block data answers that it is complete, the branch
of the pivot reaches the first block, or it was founded on something else.
-/

namespace ChainSync
namespace Chain

/-! ### Totals lead to the first block -/

/-- What an import can do to the blocks and totals of a chain. -/
inductive Stores (c d : Chain) : Prop
  /-- Nothing is stored. -/
  | same (blocks : d.block? = c.block?) (totals : d.totals = c.totals)
  /-- A block is stored without a total. -/
  | bare {block : Block} (new : c.block? block.hash = none)
    (blocks : ∀ h, d.block? h = if block.hash = h then some block else c.block? h)
    (totals : d.totals = c.totals)
  /-- A block is stored whose parent has a total, and gets one. -/
  | counted {block : Block} {total : Difficulty} (new : c.block? block.hash = none)
    (blocks : ∀ h, d.block? h = if block.hash = h then some block else c.block? h)
    (linked : (c.totals[block.parent]?).isSome)
    (totals : d.totals = c.totals.insert block.hash total)

/-- The first block has a total, and from every hash with a total its branch reaches the first
block. -/
structure Linked (first : Block) (c : Chain) : Prop where
  /-- The first block has a total. -/
  start : (c.totals[first.hash]?).isSome
  /-- What has a total is on a branch with the first block. -/
  reaches {h : Digest} : (c.totals[h]?).isSome → c.OnBranch h first.hash

variable {first : Block} {c d : Chain}

theorem within_of_block?_eq (h : d.block? = c.block?) : c.Within d :=
  fun _ _ hb ↦ by rw [h, hb]

namespace Stores

theorem within (h : Stores c d) : c.Within d := by
  have hadd {block : Block} (new : c.block? block.hash = none)
      (blocks : ∀ h, d.block? h = if block.hash = h then some block else c.block? h) :
      c.Within d := by
    intro k b hb
    have hne : block.hash ≠ k := by
      rintro rfl
      rw [new] at hb
      cases hb
    rw [blocks, if_neg hne, hb]
  cases h with
  | same blocks _ => exact within_of_block?_eq blocks
  | bare new blocks _ => exact hadd new blocks
  | counted new blocks _ _ => exact hadd new blocks

theorem linked (h : Stores c d) (linked : c.Linked first) : d.Linked first := by
  have hwithin := h.within
  cases h with
  | same _ totals =>
    refine ⟨by rw [totals]; exact linked.start, fun hk ↦ hwithin.onBranch (linked.reaches ?_)⟩
    rwa [totals] at hk
  | bare _ _ totals =>
    refine ⟨by rw [totals]; exact linked.start, fun hk ↦ hwithin.onBranch (linked.reaches ?_)⟩
    rwa [totals] at hk
  | @counted block total _ blocks hparent totals =>
    have hself : d.block? block.hash = some block := by rw [blocks, if_pos rfl]
    have hreach : d.OnBranch block.hash first.hash :=
      .head ⟨block, hself, rfl⟩ (hwithin.onBranch (linked.reaches hparent))
    refine ⟨?_, fun {k} hk ↦ ?_⟩
    · rw [totals, Std.ExtTreeMap.getElem?_insert]
      split
      · rfl
      · exact linked.start
    · rw [totals, Std.ExtTreeMap.getElem?_insert] at hk
      split at hk
      · next he => exact Std.LawfulEqOrd.compare_eq_iff_eq.mp he ▸ hreach
      · exact hwithin.onBranch (linked.reaches hk)

end Stores

theorem within_of_stores (h : Relation.ReflTransGen Stores c d) : c.Within d := by
  induction h with
  | refl => exact .refl c
  | tail _ step ih => exact ih.trans step.within

/-- Over any number of imports totals lead to the first block. -/
theorem Linked.of_stores (linked : c.Linked first) (h : Relation.ReflTransGen Stores c d) :
    d.Linked first := by
  induction h with
  | refl => exact linked
  | tail _ step ih => exact step.linked ih

/-- A block that is stored before its parent gets a total if its parent has one. -/
theorem stores_withLoose {block : Block} (new : c.block? block.hash = none) :
    Stores c (c.withLoose block) := by
  cases hparent : c.totals[block.parent]? with
  | none =>
    refine .bare new (block?_withLoose c block) ?_
    simp only [withLoose, hparent]
  | some total =>
    have htotals : (c.withLoose block).totals =
        c.totals.insert block.hash (total + block.header.difficulty) := by
      simp only [withLoose, hparent]
    exact .counted new (block?_withLoose c block) (by rw [hparent]; rfl) htotals

/-- A fast import stores the block, if any, with a total if its parent has one. -/
theorem FastAttempt.stores {block : Block} {answer : Except ChainError ImportOutcome}
    (h : FastAttempt c block answer d) : Stores c d := by
  cases h with
  | failed _ => exact .same rfl rfl
  | exist _ => exact .same rfl rfl
  | invalid _ _ => exact .same rfl rfl
  | stored new _ => exact stores_withLoose new

/-- An attempt to link a block stores it, if it does, with a total if its parent has one. -/
theorem Attempt.stores {block : Block} {r : Except Fault ImportOutcome} (h : Attempt c block r d) :
    Stores c d := by
  cases h with
  | exist _ => exact .same rfl rfl
  | noParent _ _ => exact .same rfl rfl
  | noHeight _ _ _ => exact .same rfl rfl
  | invalid _ _ _ _ => exact .same rfl rfl
  | detached new _ _ _ => exact .bare new (getElem?_insert_block _ _) rfl
  | light new _ _ linked _ =>
    exact .counted new (block?_withTotal _ _ _) (by rw [linked]; rfl) rfl
  | @heavy _ total new _ _ linked _ _ =>
    exact .counted new (block?_withTotal c block (total + block.header.difficulty))
      (by rw [linked]; rfl) rfl
  | lastHead new _ _ linked _ _ =>
    exact .counted new (block?_withTotal _ _ _) (by rw [linked]; rfl) rfl

/-- In a new chain only the first block has a total. -/
theorem linked_new (start : Chain.new first = .ok c) : c.Linked first := by
  obtain ⟨d, hnew, -, htotals, -⟩ := exists_new (room_new start)
  rw [start] at hnew
  cases hnew
  refine ⟨by simp [htotals], fun {h} hh ↦ ?_⟩
  have hself : first.hash = h := by
    by_contra hne
    simp [htotals, hne] at hh
  rw [hself]
  exact .refl

/-! ### Where a walk along parents ends -/

/-- The parent that the block stored under a hash names, and the hash itself if there is none. -/
def parentAt (c : Chain) (h : Digest) : Digest := ((c.block? h).map Block.parent).getD h

theorem names_parentAt {h : Digest} (stored : (c.block? h).isSome) :
    c.Names h (c.parentAt h) := by
  obtain ⟨b, hb⟩ := Option.isSome_iff_exists.mp stored
  exact ⟨b, hb, by simp [parentAt, hb]⟩

/-- From a hash whose branch never ends the links of stored blocks run into a circle. -/
theorem exists_circle {h : Digest}
    (stored : ∀ i ≤ c.blocks.size, (c.block? (c.parentAt^[i] h)).isSome) :
    ∃ k, c.OnBranch h k ∧ Relation.TransGen c.Names k k := by
  have hstep {i : Nat} (hi : i ≤ c.blocks.size) :
      c.Names (c.parentAt^[i] h) (c.parentAt^[i + 1] h) := by
    rw [Function.iterate_succ_apply']
    exact names_parentAt (stored i hi)
  have hbranch (i : Nat) : i ≤ c.blocks.size → c.OnBranch h (c.parentAt^[i] h) := by
    induction i with
    | zero => exact fun _ ↦ .refl
    | succ i ih => exact fun hi ↦ .tail (ih (by omega)) (hstep (by omega))
  have hback {i : Nat} (j : Nat) : i + j + 1 ≤ c.blocks.size →
      Relation.TransGen c.Names (c.parentAt^[i] h) (c.parentAt^[i + j + 1] h) := by
    induction j with
    | zero => exact fun hi ↦ .single (hstep (by omega))
    | succ j ih => exact fun hi ↦ .tail (ih (by omega)) (hstep (by omega))
  -- There are more places on the walk than stored blocks.
  have hcard : c.blocks.keys.toFinset.card < (Finset.range (c.blocks.size + 1)).card := by
    rw [Finset.card_range, Nat.lt_succ_iff, ← Std.ExtTreeMap.length_keys]
    exact List.toFinset_card_le _
  have hplace (i : Nat) (hi : i ∈ Finset.range (c.blocks.size + 1)) :
      c.parentAt^[i] h ∈ c.blocks.keys.toFinset := by
    rw [List.mem_toFinset, Std.ExtTreeMap.mem_keys, Std.ExtTreeMap.mem_iff_isSome_getElem?]
    exact stored i (Nat.lt_succ_iff.mp (Finset.mem_range.mp hi))
  obtain ⟨i, hi, j, hj, hne, heq⟩ := Finset.exists_ne_map_eq_of_card_lt_of_maps_to hcard hplace
  rw [Finset.mem_range, Nat.lt_succ_iff] at hi hj
  have hcircle {i j : Nat} (hlt : i < j) (hj : j ≤ c.blocks.size)
      (heq : c.parentAt^[i] h = c.parentAt^[j] h) :
      ∃ k, c.OnBranch h k ∧ Relation.TransGen c.Names k k := by
    obtain ⟨n, rfl⟩ := Nat.exists_eq_add_of_lt hlt
    exact ⟨_, hbranch i (by omega), by simpa only [← heq] using hback n hj⟩
  rcases Nat.lt_or_gt_of_ne hne with hlt | hlt
  · exact hcircle hlt hj heq
  · exact hcircle hlt hi heq.symm

/-- Where a walk along parents that finds nothing missing can have ended: at a recorded total, at
height zero, or never. -/
theorem missingFrom_eq_none (fuel : Nat) :
    ∀ {number : UInt64} {parent : Digest}, c.missingFrom fuel number parent = none →
      number = 0 ∨ (∃ h, c.OnBranch parent h ∧ (c.totals[h]?).isSome) ∨
      (∃ h b, c.OnBranch parent h ∧ c.block? h = some b ∧ b.number = 0) ∨
      ∀ i < fuel, (c.block? (c.parentAt^[i] parent)).isSome := by
  induction fuel with
  | zero => exact fun _ ↦ .inr (.inr (.inr (by simp)))
  | succ fuel ih =>
    intro number parent hnone
    rw [missingFrom] at hnone
    split at hnone
    · next hstop =>
      simp only [Bool.or_eq_true, decide_eq_true_eq] at hstop
      rcases hstop with hzero | htotal
      · exact .inl hzero
      · exact .inr (.inl ⟨parent, .refl, htotal⟩)
    cases hp : c.block? parent with
    | none =>
      rw [hp] at hnone
      cases hnone
    | some b =>
      rw [hp] at hnone
      have hnames : c.Names parent b.parent := ⟨b, hp, rfl⟩
      rcases ih hnone with hzero | ⟨h, hh, htotal⟩ | ⟨h, z, hh, hz, hzero⟩ | hall
      · exact .inr (.inr (.inl ⟨parent, b, .refl, hp, hzero⟩))
      · exact .inr (.inl ⟨h, .head hnames hh, htotal⟩)
      · exact .inr (.inr (.inl ⟨h, z, .head hnames hh, hz, hzero⟩))
      · refine .inr (.inr (.inr fun i hi ↦ ?_))
        cases i with
        | zero => simp [hp]
        | succ i =>
          have hfirst : c.parentAt parent = b.parent := by simp [parentAt, hp]
          rw [Function.iterate_succ_apply, hfirst]
          exact hall i (by omega)

/-- What the branch of a pivot can be founded on in place of the first block. -/
inductive Founded (first : Block) (c : Chain) (pivot : Block) : Prop
  /-- The pivot is numbered zero, and is not the first block. -/
  | lowPivot (zero : pivot.number = 0) (other : pivot.hash ≠ first.hash)
  /-- A block below the pivot is numbered zero, and is not the first block. -/
  | lowBlock {h : Digest} {b : Block} (branch : c.OnBranch pivot.parent h)
    (stored : c.block? h = some b) (zero : b.number = 0) (other : h ≠ first.hash)
  /-- The block stored under the hash of the pivot has another parent. -/
  | reparented {b : Block} (stored : c.block? pivot.hash = some b) (other : b.parent ≠ pivot.parent)
  /-- The branch below the pivot runs into a circle. -/
  | circle {h : Digest} (branch : c.OnBranch pivot.parent h) (back : Relation.TransGen c.Names h h)

theorem Founded.mono {pivot : Block} (h : c.Founded first pivot) (hwithin : c.Within d) :
    d.Founded first pivot := by
  cases h with
  | lowPivot zero other => exact .lowPivot zero other
  | lowBlock branch stored zero other =>
    exact .lowBlock (hwithin.onBranch branch) (hwithin stored) zero other
  | reparented stored other => exact .reparented (hwithin stored) other
  | circle branch back =>
    refine .circle (hwithin.onBranch branch) (Relation.TransGen.mono ?_ _ _ back)
    exact fun _ _ ⟨b, hb, hparent⟩ ↦ ⟨b, hwithin hb, hparent⟩

/-- The block is stored in the chain that holds it. -/
theorem isSome_block?_holding (c : Chain) (block : Block) :
    ((c.holding block).block? block.hash).isSome := by
  rw [holding]
  split
  · assumption
  · simp [block?, withBlock]

/-- When no ancestor of a pivot is missing, its branch reaches the first block or is founded on
something else. -/
theorem Linked.branch_ends (linked : c.Linked first) {pivot : Block}
    (complete : c.missingAncestor pivot = none) :
    (c.holding pivot).OnBranch pivot.hash first.hash ∨ (c.holding pivot).Founded first pivot := by
  have hwithin := c.within_holding pivot
  obtain ⟨b, hb⟩ := Option.isSome_iff_exists.mp (c.isSome_block?_holding pivot)
  by_cases hparent : b.parent = pivot.parent
  case neg => exact .inr (.reparented hb hparent)
  have hbelow {h : Digest} (hh : c.OnBranch pivot.parent h) :
      (c.holding pivot).OnBranch pivot.hash h :=
    .head ⟨b, hb, hparent⟩ (hwithin.onBranch hh)
  rcases missingFrom_eq_none _ complete with hzero | ⟨h, hh, htotal⟩ | ⟨h, z, hh, hz, hzero⟩ | hall
  · by_cases hfirst : pivot.hash = first.hash
    · exact .inl (hfirst ▸ .refl)
    · exact .inr (.lowPivot hzero hfirst)
  · exact .inl ((hbelow hh).trans (hwithin.onBranch (linked.reaches htotal)))
  · by_cases hfirst : h = first.hash
    · exact .inl (hfirst ▸ hbelow hh)
    · exact .inr (.lowBlock (hwithin.onBranch hh) (hwithin hz) hzero hfirst)
  · obtain ⟨k, hk, hback⟩ := exists_circle fun i hi ↦ hall i (by omega)
    exact .inr (Founded.mono (.circle hk hback) hwithin)

/-! ### Promotion -/

/-- Makes a block the best one, corrects the chain and flushes it. -/
def promotion (pivot : Block) : Step Chain Unit := do
  setBest pivot
  correct
  modify flush

/-- The best block, and how often the chain was corrected and flushed. -/
def standing (c : Chain) : Digest × Nat × Nat := (c.best, c.corrections, c.flushes)

/-- The block that is stored under the hash of a pivot, once one is, is below the last height. -/
def HasRoom (c : Chain) (pivot : Block) : Prop :=
  ∃ b, (c.holding pivot).block? pivot.hash = some b ∧ b.number.toNat + 1 < UInt64.size

/-- Below the last height the block stored under a hash makes the hash the head. -/
theorem exists_setHead {head : Digest} {b : Block} (found : c.block? head = some b)
    (room : b.number.toNat + 1 < UInt64.size) :
    ∃ d, c.setHead head = .ok d ∧ d.block? = c.block? ∧
      d.standing = (head, c.corrections, c.flushes) := by
  rw [setHead_of_stored found, if_pos room]
  exact ⟨_, rfl, rfl, rfl⟩

/-- A promotion stores the block unless it is stored. If there is no room for the block, it faults
and leaves the best block and the counters alone. Otherwise the block is the best one afterwards,
and the chain is corrected once and flushed once. -/
theorem exec_promotion (c : Chain) (pivot : Block) :
    ((promotion pivot).leaves c).block? = (c.holding pivot).block? ∧
    (c.HasRoom pivot → ((promotion pivot).exec c).1 = .ok () ∧
      ((promotion pivot).leaves c).standing = (pivot.hash, c.corrections + 1, c.flushes + 1)) ∧
    (¬ c.HasRoom pivot → ((promotion pivot).exec c).1 = .error .additionOverflow ∧
      ((promotion pivot).leaves c).standing = c.standing) := by
  obtain ⟨b, hb⟩ := Option.isSome_iff_exists.mp (c.isSome_block?_holding pivot)
  have hdef : (if (c.block? pivot.hash).isSome then c
      else { c with blocks := c.blocks.insert pivot.hash pivot }) = c.holding pivot := rfl
  have hstanding : (c.holding pivot).standing = c.standing := by
    unfold holding
    split <;> rfl
  by_cases room : b.number.toNat + 1 < UInt64.size
  case pos =>
    obtain ⟨d, hset, hblocks, hd⟩ :=
      exists_setHead (c := (c.holding pivot).recordTotals pivot.hash) hb room
    have hbest : d.best = pivot.hash := congrArg Prod.fst hd
    -- The best block is the pivot now, so correcting the chain makes the same block the head.
    have found : (d.recordTotals d.best).block? d.best = some b := by
      rw [hbest, block?_recordTotals, hblocks]
      exact hb
    obtain ⟨e, hcorrect, hblocks', he⟩ := exists_setHead found room
    have hrun : (promotion pivot).exec c =
        (.ok (), { e with corrections := e.corrections + 1 }.flush) := by
      rw [promotion, setBest, correct]
      simp only [Step.exec_bind, Step.exec_get, Step.exec_set, Step.exec_lift, Step.exec_modify,
        hdef, hset, show (d.recordTotals d.best).best = d.best from rfl, hcorrect]
    have hcounts : e.standing = (pivot.hash, c.standing.2) := by
      calc e.standing = d.standing := he
        _ = (pivot.hash, (c.holding pivot).standing.2) := hd
        _ = (pivot.hash, c.standing.2) := by rw [hstanding]
    simp only [standing, Prod.mk.injEq] at hcounts
    obtain ⟨hhash, hcorrections, hflushes⟩ := hcounts
    rw [Step.leaves, hrun]
    refine ⟨hblocks'.trans hblocks, fun _ ↦ ⟨rfl, ?_⟩, fun full ↦ absurd ⟨b, hb, room⟩ full⟩
    simp only [standing, flush, hhash, hcorrections, hflushes]
  case neg =>
    have hhead := setHead_of_stored (c := (c.holding pivot).recordTotals pivot.hash) hb
    rw [if_neg room] at hhead
    have hrun : (promotion pivot).exec c =
        (.error .additionOverflow, (c.holding pivot).recordTotals pivot.hash) := by
      rw [promotion, setBest]
      simp only [Step.exec_bind, Step.exec_get, Step.exec_set, Step.exec_lift, hdef, hhead]
    rw [Step.leaves, hrun]
    refine ⟨rfl, fun hroom ↦ ?_, fun _ ↦ ⟨rfl, hstanding⟩⟩
    obtain ⟨b', hb', room'⟩ := hroom
    rw [hb] at hb'
    cases hb'
    exact absurd room' room

end Chain

namespace Seat

def latched (s : Seat) : Seat :=
  { s with engine := { s.engine with fast := { s.engine.fast with blocksComplete := true } } }

/-- A step over the chain leaves the rest of the seat. -/
theorem exec_chain {α : Type} (step : Step Chain α) (s : Seat) :
    (chainPart.run step).exec s =
      ((step.exec s.node.chain).1, s.withChain (step.leaves s.node.chain)) := rfl

/-- Promoting a pivot sets the latch first, whatever becomes of the promotion. -/
theorem exec_promote (pivot : Block) (s : Seat) :
    (promote pivot).exec s = (((Chain.promotion pivot).exec s.node.chain).1,
      s.latched.withChain ((Chain.promotion pivot).leaves s.node.chain)) := by
  have hlatch : (onFast fun f ↦ { f with blocksComplete := true }).exec s = (.ok (), s.latched) :=
    rfl
  rw [promote, Step.exec_bind_of_ok hlatch, Step.leaves, Chain.promotion, Step.exec_bind,
    Step.exec_bind, exec_chain, Step.leaves, show s.latched.node.chain = s.node.chain from rfl]
  cases (Chain.setBest pivot).exec s.node.chain with
  | mk r c =>
    cases r with
    | error e => rfl
    | ok _ =>
      dsimp only
      rw [Step.exec_bind, Step.exec_bind, exec_chain, Step.leaves,
        show (s.latched.withChain c).node.chain = c from rfl]
      cases Chain.correct.exec c with
      | mk r d => cases r <;> rfl

/-- Promoting a pivot counts block data as complete and stores the pivot unless it is stored;
without a fault it is the best block afterwards. -/
theorem exists_exec_promote (pivot : Block) (s : Seat) :
    ∃ r c, (promote pivot).exec s = (r, s.latched.withChain c) ∧
      c.block? = (s.node.chain.holding pivot).block? ∧ (r = .ok () → c.best = pivot.hash) := by
  obtain ⟨hblocks, hroom, hfull⟩ := s.node.chain.exec_promotion pivot
  refine ⟨_, _, exec_promote pivot s, hblocks, fun hanswer ↦ ?_⟩
  by_cases room : s.node.chain.HasRoom pivot
  · exact congrArg Prod.fst (hroom room).2
  · rw [(hfull room).1] at hanswer
    cases hanswer

/-- Promoting a pivot below the last height does not fault. -/
theorem promote_of_room {pivot b : Block} {s : Seat}
    (found : (s.node.chain.holding pivot).block? pivot.hash = some b)
    (room : b.number.toNat + 1 < UInt64.size) : ((promote pivot).exec s).1 = .ok () := by
  rw [exec_promote]
  exact ((s.node.chain.exec_promotion pivot).2.1 ⟨b, found, room⟩).1

/-- The check for block data answers at once after it was complete, and it promotes the pivot when
no block below it is missing. -/
theorem exec_isBlockDataComplete (s : Seat) :
    isBlockDataComplete.exec s =
      if s.engine.fast.blocksComplete then (.ok true, s)
      else match s.engine.fast.pivot with
        | none => (.ok false, s)
        | some pivot =>
          if s.reachesPivot pivot then
            (((promote pivot).exec s).1.map fun _ ↦ true, (promote pivot).leaves s)
          else (.ok false, s) := by
  rw [isBlockDataComplete, Step.exec_bind_of_ok (Step.exec_get s)]
  split
  · rfl
  cases s.engine.fast.pivot with
  | none => rfl
  | some pivot =>
    dsimp only
    split
    · rw [Step.exec_bind, Step.leaves]
      cases (promote pivot).exec s with
      | mk r t => cases r <;> rfl
    · rfl

/-- The check for block data says yes because it was complete before, or because it promotes the
pivot now. -/
theorem isBlockDataComplete_cases {s t : Seat}
    (complete : isBlockDataComplete.exec s = (.ok true, t)) :
    (s.engine.fast.blocksComplete = true ∧ t = s) ∨
    (s.engine.fast.blocksComplete = false ∧ ∃ pivot c, s.engine.fast.pivot = some pivot ∧
      s.node.chain.missingAncestor pivot = none ∧ t = s.latched.withChain c ∧
      c.block? = (s.node.chain.holding pivot).block? ∧ c.best = pivot.hash) := by
  rw [exec_isBlockDataComplete] at complete
  cases hlatch : s.engine.fast.blocksComplete with
  | true =>
    rw [hlatch] at complete
    cases complete
    exact .inl ⟨rfl, rfl⟩
  | false =>
    rw [hlatch] at complete
    refine .inr ⟨rfl, ?_⟩
    cases hpivot : s.engine.fast.pivot with
    | none =>
      rw [hpivot] at complete
      cases complete
    | some pivot =>
      rw [hpivot] at complete
      dsimp only at complete
      by_cases hreaches : s.reachesPivot pivot = true
      case neg =>
        rw [if_neg Bool.false_ne_true, if_neg hreaches] at complete
        cases complete
      case pos =>
        obtain ⟨r, c, hrun, hblocks, hbest⟩ := exists_exec_promote pivot s
        rw [if_neg Bool.false_ne_true, if_pos hreaches, Step.leaves, hrun] at complete
        rw [reachesPivot, Bool.and_eq_true, Option.isNone_iff_eq_none] at hreaches
        cases r with
        | error e => cases complete
        | ok _ =>
          cases complete
          exact ⟨pivot, c, rfl, hreaches.2, rfl, hblocks, hbest rfl⟩

/-! ### Runs -/

/-- From one seat to the other the chain only stored blocks, and the pivot and the latch of block
data stayed. -/
structure Gathers (s t : Seat) : Prop where
  /-- The pivot stays. -/
  pivot : t.engine.fast.pivot = s.engine.fast.pivot
  /-- The latch stays. -/
  latch : t.engine.fast.blocksComplete = s.engine.fast.blocksComplete
  /-- Blocks are stored one after the other. -/
  chain : Relation.ReflTransGen Chain.Stores s.node.chain t.node.chain

namespace Gathers

variable {s t u : Seat}

theorem refl (s : Seat) : Gathers s s := ⟨rfl, rfl, .refl⟩

theorem trans (h : Gathers s t) (h' : Gathers t u) : Gathers s u :=
  ⟨h'.pivot.trans h.pivot, h'.latch.trans h.latch, h.chain.trans h'.chain⟩

theorem within (h : Gathers s t) : s.node.chain.Within t.node.chain :=
  Chain.within_of_stores h.chain

theorem linked {first : Block} (h : Gathers s t) (linked : s.node.chain.Linked first) :
    t.node.chain.Linked first :=
  linked.of_stores h.chain

end Gathers

/-- The required block is stored if it is new and sealed, and its parent is required. -/
theorem exec_walkBlocks_sealed {block : Block} {w : PivotWalk} {s : Seat}
    (low : ¬ w.required.number < block.number) (named : block.hash = w.required.hash)
    (hfail : s.node.chain.nextFailure = none) (new : s.node.chain.block? block.hash = none)
    (isSealed : block.header.isSealed = true) (rest : List Block) :
    (walkBlocks (block :: rest) w).exec s =
      (walkBlocks rest (w.descend block)).exec
        (s.storedFast (s.node.chain.withLoose block) block) := by
  rw [exec_walkBlocks_cons, if_neg low, if_neg (by simpa using named),
    Chain.fastImport_of_sealed hfail new isSealed]

/-- Walking down some blocks only stores blocks. -/
theorem gathers_walkBlocks (blocks : List Block) (w : PivotWalk) (s : Seat) :
    Gathers s ((walkBlocks blocks w).leaves s) := by
  have hkeeps : Step.Keeps (Gathers s) (walkBlocks blocks w) := by
    apply keeps_walkBlocks
    · intro t block answer c h hattempt
      exact h.trans ⟨rfl, rfl, .single hattempt.stores⟩
    · intro t block h new
      exact h.trans ⟨rfl, rfl, .single (Chain.stores_withLoose new)⟩
    · intro t e h
      refine h.trans ⟨rfl, rfl, ?_⟩
      rw [chain_reportChainError]
  exact hkeeps (.refl s)

/-- Walking down a batch only stores blocks. -/
theorem gathers_walkPivotChain (target : BlockId) (batch : BlockBatch) (s : Seat) :
    Gathers s ((walkPivotChain target batch).leaves s) := by
  have hkeeps : Step.Keeps (Gathers s) (walkPivotChain target batch) := by
    apply keeps_walkPivotChain
    · exact fun w t h ↦ h.trans (gathers_walkBlocks _ w t)
    · exact fun _ _ h ↦ h.trans ⟨rfl, rfl, .refl⟩
    · exact fun _ _ h ↦ h.trans ⟨rfl, rfl, .refl⟩
  exact hkeeps (.refl s)

/-- Linking a list of blocks only stores blocks, also if it faults. -/
theorem gathers_connect (blocks : List Block) (s : Seat) :
    Gathers s ((chainPart.run (Chain.connect blocks)).leaves s) := by
  refine ⟨rfl, rfl, ?_⟩
  change Relation.ReflTransGen Chain.Stores s.node.chain
    ((Chain.connect blocks).exec s.node.chain).2
  rw [Chain.exec_connect]
  cases s.node.chain.nextFailure with
  | some e => exact .single (.same rfl rfl)
  | none =>
    have hstart : Relation.ReflTransGen Chain.Stores s.node.chain s.node.chain.takeFailure.2 :=
      .single (.same rfl rfl)
    have himport : Relation.ReflTransGen Chain.Stores s.node.chain
        ((Chain.importBlocks blocks .exist).exec s.node.chain.takeFailure.2).2 :=
      Chain.importBlocks_induction (fun _ hc ↦ hc.tail (.same rfl rfl))
        (fun hc ha ↦ hc.tail ha.stores) blocks hstart
    dsimp only
    cases hrun : (Chain.importBlocks blocks .exist).exec s.node.chain.takeFailure.2 with
    | mk r c =>
      rw [hrun] at himport
      cases r <;> exact himport

/-- The seats reached from the chain of a first block, without a pivot, by choosing pivots, walking
down batches of peers, linking lists of blocks and checking whether block data is complete, whatever
becomes of each. -/
inductive Synced (first : Block) : Seat → Prop
  /-- The chain holds the first block, and there is no pivot. -/
  | new {s : Seat} (start : Chain.new first = .ok s.node.chain)
    (pivot : s.engine.fast.pivot = none) (latch : s.engine.fast.blocksComplete = false) :
    Synced first s
  /-- A pivot is chosen. -/
  | choose {s : Seat} (run : Synced first s) (block : Block) :
    Synced first ((choosePivot block).leaves s)
  /-- A batch is walked down. -/
  | walk {s : Seat} (run : Synced first s) (target : BlockId) (batch : BlockBatch) :
    Synced first ((walkPivotChain target batch).leaves s)
  /-- A list of blocks is linked. -/
  | connect {s : Seat} (run : Synced first s) (blocks : List Block) :
    Synced first ((chainPart.run (Chain.connect blocks)).leaves s)
  /-- Block data is checked. -/
  | check {s : Seat} (run : Synced first s) : Synced first (isBlockDataComplete.leaves s)

/-- Either block data is not complete and totals lead to the first block, or the branch of the pivot
reaches the first block or is founded on something else. -/
inductive Warranted (first : Block) (s : Seat) : Prop
  /-- Block data is not complete. -/
  | before (latch : s.engine.fast.blocksComplete = false) (linked : s.node.chain.Linked first)
  /-- Block data is complete. -/
  | after {pivot : Block} (latch : s.engine.fast.blocksComplete = true)
    (chosen : s.engine.fast.pivot = some pivot)
    (ends : s.node.chain.OnBranch pivot.hash first.hash ∨ s.node.chain.Founded first pivot)

namespace Warranted

variable {first : Block} {s t : Seat}

/-- It stays so while blocks are stored. -/
theorem gathers (h : Warranted first s) (hst : Gathers s t) : Warranted first t := by
  cases h with
  | before latch linked => exact .before (hst.latch.trans latch) (hst.linked linked)
  | after latch chosen ends =>
    refine .after (hst.latch.trans latch) (hst.pivot.trans chosen) ?_
    exact ends.imp hst.within.onBranch fun h ↦ h.mono hst.within

/-- A pivot is only chosen while block data is not complete. -/
theorem choosePivot (h : Warranted first s) (block : Block) :
    Warranted first ((Seat.choosePivot block).leaves s) := by
  have hrun : (Seat.choosePivot block).leaves s = { s with engine :=
      { s.engine with fast := (s.engine.fast.updatePivot block).2 } } := rfl
  cases h with
  | before latch linked =>
    refine .before ?_ (by rw [hrun]; exact linked)
    rw [hrun]
    dsimp only
    rw [FastSync.updatePivot, if_neg (by simp [latch])]
    dsimp only
    have hforget : s.engine.fast.forgetPivot.blocksComplete = false := by
      rw [FastSync.forgetPivot]
      split <;> exact latch
    split <;> exact hforget
  | after latch chosen ends =>
    have hsame : (Seat.choosePivot block).leaves s = s := by
      rw [hrun, FastSync.updatePivot, if_pos latch]
    rw [hsame]
    exact .after latch chosen ends

/-- The check promotes only a pivot with no missing ancestor. -/
theorem isBlockDataComplete (h : Warranted first s) :
    Warranted first (Seat.isBlockDataComplete.leaves s) := by
  rw [Step.leaves, exec_isBlockDataComplete]
  split
  · exact h
  cases hpivot : s.engine.fast.pivot with
  | none => exact h
  | some pivot =>
    dsimp only
    split
    case isFalse => exact h
    case isTrue hreaches =>
      cases h with
      | after latch _ _ => contradiction
      | before _ linked =>
        obtain ⟨r, c, hrun, hblocks, -⟩ := exists_exec_promote pivot s
        rw [Step.leaves, hrun]
        refine .after rfl hpivot ?_
        have hmissing : s.node.chain.missingAncestor pivot = none := by
          rw [reachesPivot, Bool.and_eq_true, Option.isNone_iff_eq_none] at hreaches
          exact hreaches.2
        have hwithin := Chain.within_of_block?_eq hblocks
        exact (linked.branch_ends hmissing).imp hwithin.onBranch fun h ↦ h.mono hwithin

end Warranted

/-- Every seat of a run is in one of the two cases. -/
theorem Synced.warranted {first : Block} {s : Seat} (run : Synced first s) : Warranted first s := by
  induction run with
  | new start _ latch => exact .before latch (Chain.linked_new start)
  | choose _ block ih => exact ih.choosePivot block
  | walk _ target batch ih => exact ih.gathers (gathers_walkPivotChain target batch _)
  | connect _ blocks ih => exact ih.gathers (gathers_connect blocks _)
  | check _ ih => exact ih.isBlockDataComplete

/-- When block data is said to be complete, the branch of the pivot reaches the first block or is
founded on something else. At the promotion the pivot becomes the best block, and its branch reaches
the first block exactly when a block of it had a total before. -/
theorem Synced.reaches_or_founded {first : Block} {s t : Seat} (run : Synced first s)
    (complete : isBlockDataComplete.exec s = (.ok true, t)) :
    ∃ pivot, t.engine.fast.pivot = some pivot ∧
      (t.node.chain.OnBranch pivot.hash first.hash ∨ t.node.chain.Founded first pivot) ∧
      (s.engine.fast.blocksComplete = false →
        t.node.chain.best = pivot.hash ∧
        (t.node.chain.OnBranch pivot.hash first.hash ↔
          ∃ h, t.node.chain.OnBranch pivot.hash h ∧ (s.node.chain.totals[h]?).isSome)) := by
  rcases isBlockDataComplete_cases complete with ⟨latch, rfl⟩ | ⟨latch, pivot, c, chosen, hmissing,
    rfl, hblocks, hbest⟩
  · cases run.warranted with
    | before open' _ => simp [latch] at open'
    | after _ chosen ends => exact ⟨_, chosen, ends, by simp [latch]⟩
  · cases run.warranted with
    | after closed _ _ => simp [latch] at closed
    | before _ linked =>
      have hholds := Chain.within_of_block?_eq hblocks
      have hwithin : s.node.chain.Within c := (s.node.chain.within_holding pivot).trans hholds
      refine ⟨pivot, chosen, ?_, fun _ ↦ ⟨hbest, ?_, ?_⟩⟩
      · exact (linked.branch_ends hmissing).imp hholds.onBranch fun h ↦ h.mono hholds
      · exact fun hbranch ↦ ⟨first.hash, hbranch, linked.start⟩
      · exact fun ⟨h, hbranch, htotal⟩ ↦ hbranch.trans (hwithin.onBranch (linked.reaches htotal))

/-! ### A pivot over another block numbered zero -/

/-- A sealed block numbered zero that is not the first block. -/
def groundless : Block := .make 0 .zero 1 1 [] .zero

def afloat : Block := .make 1 groundless.hash 1 0 [] .zero

theorem nodup_afloat :
    [Block.genesis.hash, groundless.hash, afloat.hash, Digest.zero].Nodup := by
  decide +kernel

/-- Among these blocks the branch of the pivot does not reach the first block. -/
theorem not_onBranch_afloat {c : Chain}
    (hblock : ∀ h, c.block? h = if groundless.hash = h then some groundless
      else if afloat.hash = h then some afloat
      else if Block.genesis.hash = h then some .genesis else none) :
    ¬ c.OnBranch afloat.hash Block.genesis.hash := by
  have hdistinct := nodup_afloat
  simp only [List.nodup_cons, List.mem_cons, List.not_mem_nil, or_false, not_or] at hdistinct
  obtain ⟨⟨hne₁, hne₂, hne₀⟩, ⟨hne₁₂, hne₁₀⟩, hne₂₀, -⟩ := hdistinct
  have honly {h : Digest} (hh : c.OnBranch afloat.hash h) :
      h = afloat.hash ∨ h = groundless.hash ∨ h = Digest.zero := by
    induction hh with
    | refl => exact .inl rfl
    | tail _ hnames ih =>
      obtain ⟨b, hb, rfl⟩ := hnames
      rw [hblock] at hb
      rcases ih with rfl | rfl | rfl
      · rw [if_neg hne₁₂, if_pos rfl] at hb
        cases hb
        exact .inr (.inl rfl)
      · rw [if_pos rfl] at hb
        cases hb
        exact .inr (.inr rfl)
      · rw [if_neg hne₁₀, if_neg hne₂₀, if_neg hne₀] at hb
        cases hb
  intro hbranch
  rcases honly hbranch with h | h | h
  · exact hne₂ h
  · exact hne₁ h
  · exact hne₀ h

/-- A peer sends a pivot and the block below it, which is numbered zero, and the pivot is promoted
over the chain of the first block of every chain. -/
theorem exists_promoted_afloat :
    ∃ s t, Synced .genesis s ∧ isBlockDataComplete.exec s = (.ok true, t) ∧
      t.engine.fast.pivot = some afloat ∧ t.node.chain.best = afloat.hash ∧
      ∀ h, t.node.chain.block? h = if groundless.hash = h then some groundless
        else if afloat.hash = h then some afloat
        else if Block.genesis.hash = h then some .genesis else none := by
  have hdistinct := nodup_afloat
  simp only [List.nodup_cons, List.mem_cons, List.not_mem_nil, or_false, not_or] at hdistinct
  obtain ⟨⟨hne₁, hne₂, hne₀⟩, ⟨hne₁₂, hne₁₀⟩, hne₂₀, -⟩ := hdistinct
  obtain ⟨c, hnew, hblocks, htotals, hindex, -, -, hfail⟩ := Chain.exists_new Chain.room_genesis
  have hblock (h : Digest) :
      c.block? h = if Block.genesis.hash = h then some .genesis else none := by
    rw [Chain.block?, hblocks, Chain.getElem?_insert_block]
    simp
  have htotal (h : Digest) (hh : Block.genesis.hash ≠ h) : c.totals[h]? = none := by
    simp [htotals, hh]
  -- The pivot is chosen and the batch is walked down.
  obtain ⟨s, hs⟩ : ∃ s, s = (choosePivot afloat).leaves (genesisSeat c) := ⟨_, rfl⟩
  have hchain : s.node.chain = c := hs ▸ rfl
  have hrun : Synced .genesis s := hs ▸ .choose (.new hnew rfl rfl) afloat
  obtain ⟨next, w, t, u, hwalk, hblocks', hstored⟩ := exists_walkPivotChain afloat.id
    ⟨.ofNat 1, "peer-1", [afloat, groundless]⟩ s
  have hgathers := gathers_walkPivotChain afloat.id ⟨.ofNat 1, "peer-1", [afloat, groundless]⟩ s
  have hrun' := hrun.walk afloat.id ⟨.ofNat 1, "peer-1", [afloat, groundless]⟩
  rw [Step.leaves, hwalk] at hgathers hrun'
  have hend : t.node.chain = (c.withLoose afloat).withLoose groundless := by
    rw [exec_walkBlocks_sealed (by decide : ¬ (1 : UInt64) < 1) rfl (hchain ▸ hfail)
      (by rw [hchain, hblock, if_neg hne₂]) (Header.isSealed_sealed _),
      exec_walkBlocks_sealed (by decide : ¬ (0 : UInt64) < 0) rfl (hchain ▸ hfail) ?_
      (Header.isSealed_sealed _)] at hblocks'
    · cases hblocks'
      rw [hstored, ← hchain]
      rfl
    · change (s.node.chain.withLoose afloat).block? groundless.hash = none
      rw [hchain, Chain.block?_withLoose, if_neg (Ne.symm hne₁₂), hblock, if_neg hne₁]
  have hlatch : t.engine.fast.blocksComplete = false := hgathers.latch.trans (hs ▸ rfl)
  have hpivot : t.engine.fast.pivot = some afloat := hgathers.pivot.trans (hs ▸ rfl)
  have hfound (h : Digest) : t.node.chain.block? h = if groundless.hash = h then some groundless
      else if afloat.hash = h then some afloat
      else if Block.genesis.hash = h then some .genesis else none := by
    rw [hend, Chain.block?_withLoose, Chain.block?_withLoose, hblock]
  -- The check comes to a block numbered zero, and nothing is missing.
  have htotals' : t.node.chain.totals = c.totals := by
    rw [hend]
    simp only [Chain.withLoose]
    rw [show afloat.parent = groundless.hash from rfl, htotal _ hne₁]
    dsimp only
    rw [show groundless.parent = Digest.zero from rfl, htotal _ hne₀]
  have hmissing : t.node.chain.missingAncestor afloat = none := by
    have hbelow : t.node.chain.block? groundless.hash = some groundless := by
      rw [hfound, if_pos rfl]
    have hstop (fuel : Nat) (parent : Digest) : t.node.chain.missingFrom fuel 0 parent = none := by
      cases fuel <;> rfl
    rw [Chain.missingAncestor, Chain.missingFrom, show afloat.parent = groundless.hash from rfl,
      htotals', htotal _ hne₁, if_neg (by decide +kernel), hbelow]
    exact hstop _ _
  have hlevel : t.node.chain.hasBlockAt 1 = true := by
    rw [Chain.hasBlockAt, Chain.canonicalHash?, hend]
    simp only [Chain.withLoose]
    rw [Canonical.byNumber_put, if_neg (show groundless.number ≠ 1 by decide +kernel),
      Canonical.byNumber_put, if_pos (show afloat.number = 1 from rfl)]
    rfl
  have hholding : t.node.chain.holding afloat = t.node.chain := by
    rw [Chain.holding, if_pos]
    rw [hfound, if_neg hne₁₂, if_pos rfl]
    rfl
  have hroom : afloat.number.toNat + 1 < UInt64.size :=
    (by decide : (1 : UInt64).toNat + 1 < UInt64.size)
  have hpromote : ((promote afloat).exec t).1 = .ok () :=
    promote_of_room (by rw [hholding, hfound, if_neg hne₁₂, if_pos rfl]) hroom
  obtain ⟨r, d, hpromoted, hblocks'', hbest⟩ := exists_exec_promote afloat t
  rw [hpromoted] at hpromote
  refine ⟨t, t.latched.withChain d, hrun', ?_, hpivot, hbest hpromote, fun h ↦ ?_⟩
  · rw [exec_isBlockDataComplete, hlatch, hpivot, if_neg Bool.false_ne_true]
    dsimp only
    rw [if_pos (by rw [reachesPivot, hlevel, hmissing]; rfl), Step.leaves, hpromoted, hpromote]
    rfl
  · change d.block? h = _
    rw [hblocks'', hholding, hfound]

/-- Block data is said to be complete, and the branch of the promoted pivot does not reach the first
block. -/
theorem exists_promoted_groundless :
    ∃ s t, Synced .genesis s ∧ isBlockDataComplete.exec s = (.ok true, t) ∧
      t.engine.fast.pivot = some afloat ∧ t.node.chain.best = afloat.hash ∧
      ¬ t.node.chain.OnBranch afloat.hash Block.genesis.hash := by
  obtain ⟨s, t, hrun, hcheck, hpivot, hbest, hblock⟩ := exists_promoted_afloat
  exact ⟨s, t, hrun, hcheck, hpivot, hbest, not_onBranch_afloat hblock⟩

/-- What is said of a complete run holds of this one, whose pivot is over another block numbered
zero. -/
theorem reaches_or_founded_afloat :
    ∃ s t, Synced .genesis s ∧ isBlockDataComplete.exec s = (.ok true, t) ∧
      t.engine.fast.pivot = some afloat ∧ t.node.chain.Founded .genesis afloat := by
  obtain ⟨s, t, hrun, hcheck, hpivot, -, hblock⟩ := exists_promoted_afloat
  obtain ⟨pivot, hpivot', hends, -⟩ := hrun.reaches_or_founded hcheck
  rw [hpivot] at hpivot'
  cases hpivot'
  exact ⟨s, t, hrun, hcheck, hpivot, hends.resolve_left (not_onBranch_afloat hblock)⟩

end Seat
end ChainSync
