import ChainSync.Chain.Import
import ChainSync.Proofs.Step

/-!
# What an attempt to link a block can do

One case for each way in which linking a block ends, with what has to hold for it and the chain it
leaves. Everything else that is proved about linked blocks goes by these cases.
-/

namespace ChainSync

/-- A block is sealed, has the body that it names, and stands one above its parent. -/
structure Block.Follows (block parent : Block) : Prop where
  /-- The heights are consecutive. -/
  number : parent.number.toNat + 1 = block.number.toNat
  /-- The hash is the digest of the other fields. -/
  isSealed : block.header.isSealed = true
  /-- The body is the one that the header names. -/
  hasMatchingBody : block.hasMatchingBody = true

namespace Chain

/-- The chain with one more block, which is not linked to the first one. -/
def withBlock (c : Chain) (block : Block) : Chain :=
  { c with blocks := c.blocks.insert block.hash block }

/-- The chain with one more block, which has this total difficulty. -/
def withTotal (c : Chain) (block : Block) (total : Difficulty) : Chain :=
  { c with
    blocks := c.blocks.insert block.hash block
    totals := c.totals.insert block.hash total }

/-- The chain whose canonical branch ends at a block. -/
def withHead (c : Chain) (block : Block) : Chain :=
  { c with
    canonical :=
      relink c.blocks (2 * c.blocks.size) block.hash (c.canonical.cutAbove block.number)
    best := block.hash }

/-- The hash of a block that is about to be linked counts as handed over. -/
def withHanded (c : Chain) (hash : Digest) : Chain := { c with handed := hash :: c.handed }

/-- How an attempt to link a block ends, and the chain that it leaves. -/
inductive Attempt (c : Chain) (block : Block) : Except Fault ImportOutcome → Chain → Prop
  /-- A block is stored under the hash. -/
  | exist (stored : (c.block? block.hash).isSome) : Attempt c block (.ok .exist) c
  /-- No block is stored under the hash of the parent. -/
  | noParent (new : c.block? block.hash = none) (orphan : c.block? block.parent = none) :
    Attempt c block (.ok .noParent) c
  /-- There is no height above the parent. -/
  | noHeight {parent : Block} (new : c.block? block.hash = none)
      (found : c.block? block.parent = some parent)
      (full : UInt64.size ≤ parent.number.toNat + 1) :
    Attempt c block (.error .additionOverflow) c
  /-- The block breaks a rule. -/
  | invalid {parent : Block} (new : c.block? block.hash = none)
      (found : c.block? block.parent = some parent)
      (room : parent.number.toNat + 1 < UInt64.size) (misfit : ¬ block.Follows parent) :
    Attempt c block (.ok .invalid) c
  /-- The parent is not linked to the first block. -/
  | detached {parent : Block} (new : c.block? block.hash = none)
      (found : c.block? block.parent = some parent) (fits : block.Follows parent)
      (loose : c.totals[block.parent]? = none) :
    Attempt c block (.ok (.imported false)) (c.withBlock block)
  /-- The block is linked on a branch that is not the heaviest. -/
  | light {parent : Block} {total : Difficulty} (new : c.block? block.hash = none)
      (found : c.block? block.parent = some parent) (fits : block.Follows parent)
      (linked : c.totals[block.parent]? = some total)
      (light : ¬ (c.withTotal block (total + block.header.difficulty)).totalDifficulty <
        total + block.header.difficulty) :
    Attempt c block (.ok (.imported false)) (c.withTotal block (total + block.header.difficulty))
  /-- The block is linked on the heaviest branch and becomes its head. -/
  | heavy {parent : Block} {total : Difficulty} (new : c.block? block.hash = none)
      (found : c.block? block.parent = some parent) (fits : block.Follows parent)
      (linked : c.totals[block.parent]? = some total)
      (heavy : (c.withTotal block (total + block.header.difficulty)).totalDifficulty <
        total + block.header.difficulty)
      (room : block.number.toNat + 1 < UInt64.size) :
    Attempt c block (.ok (.imported true))
      ((c.withTotal block (total + block.header.difficulty)).withHead block)
  /-- The block is linked on the heaviest branch, and there is no height above it. -/
  | lastHead {parent : Block} {total : Difficulty} (new : c.block? block.hash = none)
      (found : c.block? block.parent = some parent) (fits : block.Follows parent)
      (linked : c.totals[block.parent]? = some total)
      (heavy : (c.withTotal block (total + block.header.difficulty)).totalDifficulty <
        total + block.header.difficulty)
      (full : UInt64.size ≤ block.number.toNat + 1) :
    Attempt c block (.error .additionOverflow)
      (c.withTotal block (total + block.header.difficulty))

/-- The rules for a block hold exactly when none of the three checks refuses it. -/
theorem follows_iff {block parent : Block} {next : UInt64}
    (h : checkedAdd parent.number 1 = .ok next) :
    block.Follows parent ↔
      (decide (next ≠ block.number) || !block.header.isSealed || !block.hasMatchingBody) =
        false := by
  have hn : next.toNat = parent.number.toNat + 1 := checkedAdd_eq_ok_iff.mp h
  have hnum : next = block.number ↔ parent.number.toNat + 1 = block.number.toNat := by
    rw [← UInt64.toNat_inj, hn]
  constructor
  · rintro ⟨h₁, h₂, h₃⟩
    simp [h₂, h₃, hnum.mpr h₁]
  · intro hc
    simp only [ne_eq, Bool.or_eq_false_iff, decide_eq_false_iff_not, Decidable.not_not,
      Bool.not_eq_false'] at hc
    exact ⟨hnum.mp hc.1.1, hc.1.2, hc.2⟩

/-- The block stored under a hash makes the hash the head unless it stands at the last height. -/
theorem setHead_of_stored {c : Chain} {head : Digest} {block : Block}
    (h : c.block? head = some block) :
    c.setHead head =
      if block.number.toNat + 1 < UInt64.size then
        .ok { c with
          canonical := relink c.blocks (2 * c.blocks.size) head (c.canonical.cutAbove block.number)
          best := head }
      else .error .additionOverflow := by
  rw [setHead, h]
  by_cases hroom : block.number.toNat + 1 < UInt64.size
  · have : checkedAdd block.number 1 = .ok (block.number + 1) := isOk_checkedAdd_iff.mpr hroom
    rw [if_pos hroom]
    simp only [this]
    rfl
  · have : checkedAdd block.number 1 = .error .additionOverflow :=
      checkedAdd_eq_error_iff.mpr ⟨by simpa using hroom, rfl⟩
    rw [if_neg hroom]
    simp only [this]
    rfl

/-- A stored block becomes the head unless it stands at the last height. -/
theorem setHead_of_block? {c : Chain} {head : Digest} {block : Block}
    (h : c.block? head = some block) (hash : block.hash = head) :
    c.setHead head =
      if block.number.toNat + 1 < UInt64.size then .ok (c.withHead block)
      else .error .additionOverflow := by
  subst hash
  exact setHead_of_stored h

@[simp] theorem block?_withHead (c : Chain) (block : Block) (h : Digest) :
    (c.withHead block).block? h = c.block? h := rfl

@[simp] theorem totals_withHead (c : Chain) (block : Block) :
    (c.withHead block).totals = c.totals := rfl

@[simp] theorem block?_withTotal_self (c : Chain) (block : Block) (total : Difficulty) :
    (c.withTotal block total).block? block.hash = some block := by
  simp [withTotal, block?]

/-- Every attempt to link a block ends in one of the cases. -/
theorem attempt_importBlock (c : Chain) (block : Block) :
    Attempt c block ((importBlock block).exec c).1 ((importBlock block).exec c).2 := by
  unfold importBlock
  simp only [Step.exec_bind, Step.exec_get]
  by_cases hs : (c.block? block.hash).isSome
  · rw [if_pos hs]
    exact .exist hs
  have hnew : c.block? block.hash = none := by simpa using hs
  rw [if_neg hs]
  cases hp : c.block? block.parent with
  | none => exact .noParent hnew hp
  | some parent =>
    simp only [Step.exec_bind, Step.exec_lift]
    cases hn : checkedAdd parent.number 1 with
    | error e =>
      obtain ⟨hfull, rfl⟩ := checkedAdd_eq_error_iff.mp hn
      exact .noHeight hnew hp (by simpa using hfull)
    | ok next =>
      have hparent : parent.number.toNat + 1 < UInt64.size := by
        have hnext : next.toNat = parent.number.toNat + 1 := checkedAdd_eq_ok_iff.mp hn
        have := next.toNat_lt_size
        omega
      dsimp only
      by_cases hc : (decide (next ≠ block.number) || !block.header.isSealed ||
          !block.hasMatchingBody) = true
      · have hmisfit : ¬ block.Follows parent := by
          intro hf
          rw [(follows_iff hn).mp hf] at hc
          cases hc
        rw [if_pos hc]
        exact .invalid hnew hp hparent hmisfit
      · have hfits : block.Follows parent := (follows_iff hn).mpr (by simpa using hc)
        rw [if_neg hc]
        cases ht : c.totals[block.parent]? with
        | none => exact .detached hnew hp hfits ht
        | some total =>
          have hdef : { c with
              blocks := c.blocks.insert block.hash block
              totals := c.totals.insert block.hash (total + block.header.difficulty) } =
              c.withTotal block (total + block.header.difficulty) := rfl
          simp only [Step.exec_bind, Step.exec_set, hdef]
          split
          · next hheavy =>
            simp only [Step.exec_bind, Step.exec_lift]
            rw [setHead_of_block? (block?_withTotal_self ..) rfl]
            by_cases hroom : block.number.toNat + 1 < UInt64.size
            · rw [if_pos hroom]
              exact .heavy hnew hp hfits ht hheavy hroom
            · rw [if_neg hroom]
              exact .lastHead hnew hp hfits ht hheavy (Nat.not_lt.mp hroom)
          · next hlight => exact .light hnew hp hfits ht hlight

/-- An attempt to link a block leaves the error set for the next import and pruning alone. -/
theorem Attempt.frame {c c' : Chain} {block : Block} {r : Except Fault ImportOutcome}
    (ha : Attempt c block r c') :
    c'.nextFailure = c.nextFailure ∧ c'.pruneFloor = c.pruneFloor := by
  cases ha <;> exact ⟨rfl, rfl⟩

/-- An attempt to link a block leaves alone what was handed over. -/
theorem Attempt.handed {c d : Chain} {block : Block} {r : Except Fault ImportOutcome}
    (ha : Attempt c block r d) : d.handed = c.handed := by
  cases ha <;> rfl

end Chain
end ChainSync
