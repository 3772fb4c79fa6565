import ChainSync.Chain.FastImport
import ChainSync.Proofs.Chain.Growth
import Mathlib.Logic.Relation

/-!
# Blocks stored before their parents

What a fast import can do, one case for each way in which it ends, and the branch of a hash: what
is met on following the parent links of stored blocks from it. A branch only grows with the blocks
stored, and the first missing ancestor of a block is on the branch of the parent that it names.
-/

namespace ChainSync
namespace Chain

/-- The chain with one more block, canonical at its height, whose parent may be missing. -/
def withLoose (c : Chain) (block : Block) : Chain :=
  { c with
    totals := match c.totals[block.parent]? with
      | some parentTotal => c.totals.insert block.hash (parentTotal + block.header.difficulty)
      | none => c.totals
    blocks := c.blocks.insert block.hash block
    canonical := c.canonical.put block.number block.hash }

/-- How a fast import ends, and the chain that it leaves. -/
inductive FastAttempt (c : Chain) (block : Block) : Except ChainError ImportOutcome → Chain → Prop
  /-- An error is set for this import. -/
  | failed {e : ChainError} (set : c.nextFailure = some e) :
    FastAttempt c block (.error e) c.takeFailure.2
  /-- A block is stored under the hash. -/
  | exist (stored : (c.block? block.hash).isSome) : FastAttempt c block (.ok .exist) c
  /-- The hash is not the digest of the other fields. -/
  | invalid (new : c.block? block.hash = none) (unsealed : block.header.isSealed = false) :
    FastAttempt c block (.ok .invalid) c
  /-- The block is stored. -/
  | stored (new : c.block? block.hash = none) (isSealed : block.header.isSealed = true) :
    FastAttempt c block (.ok (.imported false)) (c.withLoose block)

theorem takeFailure_of_none {c : Chain} (h : c.nextFailure = none) : c.takeFailure = (none, c) := by
  cases c
  simp_all [takeFailure]

/-- A block whose hash is stored is not stored again, whatever its other fields are. -/
theorem fastImport_of_stored {c : Chain} {block : Block} (hfail : c.nextFailure = none)
    (stored : (c.block? block.hash).isSome) : c.fastImport block = (.ok .exist, c) := by
  rw [fastImport, takeFailure_of_none hfail]
  dsimp only
  rw [if_pos stored]

/-- A sealed block is stored whether or not its parent is. -/
theorem fastImport_of_sealed {c : Chain} {block : Block} (hfail : c.nextFailure = none)
    (new : c.block? block.hash = none) (isSealed : block.header.isSealed = true) :
    c.fastImport block = (.ok (.imported false), c.withLoose block) := by
  rw [fastImport, takeFailure_of_none hfail]
  dsimp only
  rw [if_neg (by simp [new]), if_neg (by simp [isSealed])]
  rfl

/-- Every fast import ends in one of the cases. -/
theorem fastAttempt_fastImport (c : Chain) (block : Block) :
    FastAttempt c block (c.fastImport block).1 (c.fastImport block).2 := by
  cases hfail : c.nextFailure with
  | some e =>
    have : c.fastImport block = (.error e, c.takeFailure.2) := by
      simp [fastImport, takeFailure, hfail]
    rw [this]
    exact .failed hfail
  | none =>
    cases hnew : c.block? block.hash with
    | some b =>
      have hs : (c.block? block.hash).isSome := by simp [hnew]
      rw [fastImport_of_stored hfail hs]
      exact .exist hs
    | none =>
      by_cases hsealed : block.header.isSealed = true
      · rw [fastImport_of_sealed hfail hnew hsealed]
        exact .stored hnew hsealed
      · have hopen : block.header.isSealed = false := by simpa using hsealed
        rw [fastImport, takeFailure_of_none hfail]
        dsimp only
        rw [if_neg (by simp [hnew]), if_pos (by simp [hopen])]
        exact .invalid hnew hopen

/-- What holds of a chain whatever error was set, and after each block stored before its parent, is
kept by a fast import. -/
theorem keeps_fastImport {P : Chain → Prop} (taken : ∀ {c : Chain}, P c → P c.takeFailure.2)
    (loose : ∀ {c : Chain} {block : Block}, P c → c.block? block.hash = none →
      P (c.withLoose block))
    {c : Chain} (block : Block) (hc : P c) : P (c.fastImport block).2 := by
  have ha := fastAttempt_fastImport c block
  cases hx : c.fastImport block with
  | mk answer d =>
    rw [hx] at ha
    cases ha with
    | failed _ => exact taken hc
    | exist _ | invalid _ _ => exact hc
    | stored new _ => exact loose hc new

theorem block?_withLoose (c : Chain) (block : Block) (h : Digest) :
    (c.withLoose block).block? h = if block.hash = h then some block else c.block? h :=
  getElem?_insert_block ..

/-! ### Branches -/

/-- The block stored under a hash names this parent. -/
def Names (c : Chain) (h parent : Digest) : Prop :=
  ∃ b, c.block? h = some b ∧ b.parent = parent

/-- The hash is the tip or is met on following the parent links of stored blocks from it. -/
def OnBranch (c : Chain) (tip h : Digest) : Prop := Relation.ReflTransGen c.Names tip h

/-- Every block of the first chain is stored in the second one under the same hash. -/
def Within (c d : Chain) : Prop :=
  ∀ ⦃h : Digest⦄ ⦃b : Block⦄, c.block? h = some b → d.block? h = some b

namespace Within

variable {c d e : Chain} {tip h : Digest}

theorem refl (c : Chain) : c.Within c := fun _ _ hb ↦ hb

theorem trans (hcd : c.Within d) (hde : d.Within e) : c.Within e := fun _ _ hb ↦ hde (hcd hb)

theorem withLoose {block : Block} (new : c.block? block.hash = none) :
    c.Within (c.withLoose block) := by
  intro h b hb
  have hne : block.hash ≠ h := by
    rintro rfl
    rw [new] at hb
    cases hb
  rw [block?_withLoose, if_neg hne, hb]

/-- A branch only grows with the blocks stored. -/
theorem onBranch (hcd : c.Within d) (hh : c.OnBranch tip h) : d.OnBranch tip h :=
  Relation.ReflTransGen.mono (fun _ _ ⟨b, hb, hparent⟩ ↦ ⟨b, hcd hb, hparent⟩) _ _ hh

/-- What is missing in the larger chain is missing in the smaller one. -/
theorem missing (hcd : c.Within d) (hh : d.block? h = none) : c.block? h = none := by
  cases hc : c.block? h with
  | none => rfl
  | some b =>
    rw [hcd hc] at hh
    cases hh

end Within

/-- With a hash whose block is stored, the parent that it names is on the branch. -/
theorem OnBranch.parent {c : Chain} {tip h : Digest} {b : Block} (hh : c.OnBranch tip h)
    (hb : c.block? h = some b) : c.OnBranch tip b.parent :=
  Relation.ReflTransGen.tail hh ⟨b, hb, rfl⟩

/-- The walk to the first missing ancestor ends at a hash of the branch that is not stored. -/
theorem missingFrom_spec {c : Chain} (fuel : Nat) :
    ∀ {number : UInt64} {parent : Digest} {m : BlockId},
      c.missingFrom fuel number parent = some m →
      c.block? m.hash = none ∧ c.OnBranch parent m.hash := by
  induction fuel with
  | zero =>
    intro number parent m hm
    cases hm
  | succ fuel ih =>
    intro number parent m hm
    rw [missingFrom] at hm
    split at hm
    · cases hm
    · cases hp : c.block? parent with
      | none =>
        rw [hp] at hm
        cases hm
        exact ⟨hp, .refl⟩
      | some ancestor =>
        rw [hp] at hm
        obtain ⟨hmissing, hbranch⟩ := ih hm
        exact ⟨hmissing, .head ⟨ancestor, hp, rfl⟩ hbranch⟩

/-- The first missing ancestor of a block is not stored, and it is on the branch of the parent that
the block names. -/
theorem missingAncestor_spec {c : Chain} {block : Block} {m : BlockId}
    (hm : c.missingAncestor block = some m) :
    c.block? m.hash = none ∧ c.OnBranch block.parent m.hash :=
  missingFrom_spec _ hm

end Chain
end ChainSync
