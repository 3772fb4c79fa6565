import ChainSync.Proofs.Chain.Attempt
import ChainSync.Proofs.Chain.Canonical
import Mathlib.Tactic.ByContra

/-!
# Branches of rooted blocks and the walk that relinks the index

A store of blocks is rooted when every block but the first one follows a stored parent. An index is
closed over it when with each entry it holds the parent's. The walk down from a new head may stop
at the first height at which the index agrees, because the index it started from was closed: every
entry except the one right above the cursor still has its parent's entry.
-/

namespace ChainSync
namespace Chain

abbrev BlockMap := Std.ExtTreeMap Digest Block

/-- Every block but the first one follows a stored parent, and stands under its own hash. -/
structure Rooted (first : Block) (blocks : BlockMap) : Prop where
  /-- A block stands under its own hash. -/
  hash_eq {h : Digest} {b : Block} : blocks[h]? = some b → b.hash = h
  /-- The first block is stored. -/
  first_stored : blocks[first.hash]? = some first
  /-- Every other block follows a stored parent. -/
  follows {h : Digest} {b : Block} : blocks[h]? = some b → h ≠ first.hash →
    ∃ p, blocks[b.parent]? = some p ∧ b.Follows p

/-- The index is closed over the blocks: with each entry it holds the parent's. -/
structure Closed (first : Block) (blocks : BlockMap) (index : Canonical) : Prop where
  /-- The directions are inverse. -/
  inverse : index.Inverse
  /-- An entry is a stored block at its height. -/
  placed {n : UInt64} {h : Digest} : index.byNumber[n]? = some h →
    ∃ b, blocks[h]? = some b ∧ b.number = n
  /-- With each entry but that of the first block stands the entry of its parent. -/
  parent {n : UInt64} {h : Digest} {b : Block} : index.byNumber[n]? = some h →
    blocks[h]? = some b → h ≠ first.hash →
    ∃ p, blocks[b.parent]? = some p ∧ index.byNumber[p.number]? = some b.parent
  /-- The first block has an entry. -/
  root : index.byNumber[first.number]? = some first.hash

/-- The index is closed but for what stands right above the cursor, whose parent is the cursor. -/
structure ClosedAbove (first : Block) (blocks : BlockMap) (cursor : Digest) (block : Block)
    (index : Canonical) : Prop where
  /-- The directions are inverse. -/
  inverse : index.Inverse
  /-- An entry is a stored block at its height. -/
  placed {n : UInt64} {h : Digest} : index.byNumber[n]? = some h →
    ∃ b, blocks[h]? = some b ∧ b.number = n
  /-- The entry right above the cursor is a child of it. -/
  above {n : UInt64} {h : Digest} {b : Block} : index.byNumber[n]? = some h →
    blocks[h]? = some b → n.toNat = block.number.toNat + 1 → b.parent = cursor
  /-- With each other entry but that of the first block stands the entry of its parent. -/
  parent {n : UInt64} {h : Digest} {b : Block} : index.byNumber[n]? = some h →
    blocks[h]? = some b → h ≠ first.hash → n.toNat ≠ block.number.toNat + 1 →
    ∃ p, blocks[b.parent]? = some p ∧ index.byNumber[p.number]? = some b.parent
  /-- The first block has an entry. -/
  root : index.byNumber[first.number]? = some first.hash

namespace Rooted

variable {first b : Block} {blocks : BlockMap} {h : Digest}

theorem first_le (hr : Rooted first blocks) (hb : blocks[h]? = some b) :
    first.number.toNat ≤ b.number.toNat := by
  -- By induction on the height: a block below the first one would have a parent further down.
  induction hn : b.number.toNat using Nat.strongRecOn generalizing h b with
  | ind n ih =>
    by_cases hf : h = first.hash
    · subst hf
      rw [hr.first_stored] at hb
      cases hb
      omega
    · obtain ⟨p, hp, hfollows⟩ := hr.follows hb hf
      have := ih p.number.toNat (by have := hfollows.number; omega) hp rfl
      have := hfollows.number
      omega

/-- Only the first block stands at its height. -/
theorem eq_first_of_number (hr : Rooted first blocks) (hb : blocks[h]? = some b)
    (hn : b.number.toNat ≤ first.number.toNat) : h = first.hash := by
  by_contra hf
  obtain ⟨p, hp, hfollows⟩ := hr.follows hb hf
  have := hr.first_le hp
  have := hfollows.number
  omega

end Rooted

namespace ClosedAbove

variable {first block p : Block} {blocks : BlockMap} {cursor : Digest} {index : Canonical}

/-- Where the index agrees with the cursor it is closed: the entry right above has its parent's. -/
theorem closed (hi : ClosedAbove first blocks cursor block index)
    (hb : blocks[cursor]? = some block) (hstop : index.byNumber[block.number]? = some cursor) :
    Closed first blocks index := by
  refine ⟨hi.inverse, hi.placed, ?_, hi.root⟩
  intro n h b hn hbh hne
  by_cases habove : n.toNat = block.number.toNat + 1
  · rw [hi.above hn hbh habove]
    exact ⟨block, hb, hstop⟩
  · exact hi.parent hn hbh hne habove

/-- Where the index disagrees with the cursor, the cursor is not the first block. -/
theorem ne_first (hi : ClosedAbove first blocks cursor block index) (hr : Rooted first blocks)
    (hb : blocks[cursor]? = some block) (hgo : index.byNumber[block.number]? ≠ some cursor) :
    cursor ≠ first.hash := by
  rintro rfl
  rw [hr.first_stored] at hb
  cases hb
  exact hgo hi.root

theorem put (hi : ClosedAbove first blocks cursor block index) (hr : Rooted first blocks)
    (hb : blocks[cursor]? = some block) (hne : cursor ≠ first.hash)
    (hnum : p.number.toNat + 1 = block.number.toNat) :
    ClosedAbove first blocks block.parent p (index.put block.number cursor) where
  inverse := by
    apply Canonical.inverse_put hi.inverse
    intro m hm
    obtain ⟨b, hbm, rfl⟩ := hi.placed hm
    rw [hb] at hbm
    cases hbm
    rfl
  placed := by
    intro n h hn
    rw [Canonical.byNumber_put] at hn
    split at hn
    · next heq =>
      cases hn
      exact ⟨block, hb, heq⟩
    · exact hi.placed hn
  above := by
    intro n h b hn hbh habove
    have heq : block.number = n := UInt64.toNat_inj.mp (by omega)
    rw [Canonical.byNumber_put, if_pos heq] at hn
    cases hn
    rw [hb] at hbh
    cases hbh
    rfl
  parent := by
    intro n h b hn hbh hnf hnot
    have hneq : block.number ≠ n := by
      rintro rfl
      omega
    rw [Canonical.byNumber_put, if_neg hneq] at hn
    by_cases habove : n.toNat = block.number.toNat + 1
    · rw [hi.above hn hbh habove]
      exact ⟨block, hb, by rw [Canonical.byNumber_put, if_pos rfl]⟩
    · -- The parent's entry is one below `n`, so it is not the one that was put.
      obtain ⟨q, hq, hqn⟩ := hi.parent hn hbh hnf habove
      obtain ⟨b', hb', hbn⟩ := hi.placed hn
      obtain ⟨q', hq', hfollows⟩ := hr.follows hbh hnf
      rw [hbh] at hb'
      rw [hq] at hq'
      cases hb'
      cases hq'
      have hqne : block.number ≠ q.number := by
        intro he
        have := hfollows.number
        rw [← he, hbn] at this
        omega
      exact ⟨q, hq, by rw [Canonical.byNumber_put, if_neg hqne]; exact hqn⟩
  root := by
    have hneq : block.number ≠ first.number := by
      intro he
      exact hne (hr.eq_first_of_number hb (Nat.le_of_eq (by rw [he])))
    rw [Canonical.byNumber_put, if_neg hneq]
    exact hi.root

end ClosedAbove

/-- Following parent links from a head closes the index again: the head gets its entry, and nothing
above it changes. -/
theorem closed_relink {first : Block} {blocks : BlockMap} (hr : Rooted first blocks) (fuel : Nat) :
    ∀ {cursor : Digest} {block : Block} {index : Canonical}, blocks[cursor]? = some block →
      block.number.toNat < first.number.toNat + fuel →
      ClosedAbove first blocks cursor block index →
      Closed first blocks (relink blocks fuel cursor index) ∧
        (relink blocks fuel cursor index).byNumber[block.number]? = some cursor ∧
        ∀ n : UInt64, block.number.toNat < n.toNat →
          (relink blocks fuel cursor index).byNumber[n]? = index.byNumber[n]? := by
  induction fuel with
  | zero =>
    intro cursor block index hb hfuel _
    have := hr.first_le hb
    omega
  | succ fuel ih =>
    intro cursor block index hb hfuel hi
    rw [relink, hb]
    dsimp only
    by_cases hstop : index.byNumber[block.number]? = some cursor
    · rw [if_pos hstop]
      exact ⟨hi.closed hb hstop, hstop, fun n _ ↦ rfl⟩
    · rw [if_neg hstop]
      have hne : cursor ≠ first.hash := hi.ne_first hr hb hstop
      obtain ⟨p, hp, hfollows⟩ := hr.follows hb hne
      have hnum := hfollows.number
      have hzero : block.number ≠ 0 := by
        intro hz
        rw [hz] at hnum
        simp at hnum
      rw [if_neg hzero]
      obtain ⟨hclosed, -, hframe⟩ := ih hp (by omega) (hi.put hr hb hne hnum)
      refine ⟨hclosed, ?_, ?_⟩
      · rw [hframe _ (by omega), Canonical.byNumber_put, if_pos rfl]
      · intro n hn
        have hneq : block.number ≠ n := by
          rintro rfl
          omega
        rw [hframe _ (by omega), Canonical.byNumber_put, if_neg hneq]

end Chain
end ChainSync
