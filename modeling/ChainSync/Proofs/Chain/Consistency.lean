import ChainSync.Proofs.Chain.Growth

/-!
# What every run of a chain keeps

A chain is consistent when every stored block but the first one is sealed, has its body and follows
a stored parent, when total difficulties are sums along parent links with the best block's the
greatest, and when the canonical index is the best block's branch and nothing else. Main statement:
every list of calls from a new chain ends in a consistent chain, and the best total difficulty
never decreases along it.
-/

namespace ChainSync
namespace Chain

/-- The block reached from a hash by following so many parent links. -/
def ancestor? (c : Chain) (hash : Digest) : Nat → Option Block
  | 0 => c.block? hash
  | steps + 1 => (c.ancestor? hash steps).bind fun block ↦ c.block? block.parent

def connectAll : List (List Block) → Step Chain PUnit
  | [] => return ⟨⟩
  | blocks :: rest => do
    let _ ← connect blocks
    connectAll rest

/-- Blocks, total difficulties and the canonical index of a chain agree. -/
structure Consistent (first : Block) (c : Chain) : Prop where
  /-- The first block is stored. -/
  first_stored : c.block? first.hash = some first
  /-- Every other block is sealed, has its body, and stands one above its stored parent. -/
  follows {h : Digest} {b : Block} : c.block? h = some b → h ≠ first.hash →
    b.hash = h ∧ ∃ parent, c.block? b.parent = some parent ∧ b.Follows parent
  /-- Every block has a total difficulty: its own for the first one, the sum of its parent's and
  its own for the others. None exceeds that of the best block. -/
  total {h : Digest} {b : Block} : c.block? h = some b →
    ∃ t, c.totals[h]? = some t ∧ t ≤ c.totalDifficulty ∧
      if h = first.hash then t = first.header.difficulty
      else ∃ u, c.totals[b.parent]? = some u ∧ t = u + b.header.difficulty
  /-- The best block is stored. -/
  best_stored : c.block? c.best = some c.bestBlock
  /-- The best block has the best total difficulty. -/
  total_best : c.totals[c.best]? = some c.totalDifficulty
  /-- At each height from the first block to the best one stands the best block's ancestor. -/
  ancestor {n : UInt64} : first.number ≤ n → n ≤ c.bestNumber →
    ∃ a, c.ancestor? c.best (c.bestNumber.toNat - n.toNat) = some a ∧ a.number = n ∧
      c.canonicalHash? n = some a.hash
  /-- No other height has an entry. -/
  outside {n : UInt64} : n < first.number ∨ c.bestNumber < n → c.canonicalHash? n = none
  /-- The heights of the canonical hashes are those at which they stand. -/
  inverse : c.canonical.Inverse

namespace Sound

variable {first : Block} {c : Chain}

/-- Following parent links from an entry goes down the entries to that of the first block. -/
theorem exists_ancestor (hs : Sound first c) {h : Digest} {b : Block} (hb : c.block? h = some b)
    (hh : c.canonicalHash? b.number = some h) (steps : Nat)
    (hsteps : first.number.toNat + steps ≤ b.number.toNat) :
    ∃ a, c.ancestor? h steps = some a ∧ c.block? a.hash = some a ∧
      a.number.toNat + steps = b.number.toNat ∧ c.canonicalHash? a.number = some a.hash := by
  induction steps with
  | zero =>
    have := hs.rooted.hash_eq hb
    subst this
    exact ⟨b, hb, hb, rfl, hh⟩
  | succ steps ih =>
    obtain ⟨a, ha, hstored, hnum, hentry⟩ := ih (by omega)
    have hf : a.hash ≠ first.hash := by
      intro he
      have hfirst : c.block? first.hash = some first := hs.rooted.first_stored
      rw [← he, hstored] at hfirst
      cases hfirst
      omega
    obtain ⟨p, hp, hpn⟩ := hs.closed.parent hentry hstored hf
    obtain ⟨p', hp', hfollows⟩ := hs.rooted.follows hstored hf
    rw [hp] at hp'
    cases hp'
    have hhash := hs.rooted.hash_eq hp
    have hnumber := hfollows.number
    refine ⟨p, ?_, ?_, by omega, ?_⟩
    · rw [ancestor?, ha]
      exact hp
    · rw [hhash]
      exact hp
    · rw [hhash]
      exact hpn

/-- The best block is stored, stands in the index, and nothing stands above it. -/
theorem bestBlock (hs : Sound first c) :
    c.block? c.best = some c.bestBlock ∧ c.canonicalHash? c.bestNumber = some c.best ∧
      ∀ n : UInt64, c.bestNumber.toNat < n.toNat → c.canonicalHash? n = none := by
  obtain ⟨b, hb, hentry, habove⟩ := hs.best
  have : c.bestBlock = b := by
    rw [Chain.bestBlock, hb]
    rfl
  rw [bestNumber, this]
  exact ⟨hb, hentry, habove⟩

/-- What linking keeps is what a consistent chain is. -/
theorem consistent (hs : Sound first c) : Consistent first c := by
  obtain ⟨hbest, hentry, habove⟩ := hs.bestBlock
  refine ⟨hs.rooted.first_stored, ?_, ?_, hbest, ?_, ?_, ?_, hs.closed.inverse⟩
  · intro h b hb hf
    exact ⟨hs.rooted.hash_eq hb, hs.rooted.follows hb hf⟩
  · intro h b hb
    by_cases hf : h = first.hash
    · subst hf
      exact ⟨_, hs.total_first, hs.heaviest hs.total_first, by rw [if_pos rfl]⟩
    · obtain ⟨u, hu, hsum⟩ := hs.total hb hf
      exact ⟨_, hsum, hs.heaviest hsum, by rw [if_neg hf]; exact ⟨u, hu, rfl⟩⟩
  · obtain ⟨t, ht⟩ := hs.exists_total hbest
    rw [totalDifficulty, ht]
    rfl
  · intro n hfirst hn
    have hfirst := UInt64.le_iff_toNat_le.mp hfirst
    have hn := UInt64.le_iff_toNat_le.mp hn
    have hnum : c.bestNumber = c.bestBlock.number := rfl
    obtain ⟨a, ha, -, hsum, hcanon⟩ :=
      hs.exists_ancestor hbest hentry (c.bestNumber.toNat - n.toNat) (by rw [← hnum]; omega)
    have hat : a.number = n := by
      apply UInt64.toNat_inj.mp
      rw [hnum] at hsum hn
      omega
    exact ⟨a, ha, hat, by rw [← hat]; exact hcanon⟩
  · rintro n (hlow | hhigh)
    · cases hn : c.canonicalHash? n with
      | none => rfl
      | some h =>
        obtain ⟨b, hb, rfl⟩ := hs.closed.placed hn
        have := hs.rooted.first_le hb
        have := UInt64.lt_iff_toNat_lt.mp hlow
        omega
    · exact habove n (UInt64.lt_iff_toNat_lt.mp hhigh)

/-- Handing over lists of blocks below the last height keeps the chain sound, and its best total
difficulty does not decrease. -/
theorem connectAll (calls : List (List Block)) :
    ∀ {c : Chain}, Sound first c →
      (∀ blocks ∈ calls, ∀ b ∈ blocks, b.number.toNat + 1 < UInt64.size) →
      ∃ c', (Chain.connectAll calls).exec c = (.ok ⟨⟩, c') ∧ Sound first c' ∧
        c.totalDifficulty ≤ c'.totalDifficulty := by
  induction calls with
  | nil =>
    intro c hs _
    exact ⟨c, rfl, hs, BitVec.le_refl _⟩
  | cons blocks rest ih =>
    intro c hs hroom
    obtain ⟨answer, c₁, hconnect, hs₁, hle₁⟩ := hs.connect (hroom blocks List.mem_cons_self)
    obtain ⟨c₂, hrest, hs₂, hle₂⟩ :=
      ih hs₁ fun blocks hb ↦ hroom blocks (List.mem_cons_of_mem _ hb)
    refine ⟨c₂, ?_, hs₂, BitVec.le_trans hle₁ hle₂⟩
    rw [Chain.connectAll, Step.exec_bind_of_ok hconnect, hrest]

end Sound

/-- Every list of calls with blocks below the last height, from the chain of a first block below it,
ends in a consistent chain, and further calls do not lower its best total difficulty. -/
theorem consistent_connectAll {first : Block} (hfirst : first.number.toNat + 1 < UInt64.size)
    (calls more : List (List Block))
    (hroom : ∀ blocks ∈ calls ++ more, ∀ b ∈ blocks, b.number.toNat + 1 < UInt64.size) :
    ∃ start c c', Chain.new first = .ok start ∧
      (connectAll calls).exec start = (.ok ⟨⟩, c) ∧ Consistent first c ∧
      (connectAll more).exec c = (.ok ⟨⟩, c') ∧ Consistent first c' ∧
      c.totalDifficulty ≤ c'.totalDifficulty := by
  obtain ⟨start, hnew, hstart⟩ := sound_new hfirst
  obtain ⟨c, hcalls, hs, -⟩ :=
    Sound.connectAll calls hstart fun blocks hb ↦ hroom blocks (List.mem_append_left _ hb)
  obtain ⟨c', hmore, hs', hle⟩ :=
    Sound.connectAll more hs fun blocks hb ↦ hroom blocks (List.mem_append_right _ hb)
  exact ⟨start, c, c', hnew, hcalls, hs.consistent, hmore, hs'.consistent, hle⟩

/-- Two calls with two rival blocks on the first block of every chain, one of them twice. -/
theorem consistent_connectAll_rivals :
    ∃ start c c', Chain.new .genesis = .ok start ∧
      (connectAll [[.make 1 Block.genesis.hash 1 0 [] .zero]]).exec start = (.ok ⟨⟩, c) ∧
      Consistent .genesis c ∧
      (connectAll [[.make 1 Block.genesis.hash 1 0 [] .zero,
        .make 1 Block.genesis.hash 2 0 [] .zero]]).exec c = (.ok ⟨⟩, c') ∧
      Consistent .genesis c' ∧ c.totalDifficulty ≤ c'.totalDifficulty := by
  apply consistent_connectAll
  · rw [show Block.genesis.number = 0 from rfl]
    decide
  · intro blocks hblocks b hb
    simp only [List.mem_append, List.mem_cons, List.not_mem_nil, or_false] at hblocks
    rcases hblocks with rfl | rfl
    · simp only [List.mem_cons, List.not_mem_nil, or_false] at hb
      subst hb
      exact (by decide : (1 : UInt64).toNat + 1 < UInt64.size)
    · simp only [List.mem_cons, List.not_mem_nil, or_false] at hb
      rcases hb with rfl | rfl
      · exact (by decide : (1 : UInt64).toNat + 1 < UInt64.size)
      · exact (by decide : (1 : UInt64).toNat + 1 < UInt64.size)

end Chain
end ChainSync
