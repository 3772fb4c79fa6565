import ChainSync.Block.Basic

/-!
# What a block hash commits to

The hash of a sealed header is the digest of its other fields, each written at a width of its own,
and one of these fields is the root of the body: the digest of the transactions one after the other,
or zero when there are none. Both forms tell what they were written from. Main statement: sealed
blocks with their own bodies and one hash are one block, unless two byte strings hashed for them
have one digest, or the transactions of one have the digest that stands for no transactions.
-/

namespace ChainSync

/-! ### Fields at fixed widths -/

/-- Numbers that a width can hold are told apart by their bytes. -/
theorem Bytes.eq_of_ofNatBE_eq {width m n : Nat} (hm : m < span width) (hn : n < span width)
    (same : ofNatBE width m = ofNatBE width n) : m = n := by
  have hread := congrArg toNatBE same
  rwa [toNatBE_ofNatBE, toNatBE_ofNatBE, Nat.mod_eq_of_lt hm, Nat.mod_eq_of_lt hn] at hread

/-- Words are told apart by their eight bytes. -/
theorem Bytes.eq_of_ofNatBE_toNat_eq {m n : UInt64}
    (same : ofNatBE 8 m.toNat = ofNatBE 8 n.toNat) : m = n := by
  have hbound (k : UInt64) : k.toNat < span 8 := k.toNat_lt
  exact UInt64.toNat_inj.mp (eq_of_ofNatBE_eq (hbound m) (hbound n) same)

theorem Digest.toBytes_injective : Function.Injective toBytes :=
  Function.LeftInverse.injective ofBytes_toBytes

/-- Sequences of digests are told apart by their bytes: each digest takes up thirty-two of them. -/
theorem Digest.eq_of_flatMap_toBytes_eq : ∀ {l m : List Digest},
    l.flatMap toBytes = m.flatMap toBytes → l = m
  | [], [], _ => rfl
  | [], d :: _, same => by
    have hlength := congrArg List.length same
    simp only [List.flatMap_nil, List.flatMap_cons, List.length_nil, List.length_append,
      length_toBytes] at hlength
    omega
  | d :: _, [], same => by
    have hlength := congrArg List.length same
    simp only [List.flatMap_nil, List.flatMap_cons, List.length_nil, List.length_append,
      length_toBytes] at hlength
    omega
  | d :: l, e :: m, same => by
    rw [List.flatMap_cons, List.flatMap_cons] at same
    obtain ⟨hfirst, hrest⟩ := List.append_inj same (by rw [length_toBytes, length_toBytes])
    rw [toBytes_injective hfirst, eq_of_flatMap_toBytes_eq hrest]

/-- Headers with one hash field are told apart by what their hashes commit to. -/
theorem Header.eq_of_preimage_eq {h k : Header} (hash : h.hash = k.hash)
    (same : h.preimage = k.preimage) : h = k := by
  unfold preimage at same
  -- The widths of the fields are the same in both, so the sequences split alike from the end on.
  obtain ⟨same, stateRoot⟩ := List.append_inj' same (by simp)
  obtain ⟨same, transactionsRoot⟩ := List.append_inj' same (by simp)
  obtain ⟨same, timestamp⟩ := List.append_inj' same (by simp)
  obtain ⟨same, difficulty⟩ := List.append_inj' same (by simp)
  obtain ⟨number, parent⟩ := List.append_inj' same (by simp)
  have hbound (d : Difficulty) : d.toNat < Bytes.span 32 := d.isLt
  have hdifficulty : h.difficulty = k.difficulty :=
    BitVec.eq_of_toNat_eq (Bytes.eq_of_ofNatBE_eq (hbound _) (hbound _) difficulty)
  have hnumber := Bytes.eq_of_ofNatBE_toNat_eq number
  have htimestamp := Bytes.eq_of_ofNatBE_toNat_eq timestamp
  have hparent := Digest.toBytes_injective parent
  have htransactionsRoot := Digest.toBytes_injective transactionsRoot
  have hstateRoot := Digest.toBytes_injective stateRoot
  cases h
  cases k
  simp_all

/-! ### Bodies -/

namespace Body

variable {b c : Body}

/-- The bytes that the root of a body commits to, if there are transactions. -/
def preimage (b : Body) : Bytes := b.transactions.flatMap Digest.toBytes

theorem transactionsRoot_of_nil (empty : b.transactions = []) : b.transactionsRoot = .zero := by
  rw [transactionsRoot, empty]
  rfl

theorem transactionsRoot_of_ne_nil (nonempty : b.transactions ≠ []) :
    b.transactionsRoot = keccak256 b.preimage :=
  if_neg (by simpa using nonempty)

theorem eq_of_preimage_eq (same : b.preimage = c.preimage) : b = c := by
  cases b
  cases c
  exact congrArg Body.mk (Digest.eq_of_flatMap_toBytes_eq same)

end Body

namespace Block

/-- The byte strings that are hashed for a block: that of its header and, if it has transactions,
that of its body. -/
def hashed (b : Block) : List Bytes :=
  b.header.preimage :: if b.body.transactions.isEmpty then [] else [b.body.preimage]

theorem header_mem_hashed (b : Block) : b.header.preimage ∈ b.hashed := List.mem_cons_self

theorem body_mem_hashed {b : Block} (nonempty : b.body.transactions ≠ []) :
    b.body.preimage ∈ b.hashed := by
  rw [hashed, if_neg (by simpa using nonempty)]
  exact List.mem_cons_of_mem _ (List.mem_singleton_self _)

/-- Two byte strings that are hashed for the blocks have one digest. -/
def Collide (b c : Block) : Prop :=
  ∃ x ∈ b.hashed ++ c.hashed, ∃ y ∈ b.hashed ++ c.hashed, x ≠ y ∧ keccak256 x = keccak256 y

/-- The block has transactions, and their digest is the one that stands for none. -/
def ClaimsEmpty (b : Block) : Prop :=
  b.body.transactions ≠ [] ∧ keccak256 b.body.preimage = .zero

variable {b c : Block}

/-- Byte strings that are hashed for one block each and have one digest are the same, or the blocks
collide. -/
theorem eq_or_collide {x y : Bytes} (hx : x ∈ b.hashed) (hy : y ∈ c.hashed)
    (same : keccak256 x = keccak256 y) : x = y ∨ b.Collide c := by
  by_cases he : x = y
  · exact .inl he
  · exact .inr ⟨x, List.mem_append_left _ hx, y, List.mem_append_right _ hy, he, same⟩

/-- Sealed headers with one hash are the same, or the blocks collide. -/
theorem header_eq_or_collide (hb : b.header.isSealed = true) (hc : c.header.isSealed = true)
    (same : b.hash = c.hash) : b.header = c.header ∨ b.Collide c := by
  have hdigest : keccak256 b.header.preimage = keccak256 c.header.preimage :=
    (of_decide_eq_true hb).symm.trans (same.trans (of_decide_eq_true hc))
  refine (eq_or_collide b.header_mem_hashed c.header_mem_hashed hdigest).imp_left fun hpre ↦ ?_
  exact Header.eq_of_preimage_eq same hpre

/-- Bodies with one root are the same, or the blocks collide, or one of them has transactions that
stand for none. -/
theorem body_eq_or_collide (same : b.body.transactionsRoot = c.body.transactionsRoot) :
    b.body = c.body ∨ b.Collide c ∨ b.ClaimsEmpty ∨ c.ClaimsEmpty := by
  by_cases hb : b.body.transactions = []
  · by_cases hc : c.body.transactions = []
    · refine .inl (Body.eq_of_preimage_eq ?_)
      rw [Body.preimage, Body.preimage, hb, hc]
    · rw [Body.transactionsRoot_of_nil hb, Body.transactionsRoot_of_ne_nil hc] at same
      exact .inr (.inr (.inr ⟨hc, same.symm⟩))
  · by_cases hc : c.body.transactions = []
    · rw [Body.transactionsRoot_of_ne_nil hb, Body.transactionsRoot_of_nil hc] at same
      exact .inr (.inr (.inl ⟨hb, same⟩))
    · rw [Body.transactionsRoot_of_ne_nil hb, Body.transactionsRoot_of_ne_nil hc] at same
      rcases eq_or_collide (body_mem_hashed hb) (body_mem_hashed hc) same with hpre | collide
      · exact .inl (Body.eq_of_preimage_eq hpre)
      · exact .inr (.inl collide)

/-- Two sealed blocks with the bodies that their headers name and with one hash are the same block,
header and transactions, unless two different byte strings that are hashed for them have one digest,
or one of them has transactions whose digest is zero. -/
theorem eq_or_collide_of_hash_eq (sealedLeft : b.header.isSealed = true)
    (sealedRight : c.header.isSealed = true) (matchesLeft : b.hasMatchingBody = true)
    (matchesRight : c.hasMatchingBody = true) (same : b.hash = c.hash) :
    b = c ∨ b.Collide c ∨ b.ClaimsEmpty ∨ c.ClaimsEmpty := by
  rcases header_eq_or_collide sealedLeft sealedRight same with hheader | collide
  · have hroots : b.body.transactionsRoot = c.body.transactionsRoot := by
      rw [of_decide_eq_true matchesLeft, of_decide_eq_true matchesRight, hheader]
    refine (body_eq_or_collide hroots).imp_left fun hbody ↦ ?_
    cases b
    cases c
    cases hheader
    cases hbody
    rfl
  · exact .inr (.inl collide)

def laden : Block := make 1 genesis.hash 2 10 [.ofNat 7, .ofNat 9] .zero

/-- A block that is put together again from its own header and a body that matches it is the same
block, or a collision is at hand. -/
theorem eq_or_collide_of_hash_eq_laden :
    laden.header.isSealed = true ∧ laden.hasMatchingBody = true ∧
      laden.body.transactions ≠ [] ∧
      (laden = ⟨laden.header, ⟨[.ofNat 7, .ofNat 9]⟩⟩ ∨
        laden.Collide ⟨laden.header, ⟨[.ofNat 7, .ofNat 9]⟩⟩ ∨ laden.ClaimsEmpty ∨
        ClaimsEmpty ⟨laden.header, ⟨[.ofNat 7, .ofNat 9]⟩⟩) := by
  have hsealed : laden.header.isSealed = true := Header.isSealed_sealed _
  have hmatches : laden.hasMatchingBody = true := decide_eq_true rfl
  exact ⟨hsealed, hmatches, by simp [laden, make],
    eq_or_collide_of_hash_eq hsealed hsealed hmatches hmatches rfl⟩

end Block
end ChainSync
