import ChainSync.Proofs.Chain.Linked
import ChainSync.Proofs.Chain.Promotion
import ChainSync.Proofs.Import.Overflow

/-!
# The choice between branches after a promotion

The weight of a block is the sum of the difficulties from the first block up to it. Every total
difficulty on record is the weight of its block. A block gets a total only when its parent has one
at that time, so a block that is stored before its parent has none, and gets it later only if it is
on the branch of a block that is promoted. After a promotion a heavier block becomes the best one
exactly when its parent has a total; on a parent without one it is taken for a block that is not
linked to the first one, however heavy it is.
-/

namespace ChainSync
namespace Chain

/-- From a hash down to the first block every block is stored, and this is the sum of their
difficulties. -/
inductive Weighs (first : Block) (c : Chain) : Digest → Nat → Prop
  /-- The first block weighs its own difficulty. -/
  | first (stored : c.block? first.hash = some first) :
    Weighs first c first.hash first.header.difficulty.toNat
  /-- A block weighs its own difficulty more than its parent. -/
  | child {h : Digest} {b : Block} {weight : Nat} (stored : c.block? h = some b)
      (other : h ≠ first.hash) (below : Weighs first c b.parent weight) :
    Weighs first c h (weight + b.header.difficulty.toNat)

variable {first block b y : Block} {c d : Chain} {h k : Digest} {weight weight' : Nat}

namespace Weighs

/-- A block that weighs something is stored. -/
theorem exists_block? (hw : Weighs first c h weight) : ∃ b, c.block? h = some b := by
  cases hw with
  | first stored => exact ⟨_, stored⟩
  | child stored _ _ => exact ⟨_, stored⟩

theorem unique (hw : Weighs first c h weight) (hw' : Weighs first c h weight') :
    weight = weight' := by
  induction hw generalizing weight' with
  | first stored =>
    cases hw' with
    | first _ => rfl
    | child _ other _ => exact absurd rfl other
  | child stored other _ ih =>
    cases hw' with
    | first _ => exact absurd rfl other
    | child stored' _ below' =>
      rw [stored] at stored'
      cases stored'
      rw [ih below']

theorem mono (within : c.Within d) (hw : Weighs first c h weight) : Weighs first d h weight := by
  induction hw with
  | first stored => exact .first (within stored)
  | child stored other _ ih => exact .child (within stored) other ih

end Weighs

/-! ### Totals on record -/

/-- The total of a child is the total of its parent and its own difficulty. -/
theorem ofNat_add_difficulty (weight : Nat) (difficulty : Difficulty) :
    BitVec.ofNat 256 weight + difficulty = BitVec.ofNat 256 (weight + difficulty.toNat) := by
  rw [BitVec.ofNat_add, BitVec.ofNat_toNat, BitVec.setWidth_eq]

/-- Every total on record is a weight, and with a block its parent has one. -/
structure Tallied (first : Block) (c : Chain) : Prop where
  /-- The first block is stored. -/
  first_stored : c.block? first.hash = some first
  /-- Its total is its difficulty. -/
  first_total : c.totals[first.hash]? = some first.header.difficulty
  /-- A total is the weight of its block. -/
  total {h : Digest} {t : Difficulty} : c.totals[h]? = some t →
    ∃ weight, Weighs first c h weight ∧ t = BitVec.ofNat 256 weight
  /-- The parent of a block with a total has one. -/
  closed {h : Digest} {b : Block} : (c.totals[h]?).isSome → c.block? h = some b →
    h ≠ first.hash → (c.totals[b.parent]?).isSome

namespace Tallied

theorem total_eq (ht : Tallied first c) {t : Difficulty} (htotal : c.totals[h]? = some t)
    (hw : Weighs first c h weight) : t = BitVec.ofNat 256 weight := by
  obtain ⟨weight', hw', rfl⟩ := ht.total htotal
  rw [hw.unique hw']

/-- A block that is not stored has no total. -/
theorem total_of_new (ht : Tallied first c) (new : c.block? h = none) : c.totals[h]? = none := by
  cases htotal : c.totals[h]? with
  | none => rfl
  | some t =>
    obtain ⟨weight, hw, -⟩ := ht.total htotal
    obtain ⟨b, hb⟩ := hw.exists_block?
    rw [new] at hb
    cases hb

theorem ne_first (ht : Tallied first c) (new : c.block? block.hash = none) :
    block.hash ≠ first.hash := by
  intro he
  rw [he, ht.first_stored] at new
  cases new

theorem congr (ht : Tallied first c) (hblocks : d.block? = c.block?)
    (htotals : d.totals = c.totals) : Tallied first d := by
  refine ⟨hblocks ▸ ht.first_stored, htotals ▸ ht.first_total, ?_, ?_⟩
  · intro k t hk
    obtain ⟨weight, hw, rfl⟩ := ht.total (htotals ▸ hk)
    exact ⟨weight, hw.mono fun _ _ hb ↦ hblocks ▸ hb, rfl⟩
  · rw [hblocks, htotals]
    exact ht.closed

theorem withBlock (ht : Tallied first c) (new : c.block? block.hash = none)
    (hblock : ∀ k, d.block? k = if block.hash = k then some block else c.block? k)
    (htotals : d.totals = c.totals) : Tallied first d := by
  have hwithin : c.Within d := by
    intro k b hb
    rw [hblock, if_neg (by rintro rfl; rw [new] at hb; cases hb), hb]
  refine ⟨hwithin ht.first_stored, htotals ▸ ht.first_total, ?_, ?_⟩
  · intro k t hk
    obtain ⟨weight, hw, rfl⟩ := ht.total (htotals ▸ hk)
    exact ⟨weight, hw.mono hwithin, rfl⟩
  · intro k b hk hb hf
    rw [htotals] at hk ⊢
    rw [hblock] at hb
    split at hb
    · next he =>
      rw [← he, ht.total_of_new new] at hk
      cases hk
    · exact ht.closed hk hb hf

/-- One more block with the total of its parent and its own difficulty keeps the totals on
record. -/
theorem withTotal (ht : Tallied first c) (new : c.block? block.hash = none)
    (hblock : ∀ k, d.block? k = if block.hash = k then some block else c.block? k)
    {t : Difficulty} (linked : c.totals[block.parent]? = some t)
    (htotals : ∀ k, d.totals[k]? =
      if block.hash = k then some (t + block.header.difficulty) else c.totals[k]?) :
    Tallied first d := by
  have hne := ht.ne_first new
  have hwithin : c.Within d := by
    intro k b hb
    rw [hblock, if_neg (by rintro rfl; rw [new] at hb; cases hb), hb]
  have hkept {k : Digest} (hk : (c.totals[k]?).isSome) : (d.totals[k]?).isSome := by
    rw [htotals]
    split
    · rfl
    · exact hk
  refine ⟨hwithin ht.first_stored, by rw [htotals, if_neg hne, ht.first_total], ?_, ?_⟩
  · intro k total hk
    rw [htotals] at hk
    split at hk
    · next he =>
      subst he
      cases hk
      obtain ⟨weight, hw, rfl⟩ := ht.total linked
      exact ⟨_, .child (by rw [hblock, if_pos rfl]) hne (hw.mono hwithin),
        ofNat_add_difficulty ..⟩
    · obtain ⟨weight, hw, rfl⟩ := ht.total hk
      exact ⟨weight, hw.mono hwithin, rfl⟩
  · intro k b hk hb hf
    rw [hblock] at hb
    split at hb
    · cases hb
      exact hkept (by rw [linked]; rfl)
    · next he =>
      rw [htotals, if_neg he] at hk
      exact hkept (ht.closed hk hb hf)

theorem withLoose (ht : Tallied first c) (new : c.block? block.hash = none) :
    Tallied first (c.withLoose block) := by
  cases hp : c.totals[block.parent]? with
  | none =>
    exact ht.withBlock new (block?_withLoose c block) (by rw [Chain.withLoose, hp])
  | some t =>
    refine ht.withTotal new (block?_withLoose c block) hp fun k ↦ ?_
    simp [Chain.withLoose, hp, Std.ExtTreeMap.getElem?_insert]

/-- An attempt to link a block keeps the totals on record. -/
theorem attempt (ht : Tallied first c) {r : Except Fault ImportOutcome}
    (ha : Attempt c block r d) : Tallied first d := by
  cases ha with
  | exist _ | noParent _ _ | noHeight _ _ _ | invalid _ _ _ _ => exact ht
  | detached new _ _ _ => exact ht.withBlock new (getElem?_insert_block _ _) rfl
  | @heavy _ total new _ _ linked _ _ =>
    exact ht.withTotal new (block?_withTotal c block (total + block.header.difficulty)) linked
      (totals_withTotal c block _)
  | light new _ _ linked _ | lastHead new _ _ linked _ _ =>
    exact ht.withTotal new (block?_withTotal _ _ _) linked (totals_withTotal _ _ _)

/-- The totals of a chain that grew from a first block are weights, and no error is set. -/
theorem of_grown (grown : Grown first c) : Tallied first c ∧ c.nextFailure = none := by
  refine grown.induction (P := fun c ↦ Tallied first c ∧ c.nextFailure = none) ?_
    (fun _ h ↦ ⟨h.1.congr rfl rfl, h.2⟩) (fun h ↦ ⟨h.1.congr rfl rfl, rfl⟩)
    (fun h ha ↦ ⟨h.1.attempt ha, ha.frame.1.trans h.2⟩)
    (fun h new ↦ ⟨h.1.withLoose new, h.2⟩)
  intro c start
  obtain ⟨c', hnew, hblocks, htotals, -, -, -, hfail⟩ := exists_new (room_new start)
  rw [start] at hnew
  cases hnew
  have hstored : c.block? first.hash = some first := by simp [block?, hblocks]
  have hkey {k : Digest} {t : Difficulty} (hk : c.totals[k]? = some t) :
      k = first.hash ∧ t = first.header.difficulty := by
    rw [htotals, Std.ExtTreeMap.getElem?_insert] at hk
    split at hk
    · next he =>
      cases hk
      exact ⟨(Std.LawfulEqOrd.compare_eq_iff_eq.mp he).symm, rfl⟩
    · simp at hk
  refine ⟨⟨hstored, by simp [htotals], ?_, ?_⟩, hfail⟩
  · intro k t hk
    obtain ⟨rfl, rfl⟩ := hkey hk
    exact ⟨_, .first hstored, by rw [BitVec.ofNat_toNat, BitVec.setWidth_eq]⟩
  · intro k b hk _ hf
    obtain ⟨t, ht⟩ := Option.isSome_iff_exists.mp hk
    exact absurd (hkey ht).1 hf

end Tallied
/-! ### The branch that is promoted -/

/-- From a block whose ancestors are stored down to a first block at height zero the branch leads
down to that block. -/
theorem exists_stretch_first (keyed : c.Keyed) (rises : c.Rises first) (hzero : first.number = 0)
    (hb : c.block? h = some b) (hroot : ∃ steps, c.ancestor? h steps = some first) :
    ∃ a : Nat → Block, Stretch c.blocks b.number.toNat a ∧ a b.number.toNat = b ∧ a 0 = first ∧
      ∀ n ≤ b.number.toNat, c.ancestor? h (b.number.toNat - n) = some (a n) := by
  classical
  obtain ⟨a, stretch, htop, hancestor⟩ := exists_stretch keyed rises hzero hb hroot
  refine ⟨a, stretch, htop, ?_, hancestor⟩
  have hleast : ∀ i < Nat.find hroot, c.ancestor? h i ≠ some first := fun i ↦ Nat.find_min hroot
  have hsteps := rises.number_ancestor keyed hb (Nat.find_spec hroot) hleast (Nat.le_refl _)
    (Nat.find_spec hroot)
  have hzero' : first.number.toNat = 0 := by
    rw [hzero]
    rfl
  have hfirst := hancestor 0 (Nat.zero_le _)
  rw [show b.number.toNat - 0 = Nat.find hroot by omega, Nat.find_spec hroot] at hfirst
  exact (Option.some.inj hfirst).symm

namespace Stretch

variable {top n m : Nat} {a : Nat → Block}

/-- The block at a height above zero is not the lowest one. -/
theorem hash_ne_lowest (h : Stretch c.blocks top a) (hn : n + 1 ≤ top) :
    (a (n + 1)).hash ≠ (a 0).hash := by
  intro he
  have hhigh := h.stored hn
  rw [he, h.stored (Nat.zero_le _)] at hhigh
  have hnumber := h.number hn
  rw [← Option.some.inj hhigh, h.number (Nat.zero_le _)] at hnumber
  cases hnumber

/-- Every block of a branch down to the first one weighs something. -/
theorem exists_weighs (h : Stretch c.blocks top a) (hfirst : a 0 = first) (hn : n ≤ top) :
    ∃ weight, Weighs first c (a n).hash weight := by
  induction n with
  | zero =>
    have hstored := h.stored (Nat.zero_le top)
    rw [hfirst] at hstored ⊢
    exact ⟨_, .first hstored⟩
  | succ n ih =>
    obtain ⟨weight, hw⟩ := ih (by omega)
    rw [← h.parent hn] at hw
    exact ⟨_, .child (h.stored hn) (hfirst ▸ h.hash_ne_lowest hn) hw⟩

/-- Below a block of the branch with a total every block has one. -/
theorem isSome_total (h : Stretch c.blocks top a) (hfirst : a 0 = first) (tallied : Tallied first c)
    (hn : n ≤ top) (htotal : (c.totals[(a n).hash]?).isSome) (hm : m ≤ n) :
    (c.totals[(a m).hash]?).isSome := by
  induction n with
  | zero => rwa [Nat.le_zero.mp hm]
  | succ n ih =>
    rcases Nat.lt_or_eq_of_le hm with hlt | rfl
    · have hparent := tallied.closed htotal (h.stored hn) (hfirst ▸ h.hash_ne_lowest hn)
      rw [h.parent hn] at hparent
      exact ih (by omega) hparent (Nat.lt_succ_iff.mp hlt)
    · exact htotal

end Stretch

/-- The totals of a branch up to a height are put on record, and no other. -/
structure Recorded (first : Block) (c : Chain) (a : Nat → Block) (top : Nat)
    (totals : Std.ExtTreeMap Digest Difficulty) : Prop where
  /-- Totals on record stay. -/
  kept {k : Digest} {t : Difficulty} : c.totals[k]? = some t → totals[k]? = some t
  /-- The totals of the branch are on record. -/
  put {n : Nat} {weight : Nat} : n ≤ top → Weighs first c (a n).hash weight →
    totals[(a n).hash]? = some (BitVec.ofNat 256 weight)
  /-- A total on record was there before or is one of the branch. -/
  only {k : Digest} : (totals[k]?).isSome → (c.totals[k]?).isSome ∨ ∃ n ≤ top, (a n).hash = k

theorem Recorded.total_eq {a : Nat → Block} {top : Nat}
    {totals : Std.ExtTreeMap Digest Difficulty} (recorded : Recorded first c a top totals)
    (tallied : Tallied first c) {t : Difficulty} (htotal : totals[k]? = some t)
    (hw : Weighs first c k weight) : t = BitVec.ofNat 256 weight := by
  rcases recorded.only (by rw [htotal]; rfl) with hbefore | ⟨n, hn, rfl⟩
  · obtain ⟨t', ht'⟩ := Option.isSome_iff_exists.mp hbefore
    rw [recorded.kept ht'] at htotal
    cases htotal
    exact tallied.total_eq ht' hw
  · rw [recorded.put hn hw] at htotal
    exact (Option.some.inj htotal).symm

/-- Adding up the difficulties of a branch answers the weight of its top and puts the weights of its
blocks on record. -/
theorem Stretch.recorded {top n : Nat} {a : Nat → Block} (h : Stretch c.blocks top a)
    (hfirst : a 0 = first) (tallied : Tallied first c) (hn : n ≤ top) :
    ∀ {fuel weight : Nat}, n < fuel → Weighs first c (a n).hash weight →
      (totalAt c.blocks fuel (a n).hash c.totals).1 = BitVec.ofNat 256 weight ∧
      Recorded first c a n (totalAt c.blocks fuel (a n).hash c.totals).2 := by
  induction n with
  | zero =>
    rintro (_ | fuel) weight hfuel hw
    · omega
    have htotal := tallied.first_total
    rw [← hfirst] at htotal
    rw [totalAt, htotal]
    dsimp only
    refine ⟨tallied.total_eq htotal hw, fun hk ↦ hk, fun hm hw' ↦ ?_, .inl⟩
    rw [Nat.le_zero.mp hm] at hw' ⊢
    rw [htotal, tallied.total_eq htotal hw']
  | succ n ih =>
    rintro (_ | fuel) weight hfuel hw
    · omega
    rw [totalAt]
    cases htotal : c.totals[(a (n + 1)).hash]? with
    | some total =>
      dsimp only
      refine ⟨tallied.total_eq htotal hw, fun hk ↦ hk, fun hm hw' ↦ ?_, .inl⟩
      obtain ⟨t, ht⟩ := Option.isSome_iff_exists.mp
        (h.isSome_total hfirst tallied hn (by rw [htotal]; rfl) hm)
      rw [ht, tallied.total_eq ht hw']
    | none =>
      have hother := hfirst ▸ h.hash_ne_lowest hn
      obtain ⟨below, hbelow⟩ := h.exists_weighs hfirst (n := n) (by omega)
      obtain ⟨hsum, recorded⟩ := ih (by omega) (Nat.lt_of_succ_lt_succ hfuel) hbelow
      have hweight : Weighs first c (a (n + 1)).hash
          (below + (a (n + 1)).header.difficulty.toNat) :=
        .child (h.stored hn) hother (by rwa [h.parent hn])
      rw [h.stored hn]
      dsimp only
      rw [h.parent hn, hsum, ofNat_add_difficulty, hw.unique hweight]
      have hinsert (k : Digest) (totals : Std.ExtTreeMap Digest Difficulty) (t : Difficulty) :
          (totals.insert (a (n + 1)).hash t)[k]? =
            if (a (n + 1)).hash = k then some t else totals[k]? := by
        simp [Std.ExtTreeMap.getElem?_insert]
      refine ⟨rfl, fun {k t} hk ↦ ?_, fun {m weight'} hm hw' ↦ ?_, fun {k} hk ↦ ?_⟩
      · rw [hinsert, if_neg (by rintro rfl; rw [htotal] at hk; cases hk)]
        exact recorded.kept hk
      · rw [hinsert]
        split
        · next he =>
          rw [← he] at hw'
          rw [hw'.unique hweight]
        · next he =>
          have hne : m ≠ n + 1 := by
            rintro rfl
            exact he rfl
          exact recorded.put (by omega) hw'
      · rw [hinsert] at hk
        split at hk
        · next he => exact .inr ⟨n + 1, Nat.le_refl _, he⟩
        · exact (recorded.only hk).imp id fun ⟨m, hm, he⟩ ↦ ⟨m, by omega, he⟩

/-- A block that is held is stored under its hash, and the totals stay on record. -/
theorem Tallied.holding (ht : Tallied first c) (block : Block) :
    Tallied first (c.holding block) := by
  unfold Chain.holding
  split
  · exact ht
  · next new =>
    exact ht.withBlock (by simpa using new) (getElem?_insert_block _ _) rfl

@[simp] theorem totals_holding (c : Chain) (block : Block) :
    (c.holding block).totals = c.totals := by
  unfold Chain.holding
  split <;> rfl

@[simp] theorem nextFailure_holding (c : Chain) (block : Block) :
    (c.holding block).nextFailure = c.nextFailure := by
  unfold Chain.holding
  split <;> rfl

/-- A hash with a total on record leaves the totals as they are. -/
theorem recordTotals_of_total {t : Difficulty} (htotal : c.totals[h]? = some t) :
    c.recordTotals h = c := by
  rw [recordTotals, totalAt, htotal]

/-- After a block whose ancestors are stored down to the first one is promoted it is the best one,
no block but it was stored, no error is set, and the totals of its branch are on record. -/
theorem exists_promoted_recorded {p : Block} (grown : Grown first c) (hzero : first.number = 0)
    (rises : (c.holding p).Rises first) (found : (c.holding p).block? p.hash = some y)
    (rooted : ∃ steps, (c.holding p).ancestor? p.hash steps = some first)
    (room : y.number.toNat + 1 < UInt64.size) :
    ∃ (t : Chain) (a : Nat → Block),
      (do setBest p; correct : Step Chain Unit).exec c = (.ok (), t) ∧
      t.block? = (c.holding p).block? ∧ t.best = p.hash ∧ t.nextFailure = none ∧
      (a y.number.toNat).hash = p.hash ∧ Recorded first (c.holding p) a y.number.toNat t.totals ∧
      (∀ n ≤ y.number.toNat, ∃ weight, Weighs first (c.holding p) (a n).hash weight) ∧
      ∀ n ≤ y.number.toNat,
        (c.holding p).ancestor? p.hash (y.number.toNat - n) = some (a n) := by
  have keyed := grown.keyed_holding p
  obtain ⟨tallied, hfail⟩ := Tallied.of_grown grown
  obtain ⟨a, stretch, htop, hfirst, hancestor⟩ :=
    exists_stretch_first keyed rises hzero found rooted
  have hhash : y.hash = p.hash := keyed found
  obtain ⟨weight, hweight⟩ := stretch.exists_weighs hfirst (Nat.le_refl _)
  have hfuel : y.number.toNat < (c.holding p).blocks.size + 1 := by
    have := stretch.lt_size
    omega
  obtain ⟨-, recorded⟩ := stretch.recorded hfirst (tallied.holding p) (Nat.le_refl _) hfuel hweight
  have htotal := recorded.put (Nat.le_refl _) hweight
  have htip : (a y.number.toNat).hash = p.hash := by rw [htop, hhash]
  rw [htip] at recorded htotal
  have hrun := exec_setBest keyed found room
  have hrun' := exec_correct (c := ((c.holding p).recordTotals p.hash).withHead y) rfl
    (by rw [block?_withHead, block?_recordTotals, hhash]; exact found) room
  rw [recordTotals_of_total (c := ((c.holding p).recordTotals p.hash).withHead y)
    (by rw [hhash]; exact htotal)] at hrun'
  exact ⟨_, a, (Step.exec_bind_of_ok hrun _).trans hrun', rfl, hhash,
    (nextFailure_holding c p).trans hfail, htip, recorded,
    fun n hn ↦ stretch.exists_weighs hfirst hn, hancestor⟩

/-! ### Blocks linked after a promotion -/

/-- A heavier block that is linked on a parent with a total becomes the best one, and on a parent
without a total it is stored and the best block stays. -/
theorem exists_connect_heavier {t : Chain} {parent : Block} {bestTotal : Difficulty}
    (hfail : t.nextFailure = none) (new : t.block? b.hash = none)
    (found : t.block? b.parent = some parent) (fits : b.Follows parent)
    (room : b.number.toNat + 1 < UInt64.size) (hbest : t.totals[t.best]? = some bestTotal)
    (stored : (t.block? t.best).isSome)
    (heavier : ∀ total, t.totals[b.parent]? = some total →
      bestTotal < total + b.header.difficulty) :
    ∃ u, (connect [b]).exec t = (.ok (.ok ⟨u.bestNumber, [b.hash],
        .imported (t.totals[b.parent]?).isSome⟩), u) ∧
      u.block? b.hash = some b ∧
      u.best = if (t.totals[b.parent]?).isSome then b.hash else t.best := by
  have ha := attempt_importBlock (t.withHanded b.hash) b
  have hnumber := fits.number
  have hne : b.hash ≠ t.best := by
    intro he
    rw [← he, new] at stored
    cases stored
  have hkeeps (total : Difficulty) :
      ((t.withHanded b.hash).withTotal b total).totalDifficulty = bestTotal := by
    have hne' : b.hash ≠ ((t.withHanded b.hash).withTotal b total).best := hne
    rw [totalDifficulty, totals_withTotal, if_neg hne']
    exact congrArg (fun total ↦ total.getD 0) hbest
  rw [exec_connect, hfail, takeFailure_of_none hfail, exec_importBlocks_cons]
  dsimp only
  cases hx : (importBlock b).exec (t.withHanded b.hash) with
  | mk r u =>
    rw [hx] at ha
    have hstored (best : Bool) (hr : r = .ok (.imported best)) : u.block? b.hash = some b := by
      subst hr
      exact ha.block?_eq_some
    cases ha with
    | exist stored =>
      change (t.block? b.hash).isSome at stored
      rw [new] at stored
      cases stored
    | noParent _ orphan =>
      change t.block? b.parent = none at orphan
      rw [found] at orphan
      cases orphan
    | noHeight _ found' full =>
      change t.block? b.parent = _ at found'
      rw [found] at found'
      cases found'
      omega
    | invalid _ found' _ misfit =>
      change t.block? b.parent = _ at found'
      rw [found] at found'
      cases found'
      exact absurd fits misfit
    | lastHead _ _ _ _ _ full => omega
    | detached _ _ _ loose =>
      change t.totals[b.parent]? = none at loose
      rw [loose]
      exact ⟨_, rfl, hstored false rfl, rfl⟩
    | light _ _ _ linked light =>
      rw [hkeeps] at light
      exact absurd (heavier _ linked) light
    | heavy _ _ _ linked _ _ =>
      change t.totals[b.parent]? = _ at linked
      rw [linked]
      exact ⟨_, rfl, hstored true rfl, rfl⟩

/-- After a block whose ancestors are stored down to a first block at height zero is promoted and
the chain is corrected, a new block is linked on a stored parent that leads down to the first block,
and it weighs more than the block promoted. It is stored without a fault, and it becomes the best
one exactly when its parent had a total on record before the promotion or is on the branch of the
block promoted. Otherwise the best block stays. -/
theorem exists_promoted_best_iff {p : Block} (grown : Grown first c) (hzero : first.number = 0)
    (rises : (c.holding p).Rises first) (found : (c.holding p).block? p.hash = some y)
    (rooted : ∃ steps, (c.holding p).ancestor? p.hash steps = some first)
    (room : y.number.toNat + 1 < UInt64.size) :
    ∃ t, (do setBest p; correct : Step Chain Unit).exec c = (.ok (), t) ∧ t.best = p.hash ∧
      (∃ weight, Weighs first t p.hash weight) ∧
      ∀ {b parent : Block} {weight weight' : Nat}, t.block? b.hash = none →
        t.block? b.parent = some parent → b.Follows parent →
        b.number.toNat + 1 < UInt64.size → Weighs first t p.hash weight →
        Weighs first t b.parent weight' → weight < weight' + b.header.difficulty.toNat →
        weight' + b.header.difficulty.toNat < 2 ^ 256 →
        ∃ best u, (connect [b]).exec t =
            (.ok (.ok ⟨u.bestNumber, [b.hash], .imported best⟩), u) ∧
          u.block? b.hash = some b ∧ u.best = (if best then b.hash else p.hash) ∧
          (best = true ↔ (c.totals[b.parent]?).isSome ∨ ∃ steps ≤ y.number.toNat,
            ((c.holding p).ancestor? p.hash steps).map Block.hash = some b.parent) := by
  obtain ⟨t, a, hrun, hblocks, hbest, hfail, htip, recorded, hweights, hancestor⟩ :=
    exists_promoted_recorded grown hzero rises found rooted room
  have tallied := (Tallied.of_grown grown).1.holding p
  have hheld {k : Digest} {weight : Nat} : Weighs first t k weight →
      Weighs first (c.holding p) k weight := Weighs.mono fun _ _ hb ↦ hblocks ▸ hb
  have hweight {k : Digest} {weight : Nat} : Weighs first (c.holding p) k weight →
      Weighs first t k weight := Weighs.mono fun _ _ hb ↦ hblocks ▸ hb
  obtain ⟨tipWeight, htipWeight⟩ := hweights y.number.toNat (Nat.le_refl _)
  rw [htip] at htipWeight
  refine ⟨t, hrun, hbest, ⟨tipWeight, hweight htipWeight⟩, ?_⟩
  intro b parent weight weight' new hparent fits hroom hw hw' hlt hfits
  have htotal := recorded.put (Nat.le_refl _) (htip.symm ▸ hheld hw)
  rw [htip] at htotal
  have heavier : ∀ total, t.totals[b.parent]? = some total →
      BitVec.ofNat 256 weight < total + b.header.difficulty := by
    intro total hk
    rw [recorded.total_eq tallied hk (hheld hw'), ofNat_add_difficulty, BitVec.lt_def,
      BitVec.toNat_ofNat, BitVec.toNat_ofNat, Nat.mod_eq_of_lt hfits,
      Nat.mod_eq_of_lt (Nat.lt_trans hlt hfits)]
    exact hlt
  have hstored : (t.block? t.best).isSome := by
    rw [hbest, hblocks, found]
    rfl
  obtain ⟨u, hconnect, hb, hubest⟩ := exists_connect_heavier hfail new hparent fits hroom
    (by rw [hbest]; exact htotal) hstored heavier
  refine ⟨_, u, hconnect, hb, by rw [hubest, hbest], ?_⟩
  constructor
  · intro hsome
    rcases recorded.only hsome with hbefore | ⟨n, hn, hhash⟩
    · exact .inl (totals_holding c p ▸ hbefore)
    · refine .inr ⟨y.number.toNat - n, Nat.sub_le _ _, ?_⟩
      rw [hancestor n hn, Option.map_some, hhash]
  · rintro (hbefore | ⟨steps, hsteps, hhash⟩)
    · rw [← totals_holding c p] at hbefore
      obtain ⟨total, hk⟩ := Option.isSome_iff_exists.mp hbefore
      rw [recorded.kept hk]
      rfl
    · have hn := hancestor (y.number.toNat - steps) (Nat.sub_le _ _)
      rw [show y.number.toNat - (y.number.toNat - steps) = steps by omega] at hn
      rw [hn, Option.map_some] at hhash
      obtain ⟨stepWeight, hstep⟩ := hweights (y.number.toNat - steps) (Nat.sub_le _ _)
      rw [← Option.some.inj hhash, recorded.put (Nat.sub_le _ _) hstep]
      rfl

/-! ### A fork whose blocks came in the wrong order -/

/-- In a chain all of whose blocks stand one above their stored parents the numbers rise. -/
theorem rises_of_all {first : Block} {c : Chain} (h : (c.blocks.toList.all fun entry ↦
      decide (entry.1 = first.hash) || (c.block? entry.2.parent).all fun parent ↦
        decide (parent.number.toNat + 1 = entry.2.number.toNat)) = true) : c.Rises first := by
  intro hash b p hb hne hp
  have hentry := List.all_eq_true.mp h (hash, b)
    (Std.ExtTreeMap.mem_toList_iff_getElem?_eq_some.mpr hb)
  rw [decide_eq_false hne, Bool.false_or, hp] at hentry
  exact of_decide_eq_true hentry

def sibling : Block := .make 2 (sprout 0).hash 1 1 [] .zero

/-- A child of the block that is stored before its parent. -/
def leaf : Block := .make 3 shoot.hash 1 0 [] .zero

/-- The chain after a block is stored before its parent, and then its parent. -/
def withUnlinked (c : Chain) : Chain := ((c.fastImport shoot).2.fastImport (sprout 0)).2

/-- The parent can be promoted, and then a child of the block that came too early is stored and does
not become the best block. -/
theorem exists_unlinked :
    ∃ c t u, Grown .genesis c ∧ (c.holding (sprout 0)).Rises .genesis ∧
      (c.holding (sprout 0)).block? (sprout 0).hash = some (sprout 0) ∧
      (c.holding (sprout 0)).ancestor? (sprout 0).hash 1 = some .genesis ∧
      (do setBest (sprout 0); correct : Step Chain Unit).exec c = (.ok (), t) ∧
      t.block? Block.genesis.hash = some .genesis ∧
      t.block? (sprout 0).hash = some (sprout 0) ∧ t.block? shoot.hash = some shoot ∧
      t.block? sibling.hash = none ∧ t.block? leaf.hash = none ∧
      (connect [leaf]).exec t =
        (.ok (.ok ⟨u.bestNumber, [leaf.hash], .imported false⟩), u) ∧
      u.best = (sprout 0).hash := by
  obtain ⟨c, hnew, hrun⟩ := Seat.exists_genesis_of_any (fun c ↦
    let d := (withUnlinked c).holding (sprout 0)
    let promoted := (do setBest (sprout 0); correct : Step Chain Unit).exec (withUnlinked c)
    let t := promoted.2
    let linked := (connect [leaf]).exec t
    (d.blocks.toList.all fun entry ↦
      decide (entry.1 = Block.genesis.hash) || (d.block? entry.2.parent).all fun parent ↦
        decide (parent.number.toNat + 1 = entry.2.number.toNat)) &&
    decide (d.block? (sprout 0).hash = some (sprout 0) ∧
      d.ancestor? (sprout 0).hash 1 = some .genesis ∧
      promoted.1 = .ok () ∧ t.block? Block.genesis.hash = some .genesis ∧
      t.block? (sprout 0).hash = some (sprout 0) ∧ t.block? shoot.hash = some shoot ∧
      t.block? sibling.hash = none ∧ t.block? leaf.hash = none ∧
      linked.1 = .ok (.ok ⟨linked.2.bestNumber, [leaf.hash], .imported false⟩) ∧
      linked.2.best = (sprout 0).hash)) (by decide +kernel)
  obtain ⟨hrises, hfacts⟩ := Bool.and_eq_true_iff.mp hrun
  obtain ⟨found, hparent, hpromoted, hgenesis, hsprout, hshoot, hsibling, hleaf, hlinked, hbest⟩ :=
    of_decide_eq_true hfacts
  exact ⟨withUnlinked c, _, _, .fastImport (.fastImport (.new hnew) rfl) rfl, rises_of_all hrises,
    found, hparent, Prod.ext hpromoted rfl, hgenesis, hsprout, hshoot, hsibling, hleaf,
    Prod.ext hlinked rfl, hbest⟩

/-- A sibling of the block that came too early becomes the best block on the parent that was
promoted. -/
theorem exists_promoted_best_iff_sibling :
    ∃ c, Grown .genesis c ∧ Block.genesis.number = 0 ∧
      (c.holding (sprout 0)).Rises .genesis ∧
      (c.holding (sprout 0)).block? (sprout 0).hash = some (sprout 0) ∧
      (∃ steps, (c.holding (sprout 0)).ancestor? (sprout 0).hash steps = some .genesis) ∧
      (sprout 0).number.toNat + 1 < UInt64.size ∧
      ∃ t u, (do setBest (sprout 0); correct : Step Chain Unit).exec c = (.ok (), t) ∧
        (connect [sibling]).exec t =
          (.ok (.ok ⟨u.bestNumber, [sibling.hash], .imported true⟩), u) ∧
        u.best = sibling.hash := by
  obtain ⟨c, t, -, grown, rises, found, hparent, hrun, hgenesis, hsprout, -, hsibling, -⟩ :=
    exists_unlinked
  have room : (sprout 0).number.toNat + 1 < UInt64.size :=
    (by decide : (1 : UInt64).toNat + 1 < _)
  obtain ⟨t', hpromoted, -, -, hlinked⟩ :=
    exists_promoted_best_iff grown rfl rises found ⟨1, hparent⟩ room
  rw [hrun] at hpromoted
  cases hpromoted
  have hdistinct := nodup_sprout
  simp only [List.nodup_cons, List.mem_cons, List.not_mem_nil, or_false, not_or] at hdistinct
  have hweight : Weighs .genesis t (sprout 0).hash (Block.genesis.header.difficulty.toNat + 1) :=
    .child hsprout (Ne.symm hdistinct.1.1) (.first hgenesis)
  have fits : sibling.Follows (sprout 0) :=
    ⟨rfl, Header.isSealed_sealed _, decide_eq_true rfl⟩
  obtain ⟨best, u, hconnect, -, hubest, hiff⟩ := hlinked hsibling hsprout fits
    (by decide : (2 : UInt64).toNat + 1 < _) hweight hweight (by decide) (by decide)
  have htrue : best = true := by
    refine hiff.mpr (.inr ⟨0, Nat.zero_le _, ?_⟩)
    rw [ancestor?, found]
    rfl
  subst htrue
  exact ⟨c, grown, rfl, rises, found, ⟨1, hparent⟩, room, t, u, hrun, hconnect, hubest⟩

/-- A valid child of the block that came too early leads down to the first block and weighs more
than the block promoted, and it does not become the best block. -/
theorem exists_heavier_not_best :
    ∃ c t u, Grown .genesis c ∧ Block.genesis.number = 0 ∧
      (c.holding (sprout 0)).Rises .genesis ∧
      (c.holding (sprout 0)).block? (sprout 0).hash = some (sprout 0) ∧
      (∃ steps, (c.holding (sprout 0)).ancestor? (sprout 0).hash steps = some .genesis) ∧
      (do setBest (sprout 0); correct : Step Chain Unit).exec c = (.ok (), t) ∧
      t.block? leaf.hash = none ∧ t.block? leaf.parent = some shoot ∧ leaf.Follows shoot ∧
      Weighs .genesis t (sprout 0).hash 2 ∧ Weighs .genesis t shoot.hash 3 ∧
      2 < 3 + leaf.header.difficulty.toNat ∧
      (connect [leaf]).exec t =
        (.ok (.ok ⟨u.bestNumber, [leaf.hash], .imported false⟩), u) ∧
      u.best = (sprout 0).hash := by
  obtain ⟨c, t, u, grown, rises, found, hparent, hrun, hgenesis, hsprout, hshoot, -, hleaf, hlinked,
    hbest⟩ := exists_unlinked
  have hdistinct := nodup_sprout
  simp only [List.nodup_cons, List.mem_cons, List.not_mem_nil, or_false, not_or] at hdistinct
  have hweight : Weighs .genesis t (sprout 0).hash 2 :=
    .child hsprout (Ne.symm hdistinct.1.1) (.first hgenesis)
  exact ⟨c, t, u, grown, rfl, rises, found, ⟨1, hparent⟩, hrun, hleaf, hshoot,
    ⟨rfl, Header.isSealed_sealed _, decide_eq_true rfl⟩, hweight,
    .child hshoot (Ne.symm hdistinct.1.2.2) hweight, by decide, hlinked, hbest⟩

end Chain
end ChainSync
