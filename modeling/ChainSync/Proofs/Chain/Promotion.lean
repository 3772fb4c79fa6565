import ChainSync.Proofs.Chain.FastAttempt
import ChainSync.Proofs.Chain.Consistency
import Mathlib.Data.List.Nodup
import Mathlib.Data.List.Perm.Subperm
import Mathlib.Data.Nat.Find

/-!
# The canonical index after a block is promoted

Making a block the best one follows its branch downwards and stops at the first height at which the
index agrees with the branch. While blocks are only linked, the index agrees from there on
downwards; a block stored before its parent takes the entry of its height and leaves those below as
they are. Main statement: after a block whose ancestors are all stored is promoted, the index is its
branch exactly when the index agreed with the branch below each height at which it agreed with it.
-/

namespace ChainSync
namespace Chain

/-- The chains reached from that of a first block by linking lists of blocks and by storing blocks
before their parents, in any order. -/
inductive Grown (first : Block) : Chain → Prop
  /-- The chain of the first block. -/
  | new {c : Chain} (start : Chain.new first = .ok c) : Grown first c
  /-- A list of blocks is linked. -/
  | connect {c d : Chain} {blocks : List Block} {answer : Except ChainError ConnectReport}
      (grown : Grown first c) (run : (Chain.connect blocks).exec c = (.ok answer, d)) :
    Grown first d
  /-- A block is stored whether or not its parent is. -/
  | fastImport {c d : Chain} {block : Block} {answer : Except ChainError ImportOutcome}
      (grown : Grown first c) (run : c.fastImport block = (answer, d)) : Grown first d

/-- Every stored block but the first one stands one above its parent, if that is stored. -/
def Rises (first : Block) (c : Chain) : Prop :=
  ∀ ⦃h : Digest⦄ ⦃b p : Block⦄, c.block? h = some b → h ≠ first.hash →
    c.block? b.parent = some p → p.number.toNat + 1 = b.number.toNat

/-- The chain with a block, unless one is stored under its hash. -/
def holding (c : Chain) (block : Block) : Chain :=
  if (c.block? block.hash).isSome then c else c.withBlock block

/-- At a height of the index stands the ancestor that a block has at it. -/
def Marks (c : Chain) (block : Block) (n : UInt64) : Prop :=
  ∃ a, c.ancestor? block.hash (block.number.toNat - n.toNat) = some a ∧ a.number = n ∧
    c.canonicalHash? n = some a.hash

theorem within_holding (c : Chain) (block : Block) : c.Within (c.holding block) := by
  rw [holding]
  split
  · exact .refl c
  · next hnew => exact Within.withLoose (by simpa using hnew)

/-! ### Blocks under their own hashes -/

/-- Every block is stored under its own hash. -/
def Keyed (c : Chain) : Prop := ∀ ⦃h : Digest⦄ ⦃b : Block⦄, c.block? h = some b → b.hash = h

theorem Keyed.insert {c d : Chain} (keyed : c.Keyed) {block : Block}
    (hd : ∀ h, d.block? h = if block.hash = h then some block else c.block? h) : d.Keyed := by
  intro h b hb
  rw [hd] at hb
  split at hb
  · next he =>
    cases hb
    exact he
  · exact keyed hb

/-- A new chain holds the first block only. -/
theorem blocks_new {first : Block} {c : Chain} (start : Chain.new first = .ok c) :
    c.blocks = (∅ : BlockMap).insert first.hash first := by
  obtain ⟨d, hnew, hblocks, -⟩ := exists_new (room_new start)
  rw [start] at hnew
  cases hnew
  exact hblocks

/-- What holds of the chain of a first block, whatever hashes were handed over and whatever error
was set, and after each attempt to link a block and each block stored before its parent, holds of
the chains that grow from that block. -/
theorem Grown.induction {first : Block} {P : Chain → Prop}
    (new : ∀ {c : Chain}, Chain.new first = .ok c → P c)
    (handed : ∀ {c : Chain} (hash : Digest), P c → P (c.withHanded hash))
    (taken : ∀ {c : Chain}, P c → P c.takeFailure.2)
    (attempt : ∀ {c d : Chain} {block : Block} {r : Except Fault ImportOutcome}, P c →
      Attempt c block r d → P d)
    (loose : ∀ {c : Chain} {block : Block}, P c → c.block? block.hash = none →
      P (c.withLoose block))
    {c : Chain} (grown : Grown first c) : P c := by
  induction grown with
  | new start => exact new start
  | @connect c d blocks answer _ run ih =>
    rw [exec_connect] at run
    cases hfail : c.nextFailure with
    | some e =>
      rw [hfail] at run
      cases run
      exact taken ih
    | none =>
      rw [hfail] at run
      have hlinked : P ((importBlocks blocks .exist).exec c.takeFailure.2).2 :=
        importBlocks_induction handed attempt blocks (taken ih)
      cases hx : (importBlocks blocks .exist).exec c.takeFailure.2 with
      | mk r e =>
        rw [hx] at run hlinked
        cases r with
        | error _ => cases run
        | ok _ =>
          cases run
          exact hlinked
  | @fastImport c d block answer _ run ih =>
    have hd := keeps_fastImport taken loose block ih
    rw [run] at hd
    exact hd

/-- In a chain that grew from a first block every block is stored under its own hash. -/
theorem Grown.keyed {first : Block} {c : Chain} (grown : Grown first c) : c.Keyed := by
  refine grown.induction ?_ (fun _ hc ↦ hc) (fun hc ↦ hc) ?_
    fun hc _ ↦ hc.insert (block?_withLoose _ _)
  · intro c start h b hb
    rw [block?, blocks_new start] at hb
    exact (rooted_single first).hash_eq hb
  · intro c d block r hc ha
    cases ha with
    | exist _ | noParent _ _ | noHeight _ _ _ | invalid _ _ _ _ => exact hc
    | detached _ _ _ _ => exact hc.insert (getElem?_insert_block _ _)
    | light _ _ _ _ _ => exact hc.insert (block?_withTotal _ _ _)
    | @heavy _ total _ _ _ _ _ _ =>
      exact hc.insert (block?_withTotal c block (total + block.header.difficulty))
    | lastHead _ _ _ _ _ _ => exact hc.insert (block?_withTotal _ _ _)

/-- A block that is added keeps blocks under their own hashes. -/
theorem Grown.keyed_holding {first : Block} {c : Chain} (grown : Grown first c) (block : Block) :
    (c.holding block).Keyed := by
  rw [holding]
  split
  · exact grown.keyed
  · exact grown.keyed.insert (getElem?_insert_block _ _)

/-! ### The walk down a branch -/

/-- The blocks of a branch by height, down to height zero. -/
structure Stretch (blocks : BlockMap) (top : Nat) (a : Nat → Block) : Prop where
  /-- Each is stored under its hash. -/
  stored {n : Nat} : n ≤ top → blocks[(a n).hash]? = some (a n)
  /-- Each stands at its height. -/
  number {n : Nat} : n ≤ top → (a n).number.toNat = n
  /-- Each but the lowest names the one below it. -/
  parent {n : Nat} : n < top → (a (n + 1)).parent = (a n).hash

namespace Stretch

variable {blocks : BlockMap} {top : Nat} {a : Nat → Block}

/-- The lower part of a branch. -/
theorem below (h : Stretch blocks (top + 1) a) : Stretch blocks top a :=
  ⟨fun hn ↦ h.stored (by omega), fun hn ↦ h.number (by omega), fun hn ↦ h.parent (by omega)⟩

/-- There are more blocks than heights on a branch. -/
theorem lt_size (h : Stretch blocks top a) : top < blocks.size := by
  have hnodup : ((List.range (top + 1)).map fun n ↦ (a n).hash).Nodup := by
    refine List.Nodup.map_on ?_ List.nodup_range
    intro n hn m hm he
    rw [List.mem_range] at hn hm
    have hn' := h.stored (n := n) (by omega)
    rw [he, h.stored (n := m) (by omega)] at hn'
    have hsame := congrArg (fun b : Block ↦ b.number.toNat) (Option.some.inj hn')
    simp only [h.number (n := n) (by omega), h.number (n := m) (by omega)] at hsame
    exact hsame.symm
  have hsubset : ((List.range (top + 1)).map fun n ↦ (a n).hash) ⊆ blocks.keys := by
    intro k hk
    obtain ⟨n, hn, rfl⟩ := List.mem_map.mp hk
    rw [List.mem_range] at hn
    rw [Std.ExtTreeMap.mem_keys, Std.ExtTreeMap.mem_iff_isSome_getElem?, h.stored (by omega)]
    rfl
  have hle := (List.subperm_of_subset hnodup hsubset).length_le
  rw [List.length_map, List.length_range, Std.ExtTreeMap.length_keys] at hle
  exact hle

end Stretch

/-- What following a branch downwards makes of an index: the entries of the branch come down to the
highest height at which the index agreed with it, and the other entries stay. -/
structure Relinked (top : Nat) (a : Nat → Block) (index result : Canonical) : Prop where
  /-- Nothing changes above the branch. -/
  above {n : UInt64} : top < n.toNat → result.byNumber[n]? = index.byNumber[n]?
  /-- Nothing changes from a height on at which the index agreed. -/
  kept {n m : UInt64} : n ≤ m → m.toNat ≤ top → index.byNumber[m]? = some (a m.toNat).hash →
    result.byNumber[n]? = index.byNumber[n]?
  /-- Where it agreed at no height from there up, the block of the branch is put. -/
  put {n : UInt64} : n.toNat ≤ top →
    (∀ m : UInt64, n ≤ m → m.toNat ≤ top → index.byNumber[m]? ≠ some (a m.toNat).hash) →
    result.byNumber[n]? = some (a n.toNat).hash

namespace Relinked

variable {top : Nat} {a : Nat → Block} {index result : Canonical} {head : UInt64}

/-- Where the index agrees at the top nothing is put. -/
theorem of_agrees (hhead : head.toNat = top) (hi : index.byNumber[head]? = some (a top).hash) :
    Relinked top a index index where
  above _ := rfl
  kept _ _ _ := rfl
  put hn hnone := by
    subst hhead
    exact absurd hi (hnone head (UInt64.le_iff_toNat_le.mpr hn) (Nat.le_refl _))

/-- At height zero the entry is put. -/
theorem of_zero (hi : index.byNumber[(0 : UInt64)]? ≠ some (a 0).hash) :
    Relinked 0 a index (index.put 0 (a 0).hash) where
  above hn := by
    rw [Canonical.byNumber_put, if_neg (by rintro rfl; simp at hn)]
  kept {n m} _ hm hagrees := by
    obtain rfl : m = 0 := UInt64.toNat_inj.mp (Nat.le_zero.mp hm)
    exact (hi hagrees).elim
  put {n} hn _ := by
    obtain rfl : n = 0 := UInt64.toNat_inj.mp (Nat.le_zero.mp hn)
    rw [Canonical.byNumber_put, if_pos rfl]
    rfl

/-- Above height zero the entry is put, and the branch is followed from the block below. -/
theorem of_below (hhead : head.toNat = top + 1)
    (hi : index.byNumber[head]? ≠ some (a (top + 1)).hash)
    (h : Relinked top a (index.put head (a (top + 1)).hash) result) :
    Relinked (top + 1) a index result := by
  have hother {n : UInt64} (hn : n.toNat ≠ top + 1) :
      (index.put head (a (top + 1)).hash).byNumber[n]? = index.byNumber[n]? := by
    rw [Canonical.byNumber_put, if_neg (by rintro rfl; exact hn hhead)]
  refine ⟨?_, ?_, ?_⟩
  · intro n hn
    rw [h.above (by omega), hother (by omega)]
  · intro n m hnm hm hagrees
    have hle := UInt64.le_iff_toNat_le.mp hnm
    have hne : m.toNat ≠ top + 1 := by
      intro he
      obtain rfl : m = head := UInt64.toNat_inj.mp (he.trans hhead.symm)
      rw [he] at hagrees
      exact hi hagrees
    rw [h.kept hnm (by omega) (by rw [hother hne]; exact hagrees), hother (by omega)]
  · intro n hn hnone
    by_cases he : n.toNat = top + 1
    · obtain rfl : n = head := UInt64.toNat_inj.mp (he.trans hhead.symm)
      rw [h.above (by omega), Canonical.byNumber_put, if_pos rfl, he]
    · refine h.put (by omega) ?_
      intro m hnm hm
      rw [hother (by omega)]
      exact hnone m hnm (by omega)

/-- The block of the branch stands at its top. -/
theorem at_top (h : Relinked top a index result) (hhead : head.toNat = top) :
    result.byNumber[head]? = some (a top).hash := by
  subst hhead
  by_cases hi : index.byNumber[head]? = some (a head.toNat).hash
  · rw [h.kept (UInt64.le_refl head) (Nat.le_refl _) hi, hi]
  · refine h.put (Nat.le_refl _) ?_
    intro m hle hm
    obtain rfl : m = head :=
      UInt64.toNat_inj.mp (Nat.le_antisymm hm (UInt64.le_iff_toNat_le.mp hle))
    exact hi

end Relinked

/-- Following a branch downwards stops at the highest height at which the index agrees with it. -/
theorem Stretch.relinked {blocks : BlockMap} {a : Nat → Block} (top : Nat) :
    ∀ {fuel : Nat} {index : Canonical}, Stretch blocks top a → top < fuel →
      Relinked top a index (relink blocks fuel (a top).hash index) := by
  induction top with
  | zero =>
    rintro (_ | fuel) index h hfuel
    · omega
    have hzero : (a 0).number = 0 := UInt64.toNat_inj.mp (h.number (Nat.le_refl 0))
    rw [relink, h.stored (Nat.le_refl 0)]
    dsimp only
    rw [hzero]
    by_cases hi : index.byNumber[(0 : UInt64)]? = some (a 0).hash
    · rw [if_pos hi]
      have hhead : (0 : UInt64).toNat = 0 := rfl
      exact .of_agrees hhead hi
    · rw [if_neg hi, if_pos rfl]
      exact .of_zero hi
  | succ top ih =>
    rintro (_ | fuel) index h hfuel
    · omega
    have hhead : (a (top + 1)).number.toNat = top + 1 := h.number (Nat.le_refl _)
    rw [relink, h.stored (Nat.le_refl _)]
    dsimp only
    by_cases hi : index.byNumber[(a (top + 1)).number]? = some (a (top + 1)).hash
    · rw [if_pos hi]
      exact .of_agrees hhead hi
    · have hpositive : (a (top + 1)).number ≠ 0 := by
        intro hz
        rw [hz] at hhead
        simp at hhead
      rw [if_neg hi, if_neg hpositive, h.parent (Nat.lt_succ_self _)]
      exact .of_below hhead hi (ih h.below (by omega))

/-! ### The branch of a block -/

theorem ancestor?_congr {c d : Chain} (hblocks : d.block? = c.block?) (h : Digest) (steps : Nat) :
    d.ancestor? h steps = c.ancestor? h steps := by
  induction steps with
  | zero => rw [ancestor?, ancestor?, hblocks]
  | succ steps ih => rw [ancestor?, ancestor?, ih, hblocks]

/-- Where the ancestor at a height is known, the index has to hold its hash. -/
theorem marks_iff {c : Chain} {b a : Block} {n : UInt64}
    (ha : c.ancestor? b.hash (b.number.toNat - n.toNat) = some a) (hn : a.number = n) :
    c.Marks b n ↔ c.canonicalHash? n = some a.hash := by
  constructor
  · rintro ⟨x, hx, -, hindex⟩
    rw [ha] at hx
    cases hx
    exact hindex
  · exact fun hindex ↦ ⟨a, ha, hn, hindex⟩

/-- With an ancestor all nearer ones are stored. -/
theorem exists_ancestor?_of_le {c : Chain} {h : Digest} {x : Block} {steps i : Nat}
    (hx : c.ancestor? h steps = some x) (hi : i ≤ steps) : ∃ y, c.ancestor? h i = some y := by
  induction steps generalizing x with
  | zero => exact ⟨x, by rw [Nat.le_zero.mp hi]; exact hx⟩
  | succ steps ih =>
    rcases Nat.lt_or_eq_of_le hi with hlt | rfl
    · rw [ancestor?, Option.bind_eq_some_iff] at hx
      obtain ⟨y, hy, -⟩ := hx
      exact ih hy (by omega)
    · exact ⟨x, hx⟩

/-- An ancestor is stored under its own hash. -/
theorem Keyed.ancestor_stored {c : Chain} (keyed : c.Keyed) {h : Digest} {x : Block} {steps : Nat}
    (hx : c.ancestor? h steps = some x) : c.block? x.hash = some x := by
  have hfound : ∃ k, c.block? k = some x := by
    cases steps with
    | zero => exact ⟨h, hx⟩
    | succ steps =>
      rw [ancestor?, Option.bind_eq_some_iff] at hx
      obtain ⟨y, -, hy⟩ := hx
      exact ⟨y.parent, hy⟩
  obtain ⟨k, hk⟩ := hfound
  rw [keyed hk]
  exact hk

/-- Down to the first block each parent link leads one height down. -/
theorem Rises.number_ancestor {first b : Block} {c : Chain} (rises : c.Rises first)
    (keyed : c.Keyed) {h : Digest} (hb : c.block? h = some b) {steps : Nat}
    (hroot : c.ancestor? h steps = some first)
    (hleast : ∀ i < steps, c.ancestor? h i ≠ some first) {i : Nat} (hi : i ≤ steps) {x : Block}
    (hx : c.ancestor? h i = some x) : x.number.toNat + i = b.number.toNat := by
  induction i generalizing x with
  | zero =>
    rw [ancestor?, hb] at hx
    cases hx
    rfl
  | succ i ih =>
    rw [ancestor?, Option.bind_eq_some_iff] at hx
    obtain ⟨y, hy, hparent⟩ := hx
    have hstored := keyed.ancestor_stored hy
    have hne : y.hash ≠ first.hash := by
      intro he
      have hfirst := keyed.ancestor_stored hroot
      rw [← he, hstored] at hfirst
      exact hleast i (by omega) (hfirst ▸ hy)
    have := rises hstored hne hparent
    have := ih (by omega) hy
    omega

/-- From a block whose ancestors are stored down to a first block at height zero, as many parent
links lead down as there are heights below it, one height each. -/
theorem exists_stretch {first b : Block} {c : Chain} (keyed : c.Keyed) (rises : c.Rises first)
    (hzero : first.number = 0) {h : Digest} (hb : c.block? h = some b)
    (hroot : ∃ steps, c.ancestor? h steps = some first) :
    ∃ a : Nat → Block, Stretch c.blocks b.number.toNat a ∧ a b.number.toNat = b ∧
      ∀ n ≤ b.number.toNat, c.ancestor? h (b.number.toNat - n) = some (a n) := by
  classical
  obtain ⟨steps, hsteps, hleast⟩ : ∃ steps, c.ancestor? h steps = some first ∧
      ∀ i < steps, c.ancestor? h i ≠ some first :=
    ⟨Nat.find hroot, Nat.find_spec hroot, fun i hi ↦ Nat.find_min hroot hi⟩
  have hnumber {i : Nat} (hi : i ≤ steps) {x : Block} (hx : c.ancestor? h i = some x) :
      x.number.toNat + i = b.number.toNat :=
    rises.number_ancestor keyed hb hsteps hleast hi hx
  have htop : steps = b.number.toNat := by
    have := hnumber (Nat.le_refl _) hsteps
    rw [hzero] at this
    simpa using this
  let a (n : Nat) : Block := (c.ancestor? h (b.number.toNat - n)).getD b
  have ha {n : Nat} (hn : n ≤ b.number.toNat) :
      c.ancestor? h (b.number.toNat - n) = some (a n) := by
    obtain ⟨x, hx⟩ := exists_ancestor?_of_le hsteps (i := b.number.toNat - n) (by omega)
    simp only [a, hx, Option.getD_some]
  refine ⟨a, ⟨fun hn ↦ keyed.ancestor_stored (ha hn), ?_, ?_⟩, ?_, fun n hn ↦ ha hn⟩
  · intro n hn
    have := hnumber (by omega) (ha hn)
    omega
  · intro n hn
    have hlow := ha (n := n) (by omega)
    have hhigh := ha (n := n + 1) (by omega)
    rw [show b.number.toNat - n = b.number.toNat - (n + 1) + 1 by omega, ancestor?, hhigh] at hlow
    have := keyed hlow
    exact this.symm
  · have := ha (Nat.le_refl _)
    rw [Nat.sub_self, ancestor?, hb] at this
    exact (Option.some.inj this).symm

/-! ### Promoting a block -/

@[simp] theorem block?_recordTotals (c : Chain) (h k : Digest) :
    (c.recordTotals h).block? k = c.block? k := rfl

/-- Making a block the best one stores it, puts total difficulties on record and makes it the
head. -/
theorem exec_setBest {c : Chain} {b y : Block} (keyed : (c.holding b).Keyed)
    (found : (c.holding b).block? b.hash = some y) (room : y.number.toNat + 1 < UInt64.size) :
    (setBest b).exec c = (.ok (), ((c.holding b).recordTotals b.hash).withHead y) := by
  have hdef : (if (c.block? b.hash).isSome then c
      else { c with blocks := c.blocks.insert b.hash b }) = c.holding b := rfl
  have hhead := setHead_of_block? (c := (c.holding b).recordTotals b.hash) found (keyed found)
  rw [if_pos room] at hhead
  rw [setBest]
  simp only [Step.exec_bind, Step.exec_get, Step.exec_set, Step.exec_lift, hdef, hhead]

/-- Correcting a chain puts total difficulties on record and makes the best block the head again. -/
theorem exec_correct {c : Chain} {y : Block} (hbest : c.best = y.hash)
    (found : c.block? y.hash = some y) (room : y.number.toNat + 1 < UInt64.size) :
    correct.exec c =
      (.ok (), { (c.recordTotals y.hash).withHead y with corrections := c.corrections + 1 }) := by
  have hhead := setHead_of_block? (c := c.recordTotals y.hash) found rfl
  rw [if_pos room] at hhead
  have hbest' : (c.recordTotals y.hash).best = y.hash := hbest
  rw [correct]
  simp only [Step.exec_bind, Step.exec_get, Step.exec_set, Step.exec_lift, hbest, hbest', hhead]
  rfl

/-- Following a branch downwards from a block at which the index ends changes nothing. -/
theorem byNumber_relink_head {blocks : BlockMap} {fuel : Nat} {index : Canonical} {y : Block}
    (found : blocks[y.hash]? = some y) (hfuel : 0 < fuel)
    (hhead : index.byNumber[y.number]? = some y.hash)
    (habove : ∀ n : UInt64, y.number < n → index.byNumber[n]? = none) (n : UInt64) :
    (relink blocks fuel y.hash (index.cutAbove y.number)).byNumber[n]? = index.byNumber[n]? := by
  have hcut (m : UInt64) : (index.cutAbove y.number).byNumber[m]? = index.byNumber[m]? := by
    rw [Canonical.byNumber_cutAbove]
    split
    · next hm => exact (habove m hm).symm
    · rfl
  obtain ⟨fuel, rfl⟩ := Nat.exists_eq_succ_of_ne_zero (Nat.ne_of_gt hfuel)
  rw [relink, found]
  dsimp only
  rw [if_pos (by rw [hcut, hhead]), hcut]

theorem byNumber_cutAbove_of_le {c : Chain} {top n : UInt64} (hn : n ≤ top) :
    (c.canonical.cutAbove top).byNumber[n]? = c.canonicalHash? n := by
  rw [Canonical.byNumber_cutAbove, if_neg (UInt64.not_lt.mpr hn)]
  rfl

/-- What stands in the index after a block is promoted: at the heights of its branch what following
the branch down leaves there, and nothing above. -/
theorem exists_promoted {c : Chain} {b y : Block} {a : Nat → Block}
    (keyed : (c.holding b).Keyed) (found : (c.holding b).block? b.hash = some y)
    (room : y.number.toNat + 1 < UInt64.size)
    (stretch : Stretch (c.holding b).blocks y.number.toNat a) (htop : a y.number.toNat = y) :
    ∃ t index, (do setBest b; correct : Step Chain Unit).exec c = (.ok (), t) ∧
      t.block? = (c.holding b).block? ∧
      Relinked y.number.toNat a ((c.holding b).canonical.cutAbove y.number) index ∧
      ∀ n, t.canonicalHash? n = index.byNumber[n]? := by
  have hhash : y.hash = b.hash := keyed found
  have hfuel : y.number.toNat < 2 * (c.holding b).blocks.size := by
    have := stretch.lt_size
    omega
  have hfirst : Relinked y.number.toNat a ((c.holding b).canonical.cutAbove y.number) _ :=
    stretch.relinked _ hfuel
  rw [htop] at hfirst
  have hrun := exec_setBest keyed found room
  have hrun' := exec_correct (c := ((c.holding b).recordTotals b.hash).withHead y) rfl
    (by rw [block?_withHead, block?_recordTotals, hhash]; exact found) room
  refine ⟨_, _, (Step.exec_bind_of_ok hrun _).trans hrun', rfl, hfirst, fun n ↦ ?_⟩
  -- The second walk stops at the head, which the first one put.
  have hhead := hfirst.at_top rfl
  rw [htop] at hhead
  refine byNumber_relink_head (by rw [hhash]; exact found)
    (Nat.lt_of_le_of_lt (Nat.zero_le _) hfuel) hhead (fun m hm ↦ ?_) n
  rw [hfirst.above (UInt64.lt_iff_toNat_lt.mp hm), Canonical.byNumber_cutAbove, if_pos hm]

/-- After a block whose ancestors are stored down to a first block at height zero is made the best
one and the chain is corrected, nothing stands in the index above it, and at every height up to its
own stands its ancestor exactly when, before that, wherever its ancestor stood in the index at a
height, its ancestors stood at all heights below. -/
theorem exists_promoted_marks_iff {first b y : Block} {c : Chain} (grown : Grown first c)
    (hzero : first.number = 0) (rises : (c.holding b).Rises first)
    (found : (c.holding b).block? b.hash = some y)
    (rooted : ∃ steps, (c.holding b).ancestor? b.hash steps = some first)
    (room : y.number.toNat + 1 < UInt64.size) :
    ∃ t, (do setBest b; correct : Step Chain Unit).exec c = (.ok (), t) ∧
      (∀ n, y.number < n → t.canonicalHash? n = none) ∧
      ((∀ n ≤ y.number, t.Marks y n) ↔
        ∀ m n, n ≤ m → m ≤ y.number → (c.holding b).Marks y m → (c.holding b).Marks y n) := by
  have keyed := grown.keyed_holding b
  obtain ⟨a, stretch, htop, hancestor⟩ := exists_stretch keyed rises hzero found rooted
  obtain ⟨t, index, hrun, hblocks, relinked, hindex⟩ :=
    exists_promoted keyed found room stretch htop
  refine ⟨t, hrun, ?_, ?_⟩
  · intro n hn
    rw [hindex, relinked.above (UInt64.lt_iff_toNat_lt.mp hn), Canonical.byNumber_cutAbove,
      if_pos hn]
  -- What each side says of a height is said of the blocks of the branch.
  have hcut {n : UInt64} (hn : n ≤ y.number) :
      ((c.holding b).canonical.cutAbove y.number).byNumber[n]? =
        (c.holding b).canonicalHash? n := byNumber_cutAbove_of_le hn
  have hbranch {n : UInt64} (hn : n ≤ y.number) :
      (c.holding b).ancestor? y.hash (y.number.toNat - n.toNat) = some (a n.toNat) := by
    rw [keyed found]
    exact hancestor n.toNat (UInt64.le_iff_toNat_le.mp hn)
  have hnumber {n : UInt64} (hn : n ≤ y.number) : (a n.toNat).number = n :=
    UInt64.toNat_inj.mp (stretch.number (UInt64.le_iff_toNat_le.mp hn))
  have hbefore {n : UInt64} (hn : n ≤ y.number) : (c.holding b).Marks y n ↔
      (c.holding b).canonicalHash? n = some (a n.toNat).hash :=
    marks_iff (hbranch hn) (hnumber hn)
  have hafter {n : UInt64} (hn : n ≤ y.number) : t.Marks y n ↔
      index.byNumber[n]? = some (a n.toNat).hash := by
    rw [← hindex]
    exact marks_iff ((ancestor?_congr hblocks _ _).trans (hbranch hn)) (hnumber hn)
  constructor
  · intro hmarks m n hnm hm hagrees
    have hn := UInt64.le_trans hnm hm
    rw [hbefore hm, ← hcut hm] at hagrees
    rw [hbefore hn, ← hcut hn, ← relinked.kept hnm (UInt64.le_iff_toNat_le.mp hm) hagrees]
    exact (hafter hn).mp (hmarks n hn)
  · intro hclosed n hn
    rw [hafter hn]
    by_cases hex : ∃ m, n ≤ m ∧ m ≤ y.number ∧ (c.holding b).Marks y m
    · obtain ⟨m, hnm, hm, hagrees⟩ := hex
      have hmarks := hclosed m n hnm hm hagrees
      rw [hbefore hm, ← hcut hm] at hagrees
      rw [relinked.kept hnm (UInt64.le_iff_toNat_le.mp hm) hagrees, hcut hn]
      exact (hbefore hn).mp hmarks
    · refine relinked.put (UInt64.le_iff_toNat_le.mp hn) ?_
      intro m hnm hm hagrees
      have hm := UInt64.le_iff_toNat_le.mpr hm
      exact hex ⟨m, hnm, hm, (hbefore hm).mpr (by rw [← hcut hm]; exact hagrees)⟩

/-! ### A fork stored above an older branch -/

/-- A child of the first block of every chain, told apart from its siblings by its time. -/
def sprout (timestamp : UInt64) : Block := .make 1 Block.genesis.hash 1 timestamp [] .zero

def shoot : Block := .make 2 (sprout 0).hash 1 0 [] .zero

theorem nodup_sprout :
    [Block.genesis.hash, (sprout 0).hash, (sprout 1).hash, shoot.hash].Nodup := by
  decide +kernel

/-- A block is stored before its parent, then its parent, then a sibling of its parent, which takes
the parent's place in the index. -/
theorem exists_grown_sprouts :
    ∃ c, Grown .genesis c ∧ (c.holding shoot).Rises .genesis ∧
      (c.holding shoot).block? shoot.hash = some shoot ∧
      (c.holding shoot).ancestor? shoot.hash 1 = some (sprout 0) ∧
      (c.holding shoot).ancestor? shoot.hash 2 = some .genesis ∧
      (c.holding shoot).canonicalHash? 1 = some (sprout 1).hash ∧
      (c.holding shoot).canonicalHash? 2 = some shoot.hash := by
  have hdistinct := nodup_sprout
  simp only [List.nodup_cons, List.mem_cons, List.not_mem_nil, or_false, not_or] at hdistinct
  obtain ⟨⟨hg₀, hg₁, hg₂⟩, ⟨h₀₁, h₀₂⟩, h₁₂, -⟩ := hdistinct
  obtain ⟨start, hnew, hblocks, -, -, -, -, hfail⟩ := exists_new room_genesis
  have hstart (h : Digest) :
      start.block? h = if Block.genesis.hash = h then some .genesis else none := by
    rw [block?, hblocks, getElem?_insert_block]
    simp
  have hfast₂ : start.fastImport shoot = (.ok (.imported false), start.withLoose shoot) :=
    fastImport_of_sealed hfail (by rw [hstart, if_neg hg₂]) (Header.isSealed_sealed _)
  have hfast₀ : (start.withLoose shoot).fastImport (sprout 0) =
      (.ok (.imported false), (start.withLoose shoot).withLoose (sprout 0)) := by
    refine fastImport_of_sealed hfail ?_ (Header.isSealed_sealed _)
    rw [block?_withLoose, if_neg (Ne.symm h₀₂), hstart, if_neg hg₀]
  have hfast₁ : ((start.withLoose shoot).withLoose (sprout 0)).fastImport (sprout 1) =
      (.ok (.imported false), ((start.withLoose shoot).withLoose (sprout 0)).withLoose (sprout 1)) := by
    refine fastImport_of_sealed hfail ?_ (Header.isSealed_sealed _)
    rw [block?_withLoose, if_neg h₀₁, block?_withLoose, if_neg (Ne.symm h₁₂), hstart, if_neg hg₁]
  have grown := (((Grown.new hnew).fastImport hfast₂).fastImport hfast₀).fastImport hfast₁
  generalize hc : ((start.withLoose shoot).withLoose (sprout 0)).withLoose (sprout 1) = c at grown
  have hblock (h : Digest) : c.block? h = if (sprout 1).hash = h then some (sprout 1)
      else if (sprout 0).hash = h then some (sprout 0)
      else if shoot.hash = h then some shoot
      else if Block.genesis.hash = h then some .genesis else none := by
    rw [← hc, block?_withLoose, block?_withLoose, block?_withLoose, hstart]
  have hshoot : c.block? shoot.hash = some shoot := by
    rw [hblock, if_neg h₁₂, if_neg h₀₂, if_pos rfl]
  have hsprout : c.block? (sprout 0).hash = some (sprout 0) := by
    rw [hblock, if_neg (Ne.symm h₀₁), if_pos rfl]
  have hgenesis : c.block? Block.genesis.hash = some .genesis := by
    rw [hblock, if_neg (Ne.symm hg₁), if_neg (Ne.symm hg₀), if_neg (Ne.symm hg₂), if_pos rfl]
  have hheld : c.holding shoot = c := by
    rw [holding, if_pos (by rw [hshoot]; rfl)]
  have hone : c.ancestor? shoot.hash 1 = some (sprout 0) := by
    rw [ancestor?, ancestor?, hshoot]
    exact hsprout
  refine ⟨c, grown, ?_, ?_, ?_, ?_, ?_, ?_⟩
  · rw [hheld]
    intro h b p hb hne hp
    rw [hblock] at hb
    split at hb
    · cases hb
      rw [show (sprout 1).parent = Block.genesis.hash from rfl, hgenesis] at hp
      cases hp
      rfl
    split at hb
    · cases hb
      rw [show (sprout 0).parent = Block.genesis.hash from rfl, hgenesis] at hp
      cases hp
      rfl
    split at hb
    · cases hb
      rw [show shoot.parent = (sprout 0).hash from rfl, hsprout] at hp
      cases hp
      rfl
    split at hb
    · next he => exact absurd he.symm hne
    · cases hb
  · rw [hheld, hshoot]
  · rw [hheld, hone]
  · rw [hheld, ancestor?, hone]
    exact hgenesis
  · rw [hheld, ← hc]
    exact Canonical.byNumber_put _ 1 1 _
  · rw [hheld, ← hc]
    have hne (n : UInt64) (h : Digest) (index : Canonical) (hn : n ≠ 2) :
        (index.put n h).byNumber[(2 : UInt64)]? = index.byNumber[(2 : UInt64)]? := by
      rw [Canonical.byNumber_put, if_neg hn]
    refine (hne 1 _ _ (by decide)).trans ((hne 1 _ _ (by decide)).trans ?_)
    exact Canonical.byNumber_put _ 2 2 _

/-- The promotion of the block that was stored first. -/
theorem exists_promoted_marks_iff_shoot :
    ∃ c, Grown .genesis c ∧ Block.genesis.number = 0 ∧ (c.holding shoot).Rises .genesis ∧
      (c.holding shoot).block? shoot.hash = some shoot ∧
      (∃ steps, (c.holding shoot).ancestor? shoot.hash steps = some .genesis) ∧
      shoot.number.toNat + 1 < UInt64.size ∧
      ∃ t, (do setBest shoot; correct : Step Chain Unit).exec c = (.ok (), t) ∧
        (∀ n, shoot.number < n → t.canonicalHash? n = none) ∧
        ((∀ n ≤ shoot.number, t.Marks shoot n) ↔ ∀ m n, n ≤ m → m ≤ shoot.number →
          (c.holding shoot).Marks shoot m → (c.holding shoot).Marks shoot n) := by
  obtain ⟨c, grown, rises, found, -, htwo, -, -⟩ := exists_grown_sprouts
  have room : shoot.number.toNat + 1 < UInt64.size := (by decide : (2 : UInt64).toNat + 1 < _)
  exact ⟨c, grown, rfl, rises, found, ⟨2, htwo⟩, room,
    exists_promoted_marks_iff grown rfl rises found ⟨2, htwo⟩ room⟩

/-- The sibling keeps the place of the parent of the block that is promoted. -/
theorem exists_promoted_misplaced :
    ∃ c t, Grown .genesis c ∧ (c.holding shoot).Rises .genesis ∧
      (c.holding shoot).block? shoot.hash = some shoot ∧
      (c.holding shoot).ancestor? shoot.hash 2 = some .genesis ∧
      (do setBest shoot; correct : Step Chain Unit).exec c = (.ok (), t) ∧
      ¬ t.Marks shoot 1 := by
  obtain ⟨c, grown, rises, found, hone, htwo, hfirst, hsecond⟩ := exists_grown_sprouts
  have keyed := grown.keyed_holding shoot
  obtain ⟨a, stretch, htop, -⟩ := exists_stretch keyed rises rfl found ⟨2, htwo⟩
  obtain ⟨t, index, hrun, hblocks, relinked, hindex⟩ :=
    exists_promoted keyed found (by decide : (2 : UInt64).toNat + 1 < _) stretch htop
  have hcut {n : UInt64} (hn : n ≤ shoot.number) :
      ((c.holding shoot).canonical.cutAbove shoot.number).byNumber[n]? =
        (c.holding shoot).canonicalHash? n := byNumber_cutAbove_of_le hn
  have htop' : a (UInt64.toNat 2) = shoot := htop
  refine ⟨c, t, grown, rises, found, htwo, hrun, ?_⟩
  rintro ⟨x, hx, -, hmarks⟩
  -- The index agrees with the branch at height two, so height one is left as it was.
  rw [hindex, relinked.kept (m := 2) (by decide) (Nat.le_refl _)
      (by rw [hcut (by decide), hsecond, htop']), hcut (by decide), hfirst] at hmarks
  have hx' : t.ancestor? shoot.hash 1 = some x := hx
  rw [ancestor?_congr hblocks, hone] at hx'
  cases hx'
  have hdistinct := nodup_sprout
  simp only [List.nodup_cons, List.mem_cons, List.not_mem_nil, or_false, not_or] at hdistinct
  exact hdistinct.2.1.1 (Option.some.inj hmarks).symm

end Chain
end ChainSync
