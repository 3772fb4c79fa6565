import ChainSync.Proofs.Chain.Report
import Mathlib.Data.List.TakeWhile

/-!
# Canonical headers beyond a gap

A block that is stored before its parent takes the entry of its height, so the canonical index may
have gaps, and a list of canonical headers goes on above them. Main statement: on every chain that
linking, early stores, promotions and corrections lead to, the headers from a height on are those at
the lowest canonical heights, and they end at the first gap exactly when nothing is canonical above
a gap of the range.
-/

namespace ChainSync
namespace Chain

/-! ### Entries of stored blocks -/

/-- At each height of an index stands the hash of a stored block of this height. -/
def Backs (c : Chain) (index : Canonical) : Prop :=
  ∀ ⦃n : UInt64⦄ ⦃h : Digest⦄, index.byNumber[n]? = some h →
    ∃ b, c.block? h = some b ∧ b.number = n

section

variable {c d : Chain} {index : Canonical}

namespace Backs

theorem mono (backs : c.Backs index) (within : c.Within d) : d.Backs index := by
  intro n h hn
  obtain ⟨b, hb, hnumber⟩ := backs hn
  exact ⟨b, within hb, hnumber⟩

theorem put (backs : c.Backs index) {h : Digest} {b : Block} (hb : c.block? h = some b) :
    c.Backs (index.put b.number h) := by
  intro n x hn
  rw [Canonical.byNumber_put] at hn
  split at hn
  · next he =>
    cases hn
    exact ⟨b, hb, he⟩
  · exact backs hn

/-- The entries that a cut leaves are backed. -/
theorem cutAbove (backs : c.Backs index) (n : UInt64) : c.Backs (index.cutAbove n) := by
  intro m h hm
  rw [Canonical.byNumber_cutAbove] at hm
  split at hm
  · cases hm
  · exact backs hm

/-- Following a branch downwards puts stored blocks only. -/
theorem relink (fuel : Nat) : ∀ {index : Canonical} {cursor : Digest}, c.Backs index →
    c.Backs (relink c.blocks fuel cursor index) := by
  induction fuel with
  | zero => exact fun backs ↦ backs
  | succ fuel ih =>
    intro index cursor backs
    rw [Chain.relink]
    cases hb : c.blocks[cursor]? with
    | none => exact backs
    | some block =>
      dsimp only
      split
      · exact backs
      split
      · exact backs.put hb
      · exact ih (backs.put hb)

/-- The entries below a new head are backed. -/
theorem setHead (backs : c.Backs c.canonical) {head : Digest} (run : c.setHead head = .ok d) :
    d.Backs d.canonical := by
  cases hb : c.block? head with
  | none =>
    rw [Chain.setHead, hb] at run
    cases run
    exact backs
  | some block =>
    rw [setHead_of_stored hb] at run
    split at run
    · cases run
      exact (backs.cutAbove _).relink _
    · cases run

end Backs

/-- An attempt to link a block leaves the entries backed. -/
theorem Attempt.backs {block : Block} {r : Except Fault ImportOutcome} (ha : Attempt c block r d)
    (backs : c.Backs c.canonical) : d.Backs d.canonical := by
  have hkept : d.Backs c.canonical := backs.mono ha.within
  cases ha with
  | heavy _ _ _ _ _ _ => exact (hkept.cutAbove _).relink _
  | exist _ | noParent _ _ | noHeight _ _ _ | invalid _ _ _ _ => exact hkept
  | detached _ _ _ _ | light _ _ _ _ _ | lastHead _ _ _ _ _ _ => exact hkept

theorem Backs.withLoose {block : Block} (backs : c.Backs c.canonical)
    (new : c.block? block.hash = none) :
    (c.withLoose block).Backs (c.withLoose block).canonical := by
  have hself : (c.withLoose block).block? block.hash = some block := by
    rw [block?_withLoose, if_pos rfl]
  exact (backs.mono (Within.withLoose new)).put hself

/-- A call leaves the entries backed. -/
theorem Call.backs (call : Call) (backs : c.Backs c.canonical) :
    (call.leaves c).Backs (call.leaves c).canonical :=
  call.keeps (P := fun c ↦ c.Backs c.canonical) (fun _ _ _ h ↦ h) (fun h ha ↦ ha.backs h)
    (fun h new ↦ h.withLoose new) backs

end

/-! ### Edits -/

/-- An edit of a chain. -/
inductive Edit where
  /-- A call that links blocks, stores one before its parent, sets an error or prunes. -/
  | plain (call : Call)
  /-- A block is made the best one. -/
  | setBest (block : Block)
  /-- The chain is corrected. -/
  | correct

def Edit.leaves : Edit → Chain → Chain
  | plain call, c => call.leaves c
  | setBest block, c => (Chain.setBest block).leaves c
  | correct, c => Chain.correct.leaves c

def afterEdits (c : Chain) (edits : List Edit) : Chain :=
  edits.foldl (fun c edit ↦ edit.leaves c) c

/-- An edit leaves the entries backed. -/
theorem Edit.backs (edit : Edit) {c : Chain} (backs : c.Backs c.canonical) :
    (edit.leaves c).Backs (edit.leaves c).canonical := by
  cases edit with
  | plain call => exact call.backs backs
  | setBest block =>
    have hdef : (if (c.block? block.hash).isSome then c
        else { c with blocks := c.blocks.insert block.hash block }) = c.holding block := rfl
    have hindex : (c.holding block).canonical = c.canonical := by
      rw [holding]
      split <;> rfl
    have hheld : (c.holding block).Backs (c.holding block).canonical := by
      rw [hindex]
      exact backs.mono (c.within_holding block)
    rw [Edit.leaves, Step.leaves, Chain.setBest]
    simp only [Step.exec_bind, Step.exec_get, Step.exec_set, Step.exec_lift, hdef]
    cases hx : ((c.holding block).recordTotals block.hash).setHead block.hash with
    | error e => exact hheld
    | ok d => exact Backs.setHead (c := (c.holding block).recordTotals block.hash) hheld hx
  | correct =>
    rw [Edit.leaves, Step.leaves, Chain.correct]
    simp only [Step.exec_bind, Step.exec_get, Step.exec_set, Step.exec_lift]
    cases hx : (c.recordTotals c.best).setHead (c.recordTotals c.best).best with
    | error e => exact backs
    | ok d =>
      have hnext : d.Backs d.canonical := Backs.setHead (c := c.recordTotals c.best) backs hx
      exact hnext

/-- On a chain that edits lead to, the entries are backed. -/
theorem backs_afterEdits {first : Block} {start : Chain} (new : Chain.new first = .ok start)
    (edits : List Edit) :
    (start.afterEdits edits).Backs (start.afterEdits edits).canonical := by
  obtain ⟨c, hnew, hblocks, -, hindex, -⟩ := exists_new (room_new new)
  rw [new] at hnew
  cases hnew
  have hstart : start.Backs start.canonical := by
    intro n h hn
    rw [hindex] at hn
    rw [block?, hblocks]
    exact (closed_single first).placed hn
  exact List.foldlRecOn (motive := fun c : Chain ↦ c.Backs c.canonical) edits _ hstart
    fun c hc edit _ ↦ edit.backs hc

/-! ### Headers by height -/

def headerAt? (c : Chain) (n : Nat) : Option Header :=
  if n < UInt64.size then (c.blockAt? (.ofNat n)).map Block.header else none

/-- The canonical headers at so many heights from one on, up to the first height without one. -/
def headersToGap (c : Chain) : Nat → Nat → List Header
  | _, 0 => []
  | low, count + 1 =>
    match c.headerAt? low with
    | none => []
    | some header => header :: headersToGap c (low + 1) count

def headersAt (c : Chain) (heights : List UInt64) : List Header :=
  heights.filterMap fun n ↦ c.headerAt? n.toNat

/-- These are the canonical heights from one on, lowest first. -/
structure HeightsFrom (c : Chain) (low : Nat) (heights : List UInt64) : Prop where
  /-- They rise. -/
  ordered : heights.Pairwise (· < ·)
  /-- They are those at which some block is canonical. -/
  mem_iff (n : UInt64) : n ∈ heights ↔ low ≤ n.toNat ∧ c.hasBlockAt n = true

section

variable {c : Chain}

/-- At a canonical height stands a header with its number. -/
theorem Backs.exists_headerAt? (backs : c.Backs c.canonical) {n : UInt64}
    (hn : c.hasBlockAt n = true) :
    ∃ header, c.headerAt? n.toNat = some header ∧ header.number = n := by
  obtain ⟨h, hentry⟩ := Option.isSome_iff_exists.mp hn
  obtain ⟨b, hb, hnumber⟩ := backs hentry
  refine ⟨b.header, ?_, hnumber⟩
  rw [headerAt?, if_pos n.toNat_lt_size, UInt64.ofNat_toNat, blockAt?, hentry]
  simp [hb]

theorem headersAt_cons {n : UInt64} {header : Header} (h : c.headerAt? n.toNat = some header)
    (heights : List UInt64) : c.headersAt (n :: heights) = header :: c.headersAt heights :=
  List.filterMap_cons_some h

/-- At a height that is not canonical stands no header. -/
theorem headerAt?_eq_none {k : Nat} (h : ∀ n : UInt64, n.toNat = k → c.hasBlockAt n = false) :
    c.headerAt? k = none := by
  rw [headerAt?]
  split
  · next hk =>
    have hnone := h (.ofNat k) (UInt64.toNat_ofNat_of_lt' hk)
    rw [hasBlockAt, Option.isSome_eq_false_iff, Option.isNone_iff_eq_none] at hnone
    simp [blockAt?, hnone]
  · rfl

namespace HeightsFrom

variable {low : Nat} {n : UInt64} {heights : List UInt64}

theorem tail (h : c.HeightsFrom n.toNat (n :: heights)) : c.HeightsFrom (n.toNat + 1) heights where
  ordered := h.ordered.of_cons
  mem_iff m := by
    have habove : ∀ m ∈ heights, n < m := (List.pairwise_cons.mp h.ordered).1
    have hmem := h.mem_iff m
    rw [List.mem_cons] at hmem
    constructor
    · intro hm
      exact ⟨UInt64.lt_iff_toNat_lt.mp (habove m hm), (hmem.mp (.inr hm)).2⟩
    · rintro ⟨hlt, hm⟩
      apply (hmem.mpr ⟨by omega, hm⟩).resolve_left
      rintro rfl
      omega

theorem head_le (h : c.HeightsFrom low (n :: heights)) {m : UInt64} (hm : m ∈ n :: heights) :
    n.toNat ≤ m.toNat := by
  rcases List.mem_cons.mp hm with rfl | hm
  · exact Nat.le_refl _
  · exact Nat.le_of_lt (UInt64.lt_iff_toNat_lt.mp ((List.pairwise_cons.mp h.ordered).1 m hm))

/-- The headers up to the first gap come first at the lowest canonical heights, and are all of them
exactly when nothing is canonical above a gap of the range. -/
theorem headersToGap_spec (backs : c.Backs c.canonical) (count : Nat) :
    ∀ {low : Nat} {heights : List UInt64}, c.HeightsFrom low heights →
      c.headersToGap low count <+: c.headersAt (heights.take count) ∧
      (c.headersAt (heights.take count) = c.headersToGap low count ↔
        ∀ n m : UInt64, low ≤ n.toNat → n.toNat < low + count → n < m → c.hasBlockAt n = false →
          c.hasBlockAt m = false) := by
  induction count with
  | zero =>
    intro low heights h
    refine ⟨List.nil_prefix, iff_of_true rfl ?_⟩
    intro n m hlow hhigh
    omega
  | succ count ih =>
    rintro low (_ | ⟨n, rest⟩) h
    · -- Nothing is canonical from here on.
      have hnone (n : UInt64) (hn : low ≤ n.toNat) : c.hasBlockAt n = false := by
        have := (h.mem_iff n).not.mp List.not_mem_nil
        simpa [hn] using this
      have hgap : c.headersToGap low (count + 1) = [] := by
        rw [headersToGap, headerAt?_eq_none fun n hn ↦ hnone n (Nat.le_of_eq hn.symm)]
      rw [hgap]
      refine ⟨List.nil_prefix, iff_of_true rfl ?_⟩
      intro n m hlow _ hlt _
      have := UInt64.lt_iff_toNat_lt.mp hlt
      exact hnone m (by omega)
    obtain ⟨hlow, hcanonical⟩ := (h.mem_iff n).mp List.mem_cons_self
    obtain ⟨header, hheader, -⟩ := backs.exists_headerAt? hcanonical
    rcases Nat.eq_or_lt_of_le hlow with rfl | hlt
    · -- The lowest height is canonical.
      obtain ⟨hfront, heq⟩ := ih h.tail
      rw [headersToGap, hheader, List.take_succ_cons, headersAt_cons hheader]
      dsimp only
      refine ⟨(List.prefix_cons_inj _).mpr hfront, ?_⟩
      rw [List.cons.injEq, eq_self, true_and, heq]
      constructor
      · intro hgaps a m ha hhigh hlt hnone
        refine hgaps a m (Nat.lt_of_le_of_ne ha ?_) (by omega) hlt hnone
        intro he
        rw [← UInt64.toNat_inj.mp he, hcanonical] at hnone
        cases hnone
      · intro hgaps a m ha hhigh
        exact hgaps a m (by omega) (by omega)
    · -- The lowest height is a gap, and something is canonical above it.
      have hnone (m : UInt64) (hm : m.toNat = low) : c.hasBlockAt m = false := by
        by_contra hne
        have := h.head_le ((h.mem_iff m).mpr ⟨Nat.le_of_eq hm.symm, by simpa using hne⟩)
        omega
      have hgap : c.headersToGap low (count + 1) = [] := by
        rw [headersToGap, headerAt?_eq_none hnone]
      rw [hgap, List.take_succ_cons, headersAt_cons hheader]
      refine ⟨List.nil_prefix, iff_of_false (List.cons_ne_nil _ _) ?_⟩
      intro hgaps
      have hlowest : (UInt64.ofNat low).toNat = low :=
        UInt64.toNat_ofNat_of_lt' (Nat.lt_trans hlt n.toNat_lt_size)
      have := hgaps (.ofNat low) n (Nat.le_of_eq hlowest.symm) (by omega)
        (UInt64.lt_iff_toNat_lt.mpr (by omega)) (hnone _ hlowest)
      rw [hcanonical] at this
      cases this

end HeightsFrom

/-- Where the entries are backed, the canonical headers from a height on are those at the lowest
canonical heights. -/
theorem Backs.exists_heightsFrom (backs : c.Backs c.canonical) (low : UInt64) :
    ∃ heights, c.HeightsFrom low.toNat heights ∧
      ∀ count, c.canonicalHeaders low count = c.headersAt (heights.take count) := by
  let entries := c.canonical.byNumber.toList.filter fun entry ↦ low ≤ entry.1
  have hentry {n : UInt64} {h : Digest} (hmem : (n, h) ∈ entries) :
      c.canonicalHash? n = some h :=
    Std.ExtTreeMap.mem_toList_iff_getElem?_eq_some.mp (List.mem_of_mem_filter hmem)
  refine ⟨entries.map Prod.fst, ⟨?_, fun n ↦ ?_⟩, fun count ↦ ?_⟩
  · rw [List.pairwise_map]
    exact (c.canonical.byNumber.ordered_keys_toList.imp Std.compare_eq_lt.mp).filter _
  · rw [List.mem_map]
    constructor
    · rintro ⟨⟨m, h⟩, hmem, rfl⟩
      refine ⟨?_, by rw [hasBlockAt, hentry hmem]; rfl⟩
      simpa [UInt64.le_iff_toNat_le] using (List.mem_filter.mp hmem).2
    · rintro ⟨hle, hn⟩
      obtain ⟨h, hh⟩ := Option.isSome_iff_exists.mp hn
      refine ⟨(n, h), List.mem_filter.mpr ⟨?_, ?_⟩, rfl⟩
      · exact Std.ExtTreeMap.mem_toList_iff_getElem?_eq_some.mpr hh
      · simpa [UInt64.le_iff_toNat_le] using hle
  · have hdef : c.canonicalHeaders low count =
        (((entries.take count).map fun entry ↦ c.block? entry.2).takeWhile Option.isSome).filterMap
          (Option.map Block.header) := rfl
    -- No block is missing, so nothing ends the list early.
    rw [hdef, headersAt, List.takeWhile_eq_self_iff.mpr ?_, List.filterMap_map, ← List.map_take,
      List.filterMap_map]
    · apply List.filterMap_congr
      rintro ⟨n, h⟩ hmem
      have hn := hentry (List.mem_of_mem_take hmem)
      simp [headerAt?, n.toNat_lt_size, blockAt?, hn]
    · intro answer hanswer
      obtain ⟨⟨n, h⟩, hmem, rfl⟩ := List.mem_map.mp hanswer
      obtain ⟨b, hb, -⟩ := backs (hentry (List.mem_of_mem_take hmem))
      rw [hb]
      rfl

/-- The headers at canonical heights have these heights as their numbers. -/
theorem Backs.map_number (backs : c.Backs c.canonical) {heights : List UInt64}
    (h : ∀ n ∈ heights, c.hasBlockAt n = true) :
    (c.headersAt heights).map Header.number = heights := by
  induction heights with
  | nil => rfl
  | cons n rest ih =>
    obtain ⟨header, hheader, hnumber⟩ := backs.exists_headerAt? (h n List.mem_cons_self)
    rw [headersAt_cons hheader, List.map_cons, hnumber,
      ih fun m hm ↦ h m (List.mem_cons_of_mem _ hm)]

end

/-- On a chain that edits lead to, the headers listed from a height on have the lowest canonical
heights from there on as their numbers, and each is that of the canonical block at its height. The
headers up to the first gap come first among them. They are all of them exactly when nothing is
canonical above a height of the range that has no canonical block. -/
theorem canonicalHeaders_afterEdits {first : Block} {start : Chain}
    (new : Chain.new first = .ok start) (edits : List Edit) (low : UInt64) (count : Nat) :
    (∃ heights, (start.afterEdits edits).HeightsFrom low.toNat heights ∧
      ((start.afterEdits edits).canonicalHeaders low count).map Header.number =
        heights.take count) ∧
    (∀ header ∈ (start.afterEdits edits).canonicalHeaders low count,
      (start.afterEdits edits).headerAt? header.number.toNat = some header) ∧
    (start.afterEdits edits).headersToGap low.toNat count <+:
      (start.afterEdits edits).canonicalHeaders low count ∧
    ((start.afterEdits edits).canonicalHeaders low count =
        (start.afterEdits edits).headersToGap low.toNat count ↔
      ∀ n m : UInt64, low ≤ n → n.toNat < low.toNat + count → n < m →
        (start.afterEdits edits).hasBlockAt n = false →
        (start.afterEdits edits).hasBlockAt m = false) := by
  have backs := backs_afterEdits new edits
  generalize start.afterEdits edits = c at backs ⊢
  obtain ⟨heights, h, hheaders⟩ := backs.exists_heightsFrom low
  have hcanonical (n : UInt64) (hn : n ∈ heights.take count) : c.hasBlockAt n = true :=
    ((h.mem_iff n).mp (List.mem_of_mem_take hn)).2
  obtain ⟨hfront, heq⟩ := HeightsFrom.headersToGap_spec backs count h
  rw [hheaders]
  refine ⟨⟨heights, h, backs.map_number hcanonical⟩, ?_, hfront, heq⟩
  intro header hheader
  obtain ⟨n, hn, hat⟩ := List.mem_filterMap.mp hheader
  obtain ⟨other, hother, hnumber⟩ := backs.exists_headerAt? (hcanonical n hn)
  rw [hat] at hother
  cases hother
  rw [hnumber, hat]

/-- A block at height two is stored on top of the first block alone. -/
def gapped : List Edit := [.plain (.fastImport shoot)]

/-- Three headers from height zero on are those at the heights zero and two, and the one at height
two is behind a gap. -/
theorem exists_afterEdits_gapped : ∃ start, Chain.new .genesis = .ok start ∧
    (start.afterEdits gapped).canonicalHeaders 0 3 = [Block.genesis.header, shoot.header] ∧
    (start.afterEdits gapped).headersToGap 0 3 = [Block.genesis.header] := by
  obtain ⟨start, new, hrun⟩ := Seat.exists_genesis_of_any (fun start ↦ decide
    ((start.afterEdits gapped).canonicalHeaders 0 3 = [Block.genesis.header, shoot.header] ∧
      (start.afterEdits gapped).headersToGap 0 3 = [Block.genesis.header])) (by decide +kernel)
  exact ⟨start, new, of_decide_eq_true hrun⟩

/-- The lowest canonical heights are listed, and above one that is missing another one is
canonical. -/
theorem exists_canonicalHeaders_gapped : ∃ start, Chain.new .genesis = .ok start ∧
    (∃ heights, (start.afterEdits gapped).HeightsFrom 0 heights ∧ heights.take 3 = [0, 2]) ∧
    ∃ n m : UInt64, n.toNat < 3 ∧ n < m ∧ (start.afterEdits gapped).hasBlockAt n = false ∧
      (start.afterEdits gapped).hasBlockAt m = true := by
  obtain ⟨start, new, hheaders, hgap⟩ := exists_afterEdits_gapped
  obtain ⟨⟨heights, h, hnumbers⟩, -, -, heq⟩ := canonicalHeaders_afterEdits new gapped 0 3
  refine ⟨start, new, ⟨heights, h, ?_⟩, ?_⟩
  · rw [← hnumbers, hheaders]
    rfl
  · have hne : ¬ (start.afterEdits gapped).canonicalHeaders 0 3 =
        (start.afterEdits gapped).headersToGap 0 3 := by
      rw [hheaders, hgap]
      simp
    by_contra hnone
    apply hne
    apply heq.mpr
    intro n m _ hhigh hlt hn
    by_contra hm
    exact hnone ⟨n, m, hhigh, hlt, hn, by simpa using hm⟩

/-- The headers that are listed are not those up to the first gap. -/
theorem exists_canonicalHeaders_ne : ∃ start, Chain.new .genesis = .ok start ∧
    (start.afterEdits gapped).canonicalHeaders 0 3 ≠
      (start.afterEdits gapped).headersToGap 0 3 := by
  obtain ⟨start, new, hheaders, hgap⟩ := exists_afterEdits_gapped
  refine ⟨start, new, ?_⟩
  rw [hheaders, hgap]
  simp

end Chain
end ChainSync
