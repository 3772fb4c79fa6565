import ChainSync.Proofs.Delivery.Line
import ChainSync.Proofs.Import.Overflow
import ChainSync.Proofs.Pending.Index
import ChainSync.Proofs.RecentSet

/-!
# Draining pending segments of a line

While a seat holds a line up to a height, and every hash it remembers is one of those blocks, a
pending segment that starts at most one above that height is accepted, and the drain goes on to the
level above the greater of its end and the height. So a drain that starts no higher than the lowest
pending range ends with every pending range out of reach.
-/

namespace ChainSync

/-- A segment of the line that starts at a height, all of whose heights are in a set. -/
def Piece (c : Nat → Block) (top : Nat) (P : Nat → Prop) (first : Nat) (blocks : List Block) :
    Prop :=
  ∃ last, first ≤ last ∧ last ≤ top ∧ blocks = segment c first last ∧
    ∀ i, first ≤ i → i ≤ last → P i

/-- Every range is a segment filed under its first block, none of them below a height. -/
def Files (c : Nat → Block) (top : Nat) (P : Nat → Prop) (low : Nat) (index : PendingIndex) :
    Prop :=
  ∀ level key blocks, index.range? level key = some blocks →
    low ≤ level.toNat ∧ key = (c level.toNat).hash ∧ Piece c top P level.toNat blocks

theorem Files.mono {c : Nat → Block} {top low low' : Nat} {P : Nat → Prop} {index : PendingIndex}
    (files : Files c top P low index) (hle : low' ≤ low) : Files c top P low' index := by
  intro level key blocks h
  obtain ⟨hlow, hkey, hpiece⟩ := files level key blocks h
  exact ⟨Nat.le_trans hle hlow, hkey, hpiece⟩

section Sets

variable {c : Nat → Block} {top low : Nat} {P Q : Nat → Prop}

theorem Piece.mono {first : Nat} {blocks : List Block} (piece : Piece c top P first blocks)
    (h : ∀ i, P i → Q i) : Piece c top Q first blocks := by
  obtain ⟨last, hle, hlast, hblocks, sound⟩ := piece
  exact ⟨last, hle, hlast, hblocks, fun i hfirst hi ↦ h i (sound i hfirst hi)⟩

/-- A segment starts at one height only. -/
theorem Piece.first_unique {first first' : Nat} {blocks : List Block} (line : Line c top)
    (piece : Piece c top P first blocks) (piece' : Piece c top Q first' blocks) :
    first = first' := by
  obtain ⟨last, hle, hlast, rfl, -⟩ := piece
  obtain ⟨last', hle', hlast', hblocks, -⟩ := piece'
  have h := (mem_segment line hlast (by omega)).mpr ⟨Nat.le_refl first, hle⟩
  have h' := (mem_segment line hlast' (by omega)).mpr ⟨Nat.le_refl first', hle'⟩
  rw [hblocks] at h
  rw [← hblocks] at h'
  have := (mem_segment line hlast' (by omega)).mp h
  have := (mem_segment line hlast (by omega)).mp h'
  omega

theorem Files.monoSet {index : PendingIndex} (files : Files c top P low index)
    (h : ∀ i, P i → Q i) : Files c top Q low index := by
  intro level key blocks hrange
  obtain ⟨hlow, hkey, piece⟩ := files level key blocks hrange
  exact ⟨hlow, hkey, piece.mono h⟩

end Sets

/-- A block of the line is in a range of the index. -/
def PendingIndex.Has (index : PendingIndex) (block : Block) : Prop :=
  ∃ level key blocks, index.range? level key = some blocks ∧ block ∈ blocks

namespace Seat

/-- The seat holds the line up to a height, and remembers and counts no other blocks. -/
structure Holds (c : Nat → Block) (top : Nat) (P : Nat → Prop) (height : Nat) (s : Seat) :
    Prop where
  /-- No error is set for a later call. -/
  calm : Calm s
  /-- The chain stores the line up to the height. -/
  stores : StoresTo c height s.node.chain
  /-- The height is one of the line. -/
  le_top : height ≤ top
  /-- The heights up to there are in the set. -/
  sound {i : Nat} : 1 ≤ i → i ≤ height → P i
  /-- Every remembered hash is stored. -/
  cache {h : Digest} : h ∈ s.engine.imported.keys → ∃ i ≤ height, h = (c i).hash
  /-- No peer is credited with more blocks than were linked. -/
  counted (peer : PeerId) : (s.engine.stats.counters peer).imported.toNat ≤ height

/-- The queue and the counters of filed blocks are as before. -/
structure Undisturbed (s t : Seat) : Prop where
  /-- The same batches wait. -/
  queue : t.engine.queue = s.engine.queue
  /-- The same numbers of blocks were filed. -/
  filed (peer : PeerId) :
    (t.engine.stats.counters peer).stored = (s.engine.stats.counters peer).stored

theorem Undisturbed.refl (s : Seat) : Undisturbed s s := ⟨rfl, fun _ ↦ rfl⟩

theorem Undisturbed.trans {s t u : Seat} (h : Undisturbed s t) (h' : Undisturbed t u) :
    Undisturbed s u :=
  ⟨h'.queue.trans h.queue, fun peer ↦ (h'.filed peer).trans (h.filed peer)⟩

theorem range?_dropped (s : Seat) (level : UInt64) (keys : List Digest)
    (l : UInt64) (k : Digest) :
    (s.dropped level keys).node.pending.index.range? l k =
      if l = level ∧ k ∈ keys then none else s.node.pending.index.range? l k := by
  unfold dropped
  by_cases hk : keys.isEmpty
  · rw [if_pos hk, List.isEmpty_iff.mp hk]
    simp
  · rw [if_neg hk]
    exact PendingIndex.range?_remove ..

namespace Holds

variable {c : Nat → Block} {top height : Nat} {P : Nat → Prop} {s : Seat}

theorem mono {Q : Nat → Prop} (holds : Holds c top P height s) (h : ∀ i, P i → Q i) :
    Holds c top Q height s :=
  ⟨holds.calm, holds.stores, holds.le_top, fun hone hi ↦ h _ (holds.sound hone hi), holds.cache,
    holds.counted⟩

theorem moved (holds : Holds c top P height s) (peer : PeerId) (event : ImportEvent) :
    Holds c top P height (s.moved peer event) :=
  ⟨holds.calm.moved .., holds.stores, holds.le_top, holds.sound, holds.cache, holds.counted⟩

theorem noted (holds : Holds c top P height s) : Holds c top P height s.noted :=
  ⟨holds.calm.noted, holds.stores, holds.le_top, holds.sound, holds.cache, holds.counted⟩

theorem withIndex (holds : Holds c top P height s) (index : PendingIndex) :
    Holds c top P height (s.withIndex index) :=
  ⟨holds.calm.withIndex index, holds.stores, holds.le_top, holds.sound, holds.cache,
    holds.counted⟩

/-- Blocks above the height are wanted. -/
theorem keeps (line : Line c top) (holds : Holds c top P height s) {i : Nat} (hlow : height < i)
    (hi : i ≤ top) : (!s.engine.imported.contains (c i).hash) = true := by
  rw [Bool.not_eq_true', RecentSet.contains, List.contains_eq_mem, decide_eq_false_iff_not]
  intro hmem
  obtain ⟨j, hj, hhash⟩ := holds.cache hmem
  have := line.hash_inj hi (by omega) hhash
  omega

/-- The wanted blocks of a segment are those at the heights that are not remembered. -/
theorem wanted_segment (holds : Holds c top P height s) (first last : Nat) :
    s.wanted (segment c first last) =
      ((List.range' first (last + 1 - first)).filter
        fun i ↦ !s.engine.imported.contains (c i).hash).map c := by
  rw [wanted_of_unpruned holds.stores.unpruned, segment, List.filter_map]
  rfl

/-- The last wanted block of a segment that ends above the height is its end. -/
theorem wanted_getLast? (line : Line c top) (holds : Holds c top P height s) {first last : Nat}
    (hfirst : first ≤ last) (hlow : height < last) (hlast : last ≤ top) :
    (s.wanted (segment c first last)).getLast? = some (c last) := by
  obtain ⟨n, rfl⟩ : ∃ n, last = first + n := ⟨last - first, by omega⟩
  have hn : first + n + 1 - first = n + 1 := by omega
  have hkeep := holds.keeps line hlow hlast
  rw [Bool.not_eq_true'] at hkeep
  simp [holds.wanted_segment, hn, List.range'_1_concat, hkeep]

/-- A segment that starts above the next height is wanted as a whole. -/
theorem wanted_of_high (line : Line c top) (holds : Holds c top P height s) {first last : Nat}
    (hlow : height < first) (hlast : last ≤ top) :
    s.wanted (segment c first last) = segment c first last := by
  rw [holds.wanted_segment, segment, List.filter_eq_self.mpr]
  intro i hi
  have := List.mem_range'_1.mp hi
  exact holds.keeps line (by omega) (by omega)

theorem linked (holds : Holds c top P height s) {height' : Nat} {chain : Chain}
    {imported : List Digest} {blocks : List Block} {outcome : ImportOutcome}
    (links : s.Links blocks imported outcome chain) (stores : StoresTo c height' chain)
    (hcount : height + imported.length = height') (htop : height' ≤ top) (room : top < UInt64.size)
    (sound : ∀ i, 1 ≤ i → i ≤ height' → P i)
    (hmem : ∀ h ∈ imported, ∃ i ≤ height', h = (c i).hash) (peer : PeerId) :
    s.Counts peer imported ∧ Holds c top P height' (s.linked peer chain imported) ∧
      Undisturbed s (s.linked peer chain imported) := by
  have hlen : (UInt64.ofNat imported.length).toNat = imported.length :=
    UInt64.toNat_ofNat_of_lt' (by omega)
  have counts : s.Counts peer imported := by
    have := holds.counted peer
    rw [Counts, hlen]
    omega
  obtain ⟨stats, hstats, hcounters⟩ := Stats.exec_recordImported counts
  have hlinked : (s.linked peer chain imported).engine.stats = stats := by
    change ((Stats.recordImported peer _).exec s.engine.stats).2 = stats
    rw [hstats]
  refine ⟨counts, ⟨holds.calm.linked links .., stores, htop, sound _ , ?_, ?_⟩, rfl, ?_⟩
  · intro h hh
    rcases RecentSet.mem_of_mem_insertAll imported hh with hh | hh
    · obtain ⟨i, hi, hhash⟩ := holds.cache hh
      exact ⟨i, by omega, hhash⟩
    · exact hmem h hh
  · intro p
    have := holds.counted p
    rw [hlinked, (hcounters p).2, hlen]
    split <;> omega
  · intro p
    rw [hlinked]
    exact (hcounters p).1

/-- A segment within reach has no wanted block, or its wanted blocks are linked to its end. -/
theorem link (line : Line c top) (holds : Holds c top P height s) {first last : Nat}
    (hfirst : first ≤ height + 1) (hle : first ≤ last) (hlast : last ≤ top)
    (sound : ∀ i, first ≤ i → i ≤ last → P i) (peer : PeerId) :
    (s.wanted (segment c first last) = [] ∧ last ≤ height) ∨
      ∃ imported outcome chain bottom tip,
        (s.wanted (segment c first last)).head? = some bottom ∧
        (s.wanted (segment c first last)).getLast? = some tip ∧
        bottom.number.toNat ≤ height + 1 ∧ tip.number.toNat ≤ last ∧
        s.Links (s.wanted (segment c first last)) imported outcome chain ∧
        outcome.isStored = true ∧ chain.bestNumber.toNat = max height last ∧
        s.Counts peer imported ∧ Holds c top P (max height last) (s.linked peer chain imported) ∧
        Undisturbed s (s.linked peer chain imported) := by
  have hwanted := holds.wanted_segment first last
  obtain ⟨hclimbs, hreach⟩ := climbs_filter_range'
    (fun i ↦ !s.engine.imported.contains (c i).hash) (last + 1 - first) hfirst
    fun i hi hn ↦ holds.keeps line hi (by omega)
  have hle_last : ∀ i ∈ (List.range' first (last + 1 - first)).filter
      fun i ↦ !s.engine.imported.contains (c i).hash, i ≤ last := by
    intro i hi
    have := List.mem_range'_1.mp (List.mem_filter.mp hi).1
    omega
  cases hheights : (List.range' first (last + 1 - first)).filter
      fun i ↦ !s.engine.imported.contains (c i).hash with
  | nil =>
    rw [hheights] at hwanted hreach
    refine .inl ⟨hwanted, ?_⟩
    rw [List.foldl_nil] at hreach
    omega
  | cons bottom rest =>
    rw [hheights] at hwanted hreach hclimbs hle_last
    obtain ⟨imported, outcome, chain, hrun, hstored, stores, hcount, hmem⟩ :=
      exists_importBlocks_of_climbs line (bottom :: rest) .exist holds.stores
        (fun i hi ↦ Nat.le_trans (hle_last i hi) hlast) hclimbs rfl
    have hmax : (bottom :: rest).foldl max height = max height last := by
      rw [hreach]
      omega
    rw [hmax] at stores hcount hmem
    have htop := holds.le_top
    have hsound : ∀ i, 1 ≤ i → i ≤ max height last → P i := by
      intro i hone hi
      by_cases hlow : i ≤ height
      · exact holds.sound hone hlow
      · exact sound i (by omega) (by omega)
    have links : s.Links (s.wanted (segment c first last)) imported outcome chain := by
      rw [hwanted]
      exact hrun
    have hroom := line.room
    obtain ⟨counts, holds', hsame⟩ :=
      holds.linked links stores hcount (by omega) (by omega) hsound hmem peer
    obtain ⟨tip, htip⟩ := Option.isSome_iff_exists.mp
      (List.getLast?_isSome.mpr (List.cons_ne_nil bottom rest))
    have htip_le := hle_last tip (List.mem_of_getLast? htip)
    have hbottom_le := hle_last bottom List.mem_cons_self
    refine .inr ⟨imported, outcome, chain, c bottom, c tip, ?_, ?_, ?_, ?_, links, hstored, ?_,
      counts, holds', hsame⟩
    · rw [hwanted]
      rfl
    · rw [hwanted, List.getLast?_map, htip]
      rfl
    · rw [line.toNat_number (by omega)]
      exact hclimbs.1
    · rw [line.toNat_number (by omega)]
      exact htip_le
    · rw [Chain.bestNumber, stores.bestBlock, line.toNat_number (by omega)]

/-! ### Ranges and levels -/

/-- A segment within reach that is drained moves the end of the drain up with the height. -/
theorem range (line : Line c top) (holds : Holds c top P height s) {first last : Nat}
    (hfirst : first ≤ height + 1) (hle : first ≤ last) (hlast : last ≤ top)
    (sound : ∀ i, first ≤ i → i ≤ last → P i) (peer : PeerId) (level : UInt64) (key : Digest)
    {d : Drain} (hd : d.lastLevel.toNat = height + 1) :
    ∃ d' t, (drainRanges peer level [(key, segment c first last)] d).exec s = (.ok (true, d'), t) ∧
      d'.lastLevel.toNat = max height last + 1 ∧ d'.settled = key :: d.settled ∧
      Holds c top P (max height last) t ∧ Undisturbed s t ∧
      t.node.pending = s.node.pending := by
  have ends := rangeEnd_drainRanges holds.calm peer level key (segment c first last) d
  cases hrun : (drainRanges peer level [(key, segment c first last)] d).exec s with
  | mk answer t =>
    rw [hrun] at ends
    dsimp only at ends
    have hroom := line.room
    rcases holds.link line hfirst hle hlast sound peer with ⟨hempty, hlow⟩ |
      ⟨imported, outcome, chain, bottom, tip, -, htip, -, htip_le, links, hstored, hbest, counts,
        holds', hsame⟩
    · cases ends with
      | nothing _ =>
        refine ⟨_, _, rfl, ?_, rfl, ?_, .refl s, rfl⟩
        · change d.lastLevel.toNat = _
          omega
        · rw [Nat.max_eq_left hlow]
          exact holds
      | noHeight nonempty _ | uncounted nonempty _ _ | invalid nonempty _ _
      | noParent nonempty _ _ =>
        exact absurd hempty nonempty
      | noLevel top' _ _ _ _ | advanced top' _ _ _ _ =>
        rw [hempty] at top'
        cases top'
    · cases ends with
      | nothing hempty =>
        rw [hempty] at htip
        cases htip
      | noHeight _ runs =>
        rw [links] at runs
        cases runs
      | uncounted _ links' full =>
        rw [Links, links] at links'
        cases links'
        exact absurd counts full
      | invalid _ links' _ | noParent _ links' _ =>
        rw [Links, links] at links'
        cases links'
        cases hstored
      | noLevel top' links' _ _ full =>
        rw [Links, links] at links'
        cases links'
        rw [htip] at top'
        cases top'
        have := holds.le_top
        omega
      | advanced top' links' _ _ above =>
        rw [Links, links] at links'
        cases links'
        rw [htip] at top'
        cases top'
        refine ⟨_, _, rfl, ?_, rfl, holds'.moved .., ⟨hsame.queue, hsame.filed⟩, rfl⟩
        rw [Drain.advance, toNat_max]
        omega

/-- Segments within reach that are drained are all done with, and none of them ends above the new
height. -/
theorem ranges (line : Line c top) {first : Nat} (peer : PeerId) (level : UInt64)
    (entries : List (Digest × List Block)) :
    ∀ {height : Nat} {s : Seat} {d : Drain}, Holds c top P height s → first ≤ height + 1 →
      (∀ entry ∈ entries, Piece c top P first entry.2) → d.lastLevel.toNat = height + 1 →
      ∃ height' d' t, (drainRanges peer level entries d).exec s = (.ok (true, d'), t) ∧
        height ≤ height' ∧ d'.lastLevel.toNat = height' + 1 ∧
        d'.settled = (entries.map Prod.fst).reverse ++ d.settled ∧ Holds c top P height' t ∧
        Undisturbed s t ∧ t.node.pending = s.node.pending ∧
        ∀ entry ∈ entries, ∀ i ≤ top, c i ∈ entry.2 → i ≤ height' := by
  induction entries with
  | nil =>
    intro height s d holds _ _ hd
    exact ⟨height, d, s, rfl, Nat.le_refl _, hd, rfl, holds, .refl s, rfl, fun _ h ↦ nomatch h⟩
  | cons entry rest ih =>
    obtain ⟨key, blocks⟩ := entry
    intro height s d holds hfirst hpieces hd
    obtain ⟨last, hle, hlast, rfl, sound⟩ := hpieces _ List.mem_cons_self
    obtain ⟨d₁, t₁, hrun, hd₁, hsettled, holds₁, hsame₁, hpending₁⟩ :=
      holds.range line hfirst hle hlast sound peer level key hd
    obtain ⟨height', d', t, hrest, hheight, hd', hsettled', holds', hsame, hpending, hin⟩ :=
      ih holds₁ (by omega) (fun e he ↦ hpieces e (List.mem_cons_of_mem _ he)) hd₁
    refine ⟨height', d', t, ?_, by omega, hd', ?_, holds', hsame₁.trans hsame,
      hpending.trans hpending₁, ?_⟩
    · rw [exec_drainRanges_cons, hrun]
      exact hrest
    · rw [hsettled', hsettled]
      simp
    · intro e he i hi hmem
      rcases List.mem_cons.mp he with rfl | he
      · have := ((mem_segment line hlast hi).mp hmem).2
        omega
      · exact hin e he i hi hmem

/-- A level within reach is drained whole. -/
theorem level (line : Line c top) (holds : Holds c top P height s) (peer : PeerId)
    {level : UInt64} {d : Drain} (hlevel : level.toNat ≤ height + 1)
    (files : Files c top P level.toNat s.node.pending.index)
    (hd : d.lastLevel.toNat = height + 1) :
    ∃ height' d' t, (drainLevel peer level d).exec s = (.ok (true, d'), t) ∧ height ≤ height' ∧
      d'.lastLevel.toNat = height' + 1 ∧ Holds c top P height' t ∧ Undisturbed s t ∧
      Files c top P (level.toNat + 1) t.node.pending.index ∧
      ∀ i ≤ top, s.node.pending.index.Has (c i) → i ≤ height' ∨ t.node.pending.index.Has (c i) := by
  have hmem {key : Digest} {blocks : List Block} :
      (key, blocks) ∈ (s.node.pending.index.load level).toList ↔
        s.node.pending.index.range? level key = some blocks :=
    Std.ExtTreeMap.mem_toList_iff_getElem?_eq_some
  have hpieces : ∀ entry ∈ (s.node.pending.index.load level).toList,
      Piece c top P level.toNat entry.2 :=
    fun entry he ↦ (files level entry.1 entry.2 (hmem.mp he)).2.2
  obtain ⟨height', d', t, hrun, hheight, hd', hsettled, holds', hsame, hpending, hin⟩ :=
    holds.ranges line peer level _ hlevel hpieces (d := { d with settled := [] }) hd
  have hkeys : d'.settled.reverse = (s.node.pending.index.load level).toList.map Prod.fst := by
    rw [hsettled]
    simp
  have hrange (l : UInt64) (k : Digest) :
      (t.dropped level d'.settled.reverse).node.pending.index.range? l k =
        if l = level ∧ k ∈ (s.node.pending.index.load level).toList.map Prod.fst then none
        else s.node.pending.index.range? l k := by
    rw [range?_dropped, hkeys, hpending]
  refine ⟨height', d', t.dropped level d'.settled.reverse, ?_, hheight, hd', ?_, ?_, ?_, ?_⟩
  · rw [exec_drainLevel holds.calm, hrun]
  · unfold dropped
    split
    · exact holds'
    · exact holds'.withIndex _
  · refine hsame.trans ?_
    unfold dropped
    split
    · exact .refl t
    · exact ⟨rfl, fun _ ↦ rfl⟩
  · intro l k blocks h
    rw [hrange] at h
    split at h
    · cases h
    · next hnot =>
      obtain ⟨hlow, hkey, hpiece⟩ := files l k blocks h
      have hne : l ≠ level := by
        rintro rfl
        exact hnot ⟨rfl, List.mem_map.mpr ⟨(k, blocks), hmem.mpr h, rfl⟩⟩
      have : l.toNat ≠ level.toNat := fun he ↦ hne (UInt64.toNat_inj.mp he)
      exact ⟨by omega, hkey, hpiece⟩
  · rintro i hi ⟨l, k, blocks, h, hb⟩
    by_cases hl : l = level
    · subst hl
      exact .inl (hin (k, blocks) (hmem.mpr h) i hi hb)
    · exact .inr ⟨l, k, blocks, by rw [hrange, if_neg (fun hx ↦ hl hx.1)]; exact h, hb⟩

/-- A drain that starts no higher than the lowest pending range ends with every pending range out
of reach, and with no block of them lost. -/
theorem drain (line : Line c top) (peer : PeerId) {level : UInt64} {d : Drain} :
    ∀ {height : Nat} {s : Seat}, Holds c top P height s →
      Files c top P level.toNat s.node.pending.index → d.lastLevel.toNat = height + 1 →
      ∃ count height' t, (Seat.drain peer level d).exec s = (.ok count, t) ∧ height ≤ height' ∧
        Holds c top P height' t ∧ Undisturbed s t ∧
        Files c top P (height' + 2) t.node.pending.index ∧
        ∀ i ≤ top, s.node.pending.index.Has (c i) →
          i ≤ height' ∨ t.node.pending.index.Has (c i) := by
  -- By induction on the number of levels that are left up to the end of the line.
  induction hn : top + 2 - level.toNat using Nat.strongRecOn generalizing level d with
  | ind n ih =>
    intro height s holds files hd
    have htop := holds.le_top
    have hroom := line.room
    rw [exec_drain]
    by_cases hlast : d.lastLevel < level
    · have hlt := UInt64.lt_iff_toNat_lt.mp hlast
      rw [if_pos hlast]
      exact ⟨_, height, s, rfl, Nat.le_refl _, holds, .refl s, files.mono (by omega),
        fun i _ h ↦ .inr h⟩
    · have hle := UInt64.le_iff_toNat_le.mp (UInt64.not_lt.mp hlast)
      obtain ⟨height₁, d₁, t₁, hrun, hheight, hd₁, holds₁, hsame, files₁, hin₁⟩ :=
        holds.level line peer (by omega) files hd
      have htop₁ := holds₁.le_top
      have hone : (1 : UInt64).toNat = 1 := rfl
      obtain ⟨next, hnext⟩ : ∃ next, checkedAdd level 1 = .ok next :=
        ⟨_, isOk_checkedAdd_iff.mpr (by omega)⟩
      have hsucc := checkedAdd_eq_ok_iff.mp hnext
      rw [if_neg hlast, hrun]
      simp only [hnext]
      obtain ⟨count, height', t, hrest, hheight', holds', hsame', files', hin'⟩ :=
        ih (top + 2 - next.toNat) (by omega) rfl holds₁
          (by rw [hsucc, hone]; exact files₁) hd₁
      refine ⟨count, height', t, hrest, by omega, holds', hsame.trans hsame', files', ?_⟩
      intro i hi h
      rcases hin₁ i hi h with hlow | hhas
      · exact .inl (by omega)
      · exact hin' i hi hhas

end Holds
end Seat
end ChainSync
