import ChainSync.Proofs.Delivery.Drain

/-!
# Importing and filing segments of a line

A batch that is a segment within reach raises the height to its end and drains what came within
reach; a batch further up is filed as pending. Either way none of its blocks is lost: each is below
the height, or in a pending range that is out of reach.
-/

namespace ChainSync

variable {c : Nat → Block} {top : Nat} {P : Nat → Prop}

theorem Files.insert {low first last : Nat} {index : PendingIndex} (line : Line c top)
    (files : Files c top P low index) (hlow : low ≤ first) (hle : first ≤ last) (hlast : last ≤ top)
    (sound : ∀ i, first ≤ i → i ≤ last → P i) :
    match index.insert (segment c first last) with
    | none => ∀ i ≤ top, c i ∈ segment c first last → index.Has (c i)
    | some (_, filed) => Files c top P low filed ∧
        ∀ i ≤ top, c i ∈ segment c first last ∨ index.Has (c i) → filed.Has (c i) := by
  have hfirst : (c first).number.toNat = first := line.toNat_number (by omega)
  obtain ⟨rest, hsegment⟩ := exists_segment_cons c hle
  have hheld {held : List Block} (h : index.range? (c first).number (c first).hash = some held) :
      Piece c top P first held := by
    have := (files _ _ _ h).2.2
    rwa [hfirst] at this
  cases hinsert : index.insert (segment c first last) with
  | none =>
    intro i hi hmem
    rw [hsegment] at hinsert
    obtain ⟨held, hrange, hlen⟩ := PendingIndex.insert_eq_none_iff.mp hinsert
    refine ⟨_, _, held, hrange, ?_⟩
    obtain ⟨end', hle', htop', rfl, -⟩ := hheld hrange
    rw [← hsegment] at hlen
    simp only [segment, List.length_map, List.length_range'] at hlen
    have := (mem_segment line hlast hi).mp hmem
    exact (mem_segment line htop' hi).mpr (by omega)
  | some filed =>
    obtain ⟨level, filed⟩ := filed
    rw [hsegment] at hinsert
    obtain ⟨-, hrange⟩ := PendingIndex.range?_insert hinsert
    rw [← hsegment] at hrange
    refine ⟨?_, ?_⟩
    · intro l k blocks h
      rw [hrange] at h
      split at h
      · next he =>
        obtain ⟨rfl, rfl⟩ := he
        cases h
        rw [hfirst]
        exact ⟨hlow, rfl, last, hle, hlast, rfl, sound⟩
      · exact files l k blocks h
    · rintro i hi (hmem | ⟨l, k, blocks, h, hb⟩)
      · exact ⟨_, _, _, by rw [hrange, if_pos ⟨rfl, rfl⟩], hmem⟩
      · by_cases he : l = (c first).number ∧ k = (c first).hash
        · -- The range that made way was shorter, so the new one holds its blocks.
          obtain ⟨rfl, rfl⟩ := he
          refine ⟨_, _, _, by rw [hrange, if_pos ⟨rfl, rfl⟩], ?_⟩
          obtain ⟨end', hle', htop', rfl, -⟩ := hheld h
          have hlen : ¬ (segment c first last).length ≤ (segment c first end').length := by
            intro hlen
            rw [hsegment] at hlen
            have := PendingIndex.insert_eq_none_iff.mpr ⟨_, h, hlen⟩
            rw [hinsert] at this
            cases this
          simp only [segment, List.length_map, List.length_range'] at hlen
          have := (mem_segment line htop' hi).mp hb
          exact (mem_segment line hlast hi).mpr (by omega)
        · exact ⟨l, k, blocks, by rw [hrange, if_neg he]; exact h, hb⟩

namespace Seat

theorem index_parked (s : Seat) (peer : PeerId) (blocks : List Block) :
    (s.parked peer blocks).node.pending.index =
      match s.node.pending.index.insert blocks with
      | none => s.node.pending.index
      | some (_, index) => index := by
  unfold parked
  cases s.node.pending.index.insert blocks <;> rfl

/-- Filing blocks leaves the chain, the remembered hashes and the queue alone. -/
theorem frame_parked (s : Seat) (peer : PeerId) (blocks : List Block) :
    (s.parked peer blocks).node.chain = s.node.chain ∧
      (s.parked peer blocks).engine.imported = s.engine.imported ∧
      (s.parked peer blocks).engine.queue = s.engine.queue := by
  unfold parked
  cases s.node.pending.index.insert blocks <;> exact ⟨rfl, rfl, rfl⟩

/-- No more blocks are counted as filed than the list has. -/
theorem filed_le (s : Seat) (blocks : List Block) : s.filed blocks ≤ blocks.length := by
  unfold filed
  split <;> omega

/-- Filing blocks counts none as imported, and no more as stored than there are. -/
theorem counters_parked {s : Seat} {peer : PeerId} {blocks : List Block}
    (counts : s.CountsFiled peer blocks) (p : PeerId) :
    ((s.parked peer blocks).engine.stats.counters p).imported =
      (s.engine.stats.counters p).imported ∧
    ((s.parked peer blocks).engine.stats.counters p).stored.toNat ≤
      (s.engine.stats.counters p).stored.toNat + blocks.length := by
  unfold CountsFiled filed at counts
  unfold parked
  cases hinsert : s.node.pending.index.insert blocks with
  | none => exact ⟨rfl, Nat.le_add_right _ _⟩
  | some filed =>
    rw [hinsert] at counts
    obtain ⟨stats, hstats, hcounters⟩ := Stats.exec_recordStored counts
    rw [Option.isSome_some, if_pos rfl] at hstats hcounters
    have hparked : ((s.withIndex filed.2).withStats ((Stats.recordStored peer
        (UInt64.ofNat blocks.length)).exec s.engine.stats).2).engine.stats = stats := by
      change ((Stats.recordStored peer (UInt64.ofNat blocks.length)).exec s.engine.stats).2 = stats
      rw [hstats]
    dsimp only
    rw [hparked]
    refine ⟨(hcounters p).1, ?_⟩
    rw [(hcounters p).2]
    have := toNat_ofNat_le blocks.length
    split <;> omega

namespace Holds

variable {height : Nat} {s : Seat}

theorem parked (holds : Holds c top P height s) {peer : PeerId} {blocks : List Block}
    (counts : s.CountsFiled peer blocks) : Holds c top P height (s.parked peer blocks) := by
  have hcounters := counters_parked counts
  obtain ⟨hchain, himported, -⟩ := frame_parked s peer blocks
  refine ⟨holds.calm.parked peer blocks, ?_, holds.le_top, holds.sound, ?_, ?_⟩
  · rw [hchain]
    exact holds.stores
  · rw [himported]
    exact holds.cache
  · intro p
    rw [(hcounters p).1]
    exact holds.counted p

/-- What a seat holds and what is pending there after a batch: nothing of the batch and of what was
pending is lost, and what is pending is out of reach. -/
structure After (c : Nat → Block) (top : Nat) (P : Nat → Prop) (height : Nat) (s : Seat)
    (blocks : List Block) (t : Seat) : Prop where
  /-- The seat holds the line up to a height at which nothing pending can be linked. -/
  holds : Holds c top P height t
  /-- What is pending is out of reach. -/
  files : Files c top P (height + 2) t.node.pending.index
  /-- The same batches wait. -/
  queue : t.engine.queue = s.engine.queue
  /-- No more blocks were counted as filed than the batch has. -/
  filed (p : PeerId) : (t.engine.stats.counters p).stored.toNat ≤
    (s.engine.stats.counters p).stored.toNat + blocks.length
  /-- No block is lost. -/
  kept {i : Nat} : i ≤ top → c i ∈ blocks ∨ s.node.pending.index.Has (c i) →
    i ≤ height ∨ t.node.pending.index.Has (c i)

/-- A batch none of whose blocks is above the height changes nothing that matters. -/
theorem after_of_le (line : Line c top) (holds : Holds c top P height s)
    (files : Files c top P (height + 2) s.node.pending.index) (first : Nat) {last : Nat}
    (hlow : last ≤ height) : After c top P height s (segment c first last) s := by
  refine ⟨holds, files, rfl, fun p ↦ Nat.le_add_right _ _, ?_⟩
  rintro i hi (hmem | hhas)
  · have := ((mem_segment line (Nat.le_trans hlow holds.le_top) hi).mp hmem).2
    exact .inl (by omega)
  · exact .inr hhas

theorem remembered (holds : Holds c top P height s) {hash : Digest} {number : UInt64}
    (known : s.node.chain.isStored hash number = true) :
    Holds c top P height (s.withImported (s.engine.imported.insertAll [hash])) := by
  refine ⟨holds.calm.withImported _, holds.stores, holds.le_top, holds.sound, ?_, holds.counted⟩
  intro h hh
  rcases RecentSet.mem_of_mem_insertAll [hash] hh with hh | hh
  · exact holds.cache hh
  · obtain rfl := List.mem_singleton.mp hh
    exact holds.stores.exists_of_isStored known

/-- A segment whose end is stored ends no higher than the height. -/
theorem le_of_isStored (line : Line c top) (holds : Holds c top P height s) {first last : Nat}
    {tip : Block} (hle : first ≤ last) (hlast : last ≤ top)
    (htip : (s.wanted (segment c first last)).getLast? = some tip)
    (known : s.node.chain.isStored tip.hash tip.number = true) : last ≤ height := by
  by_contra hhigh
  rw [holds.wanted_getLast? line hle (by omega) hlast] at htip
  cases htip
  unfold Chain.isStored at known
  rw [holds.stores.block?_eq_none line (by omega) hlast] at known
  cases known

/-- A batch within reach is linked to its end. -/
theorem batchEnd_low (line : Line c top) (holds : Holds c top P height s)
    (files : Files c top P (height + 2) s.node.pending.index) {peer : PeerId} {name : String}
    {first last : Nat} (hfirst : first ≤ height + 1) (hle : first ≤ last) (hlast : last ≤ top)
    (sound : ∀ i, first ≤ i → i ≤ last → P i) {answer : Except Fault Unit} {t : Seat}
    (ends : BatchEnd ⟨peer, name, segment c first last⟩ s answer t) :
    answer = .ok () ∧
      ∃ height', height ≤ height' ∧ After c top P height' s (segment c first last) t := by
  have hroom := line.room
  have htop := holds.le_top
  rcases holds.link line hfirst hle hlast sound peer with ⟨hempty, hlow⟩ |
    ⟨imported, outcome, chain, bottom, tip, hbottom, htip, hbottom_le, htip_le, links, hstored,
      hbest, counts, holds', hsame⟩
  · have after := holds.after_of_le line files first hlow
    have hnot : ¬ s.Offered ⟨peer, name, segment c first last⟩ := by
      rintro ⟨tip, htip, -⟩
      rw [hempty] at htip
      cases htip
    cases ends with
    | nothing _ =>
      exact ⟨rfl, height, Nat.le_refl _, after.holds.moved .., after.files, rfl, after.filed,
        after.kept⟩
    | skipped htip _ _ =>
      rw [hempty] at htip
      cases htip
    | noHeight offered _ | uncounted offered _ _ | unfiled offered _ _ _
    | noSalvage offered _ _ _ _ | refused offered _ _ _ _ | noLevel offered _ _ _ _ _
    | drained offered _ _ _ _ _ _ _ => exact absurd offered hnot
  · cases ends with
    | nothing hempty =>
      rw [hempty] at htip
      cases htip
    | skipped htip' _ known =>
      have after := holds.after_of_le line files first
        (holds.le_of_isStored line hle hlast htip' known)
      exact ⟨rfl, height, Nat.le_refl _, (holds.remembered known).moved .., after.files, rfl,
        after.filed, after.kept⟩
    | noHeight _ runs =>
      rw [links] at runs
      cases runs
    | uncounted _ links' full =>
      rw [Links, links] at links'
      cases links'
      exact absurd counts full
    | unfiled _ links' _ _ =>
      rw [Links, links] at links'
      cases links'
      cases hstored
    | noSalvage _ _ _ _ full =>
      rw [Chain.bestNumber, holds.stores.bestBlock, line.toNat_number htop] at full
      omega
    | refused _ links' _ _ unstored =>
      rw [Links, links] at links'
      cases links'
      rw [hstored] at unstored
      cases unstored
    | noLevel _ htip' links' _ _ full =>
      rw [Links, links] at links'
      cases links'
      rw [htip] at htip'
      cases htip'
      omega
    | @drained _ _ _ _ _ level _ _ _ hbottom' htip' links' _ _ above drains =>
      rw [Links, links] at links'
      cases links'
      rw [hbottom] at hbottom'
      cases hbottom'
      rw [htip] at htip'
      cases htip'
      have hlevel : level.toNat = max height last + 1 := by omega
      have hfiles : Files c top P bottom.number.toNat s.node.pending.index :=
        files.mono (by omega)
      obtain ⟨count, height', u, hrun, hheight, holds'', hsame', files', hin⟩ :=
        (holds'.moved peer (.connected outcome (s.salvageable bottom))).drain line peer
          (d := ⟨level, 0, []⟩) hfiles hlevel
      rw [hrun] at drains
      cases drains
      refine ⟨rfl, height', by omega, holds'', files', hsame'.queue, fun p ↦ ?_, ?_⟩
      · rw [(hsame.trans ⟨hsame'.queue, hsame'.filed⟩).filed p]
        exact Nat.le_add_right _ _
      · rintro i hi (hmem | hhas)
        · have := ((mem_segment line hlast hi).mp hmem).2
          exact .inl (by omega)
        · exact hin i hi hhas

/-- Filing a segment further up loses no block. -/
theorem after_parked (line : Line c top) {t : Seat} (holds : Holds c top P height t)
    (hsame : Undisturbed s t) (hpending : t.node.pending = s.node.pending)
    (files : Files c top P (height + 2) s.node.pending.index) {peer : PeerId} {first last : Nat}
    (counts : t.CountsFiled peer (segment c first last)) (hfirst : height + 1 < first)
    (hle : first ≤ last) (hlast : last ≤ top) (sound : ∀ i, first ≤ i → i ≤ last → P i) :
    After c top P height s (segment c first last) (t.parked peer (segment c first last)) := by
  have hinsert := files.insert line (by omega) hle hlast sound
  have hindex := index_parked t peer (segment c first last)
  rw [hpending] at hindex
  refine ⟨holds.parked counts, ?_, ?_, fun p ↦ ?_, ?_⟩
  · rw [hindex]
    cases h : s.node.pending.index.insert (segment c first last) with
    | none => exact files
    | some filed =>
      rw [h] at hinsert
      exact hinsert.1
  · rw [(frame_parked t peer _).2.2, hsame.queue]
  · have := (counters_parked counts p).2
    rw [hsame.filed p] at this
    exact this
  · intro i hi hmem
    right
    rw [hindex]
    cases h : s.node.pending.index.insert (segment c first last) with
    | none =>
      rw [h] at hinsert
      exact hmem.elim (hinsert i hi) id
    | some filed =>
      rw [h] at hinsert
      exact hinsert.2 i hi hmem

/-- A batch further up is filed. -/
theorem batchEnd_high (line : Line c top) (holds : Holds c top P height s)
    (files : Files c top P (height + 2) s.node.pending.index) {peer : PeerId} {name : String}
    {first last : Nat} (hfirst : height + 1 < first) (hle : first ≤ last) (hlast : last ≤ top)
    (sound : ∀ i, first ≤ i → i ≤ last → P i)
    (room : (s.engine.stats.counters peer).stored.toNat + (segment c first last).length <
      UInt64.size)
    {answer : Except Fault Unit} {t : Seat}
    (ends : BatchEnd ⟨peer, name, segment c first last⟩ s answer t) :
    answer = .ok () ∧ After c top P height s (segment c first last) t := by
  have hroom := line.room
  have htop := holds.le_top
  have hwanted : s.wanted (segment c first last) = segment c first last :=
    holds.wanted_of_high line (by omega) hlast
  have links : s.Links (s.wanted (segment c first last)) [] .noParent
      (s.node.chain.withHanded (c first).hash) := by
    rw [hwanted]
    exact exec_importBlocks_of_high line holds.stores hfirst hle hlast .exist
  obtain ⟨counts, holds', hsame⟩ := holds.linked links (holds.stores.withHanded _) rfl htop
    (by omega) (fun i ↦ holds.sound) (fun h hh ↦ nomatch hh) peer
  have hstored := hsame.filed peer
  have hfiled := filed_le (s.linked peer (s.node.chain.withHanded (c first).hash) [])
    (segment c first last)
  have hcounts : (s.linked peer (s.node.chain.withHanded (c first).hash) []).CountsFiled peer
      (s.wanted (segment c first last)) := by
    rw [CountsFiled, hwanted, hstored, UInt64.toNat_ofNat_of_lt' (by omega)]
    omega
  have htip := holds.wanted_getLast? line hle (by omega) hlast
  cases ends with
  | nothing hempty =>
    rw [hempty] at htip
    cases htip
  | skipped htip' _ known =>
    have := holds.le_of_isStored line hle hlast htip' known
    omega
  | noHeight _ runs =>
    rw [links] at runs
    cases runs
  | uncounted _ links' full =>
    rw [Links, links] at links'
    cases links'
    exact absurd counts full
  | unfiled _ links' _ full =>
    rw [Links, links] at links'
    cases links'
    exact absurd hcounts full
  | noSalvage _ _ _ _ full =>
    rw [Chain.bestNumber, holds.stores.bestBlock, line.toNat_number htop] at full
    omega
  | noLevel _ _ links' _ stored _ | drained _ _ _ links' _ stored _ _ =>
    rw [Links, links] at links'
    cases links'
    cases stored
  | refused _ links' _ _ _ =>
    rw [Links, links] at links'
    cases links'
    have hanswered : s.answered peer (s.wanted (segment c first last))
        (s.node.chain.withHanded (c first).hash) [] .noParent =
        (s.linked peer (s.node.chain.withHanded (c first).hash) []).parked peer
          (segment c first last) := by
      rw [answered, if_pos rfl, hwanted]
    rw [hwanted] at hcounts
    rw [hanswered]
    have after := holds'.after_parked line hsame rfl files hcounts hfirst hle hlast sound
    exact ⟨rfl, after.holds.moved .., after.files, after.queue, after.filed, after.kept⟩

/-- A batch that is a segment of the line is imported without a fault. -/
theorem processBatch (line : Line c top) (holds : Holds c top P height s)
    (files : Files c top P (height + 2) s.node.pending.index) {peer : PeerId} (name : String)
    {first : Nat} {blocks : List Block} (piece : Piece c top P first blocks)
    (room : (s.engine.stats.counters peer).stored.toNat + blocks.length < UInt64.size) :
    ∃ report height' t, (Seat.processBatch ⟨peer, name, blocks⟩).exec s = (.ok report, t) ∧
      height ≤ height' ∧ After c top P height' s blocks t := by
  obtain ⟨last, hle, hlast, rfl, sound⟩ := piece
  obtain ⟨answer, t, ends, hanswer, hleft⟩ := batchEnd_processBatch holds.calm ⟨peer, name, _⟩
  obtain ⟨rfl, height', hheight, after⟩ : answer = .ok () ∧
      ∃ height', height ≤ height' ∧ After c top P height' s (segment c first last) t := by
    by_cases hfirst : first ≤ height + 1
    · exact holds.batchEnd_low line files hfirst hle hlast sound ends
    · obtain ⟨hok, after⟩ :=
        holds.batchEnd_high line files (by omega) hle hlast sound room ends
      exact ⟨hok, height, Nat.le_refl _, after⟩
  cases hrun : (Seat.processBatch ⟨peer, name, segment c first last⟩).exec s with
  | mk r u =>
    rw [hrun] at hanswer hleft
    cases r with
    | error e => cases hanswer
    | ok report =>
      refine ⟨report, height', u, rfl, hheight, ?_⟩
      change u = t.noted at hleft
      subst hleft
      exact ⟨after.holds.noted, after.files, after.queue, after.filed, after.kept⟩

end Holds
end Seat
end ChainSync
