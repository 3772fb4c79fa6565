import ChainSync.Proofs.Chain.Heights
import ChainSync.Proofs.Import.Cases
import Mathlib.Algebra.GroupWithZero.Nat

/-!
# When importing a batch faults

The numbers in a batch are chosen by its sender, and a block whose hash is stored counts as stored
whatever its number is. A list of blocks overflows when, handed to the chain, it comes to a block
that lacks a height, when it runs out of counters, or when it is accepted and reaches one of the
last two heights. Main statement: a batch faults exactly when a list that it hands to the chain
overflows, be it the batch itself or a pending range that its drain comes to, or when its blocks
cannot be counted as filed.
-/

namespace ChainSync

/-- The block with another number in its header. -/
def Block.renumber (b : Block) (number : UInt64) : Block :=
  { b with header := { b.header with number } }

namespace Seat

/-- The blocks, handed to the chain at a seat, leave no room for the sums that follow. -/
inductive Overflow (peer : PeerId) (blocks : List Block) (s : Seat) : Prop
  /-- The chain runs out of heights. -/
  | height (runsOut : s.node.chain.RunsOut blocks) : Overflow peer blocks s
  /-- The imported blocks cannot be counted. -/
  | counter {imported : List Digest} {outcome : ImportOutcome} {c : Chain}
      (links : s.Links blocks imported outcome c) (full : ¬ s.Counts peer imported) :
    Overflow peer blocks s
  /-- The blocks are accepted, and there are no two levels above what they reach. -/
  | level {imported : List Digest} {outcome : ImportOutcome} {c : Chain} {last : Block}
      (links : s.Links blocks imported outcome c) (stored : outcome.isStored = true)
      (top : blocks.getLast? = some last)
      (full : UInt64.size ≤ max c.bestNumber.toNat last.number.toNat + 2) :
    Overflow peer blocks s

/-- Handing over ranges at a seat comes to handing over these blocks at another seat. -/
inductive RangesOffer (peer : PeerId) (level : UInt64) :
    List (Digest × List Block) → Drain → Seat → List Block → Seat → Prop
  /-- The wanted blocks of the first range are handed over. -/
  | here {key : Digest} {blocks : List Block} {rest : List (Digest × List Block)} {d : Drain}
      {s : Seat} (nonempty : s.wanted blocks ≠ []) :
    RangesOffer peer level ((key, blocks) :: rest) d s (s.wanted blocks) s
  /-- The first range is done with, and a later one is handed over. -/
  | later {key : Digest} {blocks offered : List Block} {rest : List (Digest × List Block)}
      {d d' : Drain} {s t u : Seat}
      (first : (drainRanges peer level [(key, blocks)] d).exec s = (.ok (true, d'), t))
      (offer : RangesOffer peer level rest d' t offered u) :
    RangesOffer peer level ((key, blocks) :: rest) d s offered u

/-- Draining levels at a seat comes to handing over these blocks at another seat. -/
inductive LevelsOffer (peer : PeerId) :
    UInt64 → Drain → Seat → List Block → Seat → Prop
  /-- A range of the first level is handed over. -/
  | here {level : UInt64} {d : Drain} {s u : Seat} {offered : List Block}
      (visits : level ≤ d.lastLevel)
      (offer : RangesOffer peer level (s.node.pending.index.load level).toList
        { d with settled := [] } s offered u) :
    LevelsOffer peer level d s offered u
  /-- The first level is done with, and a range of a later one is handed over. -/
  | later {level next : UInt64} {d d' : Drain} {s t u : Seat} {offered : List Block}
      (visits : level ≤ d.lastLevel)
      (first : (drainLevel peer level d).exec s = (.ok (true, d'), t))
      (above : checkedAdd level 1 = .ok next) (offer : LevelsOffer peer next d' t offered u) :
    LevelsOffer peer level d s offered u

/-- Importing a batch at a seat comes to handing over these blocks at another seat. -/
inductive Offers (batch : BlockBatch) (s : Seat) : List Block → Seat → Prop
  /-- The wanted blocks of the batch are handed over. -/
  | batch (offered : s.Offered batch) : Offers batch s (s.wanted batch.blocks) s
  /-- The wanted blocks are accepted, and the drain after them hands over a pending range. -/
  | pending {imported : List Digest} {outcome : ImportOutcome} {c : Chain} {first last : Block}
      {level : UInt64} {blocks : List Block} {t : Seat}
      (offered : s.Offered batch) (bottom : (s.wanted batch.blocks).head? = some first)
      (top : (s.wanted batch.blocks).getLast? = some last)
      (links : s.Links (s.wanted batch.blocks) imported outcome c)
      (counts : s.Counts batch.peer imported) (stored : outcome.isStored = true)
      (above : level.toNat = max c.bestNumber.toNat last.number.toNat + 1)
      (offer : LevelsOffer batch.peer first.number ⟨level, 0, []⟩
        ((s.linked batch.peer c imported).moved batch.peer
          (.connected outcome (s.salvageable first))) blocks t) :
    Offers batch s blocks t

/-- The wanted blocks of a batch have no parent and cannot be counted as filed. -/
def Unfilable (batch : BlockBatch) (s : Seat) : Prop :=
  s.Offered batch ∧ ∃ imported c, s.Links (s.wanted batch.blocks) imported .noParent c ∧
    ¬ (s.linked batch.peer c imported).CountsFiled batch.peer (s.wanted batch.blocks)

/-! ### Ranges -/

/-- The drain goes up to the last height, or has faulted. -/
def AtEnd : Except Fault (Bool × Drain) → Prop
  | .error _ => True
  | .ok (_, d) => d.lastLevel.toNat + 1 = UInt64.size

/-- Linked and counted blocks overflow exactly when they are accepted and reach too high. -/
theorem overflow_iff_of_links {peer : PeerId} {blocks : List Block} {s : Seat}
    {imported : List Digest} {outcome : ImportOutcome} {c : Chain} {last : Block}
    (links : s.Links blocks imported outcome c) (counts : s.Counts peer imported)
    (top : blocks.getLast? = some last) :
    Overflow peer blocks s ↔ outcome.isStored = true ∧
      UInt64.size ≤ max c.bestNumber.toNat last.number.toNat + 2 := by
  constructor
  · rintro (⟨runsOut⟩ | ⟨links', full⟩ | ⟨links', stored, top', full⟩)
    · obtain ⟨e, t, runs⟩ := (Chain.importBlocks_faults_iff blocks).mpr runsOut
      rw [links] at runs
      cases runs
    · rw [Links, links] at links'
      cases links'
      exact absurd counts full
    · rw [Links, links] at links'
      rw [top] at top'
      cases links'
      cases top'
      exact ⟨stored, full⟩
  · rintro ⟨stored, full⟩
    exact .level links stored top full

/-- One range faults or lets the drain go up to the last height exactly when it could already or
its wanted blocks overflow. -/
theorem RangeEnd.atEnd_iff {peer : PeerId} {key : Digest} {blocks : List Block} {d : Drain}
    {s t : Seat} {answer : Except Fault (Bool × Drain)}
    (ends : RangeEnd peer key blocks d s answer t) :
    AtEnd answer ↔ d.lastLevel.toNat + 1 = UInt64.size ∨
      s.wanted blocks ≠ [] ∧ Overflow peer (s.wanted blocks) s := by
  cases ends with
  | nothing empty => simp [AtEnd, Drain.settle, empty]
  | noHeight nonempty runs =>
    have runsOut := (Chain.importBlocks_faults_iff _).mp ⟨_, _, runs⟩
    exact iff_of_true trivial (.inr ⟨nonempty, .height runsOut⟩)
  | uncounted nonempty links full =>
    exact iff_of_true trivial (.inr ⟨nonempty, .counter links full⟩)
  | noLevel top links counts stored full =>
    have nonempty : s.wanted blocks ≠ [] := by
      intro he
      rw [he] at top
      cases top
    exact iff_of_true trivial (.inr ⟨nonempty, .level links stored top (by omega)⟩)
  | @advanced imported outcome c last level top links counts stored above =>
    have nonempty : s.wanted blocks ≠ [] := by
      intro he
      rw [he] at top
      cases top
    rw [overflow_iff_of_links links counts top]
    simp only [AtEnd, Drain.advance, toNat_max, above, stored, true_and, ne_eq, nonempty,
      not_false_eq_true]
    have hlevel := level.toNat_lt_size
    have hd := d.lastLevel.toNat_lt_size
    omega
  | invalid nonempty links counts =>
    obtain ⟨last, top⟩ := Option.isSome_iff_exists.mp (List.getLast?_isSome.mpr nonempty)
    simp [overflow_iff_of_links links counts top, AtEnd, Drain.settle, ImportOutcome.isStored]
  | noParent nonempty links counts =>
    obtain ⟨last, top⟩ := Option.isSome_iff_exists.mp (List.getLast?_isSome.mpr nonempty)
    simp [overflow_iff_of_links links counts top, AtEnd, ImportOutcome.isStored]

/-- A range that ends without a fault lets the drain go on at a calm seat. -/
theorem RangeEnd.goesOn {peer : PeerId} {key : Digest} {blocks : List Block} {d d' : Drain}
    {s t : Seat} {goesOn : Bool} (calm : Calm s)
    (ends : RangeEnd peer key blocks d s (.ok (goesOn, d')) t) : goesOn = true ∧ Calm t := by
  cases ends with
  | nothing empty => exact ⟨rfl, calm⟩
  | advanced top links counts stored above => exact ⟨rfl, (calm.linked links _ _).moved _ _⟩
  | invalid nonempty links counts => exact ⟨rfl, calm.linked links _ _⟩
  | noParent nonempty links counts => exact ⟨rfl, calm.linked links _ _⟩

/-- Ranges fault or let the drain go up to the last height exactly when it could already or some
list that they hand over overflows. Without a fault the drain goes on at a calm seat. -/
theorem drainRanges_atEnd_iff (peer : PeerId) (level : UInt64)
    (ranges : List (Digest × List Block)) :
    ∀ {d : Drain} {s t : Seat} {answer : Except Fault (Bool × Drain)}, Calm s →
      (drainRanges peer level ranges d).exec s = (answer, t) →
      (AtEnd answer ↔ d.lastLevel.toNat + 1 = UInt64.size ∨
        ∃ blocks u, RangesOffer peer level ranges d s blocks u ∧ Overflow peer blocks u) ∧
      ∀ goesOn d', answer = .ok (goesOn, d') → goesOn = true ∧ Calm t := by
  induction ranges with
  | nil =>
    intro d s t answer calm run
    cases run
    refine ⟨⟨.inl, ?_⟩, ?_⟩
    · rintro (h | ⟨blocks, u, ⟨⟩, -⟩)
      exact h
    · rintro goesOn d' ⟨⟩
      exact ⟨rfl, calm⟩
  | cons range rest ih =>
    obtain ⟨key, blocks⟩ := range
    intro d s t answer calm run
    have ends := rangeEnd_drainRanges calm peer level key blocks d
    rw [exec_drainRanges_cons] at run
    cases hfirst : (drainRanges peer level [(key, blocks)] d).exec s with
    | mk first u =>
      rw [hfirst] at ends run
      dsimp only at ends
      have hend := ends.atEnd_iff
      cases first with
      | error e =>
        cases run
        refine ⟨iff_of_true trivial ?_, fun _ _ h ↦ nomatch h⟩
        exact (hend.mp trivial).imp_right fun ⟨nonempty, spills⟩ ↦ ⟨_, _, .here nonempty, spills⟩
      | ok first =>
        obtain ⟨goesOn, d₁⟩ := first
        obtain ⟨rfl, calm'⟩ := ends.goesOn calm
        obtain ⟨hrest, hgoes⟩ := ih calm' run
        refine ⟨?_, hgoes⟩
        rw [hrest]
        change (AtEnd (.ok (true, d₁)) ∨ _) ↔ _
        rw [hend]
        constructor
        · rintro ((h | ⟨nonempty, spills⟩) | ⟨bs, v, offer, spills⟩)
          · exact .inl h
          · exact .inr ⟨_, _, .here nonempty, spills⟩
          · exact .inr ⟨bs, v, .later hfirst offer, spills⟩
        · rintro (h | ⟨bs, v, offer, spills⟩)
          · exact .inl (.inl h)
          · cases offer with
            | here nonempty => exact .inl (.inr ⟨nonempty, spills⟩)
            | later first offer =>
              rw [hfirst] at first
              cases first
              exact .inr ⟨bs, v, offer, spills⟩

/-! ### Levels -/

/-- At a calm seat draining a level is handing over its ranges and dropping those done with. -/
theorem exec_drainLevel {s : Seat} (calm : Calm s) (peer : PeerId) (level : UInt64) (d : Drain) :
    (drainLevel peer level d).exec s =
      match (drainRanges peer level (s.node.pending.index.load level).toList
        { d with settled := [] }).exec s with
      | (.ok (_, d), t) => (.ok (true, d), t.dropped level d.settled.reverse)
      | (.error e, t) => (.error e, t) := by
  rw [drainLevel, ImportSite.drainLevel]
  simp only [importSite_run, importSite_drainRanges]
  rw [Step.exec_bind, exec_loadPending calm]
  dsimp only
  cases hrun : (drainRanges peer level (s.node.pending.index.load level).toList
      { d with settled := [] }).exec s with
  | mk answer t =>
    cases answer with
    | error e => rw [Step.exec_bind_of_error hrun]
    | ok answer =>
      obtain ⟨goesOn, d'⟩ := answer
      obtain ⟨rfl, calm'⟩ := (drainRanges_atEnd_iff peer level _ calm hrun).2 _ _ rfl
      rw [Step.exec_bind_of_ok hrun]
      dsimp only
      rw [if_pos rfl, Step.exec_bind_of_ok (exec_dropPending calm' ..)]
      rfl

/-- Draining levels is draining the first one and, if the drain goes on, those above it. -/
theorem exec_drain (peer : PeerId) (level : UInt64) (d : Drain) (s : Seat) :
    (drain peer level d).exec s =
      if d.lastLevel < level then (.ok d.drained, s)
      else match (drainLevel peer level d).exec s with
        | (.error e, t) => (.error e, t)
        | (.ok (false, d), t) => (.ok d.drained, t)
        | (.ok (true, d), t) =>
          match checkedAdd level 1 with
          | .error e => (.error e, t)
          | .ok next => (drain peer next d).exec t := by
  by_cases hlast : d.lastLevel < level
  · rw [drain, ImportSite.drain, if_pos hlast, if_pos hlast]
    rfl
  · rw [drain, importSite.drain_of_not_lt hlast, if_neg hlast]
    simp only [importSite_drainLevel, importSite_drain]
    rw [Step.exec_bind]
    cases (drainLevel peer level d).exec s with
    | mk answer t =>
      cases answer with
      | error e => rfl
      | ok answer =>
        obtain ⟨goesOn, d'⟩ := answer
        cases goesOn with
        | false => rfl
        | true =>
          dsimp only
          rw [if_pos rfl, Step.exec_bind, Step.exec_lift]
          cases checkedAdd level 1 <;> rfl

/-- A drain faults exactly when it goes up to the last height or some list that it hands over
overflows. -/
theorem drain_faults_iff (peer : PeerId) (level : UInt64) (d : Drain) {s : Seat} (calm : Calm s) :
    (∃ e, ((drain peer level d).exec s).1 = .error e) ↔ d.lastLevel.toNat + 1 = UInt64.size ∨
      ∃ blocks u, LevelsOffer peer level d s blocks u ∧ Overflow peer blocks u := by
  -- By induction on the number of levels above: the last of them has none above it.
  induction hn : UInt64.size - level.toNat using Nat.strongRecOn generalizing level d s with
  | ind n ih =>
    have hlevel := level.toNat_lt_size
    rw [exec_drain]
    by_cases hlast : d.lastLevel < level
    · have hlt := UInt64.lt_iff_toNat_lt.mp hlast
      rw [if_pos hlast]
      constructor
      · rintro ⟨e, ⟨⟩⟩
      · rintro (hend | ⟨blocks, u, offer, -⟩)
        · omega
        · cases offer with
          | here visits _ => exact absurd hlast (UInt64.not_lt.mpr visits)
          | later visits _ _ _ => exact absurd hlast (UInt64.not_lt.mpr visits)
    · have visits : level ≤ d.lastLevel := UInt64.not_lt.mp hlast
      rw [if_neg hlast, exec_drainLevel calm]
      cases hrun : (drainRanges peer level (s.node.pending.index.load level).toList
          { d with settled := [] }).exec s with
      | mk answer t =>
        obtain ⟨hend, hgoes⟩ := drainRanges_atEnd_iff peer level _ calm hrun
        cases answer with
        | error e =>
          refine iff_of_true ⟨e, rfl⟩ ?_
          exact (hend.mp trivial).imp_right fun ⟨bs, u, offer, spills⟩ ↦
            ⟨bs, u, .here visits offer, spills⟩
        | ok answer =>
          obtain ⟨goesOn, d'⟩ := answer
          obtain ⟨rfl, calm'⟩ := hgoes _ _ rfl
          have hfirst : (drainLevel peer level d).exec s =
              (.ok (true, d'), t.dropped level d'.settled.reverse) := by
            rw [exec_drainLevel calm, hrun]
          have hd : d.lastLevel.toNat + 1 = UInt64.size → d'.lastLevel.toNat + 1 = UInt64.size :=
            fun h ↦ hend.mpr (.inl h)
          dsimp only
          cases hnext : checkedAdd level 1 with
          | error e =>
            -- No level is left above the last height, which the drain was to go up to.
            have hfull := (checkedAdd_eq_error_iff.mp hnext).1
            have hone : (1 : UInt64).toNat = 1 := rfl
            have hle := UInt64.le_iff_toNat_le.mp visits
            have hlt := d.lastLevel.toNat_lt_size
            exact iff_of_true ⟨e, rfl⟩ (.inl (by omega))
          | ok next =>
            have hsucc := checkedAdd_eq_ok_iff.mp hnext
            have hone : (1 : UInt64).toNat = 1 := rfl
            dsimp only
            rw [ih (UInt64.size - next.toNat) (by omega) next d' (calm'.dropped _ _) rfl]
            constructor
            · rintro (h | ⟨bs, u, offer, spills⟩)
              · exact (hend.mp h).imp_right fun ⟨bs, u, offer, spills⟩ ↦
                  ⟨bs, u, .here visits offer, spills⟩
              · exact .inr ⟨bs, u, .later visits hfirst hnext offer, spills⟩
            · rintro (h | ⟨bs, u, offer, spills⟩)
              · exact .inl (hd h)
              · cases offer with
                | here _ offer => exact .inl (hend.mpr (.inr ⟨bs, u, offer, spills⟩))
                | later _ first above offer =>
                  rw [hfirst] at first
                  rw [hnext] at above
                  cases first
                  cases above
                  exact .inr ⟨bs, u, offer, spills⟩

/-! ### Batches -/

/-- Offered blocks have a last one. -/
theorem Offered.exists_last {s : Seat} {batch : BlockBatch} (offered : s.Offered batch) :
    ∃ last, (s.wanted batch.blocks).getLast? = some last := by
  obtain ⟨last, top, -⟩ := offered
  exact ⟨last, top⟩

/-- Every list that importing a batch hands over comes from blocks that are offered. -/
theorem Offers.offered {batch : BlockBatch} {s t : Seat} {blocks : List Block}
    (offer : Offers batch s blocks t) : s.Offered batch := by
  cases offer with
  | batch offered => exact offered
  | pending offered => exact offered

/-- Nothing overflows and nothing is filed when the chain does not store linked blocks. -/
theorem not_overflow_of_unstored {batch : BlockBatch} {s : Seat} {imported : List Digest}
    {outcome : ImportOutcome} {c : Chain} (offered : s.Offered batch)
    (links : s.Links (s.wanted batch.blocks) imported outcome c)
    (counts : s.Counts batch.peer imported) (unstored : outcome.isStored = false) :
    ¬ ∃ blocks t, Offers batch s blocks t ∧ Overflow batch.peer blocks t := by
  rintro ⟨blocks, t, offer, spills⟩
  cases offer with
  | batch _ =>
    obtain ⟨last, top⟩ := offered.exists_last
    rw [overflow_iff_of_links links counts top, unstored] at spills
    cases spills.1
  | pending _ _ _ links' _ stored _ _ =>
    rw [Links, links] at links'
    cases links'
    rw [unstored] at stored
    cases stored

/-- A batch whose blocks are accepted faults exactly when a list that it hands over overflows. -/
theorem drained_faults_iff {batch : BlockBatch} {s : Seat} {imported : List Digest}
    {outcome : ImportOutcome} {c : Chain} {first last : Block} {level : UInt64} (calm : Calm s)
    (offered : s.Offered batch) (bottom : (s.wanted batch.blocks).head? = some first)
    (top : (s.wanted batch.blocks).getLast? = some last)
    (links : s.Links (s.wanted batch.blocks) imported outcome c)
    (counts : s.Counts batch.peer imported) (stored : outcome.isStored = true)
    (above : level.toNat = max c.bestNumber.toNat last.number.toNat + 1) :
    (∃ e, ((drain batch.peer first.number ⟨level, 0, []⟩).exec
      ((s.linked batch.peer c imported).moved batch.peer
        (.connected outcome (s.salvageable first)))).1 = .error e) ↔
      ∃ blocks t, Offers batch s blocks t ∧ Overflow batch.peer blocks t := by
  have hlevel := level.toNat_lt_size
  have hover := overflow_iff_of_links links counts top
  rw [drain_faults_iff _ _ _ ((calm.linked links _ _).moved _ _)]
  constructor
  · rintro (hend | ⟨blocks, t, offer, spills⟩)
    · dsimp only at hend
      exact ⟨_, _, .batch offered, hover.mpr ⟨stored, by omega⟩⟩
    · exact ⟨blocks, t, .pending offered bottom top links counts stored above offer, spills⟩
  · rintro ⟨blocks, t, offer, spills⟩
    cases offer with
    | batch _ =>
      have := (hover.mp spills).2
      left
      dsimp only
      omega
    | pending _ bottom' top' links' _ _ above' offer =>
      rw [Links, links] at links'
      rw [bottom] at bottom'
      rw [top] at top'
      cases links'
      cases bottom'
      cases top'
      have hsame := UInt64.toNat_inj.mp (above'.trans above.symm)
      subst hsame
      exact .inr ⟨blocks, t, offer, spills⟩

/-- A batch ends with a fault exactly when a list that it hands over overflows or its blocks cannot
be counted as filed. -/
theorem BatchEnd.faults_iff {batch : BlockBatch} {s t : Seat} {answer : Except Fault Unit}
    (calm : Calm s) (room : s.node.chain.bestNumber.toNat + 1 < UInt64.size)
    (ends : BatchEnd batch s answer t) :
    (∃ e, answer = .error e) ↔
      (∃ blocks u, Offers batch s blocks u ∧ Overflow batch.peer blocks u) ∨
        Unfilable batch s := by
  cases ends with
  | nothing empty =>
    have hnot : ¬ s.Offered batch := by
      rintro ⟨last, top, -⟩
      rw [empty] at top
      cases top
    refine iff_of_false (fun ⟨e, h⟩ ↦ nomatch h) ?_
    rintro (⟨blocks, u, offer, -⟩ | ⟨offered, -⟩)
    · exact hnot offer.offered
    · exact hnot offered
  | skipped top mode known =>
    have hnot : ¬ s.Offered batch := by
      rintro ⟨last, top', hback | hnew⟩
      · exact mode hback
      · rw [top] at top'
        cases top'
        rw [known] at hnew
        cases hnew
    refine iff_of_false (fun ⟨e, h⟩ ↦ nomatch h) ?_
    rintro (⟨blocks, u, offer, -⟩ | ⟨offered, -⟩)
    · exact hnot offer.offered
    · exact hnot offered
  | noHeight offered runs =>
    have runsOut := (Chain.importBlocks_faults_iff _).mp ⟨_, _, runs⟩
    exact iff_of_true ⟨_, rfl⟩ (.inl ⟨_, _, .batch offered, .height runsOut⟩)
  | uncounted offered links full =>
    exact iff_of_true ⟨_, rfl⟩ (.inl ⟨_, _, .batch offered, .counter links full⟩)
  | unfiled offered links counts full =>
    exact iff_of_true ⟨_, rfl⟩ (.inr ⟨offered, _, _, links, full⟩)
  | noSalvage offered links counts filed full => omega
  | refused offered links counts filed unstored =>
    refine iff_of_false (fun ⟨e, h⟩ ↦ nomatch h) ?_
    rintro (spills | ⟨-, imported, c, links', full⟩)
    · exact not_overflow_of_unstored offered links counts unstored spills
    · rw [Links, links] at links'
      cases links'
      exact full (filed rfl)
  | noLevel offered top links counts stored full =>
    exact iff_of_true ⟨_, rfl⟩
      (.inl ⟨_, _, .batch offered, .level links stored top (by omega)⟩)
  | @drained imported outcome c first last level answer t offered bottom top links counts stored
      above drains =>
    have hdrain := drained_faults_iff calm offered bottom top links counts stored above
    rw [drains] at hdrain
    have hmap : (∃ e, answer.map (fun _ ↦ ()) = .error e) ↔ ∃ e, answer = .error e := by
      cases answer <;> simp [Except.map]
    rw [hmap, hdrain]
    refine ⟨.inl, ?_⟩
    rintro (spills | ⟨-, imported', c', links', -⟩)
    · exact spills
    · rw [Links, links] at links'
      cases links'
      cases stored

def genesisSeat (c : Chain) : Seat := fresh c Header.isAcceptable {} .opened .empty

/-- What the chain of the first block of every chain is for a new engine. -/
theorem exists_genesis :
    ∃ c, Chain.new .genesis = .ok c ∧ c.bestNumber = 0 ∧
      c.block? Block.genesis.hash = some .genesis ∧ c.pruneFloor = none ∧ Calm (genesisSeat c) := by
  obtain ⟨c, hnew, hblocks, -, -, hbest, hprune, hfail⟩ := Chain.exists_new Chain.room_genesis
  have hstored : c.block? Block.genesis.hash = some .genesis := by
    simp [Chain.block?, hblocks]
  refine ⟨c, hnew, ?_, hstored, hprune, calm_fresh hfail ..⟩
  rw [Chain.bestNumber, Chain.bestBlock, hbest, hstored]
  rfl

/-- The chain of the first block of every chain has a property that is computed of it. -/
theorem of_genesis {P : Chain → Prop} [DecidablePred P] {c : Chain}
    (new : Chain.new .genesis = .ok c)
    (h : (Chain.new .genesis).toOption.any (fun c ↦ decide (P c)) = true) : P c := by
  rw [new] at h
  exact of_decide_eq_true h

/-- What a test finds of the chain of the first block of every chain. -/
theorem exists_genesis_of_any (test : Chain → Bool)
    (h : (Chain.new .genesis).toOption.any test = true) :
    ∃ c, Chain.new .genesis = .ok c ∧ test c = true := by
  cases hnew : Chain.new .genesis with
  | error e =>
    rw [hnew] at h
    cases h
  | ok c =>
    rw [hnew] at h
    exact ⟨c, rfl, h⟩

/-! ### Stored hashes with other numbers -/

/-- A block whose hash is stored counts as stored without a look at its other fields. -/
theorem links_of_stored {s : Seat} {block : Block}
    (known : (s.node.chain.block? block.hash).isSome) :
    s.Links [block] [] .exist (s.node.chain.withHanded block.hash) := by
  have hknown : ((s.node.chain.withHanded block.hash).block? block.hash).isSome := known
  have himport : (Chain.importBlock block).exec (s.node.chain.withHanded block.hash) =
      (.ok .exist, s.node.chain.withHanded block.hash) := by
    rw [Chain.importBlock, Step.exec_bind, Step.exec_get]
    dsimp only
    rw [if_pos hknown]
    rfl
  rw [Links, Chain.exec_importBlocks_cons, himport]
  rfl

/-- One block faults that has the hash of a stored one and the number of one of the last two
heights. -/
theorem processBatch_faults_of_renumbered {s : Seat} (calm : Calm s)
    (room : s.node.chain.bestNumber.toNat + 1 < UInt64.size) {block : Block}
    (known : (s.node.chain.block? block.hash).isSome)
    (renumbered : s.node.chain.isStored block.hash block.number = false)
    (wanted : s.wanted [block] = [block]) (high : UInt64.size ≤ block.number.toNat + 2)
    (peer : PeerId) (name : String) :
    ∃ e, ((processBatch ⟨peer, name, [block]⟩).exec s).1 = .error e := by
  obtain ⟨answer, t, ends, hmap, -⟩ := batchEnd_processBatch calm ⟨peer, name, [block]⟩
  have offered : s.Offered ⟨peer, name, [block]⟩ :=
    ⟨block, by rw [wanted]; rfl, .inr renumbered⟩
  have full : UInt64.size ≤ max (s.node.chain.withHanded block.hash).bestNumber.toNat
      block.number.toNat + 2 := by omega
  have spills : Overflow peer (s.wanted [block]) s := by
    rw [wanted]
    exact .level (links_of_stored known) rfl rfl full
  obtain ⟨e, rfl⟩ := (ends.faults_iff calm room).mpr (.inl ⟨_, _, .batch offered, spills⟩)
  cases hrun : ((processBatch ⟨peer, name, [block]⟩).exec s).1 with
  | error e => exact ⟨e, rfl⟩
  | ok report =>
    rw [hrun] at hmap
    cases hmap

/-- The first block of every chain with one of the last two heights as its number makes a new engine
fault. -/
theorem exists_faults_renumbered {number : UInt64} (high : UInt64.size ≤ number.toNat + 2) :
    ∃ c, Chain.new .genesis = .ok c ∧ c.bestNumber = 0 ∧ Calm (genesisSeat c) ∧
      ∃ e, ((processBatch ⟨.ofNat 1, "peer-1", [Block.genesis.renumber number]⟩).exec
        (genesisSeat c)).1 = .error e := by
  obtain ⟨c, hnew, hbest, hstored, hprune, calm⟩ := exists_genesis
  have hlast : (Block.genesis.renumber number).number = number := rfl
  have hhash : (Block.genesis.renumber number).hash = Block.genesis.hash := rfl
  have hzero : Block.genesis.number = 0 := rfl
  have hchain : (genesisSeat c).node.chain = c := rfl
  refine ⟨c, hnew, hbest, calm, ?_⟩
  apply processBatch_faults_of_renumbered calm
  · rw [hchain, hbest]
    decide
  · rw [hchain, hhash, hstored]
    rfl
  · have hne : (0 : UInt64) ≠ number := by
      rintro rfl
      exact absurd high (by decide)
    rw [hchain, hhash, hlast, Chain.isStored, hstored, Option.any_some, hzero]
    simpa using hne
  · rw [wanted_of_unpruned hprune]
    rfl
  · exact high

/-! ### Faults -/

/-- At a calm seat whose best block is not at the last height, importing a batch faults exactly when
some list of blocks that it hands to the chain overflows, or its blocks have no parent and cannot
be counted as filed. -/
theorem processBatch_faults_iff {s : Seat} (calm : Calm s)
    (room : s.node.chain.bestNumber.toNat + 1 < UInt64.size) (batch : BlockBatch) :
    (∃ e, ((processBatch batch).exec s).1 = .error e) ↔
      (∃ blocks t, Offers batch s blocks t ∧ Overflow batch.peer blocks t) ∨
        Unfilable batch s := by
  obtain ⟨answer, t, ends, hmap, -⟩ := batchEnd_processBatch calm batch
  rw [← ends.faults_iff calm room, ← hmap]
  cases ((processBatch batch).exec s).1 <;> simp [Except.map]

/-- The first block of every chain with the last height but one as its number reaches the chain of a
new engine, which faults. -/
theorem processBatch_faults_iff_genesis :
    ∃ c, Chain.new .genesis = .ok c ∧ Calm (genesisSeat c) ∧
      (genesisSeat c).node.chain.bestNumber.toNat + 1 < UInt64.size ∧
      (∃ e, ((processBatch ⟨.ofNat 1, "peer-1",
        [Block.genesis.renumber 0xFFFFFFFFFFFFFFFE]⟩).exec (genesisSeat c)).1 = .error e) ∧
      ((∃ blocks t, Offers ⟨.ofNat 1, "peer-1", [Block.genesis.renumber 0xFFFFFFFFFFFFFFFE]⟩
          (genesisSeat c) blocks t ∧ Overflow (.ofNat 1) blocks t) ∨
        Unfilable ⟨.ofNat 1, "peer-1", [Block.genesis.renumber 0xFFFFFFFFFFFFFFFE]⟩
          (genesisSeat c)) := by
  have high : UInt64.size ≤ (0xFFFFFFFFFFFFFFFE : UInt64).toNat + 2 := by decide
  obtain ⟨c, hnew, hbest, calm, faults⟩ := exists_faults_renumbered high
  have room : (genesisSeat c).node.chain.bestNumber.toNat + 1 < UInt64.size := by
    change c.bestNumber.toNat + 1 < UInt64.size
    rw [hbest]
    decide
  exact ⟨c, hnew, calm, room, faults, (processBatch_faults_iff calm room _).mp faults⟩

/-- The first block of every chain with the last height as its number makes a new engine fault. -/
theorem processBatch_faults_genesis_renumbered :
    ∃ c, Chain.new .genesis = .ok c ∧ c.bestNumber.toNat < 2 ^ 63 ∧
      ∃ e, ((processBatch ⟨.ofNat 1, "peer-1", [Block.genesis.renumber 0xFFFFFFFFFFFFFFFF]⟩).exec
        (genesisSeat c)).1 = .error e := by
  obtain ⟨c, hnew, hbest, -, faults⟩ :=
    exists_faults_renumbered (by decide : UInt64.size ≤ (0xFFFFFFFFFFFFFFFF : UInt64).toNat + 2)
  refine ⟨c, hnew, ?_, faults⟩
  rw [hbest]
  decide

end Seat
end ChainSync
