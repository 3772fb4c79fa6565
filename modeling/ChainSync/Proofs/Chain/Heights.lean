import ChainSync.Proofs.Chain.Growth

/-!
# When the chain runs out of heights

A block needs a height above its parent, and a block that becomes the best needs one above itself.
Main statement: linking a list faults exactly when it comes to a block without such a height, all
blocks before it being stored.
-/

namespace ChainSync

/-- A block that stands one above its parent leaves room above the parent. -/
theorem Block.Follows.room_parent {block parent : Block} (fits : block.Follows parent) :
    parent.number.toNat + 1 < UInt64.size := by
  rw [fits.number]
  exact block.number.toNat_lt_size

namespace Chain

/-- The block is not stored, its parent is, and there is no height above the parent, or none above
the block, which would become the best. -/
def LacksHeight (c : Chain) (block : Block) : Prop :=
  c.block? block.hash = none ∧ ∃ parent, c.block? block.parent = some parent ∧
    (UInt64.size ≤ parent.number.toNat + 1 ∨
      block.Follows parent ∧ UInt64.size ≤ block.number.toNat + 1 ∧
        ∃ total, c.totals[block.parent]? = some total ∧
          (c.withTotal block (total + block.header.difficulty)).totalDifficulty <
            total + block.header.difficulty)

/-- Linking the blocks one after the other comes to one that lacks a height. -/
inductive RunsOut : Chain → List Block → Prop
  /-- The first block lacks a height. -/
  | here {c : Chain} {block : Block} {rest : List Block} (lacks : c.LacksHeight block) :
    RunsOut c (block :: rest)
  /-- The first block is stored, and a later one lacks a height. -/
  | later {c t : Chain} {block : Block} {rest : List Block} {outcome : ImportOutcome}
      (runs : (importBlock block).exec (c.withHanded block.hash) = (.ok outcome, t))
      (stored : outcome.isStored = true) (runsOut : RunsOut t rest) : RunsOut c (block :: rest)

/-- A block that finds its parent and some room above it lacks a height only as the best. -/
theorem lacksHeight_iff_of_room {c : Chain} {block parent : Block}
    (new : c.block? block.hash = none) (found : c.block? block.parent = some parent)
    (room : parent.number.toNat + 1 < UInt64.size) :
    c.LacksHeight block ↔ block.Follows parent ∧ UInt64.size ≤ block.number.toNat + 1 ∧
      ∃ total, c.totals[block.parent]? = some total ∧
        (c.withTotal block (total + block.header.difficulty)).totalDifficulty <
          total + block.header.difficulty := by
  constructor
  · rintro ⟨-, parent', found', full | crowned⟩
    · rw [found] at found'
      cases found'
      omega
    · rw [found] at found'
      cases found'
      exact crowned
  · exact fun crowned ↦ ⟨new, parent, found, .inr crowned⟩

/-- An attempt to link a block faults exactly when the block lacks a height. -/
theorem Attempt.faults_iff {c t : Chain} {block : Block} {r : Except Fault ImportOutcome}
    (ha : Attempt c block r t) : (∃ e, r = .error e) ↔ c.LacksHeight block := by
  cases ha with
  | exist stored =>
    refine iff_of_false (fun ⟨e, h⟩ ↦ nomatch h) ?_
    rintro ⟨new, -⟩
    rw [new] at stored
    cases stored
  | noParent _ orphan =>
    refine iff_of_false (fun ⟨e, h⟩ ↦ nomatch h) ?_
    rintro ⟨-, parent, found, -⟩
    rw [orphan] at found
    cases found
  | noHeight new found full => exact iff_of_true ⟨_, rfl⟩ ⟨new, _, found, .inl full⟩
  | invalid new found room misfit =>
    rw [lacksHeight_iff_of_room new found room]
    exact iff_of_false (fun ⟨e, h⟩ ↦ nomatch h) fun ⟨fits, _⟩ ↦ misfit fits
  | detached new found fits loose =>
    rw [lacksHeight_iff_of_room new found fits.room_parent]
    refine iff_of_false (fun ⟨e, h⟩ ↦ nomatch h) ?_
    rintro ⟨-, -, total, linked, -⟩
    rw [loose] at linked
    cases linked
  | light new found fits linked light =>
    rw [lacksHeight_iff_of_room new found fits.room_parent]
    refine iff_of_false (fun ⟨e, h⟩ ↦ nomatch h) ?_
    rintro ⟨-, -, total, linked', heavy⟩
    rw [linked] at linked'
    cases linked'
    exact light heavy
  | heavy new found fits linked heavy room =>
    rw [lacksHeight_iff_of_room new found fits.room_parent]
    refine iff_of_false (fun ⟨e, h⟩ ↦ nomatch h) ?_
    rintro ⟨-, full, -⟩
    omega
  | lastHead new found fits linked heavy full =>
    exact iff_of_true ⟨_, rfl⟩ ⟨new, _, found, .inr ⟨fits, full, _, linked, heavy⟩⟩

/-- Linking a list faults exactly when it comes to a block that lacks a height. -/
theorem importBlocks_faults_iff (blocks : List Block) :
    ∀ {last : ImportOutcome} {c : Chain},
      (∃ e t, (importBlocks blocks last).exec c = (.error e, t)) ↔ c.RunsOut blocks := by
  induction blocks with
  | nil =>
    intro last c
    refine iff_of_false ?_ (fun h ↦ nomatch h)
    rintro ⟨e, t, h⟩
    cases h
  | cons block rest ih =>
    intro last c
    have ha := (attempt_importBlock (c.withHanded block.hash) block).faults_iff
    rw [exec_importBlocks_cons]
    cases hrun : (importBlock block).exec (c.withHanded block.hash) with
    | mk r t =>
      rw [hrun] at ha
      cases r with
      | error e => exact iff_of_true ⟨e, t, rfl⟩ (.here (ha.mp ⟨e, rfl⟩))
      | ok outcome =>
        have hroom : ¬ c.LacksHeight block := by
          intro lacks
          obtain ⟨e, h⟩ := ha.mpr lacks
          cases h
        have hstep : c.RunsOut (block :: rest) ↔
            outcome.isStored = true ∧ t.RunsOut rest := by
          constructor
          · rintro (lacks | ⟨runs, stored, runsOut⟩)
            · exact absurd lacks hroom
            · rw [hrun] at runs
              cases runs
              exact ⟨stored, runsOut⟩
          · rintro ⟨stored, runsOut⟩
            exact .later hrun stored runsOut
        rw [hstep]
        cases outcome with
        | imported best =>
          rw [← @ih (.imported best) t]
          dsimp only
          cases hrest : (importBlocks rest (.imported best)).exec t with
          | mk answer u => cases answer <;> simp [ImportOutcome.isStored]
        | exist =>
          rw [← @ih .exist t]
          simp [ImportOutcome.isStored]
        | noParent => simp [ImportOutcome.isStored]
        | invalid => simp [ImportOutcome.isStored]

end Chain
end ChainSync
