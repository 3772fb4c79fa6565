import ChainSync.Proofs.Chain.FastAttempt

/-!
# What linking leaves stored

Linking a list loses no stored block, and every hash that it reports is stored afterwards. A list
whose last block was stored or found stored has all its blocks stored. Of the blocks that a list
adds the hash is reported and the parent is stored.
-/

namespace ChainSync
namespace Chain

/-- A hash that is stored in the smaller chain is stored in the larger one. -/
theorem Within.isSome {c d : Chain} (h : c.Within d) {hash : Digest}
    (stored : (c.block? hash).isSome) : (d.block? hash).isSome := by
  obtain ⟨b, hb⟩ := Option.isSome_iff_exists.mp stored
  exact Option.isSome_iff_exists.mpr ⟨b, h hb⟩

theorem Attempt.within {c d : Chain} {block : Block} {r : Except Fault ImportOutcome}
    (ha : Attempt c block r d) : c.Within d := by
  have hadded (new : c.block? block.hash = none) {d : Chain}
      (hd : ∀ h, d.block? h = if block.hash = h then some block else c.block? h) :
      c.Within d := by
    intro h b hb
    have hne : block.hash ≠ h := by
      rintro rfl
      rw [new] at hb
      cases hb
    rw [hd, if_neg hne, hb]
  cases ha with
  | exist _ | noParent _ _ | noHeight _ _ _ | invalid _ _ _ _ => exact .refl c
  | detached new _ _ _ | light new _ _ _ _ | heavy new _ _ _ _ _ | lastHead new _ _ _ _ _ =>
    exact hadded new fun h ↦ getElem?_insert_block ..

/-- Linking a list loses no stored block. -/
theorem importBlocks_within (blocks : List Block) (last : ImportOutcome) (c : Chain) :
    c.Within ((importBlocks blocks last).exec c).2 :=
  importBlocks_induction (P := c.Within) (fun _ h ↦ h) (fun h ha ↦ h.trans ha.within) blocks
    (.refl c)

/-- A block that an attempt linked is stored. -/
theorem Attempt.block?_eq_some {c d : Chain} {block : Block} {best : Bool}
    (ha : Attempt c block (.ok (.imported best)) d) : d.block? block.hash = some block := by
  have hstored {d : Chain}
      (hd : ∀ h, d.block? h = if block.hash = h then some block else c.block? h) :
      d.block? block.hash = some block := by
    rw [hd, if_pos rfl]
  cases ha with
  | detached _ _ _ _ | light _ _ _ _ _ | heavy _ _ _ _ _ _ =>
    exact hstored fun h ↦ getElem?_insert_block ..

/-- After an attempt that found or made the block stored it is. -/
theorem Attempt.isSome_of_isStored {c d : Chain} {block : Block} {outcome : ImportOutcome}
    (ha : Attempt c block (.ok outcome) d) (stored : outcome.isStored = true) :
    (d.block? block.hash).isSome := by
  cases outcome with
  | noParent | invalid => cases stored
  | imported best => rw [ha.block?_eq_some, Option.isSome_some]
  | exist =>
    cases ha with
    | exist stored => exact stored

/-- A list that is linked without a fault ends with its first block, which is refused, or goes on
with the rest after its first block was found stored or was linked and reported. -/
theorem importBlocks_cons_cases {block : Block} {rest : List Block} {last outcome : ImportOutcome}
    {c d : Chain} {imported : List Digest}
    (run : (importBlocks (block :: rest) last).exec c = (.ok (imported, outcome), d)) :
    (outcome.isStored = false ∧ imported = [] ∧
        Attempt (c.withHanded block.hash) block (.ok outcome) d) ∨
      (∃ c₁, Attempt (c.withHanded block.hash) block (.ok .exist) c₁ ∧
        (importBlocks rest .exist).exec c₁ = (.ok (imported, outcome), d)) ∨
      ∃ best imported' c₁, Attempt (c.withHanded block.hash) block (.ok (.imported best)) c₁ ∧
        imported = block.hash :: imported' ∧
        (importBlocks rest (.imported best)).exec c₁ = (.ok (imported', outcome), d) := by
  rw [exec_importBlocks_cons] at run
  have ha := attempt_importBlock (c.withHanded block.hash) block
  cases hx : (importBlock block).exec (c.withHanded block.hash) with
  | mk r c₁ =>
    rw [hx] at ha run
    cases r with
    | error e => cases run
    | ok o =>
      cases o with
      | noParent =>
        cases run
        exact .inl ⟨rfl, rfl, ha⟩
      | invalid =>
        cases run
        exact .inl ⟨rfl, rfl, ha⟩
      | exist => exact .inr (.inl ⟨c₁, ha, run⟩)
      | imported best =>
        dsimp only at run
        cases hy : (importBlocks rest (.imported best)).exec c₁ with
        | mk answer c₂ =>
          rw [hy] at run
          cases answer with
          | error e => cases run
          | ok answer =>
            cases run
            exact .inr (.inr ⟨best, answer.1, c₁, ha, rfl, hy⟩)

/-- Every hash that is reported as imported is stored. -/
theorem isSome_of_mem_imported (blocks : List Block) :
    ∀ {last outcome : ImportOutcome} {c d : Chain} {imported : List Digest},
      (importBlocks blocks last).exec c = (.ok (imported, outcome), d) →
      ∀ h ∈ imported, (d.block? h).isSome := by
  induction blocks with
  | nil =>
    intro last outcome c d imported run h hh
    cases run
    cases hh
  | cons block rest ih =>
    intro last outcome c d imported run h hh
    rcases importBlocks_cons_cases run with
      ⟨-, rfl, -⟩ | ⟨c₁, -, hrest⟩ | ⟨best, imported', c₁, ha, rfl, hrest⟩
    · cases hh
    · exact ih hrest h hh
    · rcases List.mem_cons.mp hh with rfl | hh
      · have hwithin := importBlocks_within rest (.imported best) c₁
        rw [hrest] at hwithin
        rw [hwithin ha.block?_eq_some]
        rfl
      · exact ih hrest h hh

/-- A list that ends with a stored block has every block stored. -/
theorem isSome_of_mem_of_isStored (blocks : List Block) :
    ∀ {last outcome : ImportOutcome} {c d : Chain} {imported : List Digest},
      (importBlocks blocks last).exec c = (.ok (imported, outcome), d) →
      outcome.isStored = true → ∀ b ∈ blocks, (d.block? b.hash).isSome := by
  induction blocks with
  | nil =>
    intro last outcome c d imported _ _ b hb
    cases hb
  | cons block rest ih =>
    intro last outcome c d imported run stored
    -- Once the first block is stored, it stays stored while the rest is linked.
    have hfirst {c₁ : Chain} {last : ImportOutcome} {imported' : List Digest}
        (known : (c₁.block? block.hash).isSome)
        (hrest : (importBlocks rest last).exec c₁ = (.ok (imported', outcome), d)) :
        ∀ b ∈ block :: rest, (d.block? b.hash).isSome := by
      intro b hb
      rcases List.mem_cons.mp hb with rfl | hb
      · have hwithin := importBlocks_within rest last c₁
        rw [hrest] at hwithin
        exact hwithin.isSome known
      · exact ih hrest stored b hb
    rcases importBlocks_cons_cases run with
      ⟨hrefused, -, -⟩ | ⟨c₁, ha, hrest⟩ | ⟨best, imported', c₁, ha, -, hrest⟩
    · rw [stored] at hrefused
      cases hrefused
    · exact hfirst (ha.isSome_of_isStored rfl) hrest
    · exact hfirst (ha.isSome_of_isStored rfl) hrest

/-- Every block that the second chain stores beyond the first one is under one of these hashes, and
its parent is stored with it. -/
def Adds (c d : Chain) (hashes : List Digest) : Prop :=
  ∀ ⦃h : Digest⦄ ⦃b : Block⦄, d.block? h = some b → c.block? h = none →
    h ∈ hashes ∧ (d.block? b.parent).isSome

namespace Adds

variable {c d e : Chain} {hashes hashes' : List Digest}

theorem refl (c : Chain) (hashes : List Digest) : c.Adds c hashes := by
  intro h b hb new
  rw [new] at hb
  cases hb

/-- What is added first and what is added afterwards is added by both together. -/
theorem trans (first : c.Adds d hashes) (later : d.Adds e hashes') (within : d.Within e) :
    c.Adds e (hashes ++ hashes') := by
  intro h b hb new
  cases hd : d.block? h with
  | none =>
    obtain ⟨hmem, hparent⟩ := later hb hd
    exact ⟨List.mem_append_right _ hmem, hparent⟩
  | some b' =>
    obtain rfl : b = b' := Option.some.inj (hb.symm.trans (within hd))
    obtain ⟨hmem, hparent⟩ := first hd new
    exact ⟨List.mem_append_left _ hmem, within.isSome hparent⟩

end Adds

/-- A block that an attempt linked is all that it added, and its parent was stored. -/
theorem Attempt.adds {c d : Chain} {block : Block} {best : Bool}
    (ha : Attempt c block (.ok (.imported best)) d) : c.Adds d [block.hash] := by
  have hadds {parent : Block} {d : Chain} (found : c.block? block.parent = some parent)
      (hd : ∀ h, d.block? h = if block.hash = h then some block else c.block? h) :
      c.Adds d [block.hash] := by
    intro h b hb new
    rw [hd] at hb
    split at hb
    · next he =>
      cases hb
      refine ⟨he ▸ List.mem_singleton_self _, ?_⟩
      rw [hd, found]
      split <;> rfl
    · rw [new] at hb
      cases hb
  cases ha with
  | detached _ found _ _ | light _ found _ _ _ | heavy _ found _ _ _ _ =>
    exact hadds found fun h ↦ getElem?_insert_block ..

/-- Linking a list adds what it reports. -/
theorem adds_importBlocks (blocks : List Block) :
    ∀ {last outcome : ImportOutcome} {c d : Chain} {imported : List Digest},
      (importBlocks blocks last).exec c = (.ok (imported, outcome), d) → c.Adds d imported := by
  induction blocks with
  | nil =>
    intro last outcome c d imported run
    cases run
    exact .refl c _
  | cons block rest ih =>
    intro last outcome c d imported run
    rcases importBlocks_cons_cases run with
      ⟨hrefused, rfl, ha⟩ | ⟨c₁, ha, hrest⟩ | ⟨best, imported', c₁, ha, rfl, hrest⟩
    · cases outcome with
      | exist | imported _ => cases hrefused
      | noParent | invalid =>
        cases ha
        exact Adds.refl c _
    · have hadds : c₁.Adds d imported := ih hrest
      cases ha
      exact hadds
    · have hfirst : c.Adds c₁ [block.hash] := ha.adds
      have hwithin := importBlocks_within rest (.imported best) c₁
      rw [hrest] at hwithin
      exact hfirst.trans (ih hrest) hwithin

theorem bestNumber_importBlocks_of_nil (blocks : List Block) :
    ∀ {last outcome : ImportOutcome} {c d : Chain},
      (importBlocks blocks last).exec c = (.ok ([], outcome), d) → d.bestNumber = c.bestNumber := by
  induction blocks with
  | nil =>
    intro last outcome c d run
    cases run
    rfl
  | cons block rest ih =>
    intro last outcome c d run
    rcases importBlocks_cons_cases run with
      ⟨hrefused, -, ha⟩ | ⟨c₁, ha, hrest⟩ | ⟨best, imported', c₁, -, hcons, -⟩
    · cases outcome with
      | exist | imported _ => cases hrefused
      | noParent | invalid =>
        cases ha
        rfl
    · rw [ih hrest]
      cases ha
      rfl
    · cases hcons

/-- A report has the height of the best block, which is another one only if something was
imported. -/
theorem bestNumber_connect (blocks : List Block) (c : Chain) {report : ConnectReport}
    (answered : ((connect blocks).exec c).1 = .ok (.ok report)) :
    report.bestNumber = ((connect blocks).leaves c).bestNumber ∧
      (report.imported = [] → ((connect blocks).leaves c).bestNumber = c.bestNumber) := by
  rw [exec_connect] at answered
  rw [Step.leaves, exec_connect]
  cases hfail : c.nextFailure with
  | some e =>
    rw [hfail] at answered
    cases answered
  | none =>
    rw [hfail] at answered
    cases hrun : (importBlocks blocks .exist).exec c.takeFailure.2 with
    | mk answer d =>
      rw [hrun] at answered
      cases answer with
      | error e => cases answered
      | ok linked =>
        obtain ⟨imported, outcome⟩ := linked
        cases answered
        refine ⟨rfl, fun hnil ↦ ?_⟩
        dsimp only at hnil
        subst hnil
        have hsame : d.bestNumber = c.takeFailure.2.bestNumber :=
          bestNumber_importBlocks_of_nil blocks hrun
        exact hsame

/-- A list that the chain refuses adds nothing, and one that it takes adds what is reported. -/
theorem adds_connect (blocks : List Block) (c : Chain) :
    (∀ e, ((connect blocks).exec c).1 = .ok (.error e) → c.Adds ((connect blocks).leaves c) []) ∧
      ∀ report, ((connect blocks).exec c).1 = .ok (.ok report) →
        c.Adds ((connect blocks).leaves c) report.imported := by
  rw [Step.leaves, exec_connect]
  cases c.nextFailure with
  | some e => exact ⟨fun _ _ ↦ Adds.refl c _, fun _ h ↦ by cases h⟩
  | none =>
    cases hrun : (importBlocks blocks .exist).exec c.takeFailure.2 with
    | mk answer d =>
      cases answer with
      | error e => exact ⟨fun _ h ↦ (by cases h), fun _ h ↦ (by cases h)⟩
      | ok linked =>
        have hadds : c.takeFailure.2.Adds d linked.1 := adds_importBlocks blocks hrun
        refine ⟨fun _ h ↦ (by cases h), fun report h ↦ ?_⟩
        cases h
        exact hadds

/-- What the chain reports comes from linking the blocks, and it loses no stored block. -/
theorem connect_spec (blocks : List Block) (c : Chain) :
    c.Within ((connect blocks).leaves c) ∧
      ((connect blocks).leaves c).pruneFloor = c.pruneFloor ∧
      ∀ report, ((connect blocks).exec c).1 = .ok (.ok report) →
        ∃ c', (importBlocks blocks .exist).exec c' =
          (.ok (report.imported, report.outcome), (connect blocks).leaves c) := by
  have hwithin := importBlocks_within blocks .exist c.takeFailure.2
  have hframe := (importBlocks_frame blocks .exist c.takeFailure.2).2
  rw [Step.leaves, exec_connect]
  cases c.nextFailure with
  | some e => exact ⟨.refl c, rfl, fun _ h ↦ by cases h⟩
  | none =>
    cases hrun : (importBlocks blocks .exist).exec c.takeFailure.2 with
    | mk answer d =>
      rw [hrun] at hwithin hframe
      cases answer with
      | error e => exact ⟨hwithin, hframe, fun _ h ↦ by cases h⟩
      | ok linked =>
        refine ⟨hwithin, hframe, fun report h ↦ ⟨_, hrun.trans ?_⟩⟩
        cases h
        rfl

end Chain
end ChainSync
