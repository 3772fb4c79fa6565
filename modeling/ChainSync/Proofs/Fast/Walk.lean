import ChainSync.Fast.PivotWalk
import ChainSync.Proofs.Chain.FastAttempt
import ChainSync.Proofs.Import.Overflow

/-!
# Where a walk down from the pivot leads

A walk stores a block only under the hash that is required next. That hash stays on the branch of
the target as long as the parent it trusts is one of a stored block: a block that is stored on the
way had to be sealed, but one whose hash is stored already is believed without a look at its other
fields. Main statement: a walk stores a block off the branch of the target exactly when it comes to
a stored hash whose block in the batch names another parent than the stored one, and fetches the
first missing ancestor of that parent.
-/

namespace ChainSync

/-- What one block of a batch does to a walk that goes on: the chain and the required block after
it. -/
inductive Advance (c : Chain) (required : BlockId) (block : Block) : Chain → BlockId → Prop
  /-- The block stands above the required one and is passed over. -/
  | above (high : required.number < block.number) : Advance c required block c required
  /-- The block is the required one and is stored, and its parent is required. -/
  | stored (named : block.hash = required.hash) (new : c.block? block.hash = none)
      (isSealed : block.header.isSealed = true) :
    Advance c required block (c.withLoose block) ⟨block.parent, monus block.number 1⟩
  /-- The block has the required hash, which is stored, and an ancestor of it is missing. -/
  | known {m : BlockId} (low : ¬ required.number < block.number)
      (named : block.hash = required.hash) (stored : (c.block? block.hash).isSome)
      (missing : c.missingAncestor block = some m) : Advance c required block c m

/-- After these blocks the walk from a chain and a required block is at another chain and requires
another block. -/
inductive Comes (c : Chain) (required : BlockId) : List Block → Chain → BlockId → Prop
  /-- No block is taken yet. -/
  | start : Comes c required [] c required
  /-- One more block is taken. -/
  | next {blocks : List Block} {d e : Chain} {r q : BlockId} {block : Block}
      (comes : Comes c required blocks d r) (advance : Advance d r block e q) :
    Comes c required (blocks ++ [block]) e q

/-- The walk over the blocks comes to a stored hash whose block in the batch names another parent
than the stored one, and requires the first missing ancestor of that parent. -/
def Misled (c : Chain) (target : BlockId) (blocks : List Block) (m : BlockId) : Prop :=
  ∃ before spoof rest d r stored, blocks = before ++ spoof :: rest ∧ Comes c target before d r ∧
    ¬ r.number < spoof.number ∧ spoof.hash = r.hash ∧ d.block? spoof.hash = some stored ∧
    stored.parent ≠ spoof.parent ∧ d.missingAncestor spoof = some m

/-- The block with another parent, and its hash left as it was. -/
def Block.reparent (b : Block) (parent : Digest) : Block :=
  { b with header := { b.header with parent } }

namespace Advance

variable {c d : Chain} {required r : BlockId} {block : Block}

theorem within (h : Advance c required block d r) : c.Within d := by
  cases h with
  | above _ => exact .refl c
  | stored _ new _ => exact .withLoose new
  | known _ _ _ _ => exact .refl c

end Advance

namespace Comes

variable {c d : Chain} {target r : BlockId} {blocks : List Block}

theorem within (h : Comes c target blocks d r) : c.Within d := by
  induction h with
  | start => exact .refl c
  | next _ advance ih => exact ih.trans advance.within

end Comes

theorem Misled.append {c : Chain} {target m : BlockId} {blocks : List Block}
    (h : Misled c target blocks m) (more : List Block) : Misled c target (blocks ++ more) m := by
  obtain ⟨before, spoof, rest, d, r, stored, rfl, h⟩ := h
  exact ⟨before, spoof, rest ++ more, d, r, stored, by simp, h⟩

/-- What misled the walk sends it to a block that was missing from the start. -/
theorem Misled.missing {c : Chain} {target m : BlockId} {blocks : List Block}
    (h : Misled c target blocks m) : c.block? m.hash = none := by
  obtain ⟨before, spoof, rest, d, r, stored, -, comes, -, -, -, -, hmissing⟩ := h
  exact comes.within.missing (Chain.missingAncestor_spec hmissing).1

/-! ### The required hash -/

/-- Where a walk can be, seen from a chain that holds all it stored: everything stored and the
required hash are on the branch, or it was misled and requires a missing hash off the branch, or it
was misled and stored such a hash. -/
inductive Astray (c : Chain) (target : BlockId) (blocks : List Block) (final d : Chain)
    (r : BlockId) : Prop
  /-- The walk never left the branch. -/
  | kept (added : ∀ {h : Digest}, c.block? h = none → (d.block? h).isSome →
        final.OnBranch target.hash h)
      (required : final.OnBranch target.hash r.hash)
  /-- The walk was misled, and what it requires now is not stored yet. -/
  | sent (added : ∀ {h : Digest}, c.block? h = none → (d.block? h).isSome →
        final.OnBranch target.hash h)
      (missing : d.block? r.hash = none) (misled : Misled c target blocks r)
  /-- The walk was misled and stored a block off the branch. -/
  | lost {m : BlockId} (misled : Misled c target blocks m) (stored : (d.block? m.hash).isSome)
      (off : ¬ final.OnBranch target.hash m.hash)

namespace Astray

variable {c d e final : Chain} {target r q : BlockId} {blocks : List Block} {block : Block}

/-- One more block keeps the walk in one of these places. -/
theorem advance (h : Astray c target blocks final d r) (comes : Comes c target blocks d r)
    (step : Advance d r block e q) (hfinal : e.Within final) :
    Astray c target (blocks ++ [block]) final e q := by
  -- Where the block that misled the walk is stored off the branch, it stays so.
  have hlost {m : BlockId} (misled : Misled c target blocks m) (stored : (d.block? m.hash).isSome)
      (off : ¬ final.OnBranch target.hash m.hash) :
      Astray c target (blocks ++ [block]) final e q := by
    obtain ⟨b, hb⟩ := Option.isSome_iff_exists.mp stored
    exact .lost (misled.append _) (by rw [step.within hb]; rfl) off
  cases step with
  | above _ =>
    cases h with
    | kept added required => exact .kept added required
    | sent added missing misled => exact .sent added missing (misled.append _)
    | lost misled stored off => exact hlost misled stored off
  | stored named new _ =>
    have hself : (d.withLoose block).block? block.hash = some block := by
      rw [Chain.block?_withLoose, if_pos rfl]
    have hadded (added : ∀ {h : Digest}, c.block? h = none → (d.block? h).isSome →
        final.OnBranch target.hash h) (hr : final.OnBranch target.hash block.hash) {h : Digest}
        (hc : c.block? h = none) (he : ((d.withLoose block).block? h).isSome) :
        final.OnBranch target.hash h := by
      rw [Chain.block?_withLoose] at he
      split at he
      · next heq => exact heq ▸ hr
      · exact added hc he
    cases h with
    | kept added required =>
      rw [← named] at required
      exact .kept (hadded added required) (required.parent (hfinal hself))
    | sent added missing misled =>
      rw [← named] at missing
      by_cases hr : final.OnBranch target.hash block.hash
      · exact .kept (hadded added hr) (hr.parent (hfinal hself))
      · exact .lost (misled.append _) (by rw [← named, hself]; rfl) (by rw [← named]; exact hr)
    | lost misled stored off => exact hlost misled stored off
  | known low named known missing =>
    obtain ⟨stored, hstored⟩ := Option.isSome_iff_exists.mp known
    obtain ⟨hmissing, hbranch⟩ := Chain.missingAncestor_spec missing
    cases h with
    | kept added required =>
      rw [← named] at required
      by_cases hparent : stored.parent = block.parent
      · refine .kept added ((required.parent (hfinal hstored)).trans ?_)
        rw [hparent]
        exact hfinal.onBranch hbranch
      · exact .sent added hmissing
          ⟨blocks, block, [], _, _, stored, rfl, comes, low, named, hstored, hparent, missing⟩
    | sent added missing' _ =>
      rw [← named, hstored] at missing'
      cases missing'
    | lost misled stored off => exact hlost misled stored off

/-- A walk is in one of these places after any number of blocks. -/
theorem of_comes (comes : Comes c target blocks d r) (hfinal : d.Within final) :
    Astray c target blocks final d r := by
  induction comes with
  | start =>
    refine .kept ?_ .refl
    intro h hc hd
    rw [hc] at hd
    cases hd
  | next comes step ih => exact (ih (step.within.trans hfinal)).advance comes step hfinal

/-- A walk that stored a block off the branch was misled and stored the block that it was sent to.
-/
theorem exists_misled (h : Astray c target blocks final d r) {a : Digest} (hc : c.block? a = none)
    (hd : (d.block? a).isSome) (off : ¬ final.OnBranch target.hash a) :
    ∃ m, Misled c target blocks m ∧ (d.block? m.hash).isSome ∧
      ¬ final.OnBranch target.hash m.hash := by
  cases h with
  | kept added _ => exact absurd (added hc hd) off
  | sent added _ _ => exact absurd (added hc hd) off
  | lost misled stored off => exact ⟨_, misled, stored, off⟩

end Astray

namespace Seat

/-! ### Runs of a walk -/

def storedFast (s : Seat) (c : Chain) (block : Block) : Seat where
  node := { s.node with chain := c }
  engine :=
    { s.engine with
      fast :=
        { s.engine.fast with
          importedBlocks := s.engine.fast.importedBlocks.insert block.hash } }

end Seat

/-- Walking down a batch is looking at its first block and, if the walk goes on, the rest. -/
theorem WalkSite.exec_walkBlocks_cons {σ : Type} (site : WalkSite σ) (block : Block)
    (rest : List Block) (w : PivotWalk) (s : σ) :
    (site.walkBlocks (block :: rest) w).exec s =
      if w.required.number < block.number then (site.walkBlocks rest w).exec s
      else if block.hash ≠ w.required.hash then (.ok w, s)
      else match (site.storeFast block).exec s with
        | (.error e, t) => (.error e, t)
        | (.ok (.ok (.imported _)), t) =>
          (site.walkBlocks rest (w.descend block)).exec
            (site.seat.put ((site.seat.get t).storedFast (site.seat.get t).node.chain block) t)
        | (.ok (.ok .exist), t) =>
          match (site.seat.get t).node.chain.missingAncestor block with
          | some missing =>
            (site.walkBlocks rest { w with required := missing }).exec
              (site.seat.put (site.seat.get t) t)
          | none => (.ok { w with finished := true }, site.seat.put (site.seat.get t) t)
        | (.ok (.ok .noParent), t) | (.ok (.ok .invalid), t) => (.ok w, t)
        | (.ok (.error e), t) =>
          (.ok w, site.seat.put
            { site.seat.get t with node := (site.seat.get t).node.reportChainError e } t) := by
  rw [walkBlocks]
  split
  · rfl
  split
  · rfl
  rw [Step.exec_bind]
  cases (site.storeFast block).exec s with
  | mk answer t =>
    rcases answer with fault | e | outcome
    · rfl
    · rfl
    · cases outcome with
      | imported best => rfl
      | noParent => rfl
      | invalid => rfl
      | exist =>
        dsimp only
        rw [Step.exec_bind, Step.exec_part, Step.exec_get]
        dsimp only
        cases (site.seat.get t).node.chain.missingAncestor block <;> rfl

namespace Seat

/-- Storing a block may replace the chain and does nothing else. -/
theorem exec_storeFast (block : Block) (s : Seat) :
    (storeFast block).exec s =
      (.ok (s.node.chain.fastImport block).1, s.withChain (s.node.chain.fastImport block).2) := rfl

/-- Walking down a batch at a seat is looking at its first block and, if the walk goes on, the
rest. -/
theorem exec_walkBlocks_cons (block : Block) (rest : List Block) (w : PivotWalk) (s : Seat) :
    (walkBlocks (block :: rest) w).exec s =
      if w.required.number < block.number then (walkBlocks rest w).exec s
      else if block.hash ≠ w.required.hash then (.ok w, s)
      else match s.node.chain.fastImport block with
        | (.ok (.imported _), c) =>
          (walkBlocks rest (w.descend block)).exec (s.storedFast c block)
        | (.ok .exist, c) =>
          match c.missingAncestor block with
          | some missing =>
            (walkBlocks rest { w with required := missing }).exec (s.withChain c)
          | none => (.ok { w with finished := true }, s.withChain c)
        | (.ok .noParent, c) | (.ok .invalid, c) => (.ok w, s.withChain c)
        | (.error e, c) =>
          (.ok w, { s with node := (s.withChain c).node.reportChainError e }) := by
  rw [walkBlocks, walkSite.exec_walkBlocks_cons, walkSite_storeFast, exec_storeFast]
  cases s.node.chain.fastImport block with
  | mk answer c =>
    rcases answer with e | outcome
    · rfl
    · cases outcome <;> rfl

theorem chain_reportChainError (n : Node) (e : ChainError) :
    (n.reportChainError e).chain = n.chain := by
  unfold Node.reportChainError
  split <;> rfl

section

variable {P : Seat → Prop}

/-- Walking down some blocks keeps what handing a block over for fast import, noting it as imported
and reporting an error keep. -/
theorem keeps_walkBlocks_of_fastImport
    (handed : ∀ {s : Seat} (block : Block), P s →
      P (s.withChain (s.node.chain.fastImport block).2))
    (stored : ∀ {s : Seat} {block : Block} {best : Bool},
      P s → (s.node.chain.fastImport block).1 = .ok (.imported best) →
      P (s.storedFast (s.node.chain.fastImport block).2 block))
    (reported : ∀ {s : Seat} {e : ChainError}, P s →
      P { s with node := s.node.reportChainError e })
    (blocks : List Block) : ∀ w : PivotWalk, Step.Keeps P (walkBlocks blocks w) := by
  induction blocks with
  | nil => exact fun w ↦ .pure w
  | cons block rest ih =>
    intro w s h
    have hhanded := handed block h
    have hstored {best : Bool}
        (hanswer : (s.node.chain.fastImport block).1 = .ok (.imported best)) :
        P (s.storedFast (s.node.chain.fastImport block).2 block) := stored h hanswer
    rw [Step.leaves, exec_walkBlocks_cons]
    split
    · exact ih w h
    split
    · exact h
    cases hfast : s.node.chain.fastImport block with
    | mk answer c =>
      rw [hfast] at hhanded hstored
      cases answer with
      | error e => exact reported hhanded
      | ok outcome =>
        cases outcome with
        | imported best => exact ih _ (hstored rfl)
        | noParent => exact hhanded
        | invalid => exact hhanded
        | exist =>
          dsimp only
          split
          · exact ih _ hhanded
          · exact hhanded

/-- Walking down some blocks keeps what each fast import and each report of an error keeps. -/
theorem keeps_walkBlocks
    (kept : ∀ {s : Seat} {block : Block} {answer : Except ChainError ImportOutcome} {c : Chain},
      P s → Chain.FastAttempt s.node.chain block answer c → P (s.withChain c))
    (stored : ∀ {s : Seat} {block : Block}, P s → s.node.chain.block? block.hash = none →
      P (s.storedFast (s.node.chain.withLoose block) block))
    (reported : ∀ {s : Seat} {e : ChainError}, P s →
      P { s with node := s.node.reportChainError e })
    (blocks : List Block) (w : PivotWalk) : Step.Keeps P (walkBlocks blocks w) := by
  apply keeps_walkBlocks_of_fastImport
  · exact fun block h ↦ kept h (Chain.fastAttempt_fastImport _ block)
  · intro s block best h hanswer
    have hattempt := Chain.fastAttempt_fastImport s.node.chain block
    rw [hanswer] at hattempt
    generalize (s.node.chain.fastImport block).2 = c at hattempt
    cases hattempt with
    | stored new _ => exact stored h new
  · exact reported

/-- Walking down a batch keeps what the walk over its blocks and asking for receipts keep. -/
theorem keeps_walkPivotChain {batch : BlockBatch}
    (walk : ∀ w, Step.Keeps P (walkBlocks batch.blocks w))
    (want : ∀ transactions, Step.Keeps P (onFast fun f ↦ f.wantReceipts transactions))
    (ask : ∀ transactions, Step.Keeps P
      (request batch.peer .receipts (.requestReceipts transactions))) (target : BlockId) :
    Step.Keeps P (walkPivotChain target batch) := by
  refine .bind (walk _) fun w ↦ ?_
  dsimp only
  split
  · exact .bind (want _) fun _ ↦ .bind (ask _) fun _ ↦ .pure _
  · exact .pure _

end

/-- The walk over some blocks takes some of them and stops, with the blocks stored by then. -/
theorem exists_comes_walkBlocks (after : List Block) :
    ∀ {c : Chain} {target : BlockId} {before : List Block} {w : PivotWalk} {s : Seat},
      Comes c target before s.node.chain w.required →
      ∃ taken left d r w' t, before ++ after = taken ++ left ∧
        (walkBlocks after w).exec s = (.ok w', t) ∧ Comes c target taken d r ∧
        t.node.chain.block? = d.block? := by
  induction after with
  | nil =>
    intro c target before w s comes
    exact ⟨before, [], _, _, w, s, rfl, rfl, comes, rfl⟩
  | cons block rest ih =>
    intro c target before w s comes
    rw [exec_walkBlocks_cons]
    -- The walk stops at this block, or goes on from where the block takes it.
    have hstop (w' : PivotWalk) (t : Seat) (ht : t.node.chain.block? = s.node.chain.block?) :
        ∃ taken left d r v u, before ++ block :: rest = taken ++ left ∧
          (Except.ok (ε := Fault) w', t) = (.ok v, u) ∧ Comes c target taken d r ∧
          u.node.chain.block? = d.block? :=
      ⟨before, block :: rest, _, _, w', t, rfl, rfl, comes, ht⟩
    have hgo (w₁ : PivotWalk) (s₁ : Seat)
        (step : Advance s.node.chain w.required block s₁.node.chain w₁.required) :
        ∃ taken left d r w' t, before ++ block :: rest = taken ++ left ∧
          (walkBlocks rest w₁).exec s₁ = (.ok w', t) ∧ Comes c target taken d r ∧
          t.node.chain.block? = d.block? := by
      rw [List.append_cons]
      exact ih (comes.next step)
    by_cases habove : w.required.number < block.number
    · rw [if_pos habove]
      exact hgo w s (.above habove)
    by_cases hnamed : block.hash = w.required.hash
    · rw [if_neg habove, if_neg (by simpa using hnamed)]
      have hattempt := Chain.fastAttempt_fastImport s.node.chain block
      cases hfast : s.node.chain.fastImport block with
      | mk answer d =>
        rw [hfast] at hattempt
        cases hattempt with
        | failed _ =>
          refine hstop w _ ?_
          rw [chain_reportChainError]
          rfl
        | exist hstored =>
          dsimp only
          cases hmissing : s.node.chain.missingAncestor block with
          | some m => exact hgo { w with required := m } s (.known habove hnamed hstored hmissing)
          | none => exact hstop { w with finished := true } s rfl
        | invalid _ _ => exact hstop w s rfl
        | stored hnew hsealed =>
          exact hgo (w.descend block) (s.storedFast _ block) (.stored hnamed hnew hsealed)
    · rw [if_neg habove, if_pos hnamed]
      exact hstop w s rfl

/-- Walking down a batch never faults, and it stores what the walk over its blocks stores. -/
theorem exists_walkPivotChain (target : BlockId) (batch : BlockBatch) (s : Seat) :
    ∃ next w t u, (walkPivotChain target batch).exec s = (.ok next, t) ∧
      (walkBlocks batch.blocks (.start target)).exec s = (.ok w, u) ∧
      t.node.chain = u.node.chain := by
  obtain ⟨-, -, d, r, w, u, -, hwalk, -, -⟩ :=
    exists_comes_walkBlocks batch.blocks (.start : Comes s.node.chain target [] _ target)
      (w := .start target)
  rw [walkPivotChain, WalkSite.walkPivotChain, walkSite_walkBlocks, Step.exec_bind_of_ok hwalk]
  by_cases hnone : w.transactions.isEmpty
  · exact ⟨_, w, u, u, by rw [if_neg (by simp [hnone])]; rfl, hwalk, rfl⟩
  · refine ⟨_, w, _, u, by rw [if_pos (by simp [hnone])]; rfl, hwalk, ?_⟩
    rfl

/-- A walk stores a block that is not on the branch of its target, by the parents of the blocks as
they are stored afterwards, exactly when it was misled and stored the block that it was sent to, and
that is not on the branch. -/
theorem walkPivotChain_leavesBranch_iff (target : BlockId) (batch : BlockBatch) (s : Seat) :
    ∃ next t, (walkPivotChain target batch).exec s = (.ok next, t) ∧
      ((∃ h, s.node.chain.block? h = none ∧ (t.node.chain.block? h).isSome ∧
          ¬ t.node.chain.OnBranch target.hash h) ↔
        ∃ m, Misled s.node.chain target batch.blocks m ∧ (t.node.chain.block? m.hash).isSome ∧
          ¬ t.node.chain.OnBranch target.hash m.hash) := by
  obtain ⟨next, w, t, u, hrun, hwalk, hchain⟩ := exists_walkPivotChain target batch s
  refine ⟨next, t, hrun, ?_⟩
  obtain ⟨taken, left, d, r, w', u', htaken, hwalk', comes, hblocks⟩ :=
    exists_comes_walkBlocks batch.blocks (.start : Comes s.node.chain target [] _ target)
      (w := .start target)
  rw [hwalk] at hwalk'
  cases hwalk'
  rw [← hchain] at hblocks
  constructor
  · rintro ⟨h, hnew, hstored, off⟩
    have hfinal : d.Within t.node.chain := fun h b hb ↦ by rw [hblocks, hb]
    rw [hblocks] at hstored
    obtain ⟨m, misled, hm, hoff⟩ := (Astray.of_comes comes hfinal).exists_misled hnew hstored off
    refine ⟨m, ?_, by rw [hblocks]; exact hm, hoff⟩
    rw [List.nil_append] at htaken
    rw [htaken]
    exact misled.append left
  · rintro ⟨m, misled, hstored, off⟩
    exact ⟨m.hash, misled.missing, hstored, off⟩

/-! ### A stored hash with another parent -/

/-- A sealed block at a height, on top of no block. -/
def loose (number : UInt64) : Block := .make number .zero 1 0 [] .zero

/-- The hashes of the first block, of two loose blocks and of no block are distinct. -/
theorem nodup_loose :
    [Block.genesis.hash, (loose 1).hash, (loose 2).hash, Digest.zero].Nodup := by
  decide +kernel

/-- The chain of the first block of every chain takes a loose block. -/
theorem exists_fastImport_loose :
    ∃ start c, Chain.new .genesis = .ok start ∧
      start.fastImport (loose 2) = (.ok (.imported false), c) ∧ c.nextFailure = none ∧
      (∀ h, c.block? h = if (loose 2).hash = h then some (loose 2)
        else if Block.genesis.hash = h then some .genesis else none) ∧
      c.totals[(loose 1).hash]? = none ∧ c.totals[Digest.zero]? = none := by
  have hdistinct := nodup_loose
  simp only [List.nodup_cons, List.mem_cons, List.not_mem_nil, or_false, not_or] at hdistinct
  obtain ⟨⟨hne₁, hne₂, hne₀⟩, -⟩ := hdistinct
  obtain ⟨start, hnew, hblocks, htotals, -, -, -, hfail⟩ := Chain.exists_new Chain.room_genesis
  have hblock (h : Digest) :
      start.block? h = if Block.genesis.hash = h then some .genesis else none := by
    rw [Chain.block?, hblocks, Chain.getElem?_insert_block]
    simp
  have htotal (h : Digest) (hh : Block.genesis.hash ≠ h) : start.totals[h]? = none := by
    simp [htotals, hh]
  have hkept : (start.withLoose (loose 2)).totals = start.totals := by
    simp only [Chain.withLoose]
    rw [show (loose 2).parent = Digest.zero from rfl, htotal _ hne₀]
  refine ⟨start, start.withLoose (loose 2), hnew, ?_, hfail, ?_, ?_, ?_⟩
  · exact Chain.fastImport_of_sealed hfail (by rw [hblock, if_neg hne₂])
      (Header.isSealed_sealed _)
  · intro h
    rw [Chain.block?_withLoose, hblock]
  · rw [hkept, htotal _ hne₁]
  · rw [hkept, htotal _ hne₀]

/-- A block that was stored before its parent is sent again with the hash of a block off its branch
as its parent, and that block with it, which is stored. -/
theorem walkPivotChain_leavesBranch_reparented :
    ∃ start c next t, Chain.new .genesis = .ok start ∧
      start.fastImport (loose 2) = (.ok (.imported false), c) ∧
      (walkPivotChain (loose 2).id
        ⟨.ofNat 1, "peer-1", [(loose 2).reparent (loose 1).hash, loose 1]⟩).exec (genesisSeat c) =
          (.ok next, t) ∧
      c.block? (loose 1).hash = none ∧ t.node.chain.block? (loose 1).hash = some (loose 1) ∧
      ¬ t.node.chain.OnBranch (loose 2).hash (loose 1).hash := by
  have hdistinct := nodup_loose
  simp only [List.nodup_cons, List.mem_cons, List.not_mem_nil, or_false, not_or] at hdistinct
  obtain ⟨⟨hne₁, -, hne₀⟩, ⟨hne₁₂, hne₁₀⟩, hne₂₀, -⟩ := hdistinct
  obtain ⟨start, c, hnew, hfast, hfail, hblock, htotal₁, htotal₀⟩ := exists_fastImport_loose
  have hmissing₁ : c.block? (loose 1).hash = none := by
    rw [hblock, if_neg (Ne.symm hne₁₂), if_neg hne₁]
  have hfound : c.block? (loose 2).hash = some (loose 2) := by
    rw [hblock, if_pos rfl]
  have hreparented : c.fastImport ((loose 2).reparent (loose 1).hash) = (.ok .exist, c) := by
    have hsame : ((loose 2).reparent (loose 1).hash).hash = (loose 2).hash := rfl
    exact Chain.fastImport_of_stored hfail (by rw [hsame, hfound]; rfl)
  have hsent : c.missingAncestor ((loose 2).reparent (loose 1).hash) =
      some ⟨(loose 1).hash, 1⟩ := by
    have hparent : ((loose 2).reparent (loose 1).hash).parent = (loose 1).hash := rfl
    have hnumber : ((loose 2).reparent (loose 1).hash).number = 2 := rfl
    rw [Chain.missingAncestor, hparent, hnumber, Chain.missingFrom, htotal₁, hmissing₁]
    rfl
  have hstore : c.fastImport (loose 1) = (.ok (.imported false), c.withLoose (loose 1)) :=
    Chain.fastImport_of_sealed hfail hmissing₁ (Header.isSealed_sealed _)
  obtain ⟨next, w, t, u, hrun, hwalk, hchain⟩ := exists_walkPivotChain (loose 2).id
    ⟨.ofNat 1, "peer-1", [(loose 2).reparent (loose 1).hash, loose 1]⟩ (genesisSeat c)
  have hend : u.node.chain = c.withLoose (loose 1) := by
    have hlow : ¬ (loose 2).id.number < ((loose 2).reparent (loose 1).hash).number :=
      (by decide : ¬ (2 : UInt64) < 2)
    have hlow' : ¬ (1 : UInt64) < (loose 1).number := (by decide : ¬ (1 : UInt64) < 1)
    rw [exec_walkBlocks_cons, PivotWalk.start, if_neg hlow, if_neg (fun h ↦ h rfl)] at hwalk
    rw [show (genesisSeat c).node.chain = c from rfl, hreparented] at hwalk
    dsimp only at hwalk
    rw [hsent] at hwalk
    dsimp only at hwalk
    rw [exec_walkBlocks_cons, if_neg hlow', if_neg (fun h ↦ h rfl)] at hwalk
    rw [show ((genesisSeat c).withChain c).node.chain = c from rfl, hstore] at hwalk
    cases hwalk
    rfl
  rw [hend] at hchain
  refine ⟨start, c, next, t, hnew, hfast, hrun, hmissing₁, ?_, ?_⟩
  · rw [hchain, Chain.block?_withLoose, if_pos rfl]
  · -- The branch of the target is the target and the parent that it is stored with.
    intro hbranch
    have honly {h : Digest} (hh : t.node.chain.OnBranch (loose 2).hash h) :
        h = (loose 2).hash ∨ h = Digest.zero := by
      induction hh with
      | refl => exact .inl rfl
      | tail _ hnames ih =>
        obtain ⟨b, hb, rfl⟩ := hnames
        rw [hchain, Chain.block?_withLoose] at hb
        rcases ih with rfl | rfl
        · rw [if_neg hne₁₂, hfound] at hb
          cases hb
          exact .inr rfl
        · rw [if_neg hne₁₀, hblock, if_neg hne₂₀, if_neg hne₀] at hb
          cases hb
    rcases honly hbranch with h | h
    · exact hne₁₂ h
    · exact hne₁₀ h

end Seat
end ChainSync
