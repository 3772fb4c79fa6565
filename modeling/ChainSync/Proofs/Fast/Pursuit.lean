import ChainSync.Proofs.Fast.Redelivery

/-!
# Which blocks the importer asks for

The importer keeps the block that it requires next. It takes that from the pivot when it has none
and from its walks otherwise, so a pivot that is chosen in between is not looked at until a walk is
over. Main statement: when stored, waiting and chosen blocks name the parents that go with their
hashes, every block asked for is the one that the importer set out from or below it, which is the
pivot unless another one was chosen since. Through a whole run it is at or below a block that was
the pivot by then.
-/

namespace ChainSync

namespace Chain

/-- The hash is that of the block or on the branch of the parent that the block names. -/
def Below (c : Chain) (tip : Block) (h : Digest) : Prop :=
  h = tip.hash ∨ c.OnBranch tip.parent h

def IsHonest (parentOf : Digest → Digest) (c : Chain) : Prop :=
  ∀ ⦃h : Digest⦄ ⦃b : Block⦄, c.block? h = some b → b.parent = parentOf h

variable {parentOf : Digest → Digest} {c d : Chain} {tip block : Block} {h : Digest}

theorem Below.mono (below : c.Below tip h) (hwithin : c.Within d) : d.Below tip h :=
  below.imp_right hwithin.onBranch

/-- The parent of a stored block that is below another one is on the branch of its parent. -/
theorem Below.parent (below : c.Below tip block.hash) (htip : tip.parent = parentOf tip.hash)
    (hblock : block.parent = parentOf block.hash) (honest : c.IsHonest parentOf)
    (stored : (c.block? block.hash).isSome) : c.OnBranch tip.parent block.parent := by
  obtain ⟨b, hb⟩ := Option.isSome_iff_exists.mp stored
  rcases below with hsame | hbranch
  · rw [htip, hblock, hsame]
    exact .refl
  · rw [hblock, ← honest hb]
    exact hbranch.parent hb

theorem IsHonest.withLoose (honest : c.IsHonest parentOf)
    (hblock : block.parent = parentOf block.hash) : (c.withLoose block).IsHonest parentOf := by
  intro k b hb
  rw [block?_withLoose] at hb
  split at hb
  · next heq =>
    cases hb
    rw [hblock, heq]
  · exact honest hb

theorem IsHonest.congr (honest : c.IsHonest parentOf) (h : d.block? = c.block?) :
    d.IsHonest parentOf := fun _ _ hb ↦ honest (h ▸ hb)

end Chain

namespace FastSync

/-- A delivery leaves the pivot, and a batch that waits after it waited before or has blocks of the
one that was delivered. -/
theorem waiting_bufferBlocks (f : FastSync) (batch : BlockBatch) :
    (f.bufferBlocks batch).pivot = f.pivot ∧
      ∀ waiting ∈ (f.bufferBlocks batch).buffer,
        waiting ∈ f.buffer ∨ ∀ b ∈ waiting.blocks, b ∈ batch.blocks := by
  cases htop : topBlock (f.unimported batch) with
  | none =>
    rw [bufferBlocks_of_none htop]
    exact ⟨rfl, fun _ h ↦ .inl h⟩
  | some top =>
    rw [bufferBlocks_eq htop]
    split
    · exact ⟨rfl, fun _ h ↦ .inl h⟩
    · refine ⟨rfl, ?_⟩
      intro waiting hwaiting
      rw [withBatch, List.mem_append, List.mem_singleton] at hwaiting
      rcases hwaiting with hold | rfl
      · left
        split at hold
        · exact hold
        · exact List.mem_of_mem_drop hold
      · right
        exact fun b hb ↦ (List.mem_filter.mp hb).1

/-- Choosing a pivot leaves the batches that wait, and replaces the pivot or leaves it. -/
theorem waiting_updatePivot (f : FastSync) (block : Block) :
    (f.updatePivot block).2.buffer = f.buffer ∧
      ((f.updatePivot block).2.pivot = f.pivot ∨ (f.updatePivot block).2.pivot = some block) := by
  have hforget : f.forgetPivot.buffer = f.buffer := by
    unfold forgetPivot
    cases f.pivot <;> rfl
  unfold updatePivot
  split
  · exact ⟨rfl, .inl rfl⟩
  · dsimp only
    split <;> exact ⟨hforget, .inr rfl⟩

end FastSync

def BlockBatch.IsHonest (parentOf : Digest → Digest) (batch : BlockBatch) : Prop :=
  ∀ b ∈ batch.blocks, b.parent = parentOf b.hash

namespace Seat

/-- Every block that is stored, waits or is the pivot names the parent that goes with its hash. -/
structure Honest (parentOf : Digest → Digest) (s : Seat) : Prop where
  /-- Stored blocks do. -/
  stored : s.node.chain.IsHonest parentOf
  /-- Blocks that wait do. -/
  waiting : ∀ batch ∈ s.engine.fast.buffer, batch.IsHonest parentOf
  /-- The pivot does. -/
  pivot : ∀ p ∈ s.engine.fast.pivot, p.parent = parentOf p.hash

/-! ### What is asked for -/

/-- Between two seats blocks are asked for by such hashes only, the pivot stays, only batches that
wait are taken, and blocks are only added to the chain. -/
structure Seeks (named : Digest → Prop) (s t : Seat) : Prop where
  /-- Blocks are asked for by such hashes only. -/
  asks : Asks named s t
  /-- The pivot stays. -/
  pivot : t.engine.fast.pivot = s.engine.fast.pivot
  /-- A batch that waits waited before. -/
  waiting : ∀ batch ∈ t.engine.fast.buffer, batch ∈ s.engine.fast.buffer
  /-- No block is lost. -/
  within : s.node.chain.Within t.node.chain

section

variable {named : Digest → Prop} {s t u : Seat}

theorem Seeks.refl (s : Seat) : Seeks named s s :=
  ⟨.of_outbox_eq rfl, rfl, fun _ h ↦ h, .refl _⟩

theorem Seeks.trans (h : Seeks named s t) (h' : Seeks named t u) : Seeks named s u where
  asks := h.asks.trans h'.asks
  pivot := h'.pivot.trans h.pivot
  waiting batch hb := h.waiting batch (h'.waiting batch hb)
  within := h.within.trans h'.within

/-- What a part of a turn that is no walk asks for. -/
theorem Steady.seeks (h : Steady named s t) : Seeks named s t :=
  ⟨h.asks, h.pivot, h.waiting, h.within⟩

theorem keeps_seeks {α : Type} {step : Step Seat α} (h : ∀ t, Steady named t (step.leaves t)) :
    Step.Keeps (Seeks named s) step :=
  fun t hst ↦ hst.trans (h t).seeks

end

theorem seeks_walkPivotChain {named : Digest → Prop} (target : BlockId) (batch : BlockBatch)
    (s : Seat) : Seeks named s ((walkPivotChain target batch).leaves s) := by
  have hwalk (w : PivotWalk) : Step.Keeps (Seeks named s) (walkBlocks batch.blocks w) := by
    apply keeps_walkBlocks
    · intro t block answer c h hattempt
      exact h.trans ⟨.of_outbox_eq rfl, rfl, fun _ h ↦ h, hattempt.stores.within⟩
    · intro t block h new
      exact h.trans ⟨.of_outbox_eq rfl, rfl, fun _ h ↦ h, .withLoose new⟩
    · intro t e h
      unfold Node.reportChainError
      split <;> exact h.trans ⟨.of_outbox_eq rfl, rfl, fun _ h ↦ h, .refl _⟩
  have hchain : Step.Keeps (Seeks named s) (walkPivotChain target batch) := by
    apply keeps_walkPivotChain hwalk
    · exact fun _ _ h ↦ h.trans ⟨.of_outbox_eq rfl, rfl, fun _ h ↦ h, .refl _⟩
    · exact fun transactions ↦ keeps_seeks (steady_requestReceipts _ _)
  exact hchain (.refl s)

theorem seeks_walkBuffered {named : Digest → Prop} (now : Millis) (fuel : Nat) (p : PivotProgress)
    (s : Seat) : Seeks named s ((walkBuffered now fuel p).leaves s) := by
  have hkeeps : Step.Keeps (Seeks named s) (walkBuffered now fuel p) := by
    apply keeps_walkBuffered
    · exact keeps_seeks steady_isBlockDataComplete
    · exact fun hash ↦ keeps_seeks (steady_takeContaining hash)
    · exact fun target batch t h ↦ h.trans (seeks_walkPivotChain target batch t)
  exact hkeeps (.refl s)

/-! ### What a walk requires -/

section

variable {parentOf : Digest → Digest} {tip : Block}

/-- Walking down blocks keeps the chain honest, and what is required stays below the block that the
walk set out from. -/
theorem exists_below_walkBlocks (htip : tip.parent = parentOf tip.hash) (blocks : List Block)
    (hblocks : ∀ b ∈ blocks, b.parent = parentOf b.hash) : ∀ {w : PivotWalk} {s : Seat},
    s.node.chain.IsHonest parentOf → s.node.chain.Below tip w.required.hash →
    ∃ w' t, (walkBlocks blocks w).exec s = (.ok w', t) ∧ t.node.chain.IsHonest parentOf ∧
      t.node.chain.Below tip w'.required.hash := by
  induction blocks with
  | nil => exact fun honest below ↦ ⟨_, _, rfl, honest, below⟩
  | cons block rest ih =>
    intro w s honest below
    have hblock := hblocks block List.mem_cons_self
    replace ih := @ih fun b hb ↦ hblocks b (List.mem_cons_of_mem _ hb)
    rw [exec_walkBlocks_cons]
    by_cases habove : w.required.number < block.number
    · rw [if_pos habove]
      exact ih honest below
    by_cases hnamed : block.hash = w.required.hash
    case neg =>
      rw [if_neg habove, if_pos hnamed]
      exact ⟨w, s, rfl, honest, below⟩
    rw [if_neg habove, if_neg (by simpa using hnamed)]
    have hfrom : s.node.chain.Below tip block.hash := hnamed ▸ below
    have hattempt := Chain.fastAttempt_fastImport s.node.chain block
    cases hfast : s.node.chain.fastImport block with
    | mk answer d =>
      rw [hfast] at hattempt
      cases hattempt with
      | failed _ =>
        refine ⟨w, _, rfl, ?_, ?_⟩
        · rw [chain_reportChainError]
          exact honest.congr rfl
        · rw [chain_reportChainError]
          exact below.mono (Chain.within_of_block?_eq rfl)
      | invalid _ _ => exact ⟨w, s, rfl, honest, below⟩
      | exist hstored =>
        dsimp only
        cases hmissing : s.node.chain.missingAncestor block with
        | none => exact ⟨_, s, rfl, honest, below⟩
        | some m =>
          have hbranch := (Chain.missingAncestor_spec hmissing).2
          apply ih (s := s.withChain s.node.chain) honest
          exact .inr ((hfrom.parent htip hblock honest hstored).trans hbranch)
      | stored hnew _ =>
        have hhonest := honest.withLoose hblock
        have hself : ((s.node.chain.withLoose block).block? block.hash).isSome := by
          rw [Chain.block?_withLoose, if_pos rfl]
          rfl
        apply ih (s := s.storedFast _ block) hhonest
        exact .inr ((hfrom.mono (.withLoose hnew)).parent htip hblock hhonest hself)

/-- Walking down a batch keeps the chain honest, and what is required afterwards, if anything is,
stays below the block that the walk set out from. -/
theorem exists_below_walkPivotChain (htip : tip.parent = parentOf tip.hash) {target : BlockId}
    {batch : BlockBatch} (hbatch : batch.IsHonest parentOf) {s : Seat}
    (honest : s.node.chain.IsHonest parentOf) (below : s.node.chain.Below tip target.hash) :
    ∃ next t, (walkPivotChain target batch).exec s = (.ok next, t) ∧
      t.node.chain.IsHonest parentOf ∧ ∀ r ∈ next, t.node.chain.Below tip r.hash := by
  obtain ⟨w, u, hwalk, hhonest, hbelow⟩ :=
    exists_below_walkBlocks htip batch.blocks hbatch (w := .start target) honest below
  have hnext : ∀ r ∈ if w.finished then none else some w.required,
      u.node.chain.Below tip r.hash := by
    intro r hr
    split at hr
    · cases hr
    · cases hr
      exact hbelow
  rw [walkPivotChain, WalkSite.walkPivotChain, walkSite_walkBlocks, Step.exec_bind_of_ok hwalk]
  by_cases hnone : w.transactions.isEmpty
  · exact ⟨_, u, by rw [if_neg (by simp [hnone])]; rfl, hhonest, hnext⟩
  · refine ⟨_, _, by rw [if_pos (by simp [hnone])]; rfl, ?_, ?_⟩
    · exact hhonest
    · exact hnext

end

/-! ### Runs -/

/-- The seats reached with an importer at work, with the block that it set out from last and the
block that it requires next. -/
inductive Pursues (parentOf : Digest → Digest) : Option Block → Option BlockId → Seat → Prop
  /-- The importer requires nothing yet. -/
  | start {s : Seat} (honest : Honest parentOf s) : Pursues parentOf none none s
  /-- It sets out from the pivot. -/
  | setOut {origin : Option Block} {s : Seat} {pivot : Block}
    (run : Pursues parentOf origin none s) (chosen : s.engine.fast.pivot = some pivot) :
    Pursues parentOf (some pivot) (some pivot.id) s
  /-- It walks down a batch. -/
  | walk {origin : Option Block} {target : BlockId} {s t : Seat} {batch : BlockBatch}
    {next : Option BlockId} (run : Pursues parentOf origin (some target) s)
    (honest : batch.IsHonest parentOf)
    (walked : (walkPivotChain target batch).exec s = (.ok next, t)) :
    Pursues parentOf origin next t
  /-- Something else happens; no block is lost, and those that come name their parents. -/
  | other {origin : Option Block} {required : Option BlockId} {s t : Seat}
    (run : Pursues parentOf origin required s) (within : s.node.chain.Within t.node.chain)
    (honest : Honest parentOf t) : Pursues parentOf origin required t

section

variable {parentOf : Digest → Digest} {origin : Option Block} {s t : Seat}

/-- Honest blocks stay so while nothing but the chain grows. -/
theorem Honest.seeks {named : Digest → Prop} (honest : Honest parentOf s) (h : Seeks named s t)
    (stored : t.node.chain.IsHonest parentOf) : Honest parentOf t where
  stored := stored
  waiting batch hb := honest.waiting batch (h.waiting batch hb)
  pivot p hp := honest.pivot p (h.pivot ▸ hp)

/-- A part of a turn that is no walk keeps blocks honest: it stores nothing but the pivot. -/
theorem Honest.steady {named : Digest → Prop} (honest : Honest parentOf s)
    (h : Steady named s t) : Honest parentOf t := by
  apply honest.seeks h.seeks
  intro k b hb
  rcases h.stored hb with hb | ⟨hpivot, rfl⟩
  · exact honest.stored hb
  · exact honest.pivot b hpivot

/-- In a run every block names its parent, and what is required is below the block that the
importer set out from. -/
theorem Pursues.spec {required : Option BlockId} (run : Pursues parentOf origin required s) :
    Honest parentOf s ∧ ∀ r ∈ required, ∃ tip, origin = some tip ∧
      tip.parent = parentOf tip.hash ∧ s.node.chain.Below tip r.hash := by
  induction run with
  | start honest => exact ⟨honest, fun r hr ↦ by cases hr⟩
  | @setOut origin s pivot run chosen ih =>
    refine ⟨ih.1, ?_⟩
    intro r hr
    cases hr
    exact ⟨pivot, rfl, ih.1.pivot pivot chosen, .inl rfl⟩
  | @walk origin target s t batch next run honest walked ih =>
    obtain ⟨hs, hbelow⟩ := ih
    obtain ⟨tip, horigin, htip, below⟩ := hbelow target rfl
    obtain ⟨next', t', hwalk, hhonest, hnext⟩ :=
      exists_below_walkPivotChain htip honest hs.stored below
    rw [walked] at hwalk
    cases hwalk
    have hseeks : Seeks (fun _ ↦ False) s ((walkPivotChain target batch).leaves s) :=
      seeks_walkPivotChain target batch s
    rw [Step.leaves, walked] at hseeks
    exact ⟨hs.seeks hseeks hhonest, fun r hr ↦ ⟨tip, horigin, htip, hnext r hr⟩⟩
  | other run within honest ih =>
    refine ⟨honest, ?_⟩
    intro r hr
    obtain ⟨tip, horigin, htip, below⟩ := ih.2 r hr
    exact ⟨tip, horigin, htip, below.mono within⟩

/-- A part of a turn that is no walk goes on with the run. -/
theorem Pursues.steady {named : Digest → Prop} {required : Option BlockId}
    (run : Pursues parentOf origin required s) (h : Steady named s t) :
    Pursues parentOf origin required t :=
  run.other h.within (run.spec.1.steady h)

/-! ### Turns -/

/-- A batch that is taken is honest. -/
theorem Honest.of_taken (honest : Honest parentOf s) {hash : Digest} {batch : BlockBatch}
    (h : (takeContaining hash).exec s = (.ok (some batch), t)) : batch.IsHonest parentOf := by
  rcases exec_takeContaining hash s with hnone | ⟨held, hheld, hsome⟩
  · rw [hnone] at h
    cases h
  · rw [hsome] at h
    cases h
    exact fun b hb ↦ honest.waiting held hheld b (List.mem_mergeSort.mp hb)

/-- An importer that requires nothing sets out from the pivot, if there is one. -/
theorem Pursues.aim {required : Option BlockId} (run : Pursues parentOf origin required s)
    {target : BlockId} (haim : required.or (s.engine.fast.pivot.map Block.id) = some target) :
    ∃ origin', (origin' = origin ∨ origin' = s.engine.fast.pivot) ∧
      Pursues parentOf origin' (some target) s := by
  cases required with
  | some r =>
    cases haim
    exact ⟨origin, .inl rfl, run⟩
  | none =>
    cases hpivot : s.engine.fast.pivot with
    | none =>
      rw [hpivot] at haim
      cases haim
    | some pivot =>
      rw [hpivot] at haim
      cases haim
      exact ⟨some pivot, .inr rfl, run.setOut hpivot⟩

/-- What the first pass over the batches that wait does, when the walks answer. -/
inductive Passes (now : Millis) (p : PivotProgress) (s : Seat) (need : PivotNeed)
    (q : PivotProgress) (u : Seat) : Nat → Prop
  /-- There is no block to look for. -/
  | rests {fuel : Nat} {done : Bool} (checked : isBlockDataComplete.exec s = (.ok done, u))
    (same : q = p) (idle : ∀ target, need ≠ .blocks target) : Passes now p s need q u fuel
  /-- No batch holds the block that is looked for. -/
  | waits {fuel : Nat} {done : Bool} {target : BlockId}
    (checked : isBlockDataComplete.exec s = (.ok done, u))
    (aim : p.required.or (u.engine.fast.pivot.map Block.id) = some target)
    (asks : need = .blocks target) (requires : q.required = some target) :
    Passes now p s need q u fuel
  /-- A batch that holds it is walked down, and further passes follow. -/
  | walks {fuel : Nat} {done : Bool} {t v w : Seat} {target : BlockId} {batch : BlockBatch}
    {next : PivotProgress} (checked : isBlockDataComplete.exec s = (.ok done, t))
    (aim : p.required.or (t.engine.fast.pivot.map Block.id) = some target)
    (taken : (takeContaining target.hash).exec t = (.ok (some batch), v))
    (walked : (walkPivotChain target batch).exec v = (.ok next.required, w))
    (rest : (walkBuffered now fuel next).exec w = (.ok (need, q), u)) :
    Passes now p s need q u (fuel + 1)

/-- Taking no batch leaves the seat. -/
theorem exec_takeContaining_none {hash : Digest}
    (h : (takeContaining hash).exec s = (.ok none, t)) : t = s := by
  rcases exec_takeContaining hash s with hnone | ⟨held, -, hsome⟩
  · rw [hnone] at h
    cases h
    rfl
  · rw [hsome] at h
    cases h

/-- Walks over the batches that wait start with one of these passes. -/
theorem passes_of_walkBuffered {now : Millis} {fuel : Nat} {p q : PivotProgress} {need : PivotNeed}
    {u : Seat} (h : (walkBuffered now fuel p).exec s = (.ok (need, q), u)) :
    Passes now p s need q u fuel := by
  unfold walkBuffered at h
  obtain ⟨done, t, hcheck, h⟩ := Step.exists_exec_of_bind h
  rw [Step.exec_bind_of_ok (Step.exec_get t)] at h
  dsimp only at h
  split at h
  · cases h
    refine .rests hcheck rfl ?_
    intro target
    split <;> simp
  · split at h
    · cases h
      exact .rests hcheck rfl fun target ↦ by simp
    · next target haim =>
      cases fuel with
      | zero =>
        cases h
        exact .waits hcheck haim rfl rfl
      | succ fuel =>
        obtain ⟨taken, v, htake, h⟩ := Step.exists_exec_of_bind h
        cases taken with
        | none =>
          cases h
          rw [exec_takeContaining_none htake]
          exact .waits hcheck haim rfl rfl
        | some batch =>
          obtain ⟨next, w, hwalk, h⟩ := Step.exists_exec_of_bind h
          exact .walks hcheck haim htake hwalk h

/-- Walking down the batches that wait goes on with the run, and what is to be asked for is what is
required then. -/
theorem Pursues.walkBuffered {now : Millis} {fuel : Nat} {p q : PivotProgress} {need : PivotNeed}
    {u : Seat} (run : Pursues parentOf origin p.required s)
    (h : (walkBuffered now fuel p).exec s = (.ok (need, q), u)) :
    ∃ origin', (origin' = origin ∨ origin' = s.engine.fast.pivot) ∧
      Pursues parentOf origin' q.required u ∧
      ∀ target, need = .blocks target → q.required = some target := by
  -- After block data was checked the run goes on, with the same pivot.
  have hchecked {p : PivotProgress} {origin : Option Block} {s t : Seat} {done : Bool}
      (run : Pursues parentOf origin p.required s)
      (checked : isBlockDataComplete.exec s = (.ok done, t)) :
      Pursues parentOf origin p.required t ∧ t.engine.fast.pivot = s.engine.fast.pivot := by
    have hsteady : Steady (fun _ ↦ False) s (isBlockDataComplete.leaves s) :=
      steady_isBlockDataComplete s
    rw [Step.leaves, checked] at hsteady
    exact ⟨run.steady hsteady, hsteady.pivot⟩
  induction fuel using Nat.strongRecOn generalizing p origin s with
  | ind fuel ih =>
    cases passes_of_walkBuffered h with
    | rests checked same idle =>
      subst same
      exact ⟨origin, .inl rfl, (hchecked run checked).1, fun target hneed ↦ absurd hneed (idle _)⟩
    | waits checked aim asks requires =>
      obtain ⟨run', hpivot⟩ := hchecked run checked
      obtain ⟨origin', horigin, hrun⟩ := run'.aim aim
      rw [hpivot] at horigin
      subst asks
      exact ⟨origin', horigin, requires ▸ hrun, fun target hneed ↦ by cases hneed; exact requires⟩
    | @walks fuel _ t v w target batch next checked aim taken walked rest =>
      obtain ⟨run', hpivot⟩ := hchecked run checked
      obtain ⟨origin₁, horigin₁, hrun⟩ := run'.aim aim
      have hbatch := run'.spec.1.of_taken taken
      have htake : Steady (fun _ ↦ False) t ((takeContaining target.hash).leaves t) :=
        steady_takeContaining target.hash t
      have hwalk : Seeks (fun _ ↦ False) v ((walkPivotChain target batch).leaves v) :=
        seeks_walkPivotChain target batch v
      rw [Step.leaves, taken] at htake
      rw [Step.leaves, walked] at hwalk
      have hnext : Pursues parentOf origin₁ next.required w :=
        (hrun.steady htake).walk hbatch walked
      obtain ⟨origin', horigin', hlast⟩ := ih fuel (Nat.lt_succ_self fuel) hnext rest
      refine ⟨origin', ?_, hlast⟩
      rw [hpivot] at horigin₁
      rw [hwalk.pivot, htake.pivot, hpivot] at horigin'
      rcases horigin' with rfl | h
      · exact horigin₁
      · exact .inr h

/-- A turn of the importer goes on with the run. It asks for blocks only that are below the one that
the importer set out from last, and that is the one before or the pivot. -/
theorem Pursues.turnPivotBlocks {p : PivotProgress} (run : Pursues parentOf origin p.required s)
    (t : Turn) :
    ∃ origin', (origin' = origin ∨ origin' = s.engine.fast.pivot) ∧
      Asks (fun h ↦ ∃ tip, origin' = some tip ∧
          ((turnPivotBlocks t p).leaves s).node.chain.Below tip h)
        s ((turnPivotBlocks t p).leaves s) ∧
      ∀ q pause u, (turnPivotBlocks t p).exec s = (.ok (.pauses (.pivotBlocks q) pause), u) →
        Pursues parentOf origin' q.required u := by
  have hseeks : Seeks (fun _ ↦ False) s
      ((Seat.walkBuffered t.now s.engine.fast.buffer.length p).leaves s) :=
    seeks_walkBuffered t.now s.engine.fast.buffer.length p s
  rw [Step.leaves] at hseeks
  cases hwalk : (Seat.walkBuffered t.now s.engine.fast.buffer.length p).exec s with
  | mk r u =>
    rw [hwalk] at hseeks
    cases r with
    | error e =>
      rw [Step.leaves, exec_turnPivotBlocks, hwalk]
      exact ⟨origin, .inl rfl, hseeks.asks.mono fun _ h ↦ h.elim, fun q pause v h ↦ by cases h⟩
    | ok answer =>
      obtain ⟨need, q⟩ := answer
      obtain ⟨origin', horigin, hrun, hneed⟩ := run.walkBuffered hwalk
      obtain ⟨hsteady, hsame⟩ := steady_of_walkBuffered hwalk
      refine ⟨origin', horigin, ?_, ?_⟩
      · apply (hseeks.asks.mono fun _ h ↦ h.elim).trans
        apply hsteady.asks.mono
        rintro k ⟨target, hblocks, rfl⟩
        obtain ⟨tip, htip, -, below⟩ := hrun.spec.2 target (hneed target hblocks)
        exact ⟨tip, htip, below.mono hsteady.within⟩
      · intro q' pause v h
        rw [Step.leaves, h] at hsteady
        rw [hsame q' pause v h]
        exact hrun.steady hsteady

/-! ### What else happens -/

/-- A batch of blocks that name their parents is delivered. -/
theorem Pursues.deliver {required : Option BlockId} (run : Pursues parentOf origin required s)
    {batch : BlockBatch} (hbatch : batch.IsHonest parentOf) :
    Pursues parentOf origin required ((onFast fun f ↦ f.bufferBlocks batch).leaves s) := by
  have honest := run.spec.1
  obtain ⟨hpivot, hbuffer⟩ := s.engine.fast.waiting_bufferBlocks batch
  refine run.other (.refl _) ⟨honest.stored, ?_, ?_⟩
  · intro waiting hwaiting
    rcases hbuffer waiting hwaiting with hold | hblocks
    · exact honest.waiting waiting hold
    · exact fun b hb ↦ hbatch b (hblocks b hb)
  · intro pivot hchosen
    exact honest.pivot pivot (hpivot ▸ hchosen)

/-- A block that names its parent is chosen as pivot. -/
theorem Pursues.choosePivot {required : Option BlockId} (run : Pursues parentOf origin required s)
    {block : Block} (hblock : block.parent = parentOf block.hash) :
    Pursues parentOf origin required ((choosePivot block).leaves s) := by
  have honest := run.spec.1
  obtain ⟨hbuffer, hpivot⟩ := s.engine.fast.waiting_updatePivot block
  refine run.other (.refl _) ⟨honest.stored, ?_, ?_⟩
  · intro waiting hwaiting
    exact honest.waiting waiting (hbuffer ▸ hwaiting)
  · intro pivot hchosen
    rcases hpivot with hold | hnew
    · exact honest.pivot pivot (hold ▸ hchosen)
    · obtain rfl : block = pivot := Option.some.inj (hnew.symm.trans hchosen)
      exact hblock

end

end Seat

/-! ### Runs of events -/

/-- A seat, and how far the importer is that works there, unless it has ended. -/
structure Pursuit where
  /-- The seat. -/
  seat : Seat
  /-- How far the importer is. -/
  progress : Option PivotProgress

/-- Something that happens while an importer is at work. -/
inductive PursuitEvent where
  /-- The importer takes a turn. -/
  | turn (t : Turn)
  /-- A batch of blocks is delivered. -/
  | deliver (batch : BlockBatch)
  /-- A block is chosen as pivot. -/
  | choose (block : Block)

namespace PursuitEvent

open Seat (turnPivotBlocks onFast choosePivot)

def IsHonest (parentOf : Digest → Digest) : PursuitEvent → Prop
  | turn _ => True
  | deliver batch => batch.IsHonest parentOf
  | choose block => block.parent = parentOf block.hash

/-- How far an importer is after a turn: it ends with a turn that ends or faults. -/
def progressAfter : Except Fault TurnEnd → Option PivotProgress
  | .ok (.pauses (.pivotBlocks q) _) => some q
  | _ => none

/-- What an event leaves. An importer that has ended takes no turns. -/
def act : PursuitEvent → Pursuit → Pursuit
  | turn t, ⟨s, some p⟩ =>
    ⟨(turnPivotBlocks t p).leaves s, progressAfter ((turnPivotBlocks t p).exec s).1⟩
  | turn _, ⟨s, none⟩ => ⟨s, none⟩
  | deliver batch, ⟨s, progress⟩ => ⟨(onFast fun f ↦ f.bufferBlocks batch).leaves s, progress⟩
  | choose block, ⟨s, progress⟩ => ⟨(choosePivot block).leaves s, progress⟩

end PursuitEvent

namespace Pursuit

open Seat (Asks Pursues)

variable {parentOf : Digest → Digest} {w : Pursuit} {events : List PursuitEvent}

def afterFirst (w : Pursuit) (events : List PursuitEvent) (count : Nat) : Pursuit :=
  (events.take count).foldl (fun v event ↦ event.act v) w

/-- An importer that is at work set out last from one of these blocks. -/
def SetOutFrom (parentOf : Digest → Digest) (origins : Block → Prop) (w : Pursuit) : Prop :=
  ∀ p, w.progress = some p →
    ∃ origin : Option Block, (∀ tip ∈ origin, origins tip) ∧
      Pursues parentOf origin p.required w.seat

variable {origins : Block → Prop}

theorem SetOutFrom.mono {weaker : Block → Prop} (h : w.SetOutFrom parentOf origins)
    (himp : ∀ tip, origins tip → weaker tip) : w.SetOutFrom parentOf weaker := by
  intro p hp
  obtain ⟨origin, horigin, run⟩ := h p hp
  exact ⟨origin, fun tip htip ↦ himp tip (horigin tip htip), run⟩

/-- An event asks for blocks only that are at or below one of the blocks that the importer may have
set out from, if the pivot is one of these, and it sets out from no other one. -/
theorem SetOutFrom.act (h : w.SetOutFrom parentOf origins) {event : PursuitEvent}
    (honest : event.IsHonest parentOf) (pivot : ∀ tip ∈ w.seat.engine.fast.pivot, origins tip) :
    (event.act w).SetOutFrom parentOf origins ∧
      Asks (fun k ↦ ∃ tip, origins tip ∧ (event.act w).seat.node.chain.Below tip k) w.seat
        (event.act w).seat := by
  obtain ⟨s, progress⟩ := w
  cases event with
  | turn t =>
    cases progress with
    | none => exact ⟨h, .of_outbox_eq rfl⟩
    | some p =>
      obtain ⟨origin, horigin, run⟩ := h p rfl
      obtain ⟨origin', hsame, hasks, hgoes⟩ := run.turnPivotBlocks t
      have horigin' : ∀ tip ∈ origin', origins tip := by
        rcases hsame with rfl | rfl
        · exact horigin
        · exact pivot
      constructor
      · intro q hq
        refine ⟨origin', horigin', ?_⟩
        simp only [PursuitEvent.act, Step.leaves] at hq ⊢
        cases hturn : (Seat.turnPivotBlocks t p).exec s with
        | mk answer u =>
          rw [hturn] at hq
          dsimp only at hq ⊢
          unfold PursuitEvent.progressAfter at hq
          split at hq
          · cases hq
            exact hgoes _ _ _ hturn
          · cases hq
      · apply hasks.mono
        rintro k ⟨tip, htip, below⟩
        exact ⟨tip, horigin' tip htip, below⟩
  | deliver batch =>
    constructor
    · intro p hp
      obtain ⟨origin, horigin, run⟩ := h p hp
      exact ⟨origin, horigin, run.deliver honest⟩
    · exact .of_outbox_eq rfl
  | choose block =>
    constructor
    · intro p hp
      obtain ⟨origin, horigin, run⟩ := h p hp
      exact ⟨origin, horigin, run.choosePivot honest⟩
    · exact .of_outbox_eq rfl

/-- In a run of events the importer sets out from the block that it set out from before and from
blocks that were the pivot only, and every event asks for blocks only that are at or below these. -/
theorem setOutFrom_afterFirst {origin : Option Block} {p : PivotProgress} {s : Seat}
    (run : Pursues parentOf origin p.required s)
    (honest : ∀ event ∈ events, event.IsHonest parentOf) (n : Nat) :
    let after := afterFirst ⟨s, some p⟩ events
    let origins (n : Nat) (tip : Block) : Prop :=
      origin = some tip ∨ ∃ i < n, (after i).seat.engine.fast.pivot = some tip
    (after n).SetOutFrom parentOf (origins n) ∧
      Asks (fun h ↦ ∃ tip, origins (n + 1) tip ∧ (after (n + 1)).seat.node.chain.Below tip h)
        (after n).seat (after (n + 1)).seat := by
  intro after origins
  have hmore {n : Nat} {tip : Block} (h : origins n tip) : origins (n + 1) tip := by
    refine h.imp_right ?_
    rintro ⟨i, hi, hpivot⟩
    exact ⟨i, Nat.lt_succ_of_lt hi, hpivot⟩
  have hstep {n : Nat} (h : (after n).SetOutFrom parentOf (origins n)) :
      (after (n + 1)).SetOutFrom parentOf (origins (n + 1)) ∧
        Asks (fun h ↦ ∃ tip, origins (n + 1) tip ∧ (after (n + 1)).seat.node.chain.Below tip h)
          (after n).seat (after (n + 1)).seat := by
    have hset := h.mono fun _ ↦ hmore
    cases hevent : events[n]? with
    | none =>
      have hsame : after (n + 1) = after n := foldl_take_succ_of_none hevent ..
      rw [hsame]
      exact ⟨hset, .of_outbox_eq rfl⟩
    | some event =>
      have hnext : after (n + 1) = event.act (after n) := foldl_take_succ hevent ..
      rw [hnext]
      refine hset.act (honest event (List.mem_of_getElem? hevent)) fun tip htip ↦ ?_
      exact .inr ⟨n, Nat.lt_succ_self n, htip⟩
  have hrun : (after n).SetOutFrom parentOf (origins n) := by
    induction n with
    | zero =>
      intro q hq
      cases hq
      exact ⟨origin, fun tip htip ↦ .inl htip, run⟩
    | succ n ih => exact (hstep ih).1
  exact ⟨hrun, (hstep hrun).2⟩

end Pursuit

namespace Seat

/-- In a run a turn of the importer asks for blocks only that are below the one that the importer
set out from last. That is the pivot if the importer requires nothing or set out from the pivot that
there is, and then every block asked for is the pivot or below it. Whatever turns, deliveries of
blocks that name their parents and choices of such blocks as pivot follow, each of these events asks
for blocks only that are at or below a block that was the pivot by then, or the one that the
importer set out from before them. -/
theorem asks_below_origin {parentOf : Digest → Digest} {origin : Option Block} {s : Seat}
    {p : PivotProgress} (run : Pursues parentOf origin p.required s) :
    (∀ t : Turn,
      (∃ origin', (origin' = origin ∨ origin' = s.engine.fast.pivot) ∧
        Asks (fun h ↦ ∃ tip, origin' = some tip ∧
            ((Seat.turnPivotBlocks t p).leaves s).node.chain.Below tip h)
          s ((Seat.turnPivotBlocks t p).leaves s) ∧
        ∀ q pause u,
          (Seat.turnPivotBlocks t p).exec s = (.ok (.pauses (.pivotBlocks q) pause), u) →
          Pursues parentOf origin' q.required u) ∧
      (p.required = none ∨ origin = s.engine.fast.pivot →
        Asks (fun h ↦ ∃ pivot, s.engine.fast.pivot = some pivot ∧
            ((Seat.turnPivotBlocks t p).leaves s).node.chain.Below pivot h)
          s ((Seat.turnPivotBlocks t p).leaves s))) ∧
    ∀ events : List PursuitEvent, (∀ event ∈ events, event.IsHonest parentOf) → ∀ n,
      let after := Pursuit.afterFirst ⟨s, some p⟩ events
      Asks (fun h ↦ ∃ tip,
          (origin = some tip ∨ ∃ i ≤ n, (after i).seat.engine.fast.pivot = some tip) ∧
            (after (n + 1)).seat.node.chain.Below tip h)
        (after n).seat (after (n + 1)).seat := by
  refine ⟨fun t ↦ ⟨run.turnPivotBlocks t, ?_⟩, ?_⟩
  · rintro (hnone | hsame)
    · -- An importer that requires nothing is as good as one that did not set out yet.
      have hstart : Pursues parentOf none p.required s := hnone ▸ .start run.spec.1
      obtain ⟨origin', horigin, hasks, -⟩ := hstart.turnPivotBlocks t
      apply hasks.mono
      rintro k ⟨tip, htip, below⟩
      rcases horigin with rfl | rfl
      · cases htip
      · exact ⟨tip, htip, below⟩
    · obtain ⟨origin', horigin, hasks, -⟩ := run.turnPivotBlocks t
      apply hasks.mono
      rintro k ⟨tip, htip, below⟩
      rcases horigin with rfl | rfl
      · exact ⟨tip, hsame ▸ htip, below⟩
      · exact ⟨tip, htip, below⟩
  · intro events honest n after
    obtain ⟨-, hasks⟩ := Pursuit.setOutFrom_afterFirst run honest n
    apply hasks.mono
    rintro k ⟨tip, htip, below⟩
    refine ⟨tip, htip.imp_right ?_, below⟩
    rintro ⟨i, hi, hpivot⟩
    exact ⟨i, Nat.le_of_lt_succ hi, hpivot⟩

/-! ### A pivot chosen while another one is required -/

open Chain (sprout)

/-- The parent that goes with the hash of the first block, and of a child of it. -/
def sproutParent (h : Digest) : Digest :=
  if h = Block.genesis.hash then Block.genesis.parent else Block.genesis.hash

/-- The seat with a child of the first block as pivot, and with a peer. -/
def equipped (c : Chain) : Seat :=
  { pursuing c with
    node :=
      { (pursuing c).node with
        registry := Registry.empty.upsert (.ofNat 1) ⟨9, 9, "peer-1"⟩ } }

def turnAt (now : Millis) : Turn := ⟨0, now, now, false⟩

def aimed (c : Chain) : Seat := (turnPivotBlocks (turnAt 0) .start).leaves (equipped c)

def aimedAt : PivotProgress := ⟨some (sprout 0).id, some 0, none⟩

/-- The seat after another child of the first block was chosen as pivot. -/
def retargeted (c : Chain) : Seat := (choosePivot (sprout 1)).leaves (aimed c)

/-- The message that asks for the first of the children and what is below it. -/
def sproutRequest : Outbound := ⟨.ofNat 1, .requestBlocks (.hash (sprout 0).hash) 40 true⟩

/-- The hashes of the first block and of two children of it are distinct. -/
theorem hash_sprout_ne : Block.genesis.hash ≠ (sprout 0).hash ∧
    Block.genesis.hash ≠ (sprout 1).hash ∧ (sprout 0).hash ≠ (sprout 1).hash := by
  have hdistinct := Chain.nodup_sprout
  simp only [List.nodup_cons, List.mem_cons, List.not_mem_nil, or_false, not_or] at hdistinct
  obtain ⟨⟨hne₀, hne₁, -⟩, ⟨hne, -⟩, -⟩ := hdistinct
  exact ⟨hne₀, hne₁, hne⟩

/-- The child of the first block names its parent. -/
theorem parent_sprout {timestamp : UInt64} (hne : Block.genesis.hash ≠ (sprout timestamp).hash) :
    (sprout timestamp).parent = sproutParent (sprout timestamp).hash := by
  rw [sproutParent, if_neg (Ne.symm hne)]
  rfl

/-- What the seats are over the chain of the first block of every chain. -/
theorem exists_retargeted : ∃ c, Chain.new .genesis = .ok c ∧
    ((turnPivotBlocks (turnAt 0) .start).exec (equipped c)).1.toOption =
      some (.pauses (.pivotBlocks aimedAt) (.until 1000)) ∧
    (aimed c).node.registry.outbox = [sproutRequest] ∧
    (equipped c).engine.fast.pivot = some (sprout 0) ∧
    (retargeted c).engine.fast.pivot = some (sprout 1) ∧
    let t := (turnPivotBlocks (turnAt 1000) aimedAt).leaves (retargeted c)
    t.node.registry.outbox = sproutRequest :: (retargeted c).node.registry.outbox ∧
      t.node.chain.block? Block.genesis.hash = some .genesis ∧
      t.node.chain.block? Block.genesis.parent = none ∧
      (sprout 0).hash ≠ Block.genesis.parent := by
  obtain ⟨c, hnew, hrun⟩ := exists_genesis_of_any (fun c ↦
    decide (((turnPivotBlocks (turnAt 0) .start).exec (equipped c)).1.toOption =
        some (.pauses (.pivotBlocks aimedAt) (.until 1000)) ∧
      (aimed c).node.registry.outbox = [sproutRequest] ∧
      (equipped c).engine.fast.pivot = some (sprout 0) ∧
      (retargeted c).engine.fast.pivot = some (sprout 1) ∧
      let t := (turnPivotBlocks (turnAt 1000) aimedAt).leaves (retargeted c)
      t.node.registry.outbox = sproutRequest :: (retargeted c).node.registry.outbox ∧
        t.node.chain.block? Block.genesis.hash = some .genesis ∧
        t.node.chain.block? Block.genesis.parent = none ∧
        (sprout 0).hash ≠ Block.genesis.parent)) (by decide +kernel)
  exact ⟨c, hnew, of_decide_eq_true hrun⟩

/-- Over the chain of the first block the importer requires nothing yet. -/
theorem pursues_equipped {c : Chain} (hnew : Chain.new .genesis = .ok c) :
    Pursues sproutParent none none (equipped c) := by
  have hstored : c.IsHonest sproutParent := by
    obtain ⟨d, hd, hblocks, -⟩ := Chain.exists_new Chain.room_genesis
    obtain rfl : d = c := Except.ok.inj (hd.symm.trans hnew)
    intro h b hb
    rw [Chain.block?, hblocks, Chain.getElem?_insert_block] at hb
    split at hb
    · next heq =>
      cases hb
      rw [sproutParent, if_pos heq.symm]
    · simp at hb
  have hfetching : Honest sproutParent (fetching c) :=
    ⟨hstored, List.forall_mem_nil _, fun p hp ↦ by cases hp⟩
  have hpursuing := (Pursues.start hfetching).choosePivot (parent_sprout hash_sprout_ne.1)
  obtain ⟨honest, -⟩ := hpursuing.spec
  exact hpursuing.other (.refl _) ⟨honest.stored, honest.waiting, honest.pivot⟩

/-- The first turn asks for the pivot. -/
theorem asks_below_origin_equipped : ∃ c, Chain.new .genesis = .ok c ∧
    (aimed c).node.registry.outbox = [sproutRequest] ∧
    Asks (fun h ↦ ∃ pivot, (equipped c).engine.fast.pivot = some pivot ∧
      (aimed c).node.chain.Below pivot h) (equipped c) (aimed c) := by
  obtain ⟨c, hnew, -, hsent, -⟩ := exists_retargeted
  exact ⟨c, hnew, hsent, ((asks_below_origin (p := .start) (pursues_equipped hnew)).1
    (turnAt 0)).2 (.inl rfl)⟩

/-- After that turn another block is the pivot, and the importer still requires the first one. -/
theorem pursues_retargeted {c : Chain} (hnew : Chain.new .genesis = .ok c)
    (hturn : ((turnPivotBlocks (turnAt 0) .start).exec (equipped c)).1.toOption =
      some (.pauses (.pivotBlocks aimedAt) (.until 1000)))
    (hpivot : (equipped c).engine.fast.pivot = some (sprout 0)) :
    Pursues sproutParent (some (sprout 0)) aimedAt.required (retargeted c) := by
  have hexec : (turnPivotBlocks (turnAt 0) .start).exec (equipped c) =
      (.ok (.pauses (.pivotBlocks aimedAt) (.until 1000)), aimed c) := by
    rw [aimed, Step.leaves]
    cases hrun : (turnPivotBlocks (turnAt 0) .start).exec (equipped c) with
    | mk r u =>
      rw [hrun] at hturn
      cases r with
      | error e => cases hturn
      | ok answer =>
        cases hturn
        rfl
  obtain ⟨origin', horigin, -, hgoes⟩ :=
    Pursues.turnPivotBlocks (p := .start) (pursues_equipped hnew) (turnAt 0)
  have haimed := hgoes _ _ _ hexec
  -- It requires a block now, so it set out from the pivot.
  obtain ⟨tip, htip, -⟩ := haimed.spec.2 (sprout 0).id rfl
  have hset : origin' = some (sprout 0) := by
    rcases horigin with h | h
    · rw [h] at htip
      cases htip
    · rw [h, hpivot]
  exact (hset ▸ haimed).choosePivot (parent_sprout hash_sprout_ne.2.1)

/-- The branch of the first block ends with the parent that it names. -/
theorem eq_of_onBranch_genesis {c : Chain} (hfirst : c.block? Block.genesis.hash = some .genesis)
    (hend : c.block? Block.genesis.parent = none) {h : Digest}
    (hbranch : c.OnBranch Block.genesis.hash h) :
    h = Block.genesis.hash ∨ h = Block.genesis.parent := by
  induction hbranch with
  | refl => exact .inl rfl
  | tail _ hnames ih =>
    obtain ⟨b, hb, rfl⟩ := hnames
    rcases ih with rfl | rfl
    · rw [hfirst] at hb
      cases hb
      exact .inr rfl
    · rw [hend] at hb
      cases hb

/-- With another child of the first block as pivot, the importer still asks for the one that was the
pivot before, which is neither the pivot nor below it. -/
theorem exists_asked_off_pivot : ∃ c, Chain.new .genesis = .ok c ∧
    Pursues sproutParent (some (sprout 0)) aimedAt.required (retargeted c) ∧
    (retargeted c).engine.fast.pivot = some (sprout 1) ∧
    ¬ Asks (fun h ↦ ∃ pivot, (retargeted c).engine.fast.pivot = some pivot ∧
        ((turnPivotBlocks (turnAt 1000) aimedAt).leaves (retargeted c)).node.chain.Below pivot h)
      (retargeted c) ((turnPivotBlocks (turnAt 1000) aimedAt).leaves (retargeted c)) := by
  obtain ⟨c, hnew, hturn, -, hpivot, hpivot', hsent, hfirst, hend, hzero⟩ := exists_retargeted
  refine ⟨c, hnew, pursues_retargeted hnew hturn hpivot, hpivot', ?_⟩
  rintro ⟨sent, houtbox, hasked⟩
  have hone : sent = [sproutRequest] := by
    rw [hsent] at houtbox
    exact (List.append_cancel_right houtbox).symm
  obtain ⟨h, hstart, pivot, hchosen, below⟩ :=
    hasked sproutRequest (by rw [hone]; exact List.mem_singleton_self _) _ _ _ rfl
  cases hstart
  rw [hpivot'] at hchosen
  cases hchosen
  obtain ⟨hne₀, -, hne⟩ := hash_sprout_ne
  rcases below with hsame | hbranch
  · exact hne hsame
  · rcases eq_of_onBranch_genesis hfirst hend hbranch with h | h
    · exact hne₀ h.symm
    · exact hzero h

end Seat
end ChainSync
