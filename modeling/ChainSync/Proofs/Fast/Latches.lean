import ChainSync.Proofs.Fast.Completion
import ChainSync.Proofs.Fast.Roots

/-!
# A pivot is promoted once

Two latches end fast synchronisation: block data is complete, and everything is. Block data becomes
complete in one check, which promotes the pivot; every other call only hands blocks and trie nodes
to the chain. The latch is set before the pivot is made the best block, and that faults for a block
at the last height. The chain is then neither corrected nor flushed, and no later check makes up for
it.
-/

namespace ChainSync

/-! ### What is handed to a chain -/

namespace Chain

/-- A block or a trie node is handed to a chain for fast synchronisation. -/
inductive Collects (c : Chain) : Chain → Prop
  /-- A block is handed over, whether or not its parent is stored. -/
  | block (block : Block) : Collects c (c.fastImport block).2
  /-- A trie node is handed over. -/
  | node (key : Digest) (value : Bytes) (trie : Trie) :
    Collects c (c.importTrieNode key value trie).2

variable {c d : Chain}

/-- Blocks and trie nodes that are handed over leave the best block and the counters alone. -/
theorem Collects.standing_eq (h : Collects c d) : d.standing = c.standing := by
  cases h with
  | block block =>
    have hattempt := fastAttempt_fastImport c block
    generalize c.fastImport block = handed at hattempt
    obtain ⟨answer, d⟩ := handed
    cases hattempt <;> rfl
  | node key value trie =>
    unfold importTrieNode
    split
    · rfl
    split
    · rfl
    split
    · rfl
    dsimp only
    split <;> rfl

/-- So does any number of them. -/
theorem standing_of_collects (h : Relation.ReflTransGen Collects c d) :
    d.standing = c.standing := by
  induction h with
  | refl => rfl
  | tail _ step ih => exact step.standing_eq.trans ih

end Chain

/-! ### What goes on between promotions -/

namespace FastSync

/-- Fast synchronisation is not in use, or everything was complete once. -/
def hasEnded (f : FastSync) : Bool := !f.enabled || f.complete

/-- Block data is as complete as before and the pivot stays once it is, and what has ended stays
ended. -/
structure GoesOn (f g : FastSync) : Prop where
  /-- The latch of block data stays as it was. -/
  latch : g.blocksComplete = f.blocksComplete
  /-- The pivot stays once block data is complete. -/
  pivot : f.blocksComplete = true → g.pivot = f.pivot
  /-- What has ended stays ended. -/
  ended : f.hasEnded = true → g.hasEnded = true

variable {f g h : FastSync}

theorem GoesOn.refl (f : FastSync) : f.GoesOn f := ⟨rfl, fun _ ↦ rfl, id⟩

theorem GoesOn.trans (hg : f.GoesOn g) (hh : g.GoesOn h) : f.GoesOn h where
  latch := hh.latch.trans hg.latch
  pivot latched := (hh.pivot (hg.latch.trans latched)).trans (hg.pivot latched)
  ended before := hh.ended (hg.ended before)

theorem goesOn_updatePivot (f : FastSync) (block : Block) : f.GoesOn (f.updatePivot block).2 := by
  cases hlatch : f.blocksComplete with
  | true =>
    rw [updatePivot_of_complete hlatch]
    exact .refl f
  | false =>
    have hforget : f.forgetPivot.blocksComplete = false ∧ f.forgetPivot.hasEnded = f.hasEnded := by
      unfold forgetPivot
      split <;> exact ⟨hlatch, rfl⟩
    have hchosen : (f.updatePivot block).2.blocksComplete = false ∧
        (f.updatePivot block).2.hasEnded = f.hasEnded := by
      rw [updatePivot, if_neg (by rw [hlatch]; exact Bool.false_ne_true)]
      dsimp only
      split <;> exact hforget
    refine ⟨hchosen.1.trans hlatch.symm, fun latched ↦ ?_, fun ended ↦ hchosen.2.trans ended⟩
    rw [hlatch] at latched
    cases latched

theorem goesOn_handleFailure (f : FastSync) (key : Digest) (trie : Trie) (peer : PeerId)
    (name : String) (reason : FailureReason) :
    f.GoesOn (f.handleFailure key trie peer name reason) := by
  obtain ⟨failure, hsame | ⟨-, chosen, -, -, -, hmoved⟩⟩ :=
    f.exists_handleFailure key trie peer name reason
  · rw [hsame]
    exact ⟨rfl, fun _ ↦ rfl, id⟩
  · rw [hmoved]
    exact (f.goesOn_updatePivot chosen).trans ⟨rfl, fun _ ↦ rfl, id⟩

theorem goesOn_bufferBlocks (f : FastSync) (batch : BlockBatch) :
    f.GoesOn (f.bufferBlocks batch) := by
  unfold bufferBlocks
  dsimp only
  split
  · exact .refl f
  · split
    · exact .refl f
    · exact ⟨rfl, fun _ ↦ rfl, id⟩

end FastSync

namespace Seat

/-- Fast synchronisation goes on without a promotion: blocks and trie nodes are handed to the
chain. -/
structure GoesOn (s t : Seat) : Prop where
  /-- The latches and the pivot go on. -/
  fast : s.engine.fast.GoesOn t.engine.fast
  /-- Blocks and trie nodes are handed over one after the other. -/
  chain : Relation.ReflTransGen Chain.Collects s.node.chain t.node.chain

variable {s t u : Seat}

theorem GoesOn.refl (s : Seat) : s.GoesOn s := ⟨.refl _, .refl⟩

theorem GoesOn.trans (ht : s.GoesOn t) (hu : t.GoesOn u) : s.GoesOn u :=
  ⟨ht.fast.trans hu.fast, ht.chain.trans hu.chain⟩

/-- Where the chain stays, fast synchronisation goes on if its state does. -/
theorem GoesOn.of_chain_eq (chain : t.node.chain = s.node.chain)
    (fast : s.engine.fast.GoesOn t.engine.fast) : s.GoesOn t := ⟨fast, by rw [chain]⟩

/-- Walking down a batch hands its blocks to the chain. -/
theorem goesOn_walkPivotChain (target : BlockId) (batch : BlockBatch) (s : Seat) :
    s.GoesOn ((walkPivotChain target batch).leaves s) := by
  have hkeeps : Step.Keeps s.GoesOn (walkPivotChain target batch) := by
    apply keeps_walkPivotChain
    · apply keeps_walkBlocks_of_fastImport
      · exact fun block h ↦ h.trans ⟨.refl _, .single (.block block)⟩
      · exact fun h _ ↦ h.trans ⟨⟨rfl, fun _ ↦ rfl, id⟩, .single (.block _)⟩
      · exact fun h ↦ h.trans (.of_chain_eq (chain_reportChainError _ _) (.refl _))
    · exact fun _ _ h ↦ h.trans (.of_chain_eq rfl ⟨rfl, fun _ ↦ rfl, id⟩)
    · exact fun _ _ h ↦ h.trans (.of_chain_eq rfl (.refl _))
  exact hkeeps (.refl s)

theorem keeps_goesOn_importNode (peer : PeerId) (name : String) (key : Digest) (value : Bytes)
    (trie : Trie) (report : TrieReport) :
    Step.Keeps s.GoesOn (importNode peer name key value trie report) := by
  intro t h
  refine h.trans ?_
  have hcollect : Relation.ReflTransGen Chain.Collects t.node.chain
      (t.node.chain.importTrieNode key value trie).2 := .single (.node key value trie)
  rw [Step.leaves, exec_importNode]
  split
  · exact .refl t
  generalize t.node.chain.importTrieNode key value trie = stored at hcollect
  obtain ⟨answer, c⟩ := stored
  cases answer with
  | ok outcome =>
    dsimp only
    split
    · exact ⟨⟨rfl, fun _ ↦ rfl, id⟩, hcollect⟩
    · exact ⟨t.engine.fast.goesOn_handleFailure .., hcollect⟩
  | error e =>
    refine ⟨t.engine.fast.goesOn_handleFailure .., ?_⟩
    change Relation.ReflTransGen Chain.Collects _ ((t.withChain c).node.reportChainError e).chain
    rw [chain_reportChainError]
    exact hcollect

theorem keeps_goesOn_editLedger (trie : Trie) (edit : TrieLedger → TrieLedger) :
    Step.Keeps s.GoesOn (onFast fun f ↦ f.editLedger trie edit) :=
  fun _ h ↦ h.trans (.of_chain_eq rfl ⟨rfl, fun _ ↦ rfl, id⟩)

theorem keeps_goesOn_importReferences (peer : PeerId) (name : String) (trie : Trie)
    (references : List (Digest × Bytes)) : ∀ report : TrieReport,
    Step.Keeps s.GoesOn (importReferences peer name trie references report) := by
  induction references with
  | nil => exact fun report ↦ .pure report
  | cons entry rest ih =>
    intro report
    rw [importReferences]
    split
    · exact ih report
    · refine .bind (keeps_goesOn_importNode ..) fun answer ↦ ?_
      dsimp only
      split
      · exact .bind (keeps_goesOn_editLedger ..) fun _ ↦ ih _
      · exact ih _

/-- Importing an answer hands nodes to the chain at most. -/
theorem goesOn_importTrie (job : TrieJob) (s : Seat) : s.GoesOn ((importTrie job).leaves s) := by
  have hkeeps : Step.Keeps s.GoesOn (importTrie job) := by
    refine .bind (keeps_goesOn_importNode ..) fun answer ↦ ?_
    dsimp only
    split
    · exact .bind (keeps_goesOn_editLedger ..) fun _ ↦ keeps_goesOn_importReferences ..
    · exact .pure _
  exact hkeeps (.refl s)

end Seat

/-! ### Calls -/

/-- A call of fast synchronisation. -/
inductive FastCall where
  /-- A pivot is chosen. -/
  | choose (pivot : Block)
  /-- Block data is checked. -/
  | checkBlocks
  /-- Everything is checked, with some answers given. A check that makes calls of its own amounts to
  those calls and then this one, with what it answers. -/
  | checkAll (given : CompletenessOverride)
  /-- A batch is delivered. -/
  | deliver (batch : BlockBatch)
  /-- A batch is walked down. -/
  | walk (target : BlockId) (batch : BlockBatch)
  /-- An answer with a trie node is imported. -/
  | answer (job : TrieJob)
  /-- Receipts are delivered. -/
  | receipts (transactions : List Digest)
  /-- A failure with a trie node is handled. -/
  | fail (key : Digest) (trie : Trie) (peer : PeerId) (name : String) (reason : FailureReason)
  /-- Another policy chooses pivots from then on. -/
  | adopt (policy : PivotPolicy)

namespace FastCall

open Seat

/-- Makes a call. It answers what the call says, if that is yes or no. -/
def run : FastCall → Step Seat (Option Bool)
  | choose pivot => do return some (← choosePivot pivot)
  | checkBlocks => do return some (← isBlockDataComplete)
  | checkAll given => do
    onFast fun f ↦ { f with completeness := given }
    return some (← isFastComplete)
  | deliver batch => do
    onFast fun f ↦ f.bufferBlocks batch
    return none
  | walk target batch => do
    let _ ← walkPivotChain target batch
    return none
  | answer job => do
    let _ ← importTrie job
    return none
  | receipts transactions => do
    let _ ← takeReceipts transactions
    return none
  | fail key trie peer name reason => do
    onFast fun f ↦ f.handleFailure key trie peer name reason
    return none
  | adopt policy => do
    onFast fun f ↦ { f with policy }
    return none

end FastCall

namespace Seat

variable {s t : Seat}

/-- A pivot is promoted: block data was not complete and is, and the chain is the one that the
promotion leaves. -/
structure Promotes (s : Seat) (pivot : Block) (t : Seat) : Prop where
  /-- Block data was not complete. -/
  before : s.engine.fast.blocksComplete = false
  /-- Block data is complete. -/
  after : t.engine.fast.blocksComplete = true
  /-- The pivot is the one chosen last. -/
  chosen : s.engine.fast.pivot = some pivot
  /-- The pivot stays. -/
  kept : t.engine.fast.pivot = some pivot
  /-- What has ended stays ended. -/
  ended : s.engine.fast.hasEnded = true → t.engine.fast.hasEnded = true
  /-- The pivot is promoted, as far as that goes. -/
  chain : t.node.chain = (Chain.promotion pivot).leaves s.node.chain

/-- A check promotes a pivot: it faults if there is no room for the pivot, and a check of block data
says yes otherwise. -/
structure PromotesBy (s : Seat) (call : FastCall) (pivot : Block) : Prop
    extends s.Promotes pivot (call.run.leaves s) where
  /-- The call is a check. -/
  check : call = .checkBlocks ∨ ∃ given, call = .checkAll given
  /-- A check of block data says yes if there is room. -/
  yes : s.node.chain.HasRoom pivot → call = .checkBlocks → (call.run.exec s).1 = .ok (some true)
  /-- The check faults if there is no room. -/
  fault : ¬ s.node.chain.HasRoom pivot → (call.run.exec s).1 = .error .additionOverflow

/-- A check of block data changes nothing, or it promotes the pivot. -/
theorem isBlockDataComplete_ways (s : Seat) :
    isBlockDataComplete.exec s = (.ok s.engine.fast.blocksComplete, s) ∨
    s.engine.fast.blocksComplete = false ∧ ∃ pivot, s.engine.fast.pivot = some pivot ∧
      isBlockDataComplete.exec s =
        (((Chain.promotion pivot).exec s.node.chain).1.map fun _ ↦ true,
          s.latched.withChain ((Chain.promotion pivot).leaves s.node.chain)) := by
  rw [exec_isBlockDataComplete]
  cases s.engine.fast.blocksComplete with
  | true => exact .inl rfl
  | false =>
    cases s.engine.fast.pivot with
    | none => exact .inl rfl
    | some pivot =>
      rw [if_neg Bool.false_ne_true]
      dsimp only
      split
      · refine .inr ⟨rfl, pivot, rfl, ?_⟩
        rw [Step.leaves, exec_promote]
      · exact .inl rfl

/-- The seat after everything else was checked: if that and block data are complete, everything
is. -/
def concluded (s : Seat) (blocks : Bool) : Seat :=
  if blocks && s.engine.fast.isRestComplete then
    { s with engine := { s.engine with fast := { s.engine.fast with complete := true } } }
  else s

theorem goesOn_concluded (s : Seat) (blocks : Bool) : s.GoesOn (s.concluded blocks) := by
  unfold concluded
  split
  · refine .of_chain_eq rfl ⟨rfl, fun _ ↦ rfl, fun _ ↦ ?_⟩
    exact Bool.or_true _
  · exact .refl s

/-- A check of everything says yes at once when it has ended, and checks block data otherwise,
unless the answer is given, and then the rest. -/
theorem exec_isFastComplete (s : Seat) :
    isFastComplete.exec s =
      if s.engine.fast.hasEnded then (.ok true, s)
      else match s.engine.fast.completeness.blocks with
        | some blocks => (.ok (blocks && s.engine.fast.isRestComplete), s.concluded blocks)
        | none => match isBlockDataComplete.exec s with
          | (.ok blocks, t) => (.ok (blocks && t.engine.fast.isRestComplete), t.concluded blocks)
          | (.error e, t) => (.error e, t) := by
  have hconclude (t : Seat) (blocks : Bool) :
      (do
        let done := blocks && (← get).engine.fast.isRestComplete
        if done then
          onFast fun f ↦ { f with complete := true }
        return done : Step Seat Bool).exec t =
        (.ok (blocks && t.engine.fast.isRestComplete), t.concluded blocks) := by
    unfold concluded
    rw [Step.exec_bind_of_ok (Step.exec_get t)]
    cases blocks && t.engine.fast.isRestComplete <;> rfl
  rw [isFastComplete, Step.exec_bind_of_ok (Step.exec_get s)]
  change (if s.engine.fast.hasEnded then _ else _ : Step Seat Bool).exec s = _
  split
  · rfl
  cases s.engine.fast.completeness.blocks with
  | some blocks => exact hconclude s blocks
  | none =>
    dsimp only
    rw [Step.exec_bind]
    cases isBlockDataComplete.exec s with
    | mk r t =>
      cases r with
      | error e => rfl
      | ok blocks => exact hconclude t blocks

/-- When everything is complete, it has ended. -/
theorem hasEnded_concluded {blocks : Bool} (h : (blocks && s.engine.fast.isRestComplete) = true) :
    (s.concluded blocks).engine.fast.hasEnded = true := by
  rw [concluded, if_pos h]
  exact Bool.or_true _

/-- When a check of everything says yes, it has ended. -/
theorem hasEnded_of_isFastComplete (h : (isFastComplete.exec s).1 = .ok true) :
    (isFastComplete.leaves s).engine.fast.hasEnded = true := by
  rw [exec_isFastComplete] at h
  rw [Step.leaves, exec_isFastComplete]
  split at h
  · next ended =>
    rw [if_pos ended]
    exact ended
  · next hopen =>
    rw [if_neg hopen]
    cases hblocks : s.engine.fast.completeness.blocks with
    | some blocks =>
      rw [hblocks] at h
      exact hasEnded_concluded (Except.ok.inj h)
    | none =>
      rw [hblocks] at h
      dsimp only at h ⊢
      generalize isBlockDataComplete.exec s = checked at h ⊢
      obtain ⟨r, t⟩ := checked
      cases r with
      | error e => cases h
      | ok blocks => exact hasEnded_concluded (Except.ok.inj h)

/-- A promotion that is followed by a conclusion is a promotion. -/
theorem Promotes.concluded {pivot : Block} (h : s.Promotes pivot t) (blocks : Bool) :
    s.Promotes pivot (t.concluded blocks) := by
  have hgoes := t.goesOn_concluded blocks
  refine ⟨h.before, hgoes.fast.latch.trans h.after, h.chosen,
    (hgoes.fast.pivot h.after).trans h.kept, fun ended ↦ hgoes.fast.ended (h.ended ended), ?_⟩
  rw [← h.chain, Seat.concluded]
  split <;> rfl

/-- A check of block data goes on, or it promotes the pivot. -/
theorem goesOn_or_promotesBy_checkBlocks (s : Seat) :
    s.GoesOn (FastCall.checkBlocks.run.leaves s) ∨ ∃ pivot, s.PromotesBy .checkBlocks pivot := by
  have hrun : FastCall.checkBlocks.run.exec s =
      ((isBlockDataComplete.exec s).1.map some, (isBlockDataComplete.exec s).2) :=
    Step.exec_bind_pure ..
  rcases s.isBlockDataComplete_ways with hsame | ⟨before, pivot, chosen, hpromote⟩
  · left
    rw [Step.leaves, hrun, hsame]
    exact .refl s
  · obtain ⟨-, hroom, hfull⟩ := s.node.chain.exec_promotion pivot
    rw [hpromote] at hrun
    refine .inr ⟨pivot, ⟨before, ?_, chosen, ?_, ?_, ?_⟩, .inl rfl, fun room _ ↦ ?_,
      fun full ↦ ?_⟩
    · rw [Step.leaves, hrun]
      rfl
    · rw [Step.leaves, hrun]
      exact chosen
    · rw [Step.leaves, hrun]
      exact id
    · rw [Step.leaves, hrun]
      rfl
    · rw [hrun, (hroom room).1]
      rfl
    · rw [hrun, (hfull full).1]
      rfl

def withGiven (s : Seat) (given : CompletenessOverride) : Seat :=
  { s with engine := { s.engine with fast := { s.engine.fast with completeness := given } } }

/-- A check of everything is made with the answers given. -/
theorem exec_checkAll (s : Seat) (given : CompletenessOverride) :
    (FastCall.checkAll given).run.exec s =
      ((isFastComplete.exec (s.withGiven given)).1.map some,
        (isFastComplete.exec (s.withGiven given)).2) := Step.exec_bind_pure ..

/-- A check of everything goes on, or it promotes the pivot. -/
theorem goesOn_or_promotesBy_checkAll (s : Seat) (given : CompletenessOverride) :
    s.GoesOn ((FastCall.checkAll given).run.leaves s) ∨
      ∃ pivot, s.PromotesBy (.checkAll given) pivot := by
  have hrun := s.exec_checkAll given
  have hgiven : s.GoesOn (s.withGiven given) := .of_chain_eq rfl ⟨rfl, fun _ ↦ rfl, id⟩
  rw [exec_isFastComplete] at hrun
  split at hrun
  · left
    rw [Step.leaves, hrun]
    exact hgiven
  cases hblocks : (s.withGiven given).engine.fast.completeness.blocks with
  | some blocks =>
    left
    rw [hblocks] at hrun
    rw [Step.leaves, hrun]
    exact hgiven.trans (goesOn_concluded _ blocks)
  | none =>
    rw [hblocks] at hrun
    dsimp only at hrun
    rcases (s.withGiven given).isBlockDataComplete_ways with
      hsame | ⟨before, pivot, chosen, hpromote⟩
    · left
      rw [hsame] at hrun
      rw [Step.leaves, hrun]
      exact hgiven.trans (goesOn_concluded _ _)
    obtain ⟨-, hroom, hfull⟩ := s.node.chain.exec_promotion pivot
    have hpromotes : s.Promotes pivot ((s.withGiven given).latched.withChain
        ((Chain.promotion pivot).leaves s.node.chain)) := ⟨before, rfl, chosen, chosen, id, rfl⟩
    rw [hpromote, show (s.withGiven given).node.chain = s.node.chain from rfl] at hrun
    refine .inr ⟨pivot, ?_⟩
    by_cases room : s.node.chain.HasRoom pivot
    · rw [(hroom room).1] at hrun
      refine ⟨?_, .inr ⟨given, rfl⟩, fun _ hcall ↦ (by cases hcall), fun full ↦ absurd room full⟩
      rw [Step.leaves, hrun]
      exact hpromotes.concluded true
    · rw [(hfull room).1] at hrun
      refine ⟨?_, .inr ⟨given, rfl⟩, fun _ hcall ↦ (by cases hcall), fun _ ↦ ?_⟩
      · rw [Step.leaves, hrun]
        exact hpromotes
      · rw [hrun]
        rfl

/-- A call goes on, or it is a check that promotes the pivot. -/
theorem goesOn_or_promotesBy (s : Seat) (call : FastCall) :
    s.GoesOn (call.run.leaves s) ∨ ∃ pivot, s.PromotesBy call pivot := by
  cases call with
  | checkBlocks => exact s.goesOn_or_promotesBy_checkBlocks
  | checkAll given => exact s.goesOn_or_promotesBy_checkAll given
  | choose pivot => exact .inl (.of_chain_eq rfl (s.engine.fast.goesOn_updatePivot pivot))
  | deliver batch => exact .inl (.of_chain_eq rfl (s.engine.fast.goesOn_bufferBlocks batch))
  | receipts transactions => exact .inl (.of_chain_eq rfl ⟨rfl, fun _ ↦ rfl, id⟩)
  | fail key trie peer name reason =>
    exact .inl (.of_chain_eq rfl (s.engine.fast.goesOn_handleFailure key trie peer name reason))
  | adopt policy => exact .inl (.of_chain_eq rfl ⟨rfl, fun _ ↦ rfl, id⟩)
  | walk target batch =>
    left
    rw [FastCall.run, Step.leaves, Step.exec_bind_pure]
    exact s.goesOn_walkPivotChain target batch
  | answer job =>
    left
    rw [FastCall.run, Step.leaves, Step.exec_bind_pure]
    exact s.goesOn_importTrie job

/-! ### Runs -/

def reached (s : Seat) (calls : List FastCall) (count : Nat) : Seat :=
  (calls.take count).foldl (fun t call ↦ call.run.leaves t) s

/-- The call with this index is this one, and it says this. -/
def Answers (s : Seat) (calls : List FastCall) (i : Nat) (call : FastCall) (answer : Bool) : Prop :=
  calls[i]? = some call ∧ (call.run.exec (s.reached calls i)).1 = .ok (some answer)

section

variable {calls : List FastCall} {call : FastCall} {i k n : Nat} {pivot : Block}

theorem reached_succ (h : calls[i]? = some call) :
    s.reached calls (i + 1) = call.run.leaves (s.reached calls i) :=
  foldl_take_succ h _ s

theorem reached_succ_of_none (h : calls[i]? = none) :
    s.reached calls (i + 1) = s.reached calls i :=
  foldl_take_succ_of_none h _ s

/-- One more call goes on, or it is a check that promotes the pivot. -/
theorem goesOn_or_promotesBy_reached (s : Seat) (calls : List FastCall) (i : Nat) :
    (s.reached calls i).GoesOn (s.reached calls (i + 1)) ∨
      ∃ call pivot, calls[i]? = some call ∧ (s.reached calls i).PromotesBy call pivot := by
  cases hcall : calls[i]? with
  | none =>
    rw [reached_succ_of_none hcall]
    exact .inl (.refl _)
  | some call =>
    rw [reached_succ hcall]
    exact (goesOn_or_promotesBy _ call).imp id fun ⟨pivot, h⟩ ↦ ⟨call, pivot, rfl, h⟩

theorem goesOn_reached (hle : i ≤ n)
    (goes : ∀ j, i ≤ j → j < n → (s.reached calls j).GoesOn (s.reached calls (j + 1))) :
    (s.reached calls i).GoesOn (s.reached calls n) := by
  induction hle with
  | refl => exact .refl _
  | @step n hle ih =>
    have hbefore := ih fun j hi hn ↦ goes j hi (Nat.lt_succ_of_lt hn)
    exact hbefore.trans (goes n hle (Nat.lt_succ_self n))

/-- Once block data is complete, every call goes on. -/
theorem goesOn_reached_of_latched (hle : i ≤ n)
    (latched : (s.reached calls i).engine.fast.blocksComplete = true) :
    (s.reached calls i).GoesOn (s.reached calls n) := by
  induction hle with
  | refl => exact .refl _
  | @step n hle ih =>
    rcases s.goesOn_or_promotesBy_reached calls n with hgoes | ⟨call, pivot, -, hpromotes⟩
    · exact ih.trans hgoes
    · have before := hpromotes.before
      rw [ih.fast.latch, latched] at before
      cases before

/-- What has ended stays ended. -/
theorem hasEnded_reached (hle : i ≤ n) (ended : (s.reached calls i).engine.fast.hasEnded = true) :
    (s.reached calls n).engine.fast.hasEnded = true := by
  induction hle with
  | refl => exact ended
  | @step n hle ih =>
    rcases s.goesOn_or_promotesBy_reached calls n with hgoes | ⟨call, pivot, hcall, hpromotes⟩
    · exact hgoes.fast.ended ih
    · rw [reached_succ hcall]
      exact hpromotes.ended ih

/-- Every call but the one that promotes a pivot goes on. -/
theorem goesOn_of_promotesBy (hcall : calls[k]? = some call)
    (promotes : (s.reached calls k).PromotesBy call pivot) (hne : i ≠ k) :
    (s.reached calls i).GoesOn (s.reached calls (i + 1)) := by
  have latched : (s.reached calls (k + 1)).engine.fast.blocksComplete = true := by
    rw [reached_succ hcall]
    exact promotes.after
  rcases s.goesOn_or_promotesBy_reached calls i with hgoes | ⟨call', pivot', hcall', hpromotes⟩
  · exact hgoes
  · rcases Nat.lt_or_gt_of_ne hne with hlt | hgt
    · have latched' : (s.reached calls (i + 1)).engine.fast.blocksComplete = true := by
        rw [reached_succ hcall']
        exact hpromotes.after
      have before := promotes.before
      rw [(goesOn_reached_of_latched hlt latched').fast.latch, latched'] at before
      cases before
    · have before := hpromotes.before
      rw [(goesOn_reached_of_latched hgt latched).fast.latch, latched] at before
      cases before

/-- When block data is said to be complete, it is from then on. -/
theorem Answers.latched (h : s.Answers calls i .checkBlocks true) :
    (s.reached calls (i + 1)).engine.fast.blocksComplete = true := by
  obtain ⟨hcall, hyes⟩ := h
  rw [FastCall.run, Step.exec_bind_pure] at hyes
  rw [reached_succ hcall, FastCall.run, Step.leaves, Step.exec_bind_pure, Step.leaves]
  rcases (s.reached calls i).isBlockDataComplete_ways with hsame | ⟨-, pivot, -, hpromote⟩
  · rw [hsame] at hyes ⊢
    exact Option.some.inj (Except.ok.inj hyes)
  · rw [hpromote]
    rfl

/-- When everything is said to be complete, it has ended from then on. -/
theorem Answers.hasEnded {given : CompletenessOverride}
    (h : s.Answers calls i (.checkAll given) true) :
    (s.reached calls (i + 1)).engine.fast.hasEnded = true := by
  obtain ⟨hcall, hyes⟩ := h
  rw [exec_checkAll] at hyes
  rw [reached_succ hcall, Step.leaves, exec_checkAll]
  refine hasEnded_of_isFastComplete ?_
  generalize (isFastComplete.exec ((s.reached calls i).withGiven given)).1 = r at hyes ⊢
  cases r with
  | error e => cases hyes
  | ok answer =>
    cases hyes
    rfl

/-- Once block data is complete, it is said to be. -/
theorem answers_checkBlocks (hcall : calls[n]? = some .checkBlocks)
    (latched : (s.reached calls n).engine.fast.blocksComplete = true) :
    s.Answers calls n .checkBlocks true := by
  refine ⟨hcall, ?_⟩
  rw [FastCall.run, Step.exec_bind_pure, exec_isBlockDataComplete, latched]
  rfl

/-- Once it has ended, everything is said to be complete, whatever answers are given. -/
theorem answers_checkAll {given : CompletenessOverride} (hcall : calls[n]? = some (.checkAll given))
    (ended : (s.reached calls n).engine.fast.hasEnded = true) :
    s.Answers calls n (.checkAll given) true := by
  have ended' : ((s.reached calls n).withGiven given).engine.fast.hasEnded = true := ended
  refine ⟨hcall, ?_⟩
  rw [exec_checkAll, exec_isFastComplete, if_pos ended']
  rfl

/-- Once block data is complete, no pivot is accepted. -/
theorem answers_choose (hcall : calls[n]? = some (.choose pivot))
    (latched : (s.reached calls n).engine.fast.blocksComplete = true) :
    s.Answers calls n (.choose pivot) false := by
  refine ⟨hcall, ?_⟩
  have hrefused : (s.reached calls n).engine.fast.updatePivot pivot =
      (false, (s.reached calls n).engine.fast) := by
    rw [FastSync.updatePivot, if_pos latched]
  rw [FastCall.run, Step.exec_bind_pure, choosePivot, Step.exec_update]
  simp only [hrefused]
  rfl

end

/-- The calls of fast synchronisation are made in any order, with any checks and any policy. Once
block data is said to be complete, it always is, the pivot stays, and no other one is accepted; and
once everything is said to be complete, it always is. Either every call only hands blocks and trie
nodes to the chain, or just one does something else: it is a check, block data is complete after it
and not before, and it promotes the pivot of that moment. If there is room for that pivot, it is the
best block from then on, and in the whole run the chain is corrected and flushed once. Otherwise the
check faults, and the best block and both counts stay as they were. -/
theorem promotes_at_most_once (s : Seat) (calls : List FastCall) :
    (∀ i, s.Answers calls i .checkBlocks true →
      (s.reached calls (i + 1)).engine.fast.blocksComplete = true) ∧
    (∀ i n, i ≤ n → (s.reached calls i).engine.fast.blocksComplete = true →
      (s.reached calls n).engine.fast.blocksComplete = true ∧
      (s.reached calls n).engine.fast.pivot = (s.reached calls i).engine.fast.pivot ∧
      (calls[n]? = some .checkBlocks → s.Answers calls n .checkBlocks true) ∧
      ∀ pivot, calls[n]? = some (.choose pivot) → s.Answers calls n (.choose pivot) false) ∧
    (∀ i n given next, i < n → s.Answers calls i (.checkAll given) true →
      calls[n]? = some (.checkAll next) → s.Answers calls n (.checkAll next) true) ∧
    ((∀ n, s.GoesOn (s.reached calls n)) ∨
      ∃ k call pivot, calls[k]? = some call ∧ (s.reached calls k).PromotesBy call pivot ∧
        (∀ n ≤ k, s.GoesOn (s.reached calls n)) ∧
        ∀ n, k < n → (s.reached calls (k + 1)).GoesOn (s.reached calls n) ∧
          ((s.reached calls k).node.chain.HasRoom pivot →
            (s.reached calls n).node.chain.standing =
              (pivot.hash, s.node.chain.corrections + 1, s.node.chain.flushes + 1)) ∧
          (¬ (s.reached calls k).node.chain.HasRoom pivot →
            (s.reached calls n).node.chain.standing = s.node.chain.standing)) := by
  refine ⟨fun i h ↦ h.latched, fun i n hle latched ↦ ?_, fun i n given next hlt h hcall ↦ ?_, ?_⟩
  · have hgoes := goesOn_reached_of_latched hle latched
    have latched' := hgoes.fast.latch.trans latched
    exact ⟨latched', hgoes.fast.pivot latched, fun hcall ↦ answers_checkBlocks hcall latched',
      fun _ hcall ↦ answers_choose hcall latched'⟩
  · exact answers_checkAll hcall (hasEnded_reached hlt h.hasEnded)
  by_cases hsome : ∃ k call pivot, calls[k]? = some call ∧
      (s.reached calls k).PromotesBy call pivot
  case neg =>
    refine .inl fun n ↦ goesOn_reached (Nat.zero_le n) fun j _ _ ↦ ?_
    rcases s.goesOn_or_promotesBy_reached calls j with hgoes | ⟨call, pivot, hcall, hpromotes⟩
    · exact hgoes
    · exact absurd ⟨j, call, pivot, hcall, hpromotes⟩ hsome
  case pos =>
    obtain ⟨k, call, pivot, hcall, promotes⟩ := hsome
    have hbefore (n : Nat) (hn : n ≤ k) : s.GoesOn (s.reached calls n) :=
      goesOn_reached (Nat.zero_le n) fun j _ hj ↦
        goesOn_of_promotesBy hcall promotes (Nat.ne_of_lt (Nat.lt_of_lt_of_le hj hn))
    refine .inr ⟨k, call, pivot, hcall, promotes, hbefore, fun n hn ↦ ?_⟩
    have hafter : (s.reached calls (k + 1)).GoesOn (s.reached calls n) :=
      goesOn_reached hn fun j hj _ ↦ goesOn_of_promotesBy hcall promotes (Nat.ne_of_gt hj)
    have hstart := Chain.standing_of_collects (hbefore k le_rfl).chain
    have hend := Chain.standing_of_collects hafter.chain
    rw [reached_succ hcall, promotes.chain] at hend
    obtain ⟨-, hroom, hfull⟩ := (s.reached calls k).node.chain.exec_promotion pivot
    refine ⟨hafter, fun room ↦ ?_, fun full ↦ hend.trans ((hfull full).2.trans hstart)⟩
    simp only [Chain.standing, Prod.mk.injEq] at hstart
    rw [hend, (hroom room).2, hstart.2.1, hstart.2.2]

def summit : Block := .make 18446744073709551615 Block.genesis.hash 1 0 [] .zero

/-- The first block gets a child, and a pivot is chosen and checked twice. -/
def promotingCalls (pivot : Block) : List FastCall :=
  [.walk (Chain.sprout 0).id ⟨.ofNat 1, "peer-1", [Chain.sprout 0]⟩, .choose pivot, .checkBlocks,
    .checkBlocks]

/-- Both pivots are checked and latch block data. The first one is stored by then, and the other one
does not become the best block. -/
theorem exists_promotingCalls :
    ∃ c, Chain.new .genesis = .ok c ∧
      let s := genesisSeat c
      let low := promotingCalls (Chain.sprout 0)
      let high := promotingCalls summit
      ((s.reached low 2).engine.fast.pivot = some (Chain.sprout 0) ∧
        (s.reached low 2).node.chain.block? (Chain.sprout 0).hash = some (Chain.sprout 0)) ∧
      (s.reached low 3).engine.fast.blocksComplete = true ∧
      (s.reached high 3).engine.fast.blocksComplete = true ∧
      ((s.reached high 4).engine.fast.pivot = some summit ∧
        (s.reached high 4).node.chain.standing = (Block.genesis.hash, 0, 0)) ∧
      summit.hash ≠ Block.genesis.hash := by
  obtain ⟨c, hnew, hrun⟩ := exists_genesis_of_any (fun c ↦
    let t := (genesisSeat c).reached (promotingCalls (Chain.sprout 0)) 2
    let u := (genesisSeat c).reached (promotingCalls summit) 3
    let v := FastCall.checkBlocks.run.leaves u
    decide ((t.engine.fast.pivot = some (Chain.sprout 0) ∧
        t.node.chain.block? (Chain.sprout 0).hash = some (Chain.sprout 0)) ∧
      (FastCall.checkBlocks.run.leaves t).engine.fast.blocksComplete = true ∧
      u.engine.fast.blocksComplete = true ∧
      (v.engine.fast.pivot = some summit ∧ v.node.chain.standing = (Block.genesis.hash, 0, 0)) ∧
      summit.hash ≠ Block.genesis.hash)) (by decide +kernel)
  exact ⟨c, hnew, of_decide_eq_true hrun⟩

/-- Below the last height the pivot becomes the best block, and the chain is corrected and flushed
once, however often block data is checked. -/
theorem promotes_at_most_once_sprout :
    ∃ c, Chain.new .genesis = .ok c ∧
      ((genesisSeat c).reached (promotingCalls (Chain.sprout 0)) 4).node.chain.standing =
        ((Chain.sprout 0).hash, (genesisSeat c).node.chain.corrections + 1,
          (genesisSeat c).node.chain.flushes + 1) := by
  obtain ⟨c, hnew, ⟨hpivot, hstored⟩, latched, -⟩ := exists_promotingCalls
  refine ⟨c, hnew, ?_⟩
  obtain ⟨-, -, -, hgoes | ⟨k, call, pivot, hcall, promotes, hbefore, hafter⟩⟩ :=
    promotes_at_most_once (genesisSeat c) (promotingCalls (Chain.sprout 0))
  · rw [(hgoes 3).fast.latch] at latched
    cases latched
  have hk : k < 3 := by
    by_contra hle
    rw [(hbefore 3 (Nat.le_of_not_lt hle)).fast.latch] at latched
    cases latched
  -- Of the first three calls only the last one is a check.
  obtain rfl : k = 2 := by
    have check := promotes.check
    obtain rfl | rfl | rfl : k = 0 ∨ k = 1 ∨ k = 2 := by omega
    · rw [← (Option.some.inj hcall : FastCall.walk _ _ = call)] at check
      rcases check with hcheck | ⟨given, hcheck⟩ <;> cases hcheck
    · rw [← (Option.some.inj hcall : FastCall.choose _ = call)] at check
      rcases check with hcheck | ⟨given, hcheck⟩ <;> cases hcheck
    · rfl
  obtain rfl : Chain.sprout 0 = pivot := Option.some.inj (hpivot.symm.trans promotes.chosen)
  refine (hafter 4 (by decide)).2.1 ⟨Chain.sprout 0, ?_, (by decide : (1 : UInt64).toNat + 1 < _)⟩
  rw [Chain.holding, if_pos (by rw [hstored]; rfl)]
  exact hstored

/-- A pivot at the last height is chosen, and after the first check faulted the second one says that
block data is complete: the pivot is not the best block, and the chain was neither corrected nor
flushed. -/
theorem exists_latched_unpromoted :
    ∃ c, Chain.new .genesis = .ok c ∧
      let calls := promotingCalls summit
      (genesisSeat c).Answers calls 3 .checkBlocks true ∧
      ((genesisSeat c).reached calls 4).engine.fast.pivot = some summit ∧
      ((genesisSeat c).reached calls 4).node.chain.standing = (Block.genesis.hash, 0, 0) ∧
      summit.hash ≠ Block.genesis.hash := by
  obtain ⟨c, hnew, -, -, latched, ⟨hpivot, hstanding⟩, hne⟩ := exists_promotingCalls
  exact ⟨c, hnew, answers_checkBlocks rfl latched, hpivot, hstanding, hne⟩

end Seat
end ChainSync
