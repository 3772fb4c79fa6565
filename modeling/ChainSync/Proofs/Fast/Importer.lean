import ChainSync.Proofs.Fast.Completion
import ChainSync.Task.Job

/-!
# Turns of the importer

A turn of the importer of blocks checks block data, takes batches that wait and walks down them, and
asks for what is missing. What each of these parts leaves alone is stated here, apart from the
walks, and that a turn keeps what all its parts keep.
-/

namespace ChainSync
namespace Seat

/-! ### Messages that ask for blocks -/

/-- Of the messages sent between two seats those that ask for blocks name such a hash. -/
def Asks (named : Digest → Prop) (s t : Seat) : Prop :=
  ∃ sent, t.node.registry.outbox = sent ++ s.node.registry.outbox ∧
    ∀ m ∈ sent, ∀ start count reverse, m.message = .requestBlocks start count reverse →
      ∃ h, start = .hash h ∧ named h

namespace Asks

variable {named weaker : Digest → Prop} {s t u : Seat}

/-- Nothing is asked for without a message. -/
theorem of_outbox_eq (h : t.node.registry.outbox = s.node.registry.outbox) : Asks named s t :=
  ⟨[], h, List.forall_mem_nil _⟩

theorem trans (h : Asks named s t) (h' : Asks named t u) : Asks named s u := by
  obtain ⟨sent, houtbox, hsent⟩ := h
  obtain ⟨sent', houtbox', hsent'⟩ := h'
  refine ⟨sent' ++ sent, by rw [houtbox', houtbox, List.append_assoc], ?_⟩
  intro m hm
  rcases List.mem_append.mp hm with hm | hm
  · exact hsent' m hm
  · exact hsent m hm

theorem mono (h : Asks named s t) (himp : ∀ k, named k → weaker k) : Asks weaker s t := by
  obtain ⟨sent, houtbox, hsent⟩ := h
  refine ⟨sent, houtbox, ?_⟩
  intro m hm start count reverse hmessage
  obtain ⟨k, hstart, hk⟩ := hsent m hm start count reverse hmessage
  exact ⟨k, hstart, himp k hk⟩

end Asks

/-! ### What the parts of a turn leave alone -/

/-- Between two seats blocks are asked for by such hashes only, no hash is noted, the pivot stays,
only batches that wait are taken, no block is lost, and none is stored but the pivot. -/
structure Steady (named : Digest → Prop) (s t : Seat) : Prop where
  /-- Blocks are asked for by such hashes only. -/
  asks : Asks named s t
  /-- The hashes noted with deliveries stay. -/
  received : t.engine.fast.receivedBlocks = s.engine.fast.receivedBlocks
  /-- The hashes of imported blocks stay. -/
  imported : t.engine.fast.importedBlocks = s.engine.fast.importedBlocks
  /-- The pivot stays. -/
  pivot : t.engine.fast.pivot = s.engine.fast.pivot
  /-- A batch that waits waited before. -/
  waiting : ∀ batch ∈ t.engine.fast.buffer, batch ∈ s.engine.fast.buffer
  /-- No block is lost. -/
  within : s.node.chain.Within t.node.chain
  /-- A block that is stored was stored before or is the pivot. -/
  stored {h : Digest} {b : Block} : t.node.chain.block? h = some b →
    s.node.chain.block? h = some b ∨ s.engine.fast.pivot = some b ∧ b.hash = h

variable {named : Digest → Prop}

theorem Steady.refl (s : Seat) : Steady named s s :=
  ⟨.of_outbox_eq rfl, rfl, rfl, rfl, fun _ h ↦ h, .refl _, .inl⟩

theorem Steady.trans {s t u : Seat} (h : Steady named s t) (h' : Steady named t u) :
    Steady named s u where
  asks := h.asks.trans h'.asks
  received := h'.received.trans h.received
  imported := h'.imported.trans h.imported
  pivot := h'.pivot.trans h.pivot
  waiting batch hb := h.waiting batch (h'.waiting batch hb)
  within := h.within.trans h'.within
  stored hb := by
    rcases h'.stored hb with hb | ⟨hpivot, hhash⟩
    · exact h.stored hb
    · exact .inr ⟨h.pivot ▸ hpivot, hhash⟩

theorem keeps_steady {α : Type} {s : Seat} {step : Step Seat α}
    (h : ∀ t, Steady named t (step.leaves t)) : Step.Keeps (Steady named s) step :=
  fun t hst ↦ hst.trans (h t)

theorem steady_isBlockDataComplete (s : Seat) : Steady named s (isBlockDataComplete.leaves s) := by
  rw [Step.leaves, exec_isBlockDataComplete]
  split
  · exact .refl s
  · split
    · exact .refl s
    · next pivot hpivot =>
      split
      · obtain ⟨r, c, hrun, hblocks, -⟩ := exists_exec_promote pivot s
        rw [Step.leaves, hrun]
        refine ⟨.of_outbox_eq rfl, rfl, rfl, rfl, fun _ h ↦ h, ?_, ?_⟩
        · exact (s.node.chain.within_holding pivot).trans (Chain.within_of_block?_eq hblocks)
        · intro h b hb
          change c.block? h = some b at hb
          rw [hblocks, Chain.holding] at hb
          split at hb
          · exact .inl hb
          · change (s.node.chain.withLoose pivot).block? h = some b at hb
            rw [Chain.block?_withLoose] at hb
            split at hb
            · next hhash =>
              cases hb
              exact .inr ⟨hpivot, hhash⟩
            · exact .inl hb
      · exact .refl s

/-- Either no batch is taken, or one that waits is, with its blocks from the highest down. -/
theorem exec_takeContaining (hash : Digest) (s : Seat) :
    (takeContaining hash).exec s = (.ok none, s) ∨
      ∃ held ∈ s.engine.fast.buffer, (takeContaining hash).exec s =
        (.ok (some { held with
            blocks := held.blocks.mergeSort fun a b ↦ b.number ≤ a.number }),
          { s with
            engine :=
              { s.engine with
                fast :=
                  { s.engine.fast with
                    buffer := s.engine.fast.buffer.eraseP (FastSync.holds hash) } } }) := by
  rw [takeContaining, Step.exec_update, FastSync.takeContaining]
  cases hheld : s.engine.fast.buffer.find? (FastSync.holds hash) with
  | none => exact .inl rfl
  | some held => exact .inr ⟨held, List.mem_of_find?_eq_some hheld, rfl⟩

theorem steady_takeContaining (hash : Digest) (s : Seat) :
    Steady named s ((takeContaining hash).leaves s) := by
  rw [Step.leaves]
  rcases exec_takeContaining hash s with hnone | ⟨held, -, hsome⟩
  · rw [hnone]
    exact .refl s
  · rw [hsome]
    exact ⟨.of_outbox_eq rfl, rfl, rfl, rfl, fun _ h ↦ List.mem_of_mem_eraseP h, .refl _, .inl⟩

theorem steady_request (peer : PeerId) (kind : RequestKind) {message : Message}
    (h : ∀ start count reverse, message = .requestBlocks start count reverse →
      ∃ k, start = .hash k ∧ named k) (s : Seat) :
    Steady named s ((request peer kind message).leaves s) := by
  refine ⟨⟨[⟨peer, message⟩], rfl, ?_⟩, rfl, rfl, rfl, fun _ h ↦ h, .refl _, .inl⟩
  intro m hm
  rw [List.mem_singleton.mp hm]
  exact h

theorem steady_requestReceipts (peer : PeerId) (transactions : List Digest) (s : Seat) :
    Steady named s ((request peer .receipts (.requestReceipts transactions)).leaves s) :=
  steady_request _ _ (fun _ _ _ h ↦ by cases h) s

theorem steady_requestPivotBlocks (target : BlockId) (hnamed : named target.hash) (s : Seat) :
    Steady named s ((requestPivotBlocks target).leaves s) := by
  rw [requestPivotBlocks, Step.leaves_bind, Step.exec_get]
  dsimp only
  split
  · exact .refl s
  · refine steady_request _ _ ?_ s
    intro start count reverse h
    cases h
    exact ⟨_, rfl, hnamed⟩

theorem steady_requestWantedReceipts (s : Seat) :
    Steady named s (requestWantedReceipts.leaves s) := by
  rw [requestWantedReceipts, Step.leaves_bind, Step.exec_get]
  dsimp only
  split
  · exact .refl s
  · split
    · exact .refl s
    · exact steady_requestReceipts ..

theorem steady_settle (task : TaskId) (s : Seat) :
    Steady named s ((settle pivotSignal task).leaves s) := by
  have hwait : Step.Keeps (Steady named s) (wait pivotSignal task) :=
    fun _ h ↦ ⟨h.asks, h.received, h.imported, h.pivot, h.waiting, h.within, h.stored⟩
  have hsettle : Step.Keeps (Steady named s) (settle pivotSignal task) := by
    refine .bind hwait fun woken ↦ ?_
    cases woken with
    | false => exact .pure _
    | true =>
      intro u h
      rw [if_pos rfl, Step.leaves, Step.exec_discard]
      exact hwait h
  exact hsettle (.refl s)

/-! ### Turns -/

section

variable {P : Seat → Prop}

theorem keeps_walkBuffered (check : Step.Keeps P isBlockDataComplete)
    (take : ∀ hash, Step.Keeps P (takeContaining hash))
    (walk : ∀ target batch, Step.Keeps P (walkPivotChain target batch)) (now : Millis) (fuel : Nat)
    (p : PivotProgress) : Step.Keeps P (walkBuffered now fuel p) := by
  induction fuel generalizing p with
  | zero =>
    rw [walkBuffered]
    refine .bind check fun done ↦ .bind (fun _ h ↦ h) fun s ↦ ?_
    dsimp only
    split
    · exact .pure _
    · split <;> exact .pure _
  | succ fuel ih =>
    rw [walkBuffered]
    refine .bind check fun done ↦ .bind (fun _ h ↦ h) fun s ↦ ?_
    dsimp only
    split
    · exact .pure _
    · split
      · exact .pure _
      · refine .bind (take _) fun taken ↦ ?_
        cases taken with
        | none => exact .pure _
        | some batch => exact .bind (walk _ batch) fun _ ↦ .bind (fun _ h ↦ h) fun _ ↦ ih _

theorem keeps_askIfDue {ask : Step Seat Bool} (keeps : Step.Keeps P ask) (askedAt : Option Millis)
    (now : Millis) : Step.Keeps P (askIfDue askedAt now ask) := by
  unfold askIfDue
  split
  · refine .bind keeps fun asked ↦ ?_
    cases asked <;> exact .pure _
  · exact .pure _

/-- The part of a turn after blocks were asked for. -/
def endTurn (t : Turn) (p : PivotProgress) : Step Seat TurnEnd := do
  let receiptsAskedAt ← askIfDue p.receiptsAskedAt t.now requestWantedReceipts
  settle pivotSignal t.task
  return .pauses (.pivotBlocks { p with receiptsAskedAt }) (.until (t.now + PivotProgress.interval))

theorem keeps_endTurn (receipts : Step.Keeps P requestWantedReceipts)
    (wait : ∀ task, Step.Keeps P (settle pivotSignal task)) (t : Turn) (p : PivotProgress) :
    Step.Keeps P (endTurn t p) :=
  .bind (keeps_askIfDue receipts ..) fun _ ↦ .bind (wait t.task) fun _ ↦ .pure _

theorem steady_endTurn {named : Digest → Prop} (t : Turn) (p : PivotProgress) (s : Seat) :
    Steady named s ((endTurn t p).leaves s) := by
  have hkeeps : Step.Keeps (Steady named s) (endTurn t p) :=
    keeps_endTurn (keeps_steady steady_requestWantedReceipts)
      (fun task ↦ keeps_steady (steady_settle task)) t p
  exact hkeeps (.refl s)

theorem keeps_turnPivotBlocks (check : Step.Keeps P isBlockDataComplete)
    (take : ∀ hash, Step.Keeps P (takeContaining hash))
    (walk : ∀ target batch, Step.Keeps P (walkPivotChain target batch))
    (blocks : ∀ target, Step.Keeps P (requestPivotBlocks target))
    (receipts : Step.Keeps P requestWantedReceipts)
    (wait : ∀ task, Step.Keeps P (settle pivotSignal task)) (t : Turn) (p : PivotProgress) :
    Step.Keeps P (turnPivotBlocks t p) := by
  refine .bind (fun _ h ↦ h) fun s ↦ .bind (keeps_walkBuffered check take walk ..) fun answer ↦ ?_
  obtain ⟨need, q⟩ := answer
  have hend := keeps_endTurn receipts wait t
  cases need with
  | nothing => exact .pure _
  | pivot => exact .bind (.pure _) hend
  | receipts => exact .bind (.pure _) hend
  | blocks target =>
    exact .bind (keeps_askIfDue (blocks target) ..) fun _ ↦ .bind (.pure _) hend

end

/-- A turn of the importer is walking down the batches that wait, asking for the block that is
required, if one is, and the end of the turn. -/
theorem exec_turnPivotBlocks (t : Turn) (p : PivotProgress) (s : Seat) :
    (turnPivotBlocks t p).exec s =
      match (walkBuffered t.now s.engine.fast.buffer.length p).exec s with
      | (.error e, u) => (.error e, u)
      | (.ok (.nothing, _), u) => (.ok .ends, u)
      | (.ok (.blocks target, q), u) =>
        (askIfDue q.blocksAskedAt t.now (requestPivotBlocks target) >>= fun blocksAskedAt ↦
          endTurn t { q with blocksAskedAt }).exec u
      | (.ok (.pivot, q), u) | (.ok (.receipts, q), u) => (endTurn t q).exec u := by
  rw [turnPivotBlocks, Step.exec_bind_of_ok (Step.exec_get s), Step.exec_bind]
  cases (walkBuffered t.now s.engine.fast.buffer.length p).exec s with
  | mk r u =>
    cases r with
    | error e => rfl
    | ok answer =>
      obtain ⟨need, q⟩ := answer
      cases need <;> rfl

/-- The end of a turn leaves what is required. -/
theorem required_of_endTurn {t : Turn} {p q : PivotProgress} {pause : Pause} {s u : Seat}
    (h : (endTurn t p).exec s = (.ok (.pauses (.pivotBlocks q) pause), u)) :
    q.required = p.required := by
  obtain ⟨receiptsAskedAt, v, -, h⟩ := Step.exists_exec_of_bind h
  obtain ⟨-, w, -, h⟩ := Step.exists_exec_of_bind h
  cases h
  rfl

/-- After the walks a turn asks for no blocks but those that are needed, and leaves what is
required. -/
theorem steady_of_walkBuffered {t : Turn} {p q : PivotProgress} {need : PivotNeed} {s u : Seat}
    (h : (walkBuffered t.now s.engine.fast.buffer.length p).exec s = (.ok (need, q), u)) :
    Steady (fun k ↦ ∃ target, need = .blocks target ∧ k = target.hash) u
        ((turnPivotBlocks t p).leaves s) ∧
      ∀ q' pause v, (turnPivotBlocks t p).exec s = (.ok (.pauses (.pivotBlocks q') pause), v) →
        q'.required = q.required := by
  rw [Step.leaves, exec_turnPivotBlocks, h]
  cases need with
  | nothing => exact ⟨.refl u, fun q' pause v hv ↦ by cases hv⟩
  | pivot => exact ⟨steady_endTurn t q u, fun q' pause v hv ↦ required_of_endTurn hv⟩
  | receipts => exact ⟨steady_endTurn t q u, fun q' pause v hv ↦ required_of_endTurn hv⟩
  | blocks target =>
    dsimp only
    constructor
    · have hask : Step.Keeps (Steady (fun k ↦ ∃ r, PivotNeed.blocks target = .blocks r ∧
          k = r.hash) u) (requestPivotBlocks target) :=
        keeps_steady (steady_requestPivotBlocks target ⟨target, rfl, rfl⟩)
      exact Step.Keeps.bind (keeps_askIfDue hask q.blocksAskedAt t.now)
        (fun _ ↦ keeps_steady (steady_endTurn t _)) (.refl u)
    · intro q' pause v hv
      obtain ⟨blocksAskedAt, w, -, hend⟩ := Step.exists_exec_of_bind hv
      exact (required_of_endTurn hend).trans rfl

end Seat
end ChainSync
