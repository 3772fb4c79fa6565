import ChainSync.Engine.Exchange
import ChainSync.Proofs.Fast.Walk

/-!
# Receipts of blocks stored on the way

A walk down from the pivot wants the receipts of every block that it stored, however it ends, and
asks the sender of the batch for them in one message. Receipts that arrive are taken off what is
wanted. An error of the chain can be set for each block that a walk hands over, also after others
were stored. Main statement: through every run of walks and arrivals, with any errors and whatever
happens to the node in between, a receipt is wanted exactly when a walk stored a block with its
transaction after it last arrived while it was wanted.
-/

namespace ChainSync

/-! ### Blocks handed over -/

namespace Chain

/-- Blocks are handed over for fast import one after the other, from one chain to another, each with
an error set for it or none. The second list has those that the chain says were imported. -/
inductive FastImports : Chain → List Block → List Block → Chain → Prop
  /-- No block is left. -/
  | done (c : Chain) : FastImports c [] [] c
  /-- The chain says that the block was imported. -/
  | imported {c d e : Chain} {error : Option ChainError} {block : Block} {best : Bool}
      {blocks imported : List Block}
      (run : (c.failing error).fastImport block = (.ok (.imported best), d))
      (rest : FastImports d blocks imported e) :
    FastImports c (block :: blocks) (block :: imported) e
  /-- The chain says something else. -/
  | passed {c d e : Chain} {error : Option ChainError} {block : Block}
      {answer : Except ChainError ImportOutcome} {blocks imported : List Block}
      (run : (c.failing error).fastImport block = (answer, d))
      (other : ∀ best, answer ≠ .ok (.imported best)) (rest : FastImports d blocks imported e) :
    FastImports c (block :: blocks) imported e

/-- Of a batch these blocks were imported in this order, and no others, on the way from one chain to
another. -/
structure Imported (c d : Chain) (batch imported : List Block) : Prop where
  /-- Blocks of the batch were handed over in order, and these are those that the chain took. -/
  handed : ∃ blocks, blocks.Sublist batch ∧ FastImports c blocks imported d
  /-- They are the blocks that are stored under their hashes now, where none was before. -/
  mem_iff (b : Block) : b ∈ imported ↔ c.block? b.hash = none ∧ d.block? b.hash = some b
  /-- None was imported twice. -/
  nodup : (imported.map Block.hash).Nodup

variable {c d : Chain} {error : Option ChainError} {block : Block} {blocks imported : List Block}

/-- A block that is imported is stored where none was before. -/
theorem fastImport_of_imported {best : Bool}
    (run : (c.failing error).fastImport block = (.ok (.imported best), d)) :
    c.block? block.hash = none ∧
      ∀ h, d.block? h = if block.hash = h then some block else c.block? h := by
  have ha := fastAttempt_fastImport (c.failing error) block
  rw [run] at ha
  rw [← block?_failing c error]
  cases ha with
  | stored new _ => exact ⟨new, block?_withLoose (c.failing error) block⟩

/-- Nothing is stored when the chain says something else. -/
theorem fastImport_of_other {answer : Except ChainError ImportOutcome}
    (run : (c.failing error).fastImport block = (answer, d))
    (other : ∀ best, answer ≠ .ok (.imported best)) : d.block? = c.block? := by
  have ha := fastAttempt_fastImport (c.failing error) block
  rw [run] at ha
  rw [← block?_failing c error]
  cases ha with
  | failed _ => rfl
  | exist _ | invalid _ _ => rfl
  | stored _ _ => exact absurd rfl (other false)

namespace FastImports

theorem within (h : FastImports c blocks imported d) : c.Within d := by
  induction h with
  | done c => exact .refl c
  | imported run _ ih =>
    obtain ⟨new, hd⟩ := fastImport_of_imported run
    refine Within.trans ?_ ih
    intro h b hb
    rw [hd, if_neg, hb]
    rintro rfl
    rw [new] at hb
    cases hb
  | passed run other _ ih =>
    refine Within.trans ?_ ih
    intro h b hb
    rw [fastImport_of_other run other, hb]

/-- The imported blocks are those that are stored under their hashes now, where none was before. -/
theorem mem_imported_iff (h : FastImports c blocks imported d) (b : Block) :
    b ∈ imported ↔ c.block? b.hash = none ∧ d.block? b.hash = some b := by
  induction h with
  | done c =>
    constructor
    · intro hb
      cases hb
    · rintro ⟨hnone, hsome⟩
      rw [hnone] at hsome
      cases hsome
  | @imported c d e error block best blocks imported run rest ih =>
    obtain ⟨new, hd⟩ := fastImport_of_imported run
    rw [List.mem_cons, ih, hd]
    by_cases he : block.hash = b.hash
    · have hself : e.block? b.hash = some block := by
        rw [← he]
        exact rest.within (by rw [hd, if_pos rfl])
      simp [he, ← he ▸ new, hself, eq_comm]
    · have hne : b ≠ block := by
        rintro rfl
        exact he rfl
      simp [he, hne]
  | passed run other _ ih => rw [ih, fastImport_of_other run other]

theorem nodup (h : FastImports c blocks imported d) : (imported.map Block.hash).Nodup := by
  induction h with
  | done _ => exact List.nodup_nil
  | passed _ _ _ ih => exact ih
  | imported run rest ih =>
    obtain ⟨-, hd⟩ := fastImport_of_imported run
    rw [List.map_cons, List.nodup_cons]
    refine ⟨?_, ih⟩
    intro hmem
    obtain ⟨b, hb, hhash⟩ := List.mem_map.mp hmem
    have hnone := ((rest.mem_imported_iff b).mp hb).1
    rw [hd, if_pos hhash.symm] at hnone
    cases hnone

end FastImports

/-- Blocks of a batch that are handed over in order make out what was imported. -/
theorem FastImports.of_sublist {batch : List Block} (h : FastImports c blocks imported d)
    (sublist : blocks.Sublist batch) : Imported c d batch imported :=
  ⟨⟨blocks, sublist, h⟩, h.mem_imported_iff, h.nodup⟩

end Chain

/-! ### What is wanted -/

namespace FastSync

variable {f : FastSync} {transactions : List Digest} {tx : Digest}

theorem mem_receipts_wantReceipts :
    tx ∈ (f.wantReceipts transactions).receipts ↔ tx ∈ transactions ∨ tx ∈ f.receipts := by
  suffices h : ∀ wanted : Std.ExtTreeSet Digest,
      tx ∈ transactions.foldl (fun wanted hash ↦ wanted.insert hash) wanted ↔
        tx ∈ transactions ∨ tx ∈ wanted from h f.receipts
  induction transactions with
  | nil => simp
  | cons hash rest ih =>
    intro wanted
    rw [List.foldl_cons, ih, Std.ExtTreeSet.mem_insert, Std.LawfulEqOrd.compare_eq_iff_eq,
      List.mem_cons, eq_comm (a := hash), or_left_comm, or_assoc]

/-- Of the receipts that arrive, those that are wanted are taken off and counted. -/
theorem foldl_takeReceipt (transactions : List Digest) :
    ∀ taken : Nat × Std.ExtTreeSet Digest,
      (∀ tx, tx ∈ (transactions.foldl takeReceipt taken).2 ↔ tx ∈ taken.2 ∧ tx ∉ transactions) ∧
        (transactions.foldl takeReceipt taken).1 + (transactions.foldl takeReceipt taken).2.size =
          taken.1 + taken.2.size := by
  induction transactions with
  | nil => simp
  | cons hash rest ih =>
    rintro ⟨answered, wanted⟩
    rw [List.foldl_cons]
    obtain ⟨hmem, hcount⟩ := ih (takeReceipt (answered, wanted) hash)
    by_cases hwanted : hash ∈ wanted
    · have htaken : takeReceipt (answered, wanted) hash =
          (answered + 1, wanted.erase hash) := if_pos hwanted
      rw [htaken] at hmem hcount ⊢
      have hpositive : wanted.size ≠ 0 := by
        intro hzero
        rw [← Std.ExtTreeSet.length_toList, List.length_eq_zero_iff] at hzero
        rw [← Std.ExtTreeSet.mem_toList, hzero] at hwanted
        cases hwanted
      refine ⟨fun tx ↦ ?_, ?_⟩
      · rw [hmem, Std.ExtTreeSet.mem_erase, ne_eq, Std.LawfulEqOrd.compare_eq_iff_eq,
          List.mem_cons, not_or, and_comm (a := ¬ hash = tx), and_assoc, eq_comm (a := hash)]
      · rw [hcount, Std.ExtTreeSet.size_erase,
          if_pos (Std.ExtTreeSet.contains_iff_mem.mpr hwanted)]
        show answered + 1 + (wanted.size - 1) = answered + wanted.size
        omega
    · have htaken : takeReceipt (answered, wanted) hash = (answered, wanted) := if_neg hwanted
      rw [htaken] at hmem hcount ⊢
      refine ⟨fun tx ↦ ?_, hcount⟩
      rw [hmem, List.mem_cons, not_or]
      constructor
      · rintro ⟨htx, hrest⟩
        refine ⟨htx, ?_, hrest⟩
        rintro rfl
        exact hwanted htx
      · rintro ⟨htx, -, hrest⟩
        exact ⟨htx, hrest⟩

theorem mem_receipts_takeReceipts :
    tx ∈ (f.takeReceipts transactions).2.receipts ↔ tx ∈ f.receipts ∧ tx ∉ transactions :=
  (foldl_takeReceipt transactions (0, f.receipts)).1 tx

/-- Taking receipts answers by how much less is wanted. -/
theorem takeReceipts_add_size (f : FastSync) (transactions : List Digest) :
    (f.takeReceipts transactions).1 + (f.takeReceipts transactions).2.receipts.size =
      f.receipts.size := by
  have := (foldl_takeReceipt transactions (0, f.receipts)).2
  rwa [Nat.zero_add] at this

end FastSync

namespace Seat

theorem registry_reportChainError (n : Node) (e : ChainError) :
    (n.reportChainError e).registry = n.registry := by
  unfold Node.reportChainError
  split <;> rfl

def transactionsOf (blocks : List Block) : List Digest :=
  blocks.flatMap fun b ↦ b.body.transactions

end Seat

/-! ### Walks with errors -/

/-- A seat at which blocks are handed over for fast import with errors set for them. -/
structure Erring where
  /-- The seat. -/
  seat : Seat
  /-- The errors that are set for the next blocks, one entry for each block. -/
  errors : List (Option ChainError)

namespace Erring

def seatPart : Part Erring Seat := ⟨seat, fun seat e ↦ { e with seat }⟩

/-- The chain answers a block with the error that is set for it, or as it does otherwise. -/
def storeFast (block : Block) : Step Erring (Except ChainError ImportOutcome) := fun e ↦
  let (answer, seat) := (Seat.storeFast block).exec (e.seat.failing e.errors.head?.join)
  (answer, { seat, errors := e.errors.tail })

/-- The seat with the errors as the place where blocks are walked down. -/
def walkSite : WalkSite Erring := ⟨seatPart, storeFast⟩

/-- Where no errors are set, the step answers as the other one does at the seat, and leaves the seat
that the other one leaves. -/
abbrev Mirrors {α : Type} (step : Step Erring α) (other : Step Seat α) : Prop :=
  Step.Mirrors seat (fun e ↦ e.errors = []) step other

namespace Mirrors

theorem run {α : Type} (step : Step Seat α) : Mirrors (walkSite.seat.run step) step :=
  fun _ h ↦ ⟨rfl, rfl, h⟩

theorem storeFast (block : Block) : Mirrors (storeFast block) (Seat.storeFast block) := by
  rintro ⟨s, errors⟩ rfl
  exact ⟨rfl, rfl, rfl⟩

theorem walkBlocks (blocks : List Block) :
    ∀ w, Mirrors (walkSite.walkBlocks blocks w) (Seat.walkBlocks blocks w) := by
  induction blocks with
  | nil => exact fun w ↦ .pure w
  | cons block rest ih =>
    intro w
    rw [Seat.walkBlocks, WalkSite.walkBlocks, WalkSite.walkBlocks]
    split
    · exact ih w
    split
    · exact .pure w
    refine .bind (storeFast block) fun answer ↦ ?_
    rcases answer with e | outcome
    · exact .bind (run _) fun _ ↦ .pure w
    · cases outcome with
      | imported best => exact .bind (run _) fun _ ↦ ih _
      | noParent => exact .pure w
      | invalid => exact .pure w
      | exist =>
        refine .bind (run get) fun s ↦ ?_
        cases s.node.chain.missingAncestor block with
        | some missing => exact ih _
        | none => exact .pure _

end Mirrors

/-- Where no errors are set, walking down a batch answers as it does at the seat, and leaves the
seat that it leaves there. -/
theorem mirrors_walkPivotChain (target : BlockId) (batch : BlockBatch) :
    Mirrors (walkSite.walkPivotChain target batch) (Seat.walkPivotChain target batch) := by
  refine .bind (Mirrors.walkBlocks _ _) fun w ↦ ?_
  cases w.transactions.isEmpty with
  | true => exact .pure _
  | false => exact .bind (Mirrors.run _) fun _ ↦ .bind (Mirrors.run _) fun _ ↦ .pure _

/-- Storing a block may replace the chain, takes the error that is set for it, and does nothing
else. -/
theorem exec_storeFast (block : Block) (e : Erring) :
    (walkSite.storeFast block).exec e =
      (.ok ((e.seat.node.chain.failing e.errors.head?.join).fastImport block).1,
        ⟨e.seat.withChain ((e.seat.node.chain.failing e.errors.head?.join).fastImport block).2,
          e.errors.tail⟩) := rfl

/-- What walking over some blocks leaves, when these were imported of them. -/
structure Walks (blocks imported : List Block) (w : PivotWalk) (e : Erring) (v : PivotWalk)
    (f : Erring) : Prop where
  /-- Some of the blocks were handed over in order, and these are those that the chain took. -/
  handed : ∃ handed, handed.Sublist blocks ∧
    Chain.FastImports e.seat.node.chain handed imported f.seat.node.chain
  /-- Their transactions are collected. -/
  transactions : v.transactions = w.transactions ++ Seat.transactionsOf imported
  /-- Nothing is sent. -/
  registry : f.seat.node.registry = e.seat.node.registry
  /-- The same receipts are wanted. -/
  receipts : f.seat.engine.fast.receipts = e.seat.engine.fast.receipts

namespace Walks

variable {block : Block} {rest imported : List Block} {w u v : PivotWalk} {e d f : Erring}

/-- Stopping before the blocks leaves everything. -/
theorem stop (blocks : List Block) (w : PivotWalk) (e : Erring) : Walks blocks [] w e w e :=
  ⟨⟨[], List.nil_sublist _, .done _⟩, (List.append_nil _).symm, rfl, rfl⟩

/-- A block above the one that is required is passed over. -/
theorem skip (h : Walks rest imported w e v f) : Walks (block :: rest) imported w e v f := by
  obtain ⟨handed, hsub, himports⟩ := h.handed
  exact ⟨⟨handed, hsub.cons block, himports⟩, h.transactions, h.registry, h.receipts⟩

/-- A block that the chain takes is counted among those imported. -/
theorem take {c : Chain} {best : Bool}
    (run : (e.seat.node.chain.failing e.errors.head?.join).fastImport block =
      (.ok (.imported best), c))
    (h : Walks rest imported (w.descend block) ⟨e.seat.storedFast c block, e.errors.tail⟩ v f) :
    Walks (block :: rest) (block :: imported) w e v f := by
  obtain ⟨handed, hsub, himports⟩ := h.handed
  refine ⟨⟨block :: handed, hsub.cons_cons block, .imported run himports⟩, ?_, h.registry,
    h.receipts⟩
  rw [h.transactions]
  simp [PivotWalk.descend, Seat.transactionsOf]

/-- Of a block that the chain does not take nothing is collected. -/
theorem pass {answer : Except ChainError ImportOutcome} (h : Walks rest imported u d v f)
    (run : (e.seat.node.chain.failing e.errors.head?.join).fastImport block =
      (answer, d.seat.node.chain))
    (other : ∀ best, answer ≠ .ok (.imported best)) (transactions : u.transactions = w.transactions)
    (registry : d.seat.node.registry = e.seat.node.registry)
    (receipts : d.seat.engine.fast.receipts = e.seat.engine.fast.receipts) :
    Walks (block :: rest) imported w e v f := by
  obtain ⟨handed, hsub, himports⟩ := h.handed
  exact ⟨⟨block :: handed, hsub.cons_cons block, .passed run other himports⟩,
    transactions ▸ h.transactions, h.registry.trans registry, h.receipts.trans receipts⟩

end Walks

/-- A walk over some blocks collects the transactions of those it stored, however it ends, and sends
nothing yet. -/
theorem exists_walks_walkBlocks (blocks : List Block) : ∀ (w : PivotWalk) (e : Erring),
    ∃ v f imported, (walkSite.walkBlocks blocks w).exec e = (.ok v, f) ∧
      Walks blocks imported w e v f := by
  induction blocks with
  | nil => exact fun w e ↦ ⟨w, e, [], rfl, .stop _ w e⟩
  | cons block rest ih =>
    intro w e
    rw [walkSite.exec_walkBlocks_cons]
    by_cases habove : w.required.number < block.number
    · rw [if_pos habove]
      obtain ⟨v, f, imported, hrun, h⟩ := ih w e
      exact ⟨v, f, imported, hrun, h.skip⟩
    by_cases hnamed : block.hash = w.required.hash
    case neg =>
      rw [if_neg habove, if_pos hnamed]
      exact ⟨w, e, [], rfl, .stop _ w e⟩
    rw [if_neg habove, if_neg (not_not_intro hnamed), exec_storeFast]
    cases hfast : (e.seat.node.chain.failing e.errors.head?.join).fastImport block with
    | mk answer c =>
      -- The walk may end here with what it collected before.
      have hend (u : PivotWalk) := Walks.stop rest u ⟨e.seat.withChain c, e.errors.tail⟩
      rcases answer with error | outcome
      · have hchain := Seat.chain_reportChainError (e.seat.withChain c).node error
        have hregistry := Seat.registry_reportChainError (e.seat.withChain c).node error
        have hreported : (e.seat.node.chain.failing e.errors.head?.join).fastImport block =
            (.error error, ((e.seat.withChain c).node.reportChainError error).chain) := by
          rw [hfast, hchain]
          rfl
        have hend := Walks.stop rest w ⟨{ e.seat with
          node := (e.seat.withChain c).node.reportChainError error }, e.errors.tail⟩
        exact ⟨w, _, [], rfl, hend.pass hreported (by simp) rfl hregistry rfl⟩
      · cases outcome with
        | noParent => exact ⟨w, _, [], rfl, (hend w).pass hfast (by simp) rfl rfl rfl⟩
        | invalid => exact ⟨w, _, [], rfl, (hend w).pass hfast (by simp) rfl rfl rfl⟩
        | imported best =>
          obtain ⟨v, f, imported, hrun, h⟩ :=
            ih (w.descend block) ⟨e.seat.storedFast c block, e.errors.tail⟩
          exact ⟨v, f, block :: imported, hrun, .take hfast h⟩
        | exist =>
          dsimp only
          split
          · next missing _ =>
            obtain ⟨v, f, imported, hrun, h⟩ :=
              ih { w with required := missing } ⟨e.seat.withChain c, e.errors.tail⟩
            exact ⟨v, f, imported, hrun, h.pass hfast (by simp) rfl rfl rfl⟩
          · exact ⟨_, _, [], rfl, (hend { w with finished := true }).pass hfast (by simp) rfl rfl
              rfl⟩

end Erring

namespace Seat

/-- The request for the receipts of some blocks, if they have transactions. -/
def receiptRequest (peer : PeerId) (blocks : List Block) : List Outbound :=
  if (transactionsOf blocks).isEmpty then []
  else [⟨peer, .requestReceipts (transactionsOf blocks)⟩]

/-- A walk down a batch wants the receipts of what it imported and asks the sender for them in one
message, if there are any; it sends nothing else. -/
structure Collects (batch : BlockBatch) (imported : List Block) (s t : Seat) : Prop where
  /-- These blocks of the batch were imported. -/
  ofBatch : Chain.Imported s.node.chain t.node.chain batch.blocks imported
  /-- Their receipts are wanted from then on. -/
  mem_receipts_iff (tx : Digest) : tx ∈ t.engine.fast.receipts ↔
    tx ∈ transactionsOf imported ∨ tx ∈ s.engine.fast.receipts
  /-- One message goes out if they have transactions, and none otherwise. -/
  outbox : t.node.registry.outbox =
    receiptRequest batch.peer imported ++ s.node.registry.outbox

end Seat

/-- Walking down a batch answers, and collects the receipts of what it imported, whatever errors are
set. -/
theorem Erring.exists_collects_walkPivotChain (target : BlockId) (batch : BlockBatch)
    (e : Erring) :
    ∃ next f imported, (walkSite.walkPivotChain target batch).exec e = (.ok next, f) ∧
      Seat.Collects batch imported e.seat f.seat := by
  obtain ⟨w, f, imported, hrun, h⟩ := exists_walks_walkBlocks batch.blocks (.start target) e
  obtain ⟨handed, hsub, himports⟩ := h.handed
  have htx : w.transactions = Seat.transactionsOf imported := h.transactions
  rw [WalkSite.walkPivotChain, Step.exec_bind_of_ok hrun, htx]
  by_cases hnone : (Seat.transactionsOf imported).isEmpty
  · rw [if_neg (by simp [hnone])]
    refine ⟨_, f, imported, rfl, himports.of_sublist hsub, fun tx ↦ ?_, ?_⟩
    · rw [h.receipts, List.isEmpty_iff.mp hnone]
      simp
    · rw [h.registry, Seat.receiptRequest, if_pos hnone]
      rfl
  · rw [if_pos (by simp [hnone])]
    refine ⟨_, _, imported, rfl, himports.of_sublist hsub, fun tx ↦ ?_, ?_⟩
    · rw [← h.receipts]
      exact FastSync.mem_receipts_wantReceipts
    · rw [Seat.receiptRequest, if_neg hnone, ← h.registry]
      rfl

/-! ### Runs -/

/-- Something that bears on the receipts that are wanted. -/
inductive ReceiptEvent where
  /-- A batch is walked down, with errors set for the blocks that are handed over, one entry for
  each. -/
  | walk (target : BlockId) (batch : BlockBatch) (errors : List (Option ChainError))
  /-- Receipts arrive. -/
  | receipts (transactions : List Digest)
  /-- Something happens to the node: errors are set, blocks are linked, messages are taken. -/
  | meanwhile (node : Node)

def ReceiptEvent.leaves : ReceiptEvent → Seat → Seat
  | walk target batch errors, s =>
    ((Erring.walkSite.walkPivotChain target batch).leaves ⟨s, errors⟩).seat
  | receipts transactions, s => (Seat.takeReceipts transactions).leaves s
  | meanwhile node, s => { s with node }

/-- A walk for which no errors are set leaves the seat that walking down the batch leaves. -/
theorem ReceiptEvent.leaves_walk_nil (target : BlockId) (batch : BlockBatch) (s : Seat) :
    (walk target batch []).leaves s = (Seat.walkPivotChain target batch).leaves s := by
  obtain ⟨-, hseat, -⟩ := Erring.mirrors_walkPivotChain target batch ⟨s, []⟩ rfl
  exact hseat

namespace Seat

def afterFirst (s : Seat) (events : List ReceiptEvent) (count : Nat) : Seat :=
  (events.take count).foldl (fun t event ↦ event.leaves t) s

/-- The event with this index is a walk that stores the block. -/
def ImportsAt (s : Seat) (events : List ReceiptEvent) (i : Nat) (b : Block) : Prop :=
  (∃ target batch errors, events[i]? = some (.walk target batch errors)) ∧
    (s.afterFirst events i).node.chain.block? b.hash = none ∧
    (s.afterFirst events (i + 1)).node.chain.block? b.hash = some b

/-- With the event with this index a receipt arrives while it is wanted. -/
def ArrivesAt (s : Seat) (events : List ReceiptEvent) (i : Nat) (tx : Digest) : Prop :=
  ∃ transactions, events[i]? = some (.receipts transactions) ∧ tx ∈ transactions ∧
    tx ∈ (s.afterFirst events i).engine.fast.receipts

section

variable {s : Seat} {events : List ReceiptEvent} {i : Nat} {tx : Digest}

/-- A walk of the run answers, and collects the receipts of what it imported. -/
theorem exists_collects_afterFirst {target : BlockId} {batch : BlockBatch}
    {errors : List (Option ChainError)} (h : events[i]? = some (.walk target batch errors)) :
    ∃ next left imported,
      (Erring.walkSite.walkPivotChain target batch).exec ⟨s.afterFirst events i, errors⟩ =
        (.ok next, ⟨s.afterFirst events (i + 1), left⟩) ∧
      Collects batch imported (s.afterFirst events i) (s.afterFirst events (i + 1)) := by
  have hnext : s.afterFirst events (i + 1) =
      (ReceiptEvent.walk target batch errors).leaves (s.afterFirst events i) :=
    foldl_take_succ h _ s
  obtain ⟨next, f, imported, hrun, hcollects⟩ :=
    Erring.exists_collects_walkPivotChain target batch ⟨s.afterFirst events i, errors⟩
  rw [hnext, ReceiptEvent.leaves, Step.leaves, hrun]
  exact ⟨next, f.errors, imported, rfl, hcollects⟩

/-- After an event a receipt is wanted if the event stored a block with its transaction, or if it
was wanted and did not arrive. -/
theorem mem_receipts_succ :
    tx ∈ (s.afterFirst events (i + 1)).engine.fast.receipts ↔
      (∃ b, s.ImportsAt events i b ∧ tx ∈ b.body.transactions) ∨
        tx ∈ (s.afterFirst events i).engine.fast.receipts ∧ ¬ s.ArrivesAt events i tx := by
  cases hevent : events[i]? with
  | none =>
    rw [afterFirst, foldl_take_succ_of_none hevent]
    simp [ImportsAt, ArrivesAt, hevent, afterFirst]
  | some event =>
    cases event with
    | walk target batch errors =>
      obtain ⟨next, left, imported, -, hcollects⟩ := exists_collects_afterFirst (s := s) hevent
      rw [hcollects.mem_receipts_iff]
      have harrives : ¬ s.ArrivesAt events i tx := by simp [ArrivesAt, hevent]
      have himports : tx ∈ transactionsOf imported ↔
          ∃ b, s.ImportsAt events i b ∧ tx ∈ b.body.transactions := by
        rw [transactionsOf, List.mem_flatMap]
        apply exists_congr
        intro b
        rw [hcollects.ofBatch.mem_iff, ImportsAt]
        simp [hevent]
      rw [himports]
      simp [harrives]
    | receipts transactions =>
      have hnext : s.afterFirst events (i + 1) =
          (takeReceipts transactions).leaves (s.afterFirst events i) := foldl_take_succ hevent _ s
      have hleaves : (s.afterFirst events (i + 1)).engine.fast =
          ((s.afterFirst events i).engine.fast.takeReceipts transactions).2 := by
        rw [hnext]
        rfl
      have himports : ¬ ∃ b, s.ImportsAt events i b ∧ tx ∈ b.body.transactions := by
        simp [ImportsAt, hevent]
      rw [hleaves, FastSync.mem_receipts_takeReceipts, or_iff_right himports]
      apply and_congr_right
      intro hwanted
      simp [ArrivesAt, hevent, hwanted]
    | meanwhile node =>
      have hnext : s.afterFirst events (i + 1) = { s.afterFirst events i with node } :=
        foldl_take_succ hevent _ s
      rw [hnext]
      simp [ImportsAt, ArrivesAt, hevent]

/-- A receipt is wanted if it was from the start and never arrived, or if a walk stored a block with
its transaction and it did not arrive since. -/
theorem mem_receipts_afterFirst (n : Nat) :
    tx ∈ (s.afterFirst events n).engine.fast.receipts ↔
      (tx ∈ s.engine.fast.receipts ∧ ∀ j < n, ¬ s.ArrivesAt events j tx) ∨
        ∃ i < n, ∃ b, s.ImportsAt events i b ∧ tx ∈ b.body.transactions ∧
          ∀ j < n, i < j → ¬ s.ArrivesAt events j tx := by
  induction n with
  | zero => simp [afterFirst]
  | succ n ih =>
    rw [mem_receipts_succ, ih]
    constructor
    · rintro (⟨b, himports, htx⟩ | ⟨⟨hstart, hnever⟩ | ⟨i, hi, b, himports, htx, hnone⟩, hlast⟩)
      · exact .inr ⟨n, Nat.lt_succ_self n, b, himports, htx, fun j hj hn ↦ by omega⟩
      · refine .inl ⟨hstart, fun j hj ↦ ?_⟩
        rcases Nat.lt_succ_iff_lt_or_eq.mp hj with hj | rfl
        · exact hnever j hj
        · exact hlast
      · refine .inr ⟨i, Nat.lt_succ_of_lt hi, b, himports, htx, fun j hj hij ↦ ?_⟩
        rcases Nat.lt_succ_iff_lt_or_eq.mp hj with hj | rfl
        · exact hnone j hj hij
        · exact hlast
    · rintro (⟨hstart, hnever⟩ | ⟨i, hi, b, himports, htx, hnone⟩)
      · exact .inr ⟨.inl ⟨hstart, fun j hj ↦ hnever j (Nat.lt_succ_of_lt hj)⟩,
          hnever n (Nat.lt_succ_self n)⟩
      · rcases Nat.lt_succ_iff_lt_or_eq.mp hi with hi | rfl
        · exact .inr ⟨.inr ⟨i, hi, b, himports, htx,
            fun j hj hij ↦ hnone j (Nat.lt_succ_of_lt hj) hij⟩, hnone n (Nat.lt_succ_self n) hi⟩
        · exact .inl ⟨b, himports, htx⟩

/-- A new engine on any node walks down batches and takes receipts, in any order, with any errors
set for the blocks that it hands over and with whatever happens to the node in between. At every
moment a receipt is wanted exactly when a walk stored a block with its transaction after it last
arrived while it was wanted. Every walk answers, and asks the sender of its batch once for the
receipts of just the blocks that it imported, in order, if these have transactions; it sends nothing
else. Receipts that arrive are answered with the number by which less is wanted. -/
theorem mem_receipts_iff_imported (node : Node) (settings : Settings) (best : UInt64)
    (inbox : TrieInbox) (events : List ReceiptEvent) :
    (∀ n tx, tx ∈ (afterFirst ⟨node, .new settings best inbox⟩ events n).engine.fast.receipts ↔
      ∃ i < n, ∃ b, ImportsAt ⟨node, .new settings best inbox⟩ events i b ∧
        tx ∈ b.body.transactions ∧
        ∀ j < n, i < j → ¬ ArrivesAt ⟨node, .new settings best inbox⟩ events j tx) ∧
    (∀ i target batch errors, events[i]? = some (.walk target batch errors) →
      ∃ next left imported,
        (Erring.walkSite.walkPivotChain target batch).exec
            ⟨afterFirst ⟨node, .new settings best inbox⟩ events i, errors⟩ =
          (.ok next, ⟨afterFirst ⟨node, .new settings best inbox⟩ events (i + 1), left⟩) ∧
        Collects batch imported (afterFirst ⟨node, .new settings best inbox⟩ events i)
          (afterFirst ⟨node, .new settings best inbox⟩ events (i + 1))) ∧
    ∀ i transactions, events[i]? = some (.receipts transactions) → ∃ answered,
      (takeReceipts transactions).exec (afterFirst ⟨node, .new settings best inbox⟩ events i) =
        (.ok answered, afterFirst ⟨node, .new settings best inbox⟩ events (i + 1)) ∧
      answered +
          (afterFirst ⟨node, .new settings best inbox⟩ events (i + 1)).engine.fast.receipts.size =
        (afterFirst ⟨node, .new settings best inbox⟩ events i).engine.fast.receipts.size := by
  refine ⟨fun n tx ↦ ?_, fun i target batch errors h ↦ exists_collects_afterFirst h,
    fun i transactions h ↦ ?_⟩
  · have hstart : ¬ tx ∈ (Engine.new settings best inbox).fast.receipts :=
      Std.ExtTreeSet.not_mem_empty
    rw [mem_receipts_afterFirst]
    simp [hstart]
  · have hnext : afterFirst ⟨node, .new settings best inbox⟩ events (i + 1) =
        (takeReceipts transactions).leaves (afterFirst ⟨node, .new settings best inbox⟩ events i) :=
      foldl_take_succ h _ _
    rw [hnext]
    generalize afterFirst ⟨node, .new settings best inbox⟩ events i = s
    exact ⟨_, rfl, s.engine.fast.takeReceipts_add_size transactions⟩

end

/-! ### A walk that is broken off -/

/-- A block with one transaction on top of the first block of every chain. -/
def lower : Block := .make 1 Block.genesis.hash 1 0 [.ofNat 1] .zero

/-- A block with two transactions on top of it. -/
def upper : Block := .make 2 lower.hash 1 0 [.ofNat 2, .ofNat 3] .zero

/-- Both are walked down, and the chain fails at the lower one; one of the receipts arrives. -/
def brokenWalk : List ReceiptEvent :=
  [.walk upper.id ⟨.ofNat 1, "peer-1", [upper, lower]⟩ [none, some (.storage "boom")],
    .receipts [.ofNat 2]]

/-- The upper block is stored and the lower one is not. The receipts of the upper block are asked
for, and the one that did not arrive is still wanted. -/
theorem exec_brokenWalk {c : Chain} (new : Chain.new .genesis = .ok c) :
    ((genesisSeat c).afterFirst brokenWalk 1).node.chain.block? upper.hash = some upper ∧
      ((genesisSeat c).afterFirst brokenWalk 1).node.chain.block? lower.hash = none ∧
      ((genesisSeat c).afterFirst brokenWalk 1).node.registry.outbox =
        [⟨.ofNat 1, .requestReceipts [.ofNat 2, .ofNat 3]⟩] ∧
      ((genesisSeat c).afterFirst brokenWalk 2).engine.fast.receipts.toList = [.ofNat 3] := by
  apply of_genesis new
  decide +kernel

/-- After a walk that was broken off the receipt that is still wanted is that of a block which the
walk stored. -/
theorem mem_receipts_iff_imported_brokenWalk : ∃ c, Chain.new .genesis = .ok c ∧
    ((genesisSeat c).afterFirst brokenWalk 1).node.chain.block? lower.hash = none ∧
    ((genesisSeat c).afterFirst brokenWalk 1).node.registry.outbox =
      [⟨.ofNat 1, .requestReceipts [.ofNat 2, .ofNat 3]⟩] ∧
    ((genesisSeat c).afterFirst brokenWalk 2).engine.fast.receipts.toList = [.ofNat 3] ∧
    ∃ i < 2, ∃ b, (genesisSeat c).ImportsAt brokenWalk i b ∧ .ofNat 3 ∈ b.body.transactions ∧
      ∀ j < 2, i < j → ¬ (genesisSeat c).ArrivesAt brokenWalk j (.ofNat 3) := by
  obtain ⟨c, new, -⟩ := exists_genesis
  obtain ⟨-, hlower, houtbox, hwanted⟩ := exec_brokenWalk new
  obtain ⟨hmem, -, -⟩ := mem_receipts_iff_imported (genesisSeat c).node {} c.bestNumber .opened
    brokenWalk
  have htx : .ofNat 3 ∈ ((genesisSeat c).afterFirst brokenWalk 2).engine.fast.receipts := by
    rw [← Std.ExtTreeSet.mem_toList, hwanted]
    exact List.mem_cons_self
  exact ⟨c, new, hlower, houtbox, hwanted, (hmem 2 (.ofNat 3)).mp htx⟩

end Seat
end ChainSync
