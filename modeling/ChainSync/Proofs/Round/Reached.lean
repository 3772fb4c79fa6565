import ChainSync.Proofs.Chain.Linked
import ChainSync.Proofs.Round.Exchange
import Mathlib.Data.List.Chain

/-!
# Seats reached with a single peer

A new engine over a chain of one block imports batches of linked blocks from anyone, and has rounds
at least a second apart with one and the same peer, which may advertise and answer something else
each time. Main statement: at every seat that is reached so everything is quiet and calm, no height
is pruned, the first block is stored, and so is every block that is remembered.
-/

namespace ChainSync

namespace Seat

/-! ### What imports keep -/

/-- No height is pruned, the first block is stored, and so is every block that is remembered. -/
structure Founded (genesis : Block) (s : Seat) : Prop where
  /-- No height is pruned. -/
  unpruned : s.node.chain.pruneFloor = none
  /-- The first block is stored. -/
  first : s.node.chain.block? genesis.hash = some genesis
  /-- Every remembered block is stored. -/
  cache {h : Digest} : h ∈ s.engine.imported.keys → (s.node.chain.block? h).isSome

/-- Imports keep what is stored, and remember stored blocks only. -/
theorem Founded.keptByImports (genesis : Block) : KeptByImports (Founded genesis) where
  linked {s peer blocks imported outcome c} founded links := by
    have hframe := (Chain.importBlocks_frame blocks .exist s.node.chain).2
    have hwithin := Chain.importBlocks_within blocks .exist s.node.chain
    rw [links] at hframe hwithin
    refine ⟨hframe.trans founded.unpruned, hwithin founded.first, ?_⟩
    intro h hh
    rcases RecentSet.mem_of_mem_insertAll imported hh with hh | hh
    · obtain ⟨b, hb⟩ := Option.isSome_iff_exists.mp (founded.cache hh)
      exact Option.isSome_iff_exists.mpr ⟨b, hwithin hb⟩
    · exact Chain.isSome_of_mem_imported blocks links h hh
  drained _ _ founded _ := ⟨founded.unpruned, founded.first, founded.cache⟩
  withIndex _ founded := ⟨founded.unpruned, founded.first, founded.cache⟩
  moved _ _ founded := ⟨founded.unpruned, founded.first, founded.cache⟩
  counted _ _ founded := ⟨founded.unpruned, founded.first, founded.cache⟩
  remembered {s hash number} founded known := by
    refine ⟨founded.unpruned, founded.first, ?_⟩
    intro h hh
    rcases RecentSet.mem_of_mem_insertAll [hash] hh with hh | hh
    · exact founded.cache hh
    · obtain rfl := List.mem_singleton.mp hh
      unfold Chain.isStored at known
      change (s.node.chain.block? h).isSome
      cases hb : s.node.chain.block? h with
      | none =>
        rw [hb] at known
        cases known
      | some b => rfl
  noted founded := ⟨founded.unpruned, founded.first, founded.cache⟩

/-! ### Steps and runs -/

/-- Every block is sealed and has the body that it names, and each one follows the one before. -/
structure ValidBatch (batch : BlockBatch) : Prop where
  /-- Every block is sealed and has its body. -/
  sound : ∀ block ∈ batch.blocks, block.header.isSealed = true ∧ block.hasMatchingBody = true
  /-- The blocks are linked. -/
  linked : batch.blocks.IsChain fun block next ↦ next.parent = block.hash ∧ next.Follows block

theorem validBatch_singleton {block : Block} (isSealed : block.header.isSealed = true)
    (hasMatchingBody : block.hasMatchingBody = true) (peer : PeerId) (name : String) :
    ValidBatch ⟨peer, name, [block]⟩ := by
  refine ⟨fun b hb ↦ ?_, List.isChain_singleton _⟩
  obtain rfl := List.mem_singleton.mp hb
  exact ⟨isSealed, hasMatchingBody⟩

def meeting (r : Remote) (peer : PeerId) (info : PeerInfo) (now : Millis) : Step Seat Unit := do
  onNode fun n ↦ { n with registry := n.registry.upsert peer info }
  round r now

/-- The seats that a new engine comes to by importing batches of linked blocks and by rounds with a
single peer, and from when on the next round may be. -/
inductive Reached (genesis : Block) (peer : PeerId) : Millis → Seat → Prop
  /-- A new engine over a chain of one block. -/
  | fresh {chain : Chain} (start : Chain.new genesis = .ok chain) (accepts : Header → Bool)
      (settings : Settings) (inbox : TrieInbox) :
    Reached genesis peer 0 (.fresh chain accepts settings inbox .empty)
  /-- A batch is imported. -/
  | batch {due : Millis} {s t : Seat} {batch : BlockBatch} {report : BatchReport}
      (reached : Reached genesis peer due s) (valid : ValidBatch batch)
      (run : (processBatch batch).exec s = (.ok report, t)) : Reached genesis peer due t
  /-- A round with the peer. -/
  | round {due now : Millis} {s t : Seat} {r : Remote} {info : PeerInfo}
      (reached : Reached genesis peer due s) (rested : due ≤ now)
      (run : (meeting r peer info now).exec s = (.ok (), t)) :
    Reached genesis peer (now + PeerRequests.window) t

/-- What holds at every seat that is reached. -/
structure Poised (genesis : Block) (peer : PeerId) (due : Millis) (s : Seat) : Prop where
  /-- Everything is quiet. -/
  quiet : Quiet peer due s
  /-- No other peer is connected. -/
  only : ∀ other ∈ s.node.registry.peers, other = peer
  /-- No error is set, and pending ranges are kept in memory. -/
  calm : Calm s
  /-- The first block and every remembered one are stored. -/
  founded : Founded genesis s

/-- The seat with a peer connected, or with something else that the peer advertises. -/
def joined (s : Seat) (peer : PeerId) (info : PeerInfo) : Seat :=
  { s with node := { s.node with registry := s.node.registry.upsert peer info } }

/-- A meeting is a round at the seat to which the peer is connected. -/
theorem exec_meeting (r : Remote) (peer : PeerId) (info : PeerInfo) (now : Millis) (s : Seat) :
    (meeting r peer info now).exec s = (round r now).exec (s.joined peer info) := by
  have hjoin : (onNode fun n ↦ { n with registry := n.registry.upsert peer info }).exec s =
      (.ok (), s.joined peer info) := rfl
  rw [meeting, Step.exec_bind_of_ok hjoin]

namespace Poised

variable {genesis : Block} {peer : PeerId} {due now : Millis} {s t : Seat}

theorem fresh {chain : Chain} (start : Chain.new genesis = .ok chain) (peer : PeerId)
    (accepts : Header → Bool) (settings : Settings) (inbox : TrieInbox) :
    Poised genesis peer 0 (.fresh chain accepts settings inbox .empty) := by
  obtain ⟨c, hnew, hblocks, -, -, -, hprune, hfail⟩ := Chain.exists_new (Chain.room_new start)
  rw [start] at hnew
  cases hnew
  refine ⟨quiet_new rfl .., ?_, calm_fresh hfail .., hprune, ?_, fun hh ↦ nomatch hh⟩
  · intro other h
    simp [Seat.fresh, Node.new, Registry.empty] at h
  · change chain.block? genesis.hash = some genesis
    simp [Chain.block?, hblocks]

/-- A peer that is connected is the only one, and leaves everything else alone. -/
theorem joined (poised : Poised genesis peer due s) (info : PeerInfo) :
    Poised genesis peer due (s.joined peer info) ∧
      (s.joined peer info).node.registry.active = [(peer, info)] := by
  have hpeers : ∀ other ∈ s.node.registry.peers.insert peer info, other = peer := by
    intro other h
    rcases Std.ExtTreeMap.mem_insert.mp h with he | h
    · exact (Std.LawfulEqOrd.eq_of_compare he).symm
    · exact poised.only other h
  obtain ⟨quiet, only, calm, founded⟩ := poised
  refine ⟨⟨⟨quiet.batches, quiet.preferred, quiet.outbox, quiet.lone, quiet.tracked,
    quiet.answered⟩, hpeers, ⟨calm.later, calm.chain, calm.pending, calm.memory⟩,
    founded.unpruned, founded.first, founded.cache⟩, ?_⟩
  exact toList_eq_singleton_of_getElem? Std.ExtTreeMap.getElem?_insert_self hpeers

/-- What a pass leaves alone stays poised. -/
theorem of_settled (poised : Poised genesis peer due s) {first : UInt64} {size : UInt32}
    {got : Nat} (settled : Settled peer now first size got s t) :
    Poised genesis peer (now + PeerRequests.window) t := by
  obtain ⟨beside, quiet, -, -, -⟩ := settled
  refine ⟨quiet, ?_, ⟨?_, ?_, ?_, ?_⟩, ?_, ?_, ?_⟩
  · rw [beside.peers]
    exact poised.only
  · exact beside.later.trans poised.calm.later
  · rw [beside.chain]
    exact poised.calm.chain
  · rw [beside.pending]
    exact poised.calm.pending
  · rw [beside.pending]
    exact poised.calm.memory
  · rw [beside.chain]
    exact poised.founded.unpruned
  · rw [beside.chain]
    exact poised.founded.first
  · intro h hh
    rw [beside.imported] at hh
    rw [beside.chain]
    exact poised.founded.cache hh

/-- Importing a batch leaves everything poised. -/
theorem processBatch (poised : Poised genesis peer due s) {batch : BlockBatch}
    {report : BatchReport} (run : (Seat.processBatch batch).exec s = (.ok report, t)) :
    Poised genesis peer due t := by
  obtain ⟨calm, founded⟩ :=
    (Founded.keptByImports genesis).processBatch poised.calm poised.founded run
  obtain ⟨-, kept⟩ := (Retains.keptByImports s).processBatch poised.calm (.refl s) run
  refine ⟨poised.quiet.of_retains kept, ?_, calm, founded⟩
  rw [kept.registry]
  exact poised.only

/-- A round with the peer leaves everything poised. -/
theorem meeting (poised : Poised genesis peer due s) {r : Remote} {info : PeerInfo}
    (rested : due ≤ now) (run : (Seat.meeting r peer info now).exec s = (.ok (), t)) :
    Poised genesis peer (now + PeerRequests.window) t := by
  obtain ⟨poised, active⟩ := poised.joined info
  have ends := poised.quiet.roundEnd active rested r
  rw [exec_meeting] at run
  rw [run] at ends
  generalize hanswer : (Except.ok () : Except Fault Unit) = answer at ends
  cases ends with
  | crowded _ | unlinked _ _ _ | uncounted _ _ _ _ => cases hanswer
  | light _ settled => exact poised.of_settled settled
  | withheld _ _ _ settled => exact poised.of_settled settled
  | missed _ _ _ settled => exact poised.of_settled settled
  | @imported _ _ answer _ _ _ _ _ settled run =>
    cases answer with
    | error e => cases hanswer
    | ok report => exact (poised.of_settled settled).processBatch run

end Poised

/-- Every seat that is reached is poised. -/
theorem Reached.poised {genesis : Block} {peer : PeerId} {due : Millis} {s : Seat}
    (reached : Reached genesis peer due s) : Poised genesis peer due s := by
  induction reached with
  | fresh start accepts settings inbox => exact .fresh start peer accepts settings inbox
  | batch _ _ run ih => exact ih.processBatch run
  | round _ rested run ih => exact ih.meeting rested run

end Seat
end ChainSync
