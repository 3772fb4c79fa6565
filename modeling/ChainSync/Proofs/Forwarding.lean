import ChainSync.Proofs.Propagation

/-!
# A block is passed on once

Passing a block on is forwarding it and handing it to the chain. Of the blocks that peers announce
one is passed on when its header is accepted, its hash is not noted and it extends the best block;
any other leaves the node as it is. Its hash is noted before, so as long as nothing is pushed out
of the set of hashes noted, no later block with the same hash is passed on.
-/

namespace ChainSync

namespace Registry

theorem mem_active {r : Registry} {entry : PeerId × PeerInfo} :
    entry ∈ r.active ↔ r.peers[entry.1]? = some entry.2 :=
  Std.ExtTreeMap.mem_toList_iff_getElem?_eq_some

theorem nodup_active (r : Registry) : (r.active.map Prod.fst).Nodup := by
  refine List.pairwise_map.mpr (Std.ExtTreeMap.distinct_keys_toList.imp fun {a b} h heq ↦ h ?_)
  rw [heq]
  exact Std.ReflOrd.compare_self

def withBlock (r : Registry) (block : Block) (peers : List PeerId) : Registry :=
  { r with
    outbox := (peers.map fun peer ↦ ⟨peer, .broadcastNewBlock block⟩).reverse ++ r.outbox }

end Registry

namespace Node

/-- Broadcasting a block sends it to each of the peers, in order. -/
theorem broadcast_eq (block : Block) (peers : List PeerId) (n : Node) :
    n.broadcast block peers = { n with registry := n.registry.withBlock block peers } := by
  unfold broadcast
  induction peers generalizing n with
  | nil => rfl
  | cons peer rest ih =>
    rw [List.foldl_cons, ih, Registry.withBlock, Registry.withBlock, List.map_cons,
      List.reverse_cons, List.append_assoc]
    rfl

/-- A block is for the connected peers that do not advertise more than it, apart from its
sender. -/
theorem mem_forwardTargets {n : Node} {sender peer : PeerId} {block : Block} :
    peer ∈ n.forwardTargets sender block ↔
      peer ≠ sender ∧ ∃ info, n.registry.peers[peer]? = some info ∧
        info.bestNumber ≤ block.number := by
  simp only [forwardTargets, List.mem_map, List.mem_filter, Registry.mem_active, Bool.and_eq_true,
    decide_eq_true_eq]
  constructor
  · rintro ⟨⟨peer, info⟩, ⟨found, other, least⟩, rfl⟩
    exact ⟨other, info, found, least⟩
  · rintro ⟨other, info, found, least⟩
    exact ⟨⟨peer, info⟩, ⟨found, other, least⟩, rfl⟩

theorem nodup_forwardTargets (n : Node) (sender : PeerId) (block : Block) :
    (n.forwardTargets sender block).Nodup :=
  n.registry.nodup_active.sublist (List.filter_sublist.map Prod.fst)

end Node

namespace Chain

theorem handed_importBlocks_singleton (b : Block) (last : ImportOutcome) (c : Chain) :
    ((importBlocks [b] last).leaves c).handed = b.hash :: c.handed := by
  have ha := (attempt_importBlock (c.withHanded b.hash) b).handed
  rw [Step.leaves, exec_importBlocks_cons]
  cases hx : (importBlock b).exec (c.withHanded b.hash) with
  | mk r d =>
    rw [hx] at ha
    cases r with
    | error e => exact ha
    | ok outcome => cases outcome <;> exact ha

/-- Linking a block never leaves the chain as it was: the error that is set for it is answered, or
the block counts as handed over. -/
theorem leaves_connect_ne (b : Block) (c : Chain) : (connect [b]).leaves c ≠ c := by
  intro same
  rw [Step.leaves, exec_connect] at same
  cases hnext : c.nextFailure with
  | some e =>
    rw [hnext] at same
    have hnone : c.nextFailure = none := (congrArg Chain.nextFailure same).symm
    rw [hnext] at hnone
    cases hnone
  | none =>
    rw [hnext] at same
    have hhanded := handed_importBlocks_singleton b .exist c.takeFailure.2
    rw [Step.leaves] at hhanded
    cases hx : (importBlocks [b] .exist).exec c.takeFailure.2 with
    | mk answer d =>
      rw [hx] at same hhanded
      have hsame : d = c := by cases answer <;> exact same
      rw [hsame] at hhanded
      exact absurd hhanded.symm (List.cons_ne_self _ _)

end Chain

namespace Seat

open Chain (sprout)

/-! ### What passing a block on leaves -/

/-- Handing blocks over counts down to the error set for the engine, and links them if it is not
due. Nothing else of the node is read or changed. -/
theorem node_leaves_connect (blocks : List Block) (s : Seat) :
    ((connect blocks).leaves s).node = { s.node with
      laterFailure := s.node.takeLaterFailure.2.laterFailure
      chain := if s.node.takeLaterFailure.1.isSome then s.node.chain
        else (Chain.connect blocks).leaves s.node.chain } := by
  have hget : nodePart.get s = s.node := rfl
  obtain ⟨laterFailure, hlater⟩ := s.node.exists_takeLaterFailure
  rw [Step.leaves]
  simp only [connect, Node.connect, Step.exec_part, Step.exec_bind, Step.exec_update, hget]
  cases htake : s.node.takeLaterFailure with
  | mk failure n =>
    obtain rfl : n = { s.node with laterFailure } := by rw [← hlater, htake]
    cases failure with
    | some e => rfl
    | none => rfl

/-- Handing blocks over goes the same way whoever is connected and whatever messages wait. -/
theorem node_leaves_connect_withRegistry (blocks : List Block) (s : Seat) (registry : Registry) :
    ((connect blocks).leaves (s.withRegistry registry)).node =
      { ((connect blocks).leaves s).node with registry } := by
  rw [node_leaves_connect, node_leaves_connect]
  unfold Node.takeLaterFailure withRegistry
  cases s.node.laterFailure with
  | none => rfl
  | some pending =>
    obtain ⟨count, e⟩ := pending
    cases count <;> rfl

/-- Handing a block over never leaves the chain and the error set for the engine as they were. -/
theorem chain_or_laterFailure_leaves_connect_ne (block : Block) (s : Seat) :
    ((connect [block]).leaves s).node.chain ≠ s.node.chain ∨
      ((connect [block]).leaves s).node.laterFailure ≠ s.node.laterFailure := by
  rw [node_leaves_connect]
  cases hlater : s.node.laterFailure with
  | none =>
    have htake : s.node.takeLaterFailure.1 = none := by rw [Node.takeLaterFailure, hlater]
    left
    rw [htake]
    exact Chain.leaves_connect_ne block s.node.chain
  | some pending =>
    obtain ⟨count, e⟩ := pending
    right
    cases count with
    | zero => simp [Node.takeLaterFailure, hlater]
    | succ count => simp [Node.takeLaterFailure, hlater]

/-- Linking an announced block leaves the node that handing it over leaves, apart from alarms. -/
theorem exists_node_leaves_linkAnnounced (block : Block) (s : Seat) :
    ∃ alarms, ((linkAnnounced block).leaves s).node =
      { ((connect [block]).leaves s).node with alarms } := by
  rw [linkAnnounced, Step.leaves_bind, Step.leaves]
  cases (connect [block]).exec s with
  | mk outcome t =>
    cases outcome with
    | error e => exact ⟨_, rfl⟩
    | ok answer =>
      cases answer with
      | ok report =>
        dsimp only
        split
        · exact ⟨_, rfl⟩
        · exact ⟨_, rfl⟩
      | error e => exact t.node.exists_reportChainError e

/-- A peer is to get a block: it is connected, it is not the sender, it does not advertise more than
the block, and blocks are forwarded here. -/
def IsRecipient (s : Seat) (sender : PeerId) (block : Block) (peer : PeerId) : Prop :=
  s.engine.settings.syncOnlyNode = false ∧ peer ≠ sender ∧
    ∃ info, s.node.registry.peers[peer]? = some info ∧ info.bestNumber ≤ block.number

/-- A block was forwarded to the peers that are to get it, and handed to the chain. -/
structure PassedOn (s : Seat) (sender : PeerId) (block : Block) (t : Seat) : Prop where
  /-- Each of the peers was sent the block once, and nothing else was sent. -/
  sent : ∃ peers : List PeerId, peers.Nodup ∧
    (∀ peer, peer ∈ peers ↔ s.IsRecipient sender block peer) ∧
    t.node.registry.outbox =
      (peers.map fun peer ↦ ⟨peer, .broadcastNewBlock block⟩).reverse ++ s.node.registry.outbox
  /-- The chain is the one that handing the block over leaves. -/
  chain : t.node.chain = ((connect [block]).leaves s).node.chain
  /-- The error set for the engine is counted down. -/
  laterFailure : t.node.laterFailure = ((connect [block]).leaves s).node.laterFailure

/-- Passing a block on changes the node. -/
theorem PassedOn.node_ne {s t : Seat} {sender : PeerId} {block : Block}
    (h : PassedOn s sender block t) : t.node ≠ s.node := by
  intro same
  rcases chain_or_laterFailure_leaves_connect_ne block s with hchain | hlater
  · exact hchain (h.chain.symm.trans (congrArg Node.chain same))
  · exact hlater (h.laterFailure.symm.trans (congrArg Node.laterFailure same))

/-- Forwarding a block sends it to the peers that are to get it. -/
theorem exists_exec_forward_recipients (sender : PeerId) (block : Block) (s : Seat) :
    ∃ answer peers, (forward sender block).exec s =
        (.ok answer, s.withRegistry (s.node.registry.withBlock block peers)) ∧
      peers.Nodup ∧ ∀ peer, peer ∈ peers ↔ s.IsRecipient sender block peer := by
  unfold forward IsRecipient
  rw [Step.exec_bind, Step.exec_get]
  dsimp only
  cases s.engine.settings.syncOnlyNode with
  | true => exact ⟨_, [], rfl, List.nodup_nil, fun peer ↦ by simp⟩
  | false =>
    have hsent : (onNode (Node.broadcast block (s.node.forwardTargets sender block))).exec s =
        (.ok (), s.withRegistry
          (s.node.registry.withBlock block (s.node.forwardTargets sender block))) := by
      rw [withRegistry, ← Node.broadcast_eq]
      rfl
    rw [Bool.not_false, if_pos rfl, Step.exec_bind_of_ok hsent]
    refine ⟨_, s.node.forwardTargets sender block, rfl, s.node.nodup_forwardTargets sender block,
      fun peer ↦ ?_⟩
    rw [Node.mem_forwardTargets, eq_self_iff_true, true_and]

/-- Forwarding a block and linking it passes it on. -/
theorem passedOn_forward_link (sender : PeerId) (block : Block) (s : Seat) :
    PassedOn s sender block ((do
      let forwarded ← forward sender block
      let linked ← linkAnnounced block
      return Propagation.ofFlags forwarded linked).leaves s) := by
  obtain ⟨answer, peers, hforward, nodup, hpeers⟩ := exists_exec_forward_recipients sender block s
  have hleaves : (do
      let forwarded ← forward sender block
      let linked ← linkAnnounced block
      return Propagation.ofFlags forwarded linked : Step Seat Propagation).leaves s =
      (linkAnnounced block).leaves
        (s.withRegistry (s.node.registry.withBlock block peers)) := by
    rw [Step.leaves, Step.exec_bind_of_ok hforward, Step.exec_bind, Step.leaves]
    cases (linkAnnounced block).exec
        (s.withRegistry (s.node.registry.withBlock block peers)) with
    | mk outcome t => cases outcome <;> rfl
  obtain ⟨alarms, hlink⟩ := exists_node_leaves_linkAnnounced block
    (s.withRegistry (s.node.registry.withBlock block peers))
  rw [node_leaves_connect_withRegistry] at hlink
  rw [hleaves]
  exact ⟨⟨peers, nodup, hpeers, by rw [hlink]; rfl⟩, by rw [hlink], by rw [hlink]⟩

/-- Noting a hash changes nothing for the passing on of a block. -/
theorem PassedOn.of_withNoted {s t : Seat} {sender : PeerId} {block : Block} {hash : Digest}
    (h : PassedOn (s.withNoted hash) sender block t) : PassedOn s sender block t := by
  have hconnect : ((connect [block]).leaves (s.withNoted hash)).node =
      ((connect [block]).leaves s).node := by
    rw [node_leaves_connect, node_leaves_connect]
    rfl
  exact ⟨h.sent, h.chain.trans (congrArg Node.chain hconnect),
    h.laterFailure.trans (congrArg Node.laterFailure hconnect)⟩

/-- A block that a peer announces is to be passed on: its header is accepted, its hash is not noted,
and it extends the best block. -/
structure Wants (s : Seat) (block : Block) : Prop where
  /-- The header is accepted. -/
  accepted : s.node.accepts block.header = true
  /-- The hash is not noted. -/
  unseen : block.hash ∉ s.engine.announced.keys
  /-- The block extends the best one. -/
  next : s.node.extendsBest block = .ok true

/-- A block that is to be passed on is. -/
theorem Wants.passedOn {s : Seat} {block : Block} (h : s.Wants block) (sender : PeerId) :
    PassedOn s sender block (s.hear (.receive sender block)) := by
  have hcontains : ¬ s.engine.announced.contains block.hash = true :=
    mt RecentSet.contains_iff.mp h.unseen
  rw [hear, Step.leaves, exec_receiveAnnounced, h.accepted, h.next,
    if_neg (Ne.symm Bool.false_ne_true), if_neg hcontains]
  exact (passedOn_forward_link sender block (s.withNoted block.hash)).of_withNoted

/-- A block that is not to be passed on leaves the node as it is. -/
theorem node_hear_of_not_wants {s : Seat} {block : Block} (h : ¬ s.Wants block)
    (sender : PeerId) : (s.hear (.receive sender block)).node = s.node := by
  rw [hear, Step.leaves, exec_receiveAnnounced]
  cases haccepts : s.node.accepts block.header with
  | false => rfl
  | true =>
    rw [if_neg (Ne.symm Bool.false_ne_true)]
    by_cases hseen : block.hash ∈ s.engine.announced.keys
    · rw [if_pos (RecentSet.contains_iff.mpr hseen)]
      rfl
    · rw [if_neg (mt RecentSet.contains_iff.mp hseen)]
      cases hnext : s.node.extendsBest block with
      | error e => rfl
      | ok next =>
        cases next with
        | false => rfl
        | true => exact absurd ⟨haccepts, hseen, hnext⟩ h

/-- Taking an announced block changes the node exactly when the block is to be passed on. -/
theorem node_hear_ne_iff {s : Seat} {sender : PeerId} {block : Block} :
    (s.hear (.receive sender block)).node ≠ s.node ↔ s.Wants block := by
  refine ⟨fun changed ↦ ?_, fun wants ↦ (wants.passedOn sender).node_ne⟩
  by_contra other
  exact changed (node_hear_of_not_wants other sender)

/-! ### Runs -/

def heard (s : Seat) (events : List Gossip) (count : Nat) : Seat :=
  (events.take count).foldl hear s

theorem heard_succ {s : Seat} {events : List Gossip} {i : Nat} {event : Gossip}
    (h : events[i]? = some event) : s.heard events (i + 1) = (s.heard events i).hear event :=
  foldl_take_succ h _ s

/-- The event with this index is a block with this hash that a peer announces, and taking it changes
the node. So it does if the block is sent to anybody or handed to the chain. -/
def PassesOn (s : Seat) (events : List Gossip) (i : Nat) (hash : Digest) : Prop :=
  ∃ sender block, events[i]? = some (.receive sender block) ∧ block.hash = hash ∧
    (s.heard events (i + 1)).node ≠ (s.heard events i).node

section

variable {s : Seat} {events : List Gossip} {i j : Nat} {hash : Digest}

/-- Once a hash is noted, and as long as there is room for all the hashes noted, it is noted. -/
theorem mem_announced_heard (fresh : s.engine.announced.keys = [])
    (room : (events.flatMap (Gossip.notedUnder s.node.accepts)).toFinset.card ≤
      s.engine.announced.capacity) (count : Nat) :
    hash ∈ (s.heard events count).engine.announced.keys ↔
      hash ∈ (events.take count).flatMap (Gossip.notedUnder s.node.accepts) := by
  have notes := notes_foldl_hear_under (events.take count) (s := s) rfl
  have hroom : ([] ++ (events.take count).flatMap
      (Gossip.notedUnder s.node.accepts)).toFinset.card ≤ s.engine.announced.capacity := by
    refine le_trans (Finset.card_le_card fun key hkey ↦ ?_) room
    rw [List.nil_append, List.mem_toFinset, List.mem_flatMap] at hkey
    obtain ⟨event, hevent, hnoted⟩ := hkey
    rw [List.mem_toFinset, List.mem_flatMap]
    exact ⟨event, List.mem_of_mem_take hevent, hnoted⟩
  have holds := (RecentSet.holds_nil fresh).insertAll hroom
  rw [← notes.announced, List.nil_append] at holds
  exact holds.mem_iff

theorem mem_flatMap_take {accepts : Header → Bool} {event : Gossip}
    (h : events[i]? = some event) (noted : hash ∈ event.notedUnder accepts) (lt : i < j) :
    hash ∈ (events.take j).flatMap (Gossip.notedUnder accepts) := by
  refine List.mem_flatMap.mpr ⟨event, List.mem_of_getElem? (i := i) ?_, noted⟩
  rw [List.getElem?_take_of_lt lt, h]

/-- The block of an event that changes the node is to be passed on at that time. -/
theorem PassesOn.wants (h : s.PassesOn events i hash) :
    ∃ sender block, events[i]? = some (.receive sender block) ∧ block.hash = hash ∧
      (s.heard events i).Wants block := by
  obtain ⟨sender, block, hevent, hhash, changed⟩ := h
  rw [heard_succ hevent] at changed
  exact ⟨sender, block, hevent, hhash, node_hear_ne_iff.mp changed⟩

/-- A hash that an earlier event noted is not passed on. -/
theorem PassesOn.le_of_noted (fresh : s.engine.announced.keys = [])
    (room : (events.flatMap (Gossip.notedUnder s.node.accepts)).toFinset.card ≤
      s.engine.announced.capacity) (h : s.PassesOn events j hash) {event : Gossip}
    (hevent : events[i]? = some event) (noted : hash ∈ event.notedUnder s.node.accepts) :
    j ≤ i := by
  obtain ⟨sender, block, -, rfl, wants⟩ := h.wants
  by_contra later
  exact wants.unseen ((mem_announced_heard fresh room j).mpr
    (mem_flatMap_take hevent noted (Nat.lt_of_not_le later)))

/-- A block that is passed on notes its hash. -/
theorem PassesOn.exists_noted (h : s.PassesOn events i hash) :
    ∃ event, events[i]? = some event ∧ hash ∈ event.notedUnder s.node.accepts := by
  obtain ⟨sender, block, hevent, rfl, wants⟩ := h.wants
  have rule : (s.heard events i).node.accepts = s.node.accepts :=
    (notes_foldl_hear_under (events.take i) rfl).accepts
  refine ⟨_, hevent, ?_⟩
  rw [Gossip.notedUnder, if_pos (rule ▸ wants.accepted)]
  exact List.mem_singleton_self _

end

/-- An engine that noted no hash takes announced blocks, whatever else happens in between, and
there is room for all the hashes that are noted. Then of all the blocks with one hash that peers
announce, one at most is sent to anybody or handed to the chain, and none after a block with the
hash was announced here. A block is passed on exactly when its header is accepted, no earlier block
with its hash was announced here or came with an accepted header, and it extends the best block.
It goes once to each connected peer but the sender that does not advertise more than it, and to
nobody if nothing is forwarded here, and it is handed to the chain. -/
theorem passedOn_at_most_once {s : Seat} (fresh : s.engine.announced.keys = [])
    (events : List Gossip)
    (room : (events.flatMap (Gossip.notedUnder s.node.accepts)).toFinset.card ≤
      s.engine.announced.capacity) :
    (∀ i j hash, s.PassesOn events i hash → s.PassesOn events j hash → i = j) ∧
    (∀ i j block, events[i]? = some (.announce block) → s.PassesOn events j block.hash →
      j < i) ∧
    ∀ i sender block, events[i]? = some (.receive sender block) →
      (s.PassesOn events i block.hash ↔ s.node.accepts block.header = true ∧
        block.hash ∉ (events.take i).flatMap (Gossip.notedUnder s.node.accepts) ∧
        (s.heard events i).node.extendsBest block = .ok true) ∧
      (s.PassesOn events i block.hash →
        PassedOn (s.heard events i) sender block (s.heard events (i + 1))) := by
  refine ⟨fun i j hash hi hj ↦ ?_, fun i j block hannounced hj ↦ ?_,
    fun i sender block hevent ↦ ?_⟩
  · obtain ⟨event, hevent, noted⟩ := hi.exists_noted
    obtain ⟨event', hevent', noted'⟩ := hj.exists_noted
    exact le_antisymm (hi.le_of_noted fresh room hevent' noted')
      (hj.le_of_noted fresh room hevent noted)
  · have hle := hj.le_of_noted fresh room hannounced (List.mem_singleton_self _)
    obtain ⟨sender, block', hreceived, -⟩ := hj
    refine lt_of_le_of_ne hle ?_
    rintro rfl
    rw [hannounced] at hreceived
    cases hreceived
  · have rule : (s.heard events i).node.accepts = s.node.accepts :=
      (notes_foldl_hear_under (events.take i) rfl).accepts
    have hpasses : s.PassesOn events i block.hash ↔ (s.heard events i).Wants block := by
      have hchanged := @node_hear_ne_iff (s.heard events i) sender block
      rw [← heard_succ hevent] at hchanged
      rw [← hchanged]
      refine ⟨?_, fun changed ↦ ⟨sender, block, hevent, rfl, changed⟩⟩
      rintro ⟨-, -, -, -, changed⟩
      exact changed
    rw [hpasses]
    refine ⟨⟨fun wants ↦ ⟨rule ▸ wants.accepted,
      fun hmem ↦ wants.unseen ((mem_announced_heard fresh room i).mpr hmem), wants.next⟩, ?_⟩,
      fun wants ↦ ?_⟩
    · rintro ⟨accepted, hnew, next⟩
      exact ⟨rule.symm ▸ accepted, fun hmem ↦ hnew ((mem_announced_heard fresh room i).mp hmem),
        next⟩
    · rw [heard_succ hevent]
      exact wants.passedOn sender

def twoPeers : Registry :=
  (Registry.empty.upsert (.ofNat 3) ⟨0, 0, "three"⟩).upsert (.ofNat 4) ⟨0, 0, "four"⟩

/-- Two peers announce the same child of the first block. It is passed on when it comes from the
first of them, to the other one, and never after. -/
theorem exists_passedOn_of_two_announcements :
    ∃ c, Chain.new .genesis = .ok c ∧
      let s := (genesisSeat c).withRegistry twoPeers
      let events : List Gossip := [.receive (.ofNat 3) (sprout 0), .receive (.ofNat 4) (sprout 0)]
      s.engine.announced.keys = [] ∧
      (events.flatMap (Gossip.notedUnder s.node.accepts)).toFinset.card ≤
        s.engine.announced.capacity ∧
      s.IsRecipient (.ofNat 3) (sprout 0) (.ofNat 4) ∧
      PassedOn s (.ofNat 3) (sprout 0) (s.heard events 1) ∧
      ∀ j, s.PassesOn events j (sprout 0).hash ↔ j = 0 := by
  obtain ⟨c, hnew, hnext⟩ := exists_genesis_of_any (fun c ↦
    decide (c.bestNumber = 0 ∧ c.bestBlock.hash = (sprout 0).parent)) (by decide +kernel)
  let s := (genesisSeat c).withRegistry twoPeers
  let events : List Gossip := [.receive (.ofNat 3) (sprout 0), .receive (.ofNat 4) (sprout 0)]
  have next : s.node.extendsBest (sprout 0) = .ok true := by
    obtain ⟨hnumber, hparent⟩ := of_decide_eq_true hnext
    have hone : (sprout 0).number = 1 := rfl
    change (checkedAdd c.bestNumber 1 >>= fun next ↦ _) = _
    rw [hnumber]
    change Except.ok (decide ((sprout 0).number = 1) &&
      decide ((sprout 0).parent = c.bestBlock.hash)) = _
    rw [hparent, decide_eq_true hone, decide_eq_true rfl]
    rfl
  have room : (events.flatMap (Gossip.notedUnder s.node.accepts)).toFinset.card ≤
      s.engine.announced.capacity := by
    change (events.flatMap (Gossip.notedUnder Header.isAcceptable)).toFinset.card ≤
      RecentSet.capacity (.empty _)
    decide +kernel
  obtain ⟨once, -, passed⟩ := passedOn_at_most_once (s := s) rfl events room
  obtain ⟨hiff, hpassed⟩ := passed 0 (.ofNat 3) (sprout 0) rfl
  have accepted : (sprout 0).header.isAcceptable = true := by decide +kernel
  have first : s.PassesOn events 0 (sprout 0).hash :=
    hiff.mpr ⟨accepted, List.not_mem_nil, next⟩
  have other : PeerId.ofNat 4 ≠ .ofNat 3 := by decide +kernel
  refine ⟨c, hnew, rfl, room, ⟨rfl, other, ⟨0, 0, "four"⟩, ?_, by decide⟩, hpassed first,
    fun j ↦ ⟨fun hj ↦ once j 0 _ hj first, ?_⟩⟩
  · exact Std.ExtTreeMap.getElem?_insert_self
  · rintro rfl
    exact first

end Seat
end ChainSync
